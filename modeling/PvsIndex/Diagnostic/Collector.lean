import PvsIndex.Diagnostic.Basic

/-! Collecting diagnostics through handles. A handle serves the collector that it was made for,
and no later one. -/

namespace PvsIndex

/-- A series of collectors of which the last one is at work. -/
structure Collector where
  finished : Nat := 0
  /-- For every handle, how many collectors were finished when it was made. -/
  handles : Array Nat := #[0]
  gathered : Array Diagnostic := #[]

namespace Collector

def size (c : Collector) : Nat :=
  c.gathered.size

def isEmpty (c : Collector) : Bool :=
  c.gathered.isEmpty

def diagnostics (c : Collector) : List Diagnostic :=
  c.gathered.toList

def newHandle (c : Collector) : Collector :=
  { c with handles := c.handles.push c.finished }

/-- A copy of a handle serves the same collector. -/
def copyHandle (c : Collector) (handle : Nat) : Collector :=
  match c.handles[handle]? with
  | none => c
  | some served => { c with handles := c.handles.push served }

def gather (c : Collector) (handle : Nat) (d : Diagnostic) : Collector :=
  if c.handles[handle]? = some c.finished then { c with gathered := c.gathered.push d } else c

def report (c : Collector) (handle : Nat) (r : Report) : Except Fault Collector :=
  return c.gather handle (← r.checkedDiagnostic)

/-- Hands over what was gathered; a new collector takes the place of the old one. -/
def finish (c : Collector) : List Diagnostic × Collector :=
  (c.diagnostics, { c with finished := c.finished + 1, gathered := #[] })

end Collector

end PvsIndex
