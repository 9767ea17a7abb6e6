import PvsIndex.Declaration.Recording
import PvsIndex.Declaration.Scoped
import PvsIndex.Diagnostic.Basic
import PvsIndex.Grammar.Parse

/-! The analysis of a text: its tree, its diagnostics and, if there are none, its declarations. -/

namespace PvsIndex

namespace Parse

def diagnostics (p : Parse) : List Diagnostic :=
  p.errors.map fun e => e.report.diagnostic

/-- The declarations of the tree, whether there are errors or not. -/
def recording (p : Parse) (dumping : Bool) : Except Fault Recording :=
  Recording.ofTree p.source dumping p.tree

end Parse

structure Analysis where
  parse : Parse
  recording : Recording

namespace Analysis

def ofText (source : String) (dumping : Bool) : Except Fault Analysis := do
  let parse := Parse.ofText source
  let recording ← if parse.errors.isEmpty then parse.recording dumping else .ok {}
  return ⟨parse, recording⟩

def diagnostics (a : Analysis) : List Diagnostic :=
  a.parse.diagnostics

def table (a : Analysis) : Table :=
  a.recording.table

def dumps (a : Analysis) : List String :=
  a.recording.dumps.toList

def succeeded (a : Analysis) : Bool :=
  a.diagnostics.isEmpty

end Analysis

end PvsIndex
