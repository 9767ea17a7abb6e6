import PvsIndex.Diagnostic.Basic

/-! Listeners that hear of every syntax error, as often as they are registered. -/

namespace PvsIndex

/-- Listeners are numbered as they are made. -/
structure Audience where
  made : Nat := 0
  registered : Array Nat := #[]

namespace Audience

/-- A new listener, registered. -/
def welcome (a : Audience) : Audience :=
  ⟨a.made + 1, a.registered.push a.made⟩

def register (a : Audience) (listener : Nat) : Audience :=
  { a with registered := a.registered.push listener }

def dismissAll (a : Audience) : Audience :=
  { a with registered := #[] }

/-- What is said, in order, and to whom: each report to every registration before the next. -/
def deliveries (a : Audience) (reports : List Report) : List (Nat × Report) :=
  reports.flatMap fun r => a.registered.toList.map (·, r)

def heard (a : Audience) (reports : List Report) (listener : Nat) : List Report :=
  (a.deliveries reports).filterMap fun (hearer, r) => if hearer = listener then some r else none

end Audience

end PvsIndex
