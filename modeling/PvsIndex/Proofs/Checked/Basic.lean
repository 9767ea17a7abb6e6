import Mathlib.Tactic.Common
import PvsIndex.Source.Range

/-! Work that may run into a check that fails, and that may never come to an end. -/

namespace PvsIndex

/-- What the checks on the way of an analysis find. -/
inductive Breach where
  /-- A text is cut inside a character, or past its end. -/
  | cut
  /-- The place reached in a text lies before the last token, or past the end. -/
  | astray
  /-- More of a text is passed over than there is. -/
  | pastEnd
  /-- A lexeme does not begin as it must. -/
  | wrongStart
  /-- The tokens do not cover the text, or do not end with its end. -/
  | uncovered
  | reversedRange
  | outOfBounds
  /-- The end of the text is taken for a token of it. -/
  | takesEnd
  /-- A declaration is told apart where no name begins. -/
  | notAtName
  /-- The element that is to become a first child is not the last one that was built. -/
  | misplacedChild
  | stackUnderflow
  | secondParent
  | leftOver
  | reversedTokens
  | nameless
  | emptyName
  | scopeMissesName
  deriving DecidableEq

/-- Work that never ends yields nothing, not even a breach. -/
abbrev Checked :=
  ExceptT Breach Option

namespace Checked

def require (breach : Breach) (p : Prop) [Decidable p] : Checked Unit :=
  if p then pure () else throw breach

def demand {α : Type} (breach : Breach) : Option α → Checked α
  | some a => pure a
  | none => throw breach

variable {α β : Type} {breach : Breach}

theorem require_of {p : Prop} [Decidable p] (h : p) : require breach p = pure () :=
  if_pos h

@[simp] theorem demand_some (a : α) : demand breach (some a) = pure a :=
  rfl

theorem demand_of {o : Option α} {a : α} (h : o = some a) : demand breach o = pure a := by
  rw [h, demand_some]

theorem pure_inj {a b : α} (h : (pure a : Checked α) = pure b) : a = b :=
  Except.ok.inj (Option.some.inj h)

end Checked

def Range.checked (start stop : Position) : Checked Range := do
  Checked.require .reversedRange (start ≤ stop)
  return ⟨start, stop⟩

theorem Range.checked_of {start stop : Position} (h : start ≤ stop) :
    Range.checked start stop = pure ⟨start, stop⟩ := by
  rw [checked, Checked.require_of h, pure_bind]

end PvsIndex
