import Mathlib.Data.List.Infix
import PvsIndex.Proofs.Grammar.Reading

/-! A check that a rule comes to an end: it accepts tokens only where it has seen that there is one,
each turn of a loop reads a token, and named rules are entered only after a token has been read. -/

namespace PvsIndex

deriving instance DecidableEq for Layer, Nonterminal

instance (name : Nonterminal) : Decidable name.Known := by
  cases name <;> unfold Nonterminal.Known <;> infer_instance

/-- What is known at some place of a rule: the tokens ahead, and whether one was read before. -/
structure Flow where
  ahead : Ahead
  moved : Bool
  deriving DecidableEq

namespace Flow

/-- Nothing leads here. -/
def Dead (f : Flow) : Prop :=
  f.ahead.next = []

instance (f : Flow) : Decidable f.Dead :=
  inferInstanceAs (Decidable (_ = _))

/-- What is known where two ways meet. -/
def meet (f g : Flow) : Flow :=
  if f.Dead then g
  else if g.Dead then f
  else ⟨if f.ahead = g.ahead then f.ahead else .anything, f.moved && g.moved⟩

/-- A way that cannot be taken needs no check. -/
def through (f : Flow) (check : Flow → Option Flow) : Option Flow :=
  if f.Dead then some f else check f

/-- Which declaration begins is asked only where a name is known to follow. -/
def Asks (f : Flow) : Lookahead → Prop
  | .declares _ => f.ahead.next = [.identifier]
  | _ => True

instance (f : Flow) (test : Lookahead) : Decidable (f.Asks test) :=
  match test with
  | .declares _ => inferInstanceAs (Decidable (_ = _))
  | .next _ => inferInstanceAs (Decidable True)
  | .past _ => inferInstanceAs (Decidable True)
  | .pair _ _ => inferInstanceAs (Decidable True)
  | .beyond _ => inferInstanceAs (Decidable True)

/-- After a turn that starts with the test, a token has been read. -/
def Turns (test : Lookahead) (check : Flow → Option Flow) : Prop :=
  ∃ f ∈ (⟨Ahead.anything.yes test, false⟩ : Flow).through check, f.Dead ∨ f.moved = true

instance (test : Lookahead) (check : Flow → Option Flow) : Decidable (Turns test check) :=
  inferInstanceAs (Decidable (∃ f ∈ _, _))

/-- The knowledge is right, and what was said to be read is gone. -/
def Holds (f : Flow) (limit : Nat) (c : Cursor) : Prop :=
  f.ahead.Holds c.input ∧ c.input.length ≤ limit ∧ (f.moved = true → c.input.length < limit)

end Flow

/-- What is known after a rule, if its check succeeds. -/
def Rule.flow : Rule → Flow → Option Flow
  | empty, f => some f
  | take, f => if .eof ∈ f.ahead.next then none else some ⟨f.ahead.shift, true⟩
  | skip, f => some (if .eof ∈ f.ahead.next then ⟨.anything, f.moved⟩ else ⟨f.ahead.shift, true⟩)
  | report _, f => some f
  | seq first second, f => (first.flow f).bind second.flow
  | branch test yes no, f =>
    if f.Asks test then do
      let f1 ← Flow.through ⟨f.ahead.yes test, f.moved⟩ yes.flow
      let f2 ← Flow.through ⟨f.ahead.no test, f.moved⟩ no.flow
      return f1.meet f2
    else none
  | loop test body, f =>
    if Flow.Turns test body.flow then some ⟨Ahead.anything.no test, f.moved⟩ else none
  | node _ body, f => body.flow f
  | nodeBy opening _ _ _ closing, f => (opening.flow f).bind closing.flow
  | chain _ head test tail, f => do
    let f1 ← head.flow f
    if Flow.Turns test tail.flow then some ⟨.anything, f1.moved⟩ else none
  | .call name, f =>
    if f.moved = true ∧ name.Known ∧ f.ahead.next ⊆ name.starts then some ⟨.anything, true⟩
    else none

end PvsIndex
