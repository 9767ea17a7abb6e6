import Mathlib.Data.List.Infix
import PvsIndex.Proofs.Grammar.Reading

/-! Which rules yield one element, and where they ask for more than the next two tokens. -/

namespace PvsIndex

def Lookahead.near : Lookahead → Bool
  | declares _ => false
  | _ => true

theorem Lookahead.proper_of_near {test : Lookahead} (h : test.near = true) (input : List Token) :
    test.Proper input := by
  cases test with
  | declares kind => cases h
  | _ => trivial

namespace Rule

/-- The rule reads one element or nothing, and says which. -/
def single : Rule → Bool
  | empty | report _ | node _ _ | nodeBy _ _ _ _ _ | .call _ => true
  | take | skip | seq _ _ | loop _ _ => false
  | branch _ yes no => yes.single && no.single
  | chain _ head _ _ => head.single

/-- Chains begin with one element or nothing, and only branches ask which declaration begins. -/
def orderly : Rule → Bool
  | empty | take | skip | report _ | .call _ => true
  | seq first second => first.orderly && second.orderly
  | branch _ yes no => yes.orderly && no.orderly
  | loop test body => test.near && body.orderly
  | node _ body => body.orderly
  | nodeBy opening test _ _ closing => test.near && (opening.orderly && closing.orderly)
  | chain _ head test tail => head.single && test.near && (head.orderly && tail.orderly)

end Rule

theorem Nonterminal.single_orderly {name : Nonterminal} (h : name.Known) :
    name.rule.single = true ∧ name.rule.orderly = true := by
  have layered : ∀ layers ∈ Grammar.layers.tails,
      (Grammar.layered layers).single = true ∧ (Grammar.layered layers).orderly = true := by decide
  have type : Grammar.typeExpression.single = true ∧ Grammar.typeExpression.orderly = true := by
    decide
  cases name with
  | text => exact h.elim
  | type => exact type
  | expression layers => exact layered layers ((List.mem_tails _ _).mpr h)

theorem Grammar.theories_orderly : theories.orderly = true := by
  decide

end PvsIndex
