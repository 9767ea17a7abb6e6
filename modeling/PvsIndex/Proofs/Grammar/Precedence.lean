import PvsIndex.Proofs.Grammar.Greedy

/-! How tightly operators bind, and what it means that a tree is grouped accordingly. -/

namespace PvsIndex

namespace TokenKind

/-- How tightly an operator between operands binds. -/
def binaryLevel? : TokenKind → Option Nat
  | iffKw | equivalence => some 1
  | impliesKw | implication => some 2
  | orKw | disjunction => some 3
  | andKw | ampersand | conjunction => some 4
  | equal | notEqual | less | lessEqual | greater | greaterEqual => some 6
  | plus | minus => some 7
  | star | slash => some 8
  | _ => none

/-- How tightly an operator before an operand binds. -/
def unaryLevel? : TokenKind → Option Nat
  | notKw | tilde => some 5
  | minus => some 9
  | _ => none

end TokenKind

namespace Tree

def level : Tree → Nat
  | node .binaryExpr [_, leaf op, _] => op.kind.binaryLevel?.getD 0
  | node .unaryExpr [leaf op, _] => op.kind.unaryLevel?.getD 0
  | node .callExpr _ => 10
  | _ => 11

mutual

/-- Whether the expression is the body of a binder in the end: it is one, or its last operand is
such an expression. -/
def trails : Tree → Bool
  | node .binderExpr _ | node .letExpr _ => true
  | node .binaryExpr children | node .unaryExpr children => trailsOf children
  | _ => false

def trailsOf : List Tree → Bool
  | [] => false
  | [t] => t.trails
  | _ :: ts => trailsOf ts

end

def ending (t : Tree) : Ending :=
  if t.trails then .opened else .closed

end Tree

namespace Element

/-- The operands of the element are bound more tightly than the element, to the left at least as
tightly. Where more follows, no binder is left open. -/
def Grouped (e : Element) : Prop :=
  match e.kind with
  | .binaryExpr => ∃ left op right k, e.children = [left, .leaf op, right] ∧
      left.element?.isSome = true ∧ right.element?.isSome = true ∧ op.kind.binaryLevel? = some k ∧
      k ≤ left.level ∧ k < right.level ∧ left.trails = false
  | .unaryExpr => ∃ op operand k, e.children = [.leaf op, operand] ∧
      operand.element?.isSome = true ∧ op.kind.unaryLevel? = some k ∧ k ≤ operand.level
  | .callExpr => ∃ callee arguments, e.children = callee :: arguments ∧
      callee.element?.isSome = true ∧ 10 ≤ callee.level ∧ callee.trails = false
  | _ => True

end Element

namespace Element.Grouped

variable {l r e f : Tree} {op : Token} {arguments : List Tree}

theorem binary (h : Grouped ⟨.binaryExpr, [l, .leaf op, r]⟩) : ∃ k,
    op.kind.binaryLevel? = some k ∧ k ≤ l.level ∧ k < r.level ∧ l.trails = false := by
  obtain ⟨_, _, _, k, ⟨⟩, -, -, h⟩ := h
  exact ⟨k, h⟩

theorem unary (h : Grouped ⟨.unaryExpr, [.leaf op, e]⟩) :
    ∃ k, op.kind.unaryLevel? = some k ∧ k ≤ e.level := by
  obtain ⟨_, _, k, ⟨⟩, -, h⟩ := h
  exact ⟨k, h⟩

theorem call (h : Grouped ⟨.callExpr, f :: arguments⟩) : 10 ≤ f.level ∧ f.trails = false := by
  obtain ⟨_, _, ⟨⟩, -, h⟩ := h
  exact h

end Element.Grouped

/-- All elements of the tree are grouped. -/
inductive Tree.Grouped : Tree → Prop where
  | leaf {t} : Grouped (leaf t)
  | node {kind children} (here : Element.Grouped ⟨kind, children⟩)
      (inner : ∀ c ∈ children, c.Grouped) : Grouped (node kind children)

theorem Tree.Grouped.binary {l r : Tree} {op : Token} {k : Nat} (hl : l.Grouped) (hr : r.Grouped)
    (helement : l.element?.isSome = true ∧ r.element?.isSome = true)
    (hop : op.kind.binaryLevel? = some k) (hle : k ≤ l.level) (hlt : k < r.level)
    (hclosed : l.trails = false) : (Tree.node .binaryExpr [l, .leaf op, r]).Grouped := by
  refine .node ⟨l, op, r, k, rfl, helement.1, helement.2, hop, hle, hlt, hclosed⟩ ?_
  simp only [List.forall_mem_cons]
  exact ⟨hl, .leaf, hr, List.forall_mem_nil _⟩

namespace Grammar

/-- The level of the loosest operators of the layers, the last ones of all. -/
def floor (layers : List Layer) : Nat :=
  10 - layers.length

theorem floor_cons {layer : Layer} {ls : List Layer} (h : layer :: ls <:+ layers) :
    floor ls = floor (layer :: ls) + 1 := by
  have hle : (layer :: ls).length ≤ 9 := h.length_le
  simp only [floor, List.length_cons] at hle ⊢
  omega

/-- The operators of the first layer are those of its level, between operands or before one. -/
def Levelled (ls : List Layer) : Prop :=
  match ls with
  | [] => ∀ op ∈ TokenKind.all, op.binaryLevel? ≠ some (floor ls) ∧ op.unaryLevel? ≠ some (floor ls)
  | .binary operators :: _ => ∀ op ∈ TokenKind.all,
      (op ∈ operators ↔ op.binaryLevel? = some (floor ls)) ∧ op.unaryLevel? ≠ some (floor ls)
  | .unary operators :: _ => ∀ op ∈ TokenKind.all,
      (op ∈ operators ↔ op.unaryLevel? = some (floor ls)) ∧ op.binaryLevel? ≠ some (floor ls)

instance (ls : List Layer) : Decidable (Levelled ls) :=
  match ls with
  | [] => inferInstanceAs (Decidable (∀ op ∈ TokenKind.all, _))
  | .binary _ :: _ => inferInstanceAs (Decidable (∀ op ∈ TokenKind.all, _))
  | .unary _ :: _ => inferInstanceAs (Decidable (∀ op ∈ TokenKind.all, _))

theorem levelled {ls : List Layer} (h : ls <:+ layers) : Levelled ls := by
  have check : ∀ ls ∈ layers.tails, Levelled ls := by decide +kernel
  exact check ls ((List.mem_tails _ _).mpr h)

theorem mem_binary_iff {operators : List TokenKind} {ls : List Layer} {op : TokenKind}
    (h : .binary operators :: ls <:+ layers) :
    op ∈ operators ↔ op.binaryLevel? = some (floor (.binary operators :: ls)) :=
  (levelled h op (TokenKind.mem_all op)).1

theorem mem_unary_iff {operators : List TokenKind} {ls : List Layer} {op : TokenKind}
    (h : .unary operators :: ls <:+ layers) :
    op ∈ operators ↔ op.unaryLevel? = some (floor (.unary operators :: ls)) :=
  (levelled h op (TokenKind.mem_all op)).1

end Grammar

namespace Tree

variable {op : Token} {l r e : Tree}

theorem level_binary {k : Nat} (h : op.kind.binaryLevel? = some k) :
    (node .binaryExpr [l, leaf op, r]).level = k := by
  rw [level, h]
  rfl

theorem level_unary {k : Nat} (h : op.kind.unaryLevel? = some k) :
    (node .unaryExpr [leaf op, e]).level = k := by
  rw [level, h]
  rfl

end Tree

/-- The first of the cases that names the kind. -/
def Rule.selected (default : Rule) (kind : TokenKind) : List (List TokenKind × Rule) → Rule
  | [] => default
  | (kinds, rule) :: cases => if kinds.contains kind then rule else selected default kind cases

theorem Parses.switch_iff {default : Rule} {cases : List (List TokenKind × Rule)}
    {input rest : List Token} {trees : List Tree} :
    Parses (.rule (.switch default cases)) input trees rest ↔
      Parses (.rule (.selected default (nextKind input) cases)) input trees rest := by
  induction cases with
  | nil => exact Iff.rfl
  | cons c cases ih =>
    unfold Rule.selected Rule.switch
    split_ifs with hc
    · constructor
      · intro h
        cases h with
        | yes _ _ h => exact h
        | no _ ht => exact absurd (hc.symm.trans ht) nofun
      · exact .yes trivial hc
    · rw [← ih]
      constructor
      · intro h
        cases h with
        | yes _ ht => exact absurd ht hc
        | no _ _ h => exact h
      · exact .no trivial (Bool.eq_false_iff.mpr hc)

end PvsIndex
