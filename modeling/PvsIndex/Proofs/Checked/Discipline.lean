import PvsIndex.Proofs.Checked.Following

/-! States of a parser of a text, and what it means that the parser only builds on top of what it
has built: the nodes on the stack stay where they lie, with the elements that they stand for, and an
element that is named is the one node that was added. -/

namespace PvsIndex

/-- An element that is built of the children on top of the forest: where it lies, and its number. -/
abbrev Checked.Completed.built (forest children : List Tree) : Completed :=
  ⟨forest.length, Tree.countOf forest + Tree.countOf children⟩

namespace Checked.Parser

open PvsIndex.Tree

/-- A state of a parser of the text: any trees were built, any tokens are left, any errors were
reported, and it recovers or does not. -/
def OfText (text : String) (p : Parser) : Prop :=
  ∃ (forest : List Tree) (c : Cursor) (errors : List SyntaxError),
    c.input <:+ (Tokens.ofText text).significant ∧ p = after text forest c errors

/-- What was built, passed and reported is as it was; the rest comes after it. -/
structure Keeps (p q : Parser) : Prop where
  tokens : q.tokens = p.tokens
  significant : q.significant = p.significant
  current : p.current ≤ q.current
  stack : p.stack <+: q.stack
  cells : p.cells <+: q.cells
  errors : p.errors <+: q.errors

/-- The latest node is the element that was completed, and the others lie below its depth. -/
structure Tops (p : Parser) (below : List Node) (done : Completed) : Prop where
  stack : p.stack = below ++ [.element done.element]
  depth : done.depth = below.length

/-- Tokens were passed, and the one new node is the element that was completed last. -/
structure Yields (p : Parser) (done : Completed) (q : Parser) : Prop extends p.Keeps q where
  progress : p.current < q.current
  top : q.Tops p.stack done
  last : done.element + 1 = q.cells.length

variable {text : String} {forest trees children : List Tree} {c d : Cursor}
  {errors more : List SyntaxError} {p q : Parser} {e : Option Completed}

theorem ofText_after (hc : c.input <:+ (Tokens.ofText text).significant) :
    (after text forest c errors).OfText text :=
  ⟨forest, c, errors, hc, rfl⟩

theorem keeps_after (h : d.input <:+ c.input) :
    (after text forest c errors).Keeps (after text (forest ++ trees) d (errors ++ more)) where
  tokens := rfl
  significant := rfl
  current := Nat.sub_le_sub_left h.length_le _
  stack := by simp [after, nodesAt_append]
  cells := by simp [after, cellsOf_append]
  errors := List.prefix_append _ _

theorem tops_after (kind : ElementKind) : (after text (forest ++ [.node kind children]) c
    errors).Tops (nodesAt (Tokens.ofText text).id 0 forest) (.built forest children) where
  stack := by simp [after, nodesAt_append, nodeAt]
  depth := by simp

/-- Trees are built on the forest, tokens are passed, errors are added. An element that is named is
the only tree. -/
def Extends (text : String) (forest : List Tree) (c : Cursor) (errors : List SyntaxError)
    (e : Option Completed) (q : Parser) : Prop :=
  ∃ (trees : List Tree) (d : Cursor) (more : List SyntaxError), d.input <:+ c.input ∧
    q = after text (forest ++ trees) d (errors ++ more) ∧
    ∀ done, e = some done → Marks forest trees (some done)

theorem extends_none (h : d.input <:+ c.input) :
    Extends text forest c errors none (after text (forest ++ trees) d (errors ++ more)) :=
  ⟨trees, d, more, h, rfl, fun _ h => by cases h⟩

theorem extends_built (h : d.input <:+ c.input) :
    Extends text forest c errors none (after text (forest ++ trees) d errors) := by
  have hx := @extends_none text forest trees c d errors [] h
  rwa [List.append_nil] at hx

theorem extends_rfl : Extends text forest c errors none (after text forest c errors) := by
  have hx := @extends_built text forest [] c c errors List.suffix_rfl
  rwa [List.append_nil] at hx

theorem extends_node (kind : ElementKind) (h : d.input <:+ c.input) :
    Extends text forest c errors (some (.built forest trees))
      (after text (forest ++ [.node kind trees]) d (errors ++ more)) := by
  refine ⟨[.node kind trees], d, more, h, rfl, fun _ he => ?_⟩
  cases he
  exact ⟨kind, trees, rfl, rfl⟩

/-- Where nothing is named, one extension after another is an extension. -/
theorem Extends.trans (h : d.input <:+ c.input)
    (hx : Extends text (forest ++ trees) d (errors ++ more) e q) :
    Extends text forest c errors none q := by
  obtain ⟨next, last, later, hd, rfl, -⟩ := hx
  rw [List.append_assoc, List.append_assoc]
  exact extends_none (hd.trans h)

theorem Extends.later (h : d.input <:+ c.input)
    (hx : Extends text forest d (errors ++ more) e q) : Extends text forest c errors e q := by
  obtain ⟨trees, last, later, hd, rfl, hm⟩ := hx
  exact ⟨trees, last, more ++ later, hd.trans h, by rw [List.append_assoc], hm⟩

theorem Extends.ofText (hc : c.input <:+ (Tokens.ofText text).significant)
    (h : Extends text forest c errors e q) : q.OfText text := by
  obtain ⟨trees, d, more, hd, rfl, -⟩ := h
  exact ofText_after (hd.trans hc)

theorem Extends.keeps (h : Extends text forest c errors e q) :
    (after text forest c errors).Keeps q := by
  obtain ⟨trees, d, more, hd, rfl, -⟩ := h
  exact keeps_after hd

theorem Extends.tops {done : Completed} (h : Extends text forest c errors (some done) q) :
    q.Tops (after text forest c errors).stack done := by
  obtain ⟨trees, d, more, -, rfl, hm⟩ := h
  obtain ⟨kind, children, rfl, rfl⟩ := hm done rfl
  exact tops_after kind

section

variable (hc : c.input <:+ (Tokens.ofText text).significant)

include hc

theorem bump_eof (h : nextKind c.input = .eof) :
    (after text forest c errors).bump = throw .takesEnd := by
  have hadvance : (after text forest c errors).bump =
      (after text forest ⟨c.input, false⟩ errors).advance := rfl
  have hnext := @next_after text forest ⟨c.input, false⟩ errors hc
  have hend : ¬ nextKind c.input ≠ .eof := not_not.mpr h
  rw [hadvance, advance, hnext, pure_bind, require, if_neg hend]
  rfl

theorem bump_extends (h : nextKind c.input ≠ .eof) : ∃ q,
    (after text forest c errors).bump = pure q ∧ Extends text forest c errors none q := by
  have hsuffix := (@Reads.take (Tokens.ofText text).endOfText c h).input_suffix
  exact ⟨_, bump_after hc h, extends_built hsuffix⟩

theorem skip_extends : ∃ q,
    (after text forest c errors).skip = pure q ∧ Extends text forest c errors none q := by
  have hsuffix := (@Reads.skip (Tokens.ofText text).endOfText c).input_suffix
  exact ⟨_, skip_after hc, extends_built hsuffix⟩

theorem report_extends (complaint : Complaint) : ∃ q,
    (after text forest c errors).report complaint = pure q ∧
      Extends text forest c errors none q := by
  have hsuffix := (@Reads.report (Tokens.ofText text).endOfText c complaint).input_suffix
  have hx := @extends_none text forest [] c _ errors
    (c.report (Tokens.ofText text).endOfText complaint).errors hsuffix
  rw [List.append_nil] at hx
  exact ⟨_, report_after hc complaint, hx⟩

end

/-- States that the operations of a parser lead to from the first one, in any order. -/
inductive Reached (text : String) : Parser → Prop
  | start {p : Parser} (h : ofTokens (Tokens.ofText text).toList = pure p) : Reached text p
  | bump {p q : Parser} (before : Reached text p) (h : p.bump = pure q) : Reached text q
  | skip {p q : Parser} (before : Reached text p) (h : p.skip = pure q) : Reached text q
  | report {p q : Parser} {complaint : Complaint} (before : Reached text p)
      (h : p.report complaint = pure q) : Reached text q
  | endElement {p q : Parser} {kind : ElementKind} {start : Nat} {done : Completed}
      (before : Reached text p) (h : p.endElement kind start = pure (done, q)) : Reached text q

theorem OfText.endElement {kind : ElementKind} {start : Nat} {done : Completed}
    (hp : p.OfText text) (h : p.endElement kind start = pure (done, q)) : q.OfText text := by
  obtain ⟨forest, c, errors, hc, rfl⟩ := hp
  have hle : start ≤ forest.length := by
    by_contra hlt
    have hstack : ¬ start ≤ (after text forest c errors).stack.length := by
      simpa [after] using hlt
    rw [Parser.endElement, require, if_neg hstack] at h
    cases h
  have hsplit := @endElement_after text (forest.take start) (forest.drop start) c errors kind
  rw [List.take_append_drop, List.length_take_of_le hle, h] at hsplit
  obtain ⟨-, rfl⟩ := Prod.mk.inj (pure_inj hsplit)
  exact ofText_after hc

/-- Every state that the operations lead to is a state of a parser of the text. -/
theorem Reached.ofText (h : Reached text p) : p.OfText text := by
  induction h with
  | start h =>
    rw [ofTokens_eq] at h
    exact pure_inj h ▸ ofText_after List.suffix_rfl
  | bump _ h ih =>
    obtain ⟨forest, c, errors, hc, rfl⟩ := ih
    have hkind : nextKind c.input ≠ .eof := by
      intro hend
      rw [bump_eof hc hend] at h
      cases h
    obtain ⟨q, hq, hx⟩ := @bump_extends text forest c errors hc hkind
    exact pure_inj (hq.symm.trans h) ▸ hx.ofText hc
  | skip _ h ih =>
    obtain ⟨forest, c, errors, hc, rfl⟩ := ih
    obtain ⟨q, hq, hx⟩ := @skip_extends text forest c errors hc
    exact pure_inj (hq.symm.trans h) ▸ hx.ofText hc
  | @report _ _ complaint _ h ih =>
    obtain ⟨forest, c, errors, hc, rfl⟩ := ih
    obtain ⟨q, hq, hx⟩ := @report_extends text forest c errors hc complaint
    exact pure_inj (hq.symm.trans h) ▸ hx.ofText hc
  | endElement _ h ih => exact ih.endElement h

end Checked.Parser

end PvsIndex
