import Mathlib.Data.List.Dedup
import Mathlib.Data.List.Infix
import PvsIndex.Proofs.Grammar.Flow
import PvsIndex.Proofs.Grammar.Form
import PvsIndex.Proofs.Grammar.Parsing

/-! The shape of trees: each rule has a form that its trees follow, and so have the children of each
element that it makes. -/

namespace PvsIndex

/-- What a child of an element is. -/
inductive Child where
  | leaf (kind : TokenKind)
  | node (kind : ElementKind)
  deriving DecidableEq

def Tree.child : Tree → Child
  | leaf t => .leaf t.kind
  | node kind _ => .node kind

/-- The kinds of the element that a named rule makes. -/
def Nonterminal.kinds : Nonterminal → List ElementKind
  | text => []
  | type => [.nameType, .functionType, .tupleType, .setType, .parenType]
  | expression _ =>
    [.numberExpr, .stringExpr, .trueExpr, .falseExpr, .nameExpr, .parenExpr, .callExpr,
      .unaryExpr, .binaryExpr, .ifExpr, .binderExpr, .letExpr]

namespace Rule

/-- What is known after a rule. -/
def after : Rule → Ahead → Ahead
  | take, a => a.shift
  | _, _ => .anything

/-- The trees that a rule makes, given what is known where it begins and what comes of a
complaint. -/
def form (refusal : Form Child) : Rule → Ahead → Form Child
  | empty, _ => .empty
  | take, a => .word (a.next.map .leaf)
  | skip, a => .alt (.word (a.next.map .leaf)) .empty
  | report _, _ => refusal
  | seq first second, a => (first.form refusal a).join (second.form refusal (first.after a))
  | branch test yes no, a =>
    ((a.yes test).allow (yes.form refusal (a.yes test))).either
      ((a.no test).allow (no.form refusal (a.no test)))
  | loop test body, _ => .star (body.form refusal (Ahead.anything.yes test))
  | node kind _, _ => .word [.node kind]
  | nodeBy _ _ yes no _, _ => .word [.node yes, .node no]
  | chain kind head _ _, a => (head.form refusal a).either (.word [.node kind])
  | .call x, _ => .word (x.kinds.map .node)

/-- The kinds of elements that a rule makes, with the forms of their children. -/
def forms (refusal : Form Child) : Rule → Ahead → List (ElementKind × Form Child)
  | seq first second, a => first.forms refusal a ++ second.forms refusal (first.after a)
  | branch test yes no, a =>
    (if (a.yes test).next = [] then [] else yes.forms refusal (a.yes test)) ++
      if (a.no test).next = [] then [] else no.forms refusal (a.no test)
  | loop test body, _ => body.forms refusal (Ahead.anything.yes test)
  | node kind body, a => (kind, body.form refusal a) :: body.forms refusal a
  | nodeBy opening _ yes no closing, a =>
    let children := (opening.form refusal a).join (closing.form refusal .anything)
    (yes, children) :: (no, children) ::
      (opening.forms refusal a ++ closing.forms refusal .anything)
  | chain kind head test tail, a =>
    (kind, ((head.form refusal a).either (.word [.node kind])).join
      (tail.form refusal (Ahead.anything.yes test))) ::
      (head.forms refusal a ∪ tail.forms refusal (Ahead.anything.yes test))
  | _, _ => []

end Rule

/-- The forms of all elements of a text. -/
def Grammar.forms (refusal : Form Child) : List (ElementKind × Form Child) :=
  (theories.forms refusal .anything ++ typeExpression.forms refusal (.ofNext typeStarts) ++
    layers.tails.flatMap fun ls =>
      (layered ls).forms refusal (.ofNext (expressionStarts ls))).dedup

namespace Tree

/-- The children of each element follow one of the forms. -/
inductive Formed (forms : List (ElementKind × Form Child)) : Tree → Prop where
  | leaf {t} : Formed forms (leaf t)
  | node {kind children form} (mem : (kind, form) ∈ forms)
      (derives : form.Derives (children.map child)) (inner : ∀ c ∈ children, Formed forms c) :
      Formed forms (node kind children)

end Tree

namespace Form

variable {τ : Type} {p q : Form τ} {u v w : List τ}

theorem Derives.join (hu : p.Derives u) (hv : q.Derives v) : Derives (p.join q) (u ++ v) :=
  Phrase.derives_join.mpr ⟨u, v, rfl, hu, hv⟩

theorem Derives.either_left (h : p.Derives w) : Derives (p.either q) w :=
  Phrase.derives_either.mpr (Or.inl h)

theorem Derives.either_right (h : q.Derives w) : Derives (p.either q) w :=
  Phrase.derives_either.mpr (Or.inr h)

end Form

namespace Grammar

theorem forms_rule {x : Nonterminal} (h : x.Known) (refusal : Form Child) :
    x.rule.forms refusal (.ofNext x.starts) ⊆ forms refusal := by
  intro f hf
  rw [forms, List.mem_dedup]
  cases x with
  | text => exact h.elim
  | type => exact List.mem_append_left _ (List.mem_append_right _ hf)
  | expression layers =>
    exact List.mem_append_right _ (List.mem_flatMap.mpr ⟨layers, (List.mem_tails _ _).mpr h, hf⟩)

theorem forms_theories (refusal : Form Child) :
    theories.forms refusal .anything ⊆ forms refusal := by
  intro f hf
  rw [forms, List.mem_dedup]
  exact List.mem_append_left _ (List.mem_append_left _ hf)

end Grammar

/-- A named rule makes one element of its kinds, errors or not. -/
theorem Nonterminal.form_rule {x : Nonterminal} (h : x.Known) {refusal : Form Child}
    (hr : refusal = .fail ∨ refusal = .empty) :
    ∃ words, (x.rule.form refusal (.ofNext x.starts)).words? = some words ∧
      words ⊆ x.kinds.map .node := by
  have layered : ∀ refusal ∈ [(.fail : Form Child), .empty], ∀ ls ∈ Grammar.layers.tails,
      ∃ words ∈ ((Grammar.layered ls).form refusal (.ofNext (Grammar.expressionStarts ls))).words?,
        words ⊆ (Nonterminal.expression ls).kinds.map Child.node := by decide +kernel
  have type : ∀ refusal ∈ [(.fail : Form Child), .empty],
      ∃ words ∈ (Grammar.typeExpression.form refusal (.ofNext Grammar.typeStarts)).words?,
        words ⊆ Nonterminal.type.kinds.map Child.node := by decide +kernel
  have hr : refusal ∈ [(.fail : Form Child), .empty] := by simpa using hr
  cases x with
  | text => exact h.elim
  | type => exact type refusal hr
  | expression layers => exact layered refusal hr layers ((List.mem_tails _ _).mpr h)

namespace Piece

variable (forms : List (ElementKind × Form Child))

/-- What is known of the forms where a piece begins. -/
def Fits (input : List Token) (f : Form Child) : Piece → Prop
  | rule r => ∃ a : Ahead, a.Holds input ∧ r.form .fail a = f ∧ r.forms .fail a ⊆ forms
  | chain kind test tail trees => ∃ p : Form Child, p.either (.word [.node kind]) = f ∧
      f.Derives (trees.map Tree.child) ∧ (∀ t ∈ trees, t.Formed forms) ∧
      (kind, f.join (tail.form .fail (Ahead.anything.yes test))) ∈ forms ∧
      tail.forms .fail (Ahead.anything.yes test) ⊆ forms

end Piece

/-- What is known of the forms where a task begins. -/
def Task.Fits (refusal : Form Child) (forms : List (ElementKind × Form Child)) (f : Form Child) :
    Task → Prop
  | read r c => ∃ a : Ahead, a.Holds c.input ∧ r.form refusal a = f ∧ r.forms refusal a ⊆ forms
  | grow kind test tail s => ∃ p : Form Child, p.either (.word [.node kind]) = f ∧
      f.Derives (s.trees.map Tree.child) ∧ (∀ t ∈ s.trees, t.Formed forms) ∧
      (kind, f.join (tail.form refusal (Ahead.anything.yes test))) ∈ forms ∧
      tail.forms refusal (Ahead.anything.yes test) ⊆ forms

namespace Reads

variable {endOfText : Token} {task : Task} {s : Step}

theorem quiet_or {P : Prop} {r : Rule} {c : Cursor} (h : Reads endOfText (.read r c) s)
    (hq : P ∨ c.recovering = false) (he : P ∨ s.errors = []) : P ∨ s.cursor.recovering = false := by
  rcases hq with hp | hq
  · exact Or.inl hp
  · exact he.imp_right fun he => (h.parses hq he).2

theorem holds_after {r : Rule} {c : Cursor} (h : Reads endOfText (.read r c) s) {a : Ahead}
    (ha : a.Holds c.input) : (r.after a).Holds s.cursor.input := by
  cases h with
  | @take _ hne =>
    obtain ⟨_ | ⟨t, input⟩, recovering⟩ := c
    · exact absurd rfl hne
    · exact ha.shift
  | _ => exact Ahead.holds_anything _

/-- What is read has the shape that its rule says: with a complaint impossible as long as nothing
goes wrong, or with one that leaves nothing in the tree. -/
theorem formed (h : Reads endOfText task s) {refusal : Form Child}
    (hr : refusal = .fail ∨ refusal = .empty) (hq : refusal = .empty ∨ task.Quiet)
    (he : refusal = .empty ∨ s.errors = []) {f : Form Child}
    (hf : task.Fits refusal (Grammar.forms refusal) f) :
    f.Derives (s.trees.map Tree.child) ∧ ∀ t ∈ s.trees, t.Formed (Grammar.forms refusal) := by
  induction h generalizing f with
  | empty =>
    obtain ⟨a, -, rfl, -⟩ := hf
    exact ⟨.empty, nofun⟩
  | @take c hne =>
    obtain ⟨a, ha, rfl, -⟩ := hf
    obtain ⟨_ | ⟨t, input⟩, recovering⟩ := c
    · exact absurd rfl hne
    · exact ⟨.word (List.mem_map_of_mem ha.1), List.forall_mem_singleton.mpr .leaf⟩
  | @skip c =>
    obtain ⟨a, ha, rfl, -⟩ := hf
    obtain ⟨_ | ⟨t, input⟩, recovering⟩ := c
    · exact ⟨.right .empty, nofun⟩
    · exact ⟨.left (.word (List.mem_map_of_mem ha.1)), List.forall_mem_singleton.mpr .leaf⟩
  | @report c complaint =>
    obtain ⟨a, -, rfl, -⟩ := hf
    obtain ⟨input, _ | _⟩ := c
    · rcases he with rfl | he
      · exact ⟨.empty, nofun⟩
      · cases he
    · rcases hq with rfl | hq
      · exact ⟨.empty, nofun⟩
      · cases hq
  | seq first _ ih1 ih2 =>
    obtain ⟨a, ha, rfl, hs⟩ := hf
    obtain ⟨hs1, hs2⟩ := List.append_subset.mp hs
    have he1 := he.imp_right fun he => (List.append_eq_nil_iff.mp he).1
    have he2 := he.imp_right fun he => (List.append_eq_nil_iff.mp he).2
    obtain ⟨h1, t1⟩ := ih1 hq he1 ⟨a, ha, rfl, hs1⟩
    obtain ⟨h2, t2⟩ := ih2 (first.quiet_or hq he1) he2 ⟨_, first.holds_after ha, rfl, hs2⟩
    rw [Step.join_trees, List.map_append]
    exact ⟨h1.join h2, List.forall_mem_append.mpr ⟨t1, t2⟩⟩
  | yes _ ht _ ih =>
    obtain ⟨a, ha, rfl, hs⟩ := hf
    have hs1 := (List.append_subset.mp hs).1
    rw [if_neg (ha.yes ht).ne_nil] at hs1
    obtain ⟨h1, t1⟩ := ih hq he ⟨_, ha.yes ht, rfl, hs1⟩
    refine ⟨Form.Derives.either_left ?_, t1⟩
    rwa [(ha.yes ht).allow]
  | no _ ht _ ih =>
    obtain ⟨a, ha, rfl, hs⟩ := hf
    have hs1 := (List.append_subset.mp hs).2
    rw [if_neg (ha.no ht).ne_nil] at hs1
    obtain ⟨h1, t1⟩ := ih hq he ⟨_, ha.no ht, rfl, hs1⟩
    refine ⟨Form.Derives.either_right ?_, t1⟩
    rwa [(ha.no ht).allow]
  | finish =>
    obtain ⟨a, -, rfl, -⟩ := hf
    exact ⟨.stop, nofun⟩
  | turn ht _ once _ ih1 ih2 =>
    obtain ⟨a, ha, rfl, hs⟩ := hf
    have he1 := he.imp_right fun he => (List.append_eq_nil_iff.mp he).1
    have he2 := he.imp_right fun he => (List.append_eq_nil_iff.mp he).2
    obtain ⟨h1, t1⟩ := ih1 hq he1 ⟨_, (Ahead.holds_anything _).yes ht, rfl, hs⟩
    obtain ⟨h2, t2⟩ := ih2 (once.quiet_or hq he1) he2 ⟨.anything, Ahead.holds_anything _, rfl, hs⟩
    rw [Step.join_trees, List.map_append]
    exact ⟨.more h1 h2, List.forall_mem_append.mpr ⟨t1, t2⟩⟩
  | node _ ih =>
    obtain ⟨a, ha, rfl, hs⟩ := hf
    obtain ⟨hm, hs⟩ := List.cons_subset.mp hs
    obtain ⟨h1, t1⟩ := ih hq he ⟨a, ha, rfl, hs⟩
    exact ⟨.word List.mem_cons_self, List.forall_mem_singleton.mpr (.node hm h1 t1)⟩
  | nodeBy opened _ ih1 ih2 =>
    obtain ⟨a, ha, rfl, hs⟩ := hf
    obtain ⟨hy, hs⟩ := List.cons_subset.mp hs
    obtain ⟨hn, hs⟩ := List.cons_subset.mp hs
    obtain ⟨hs1, hs2⟩ := List.append_subset.mp hs
    have he1 := he.imp_right fun he => (List.append_eq_nil_iff.mp he).1
    have he2 := he.imp_right fun he => (List.append_eq_nil_iff.mp he).2
    obtain ⟨h1, t1⟩ := ih1 hq he1 ⟨a, ha, rfl, hs1⟩
    obtain ⟨h2, t2⟩ := ih2 (opened.quiet_or hq he1) he2
      ⟨.anything, Ahead.holds_anything _, rfl, hs2⟩
    have h := h1.join h2
    rw [← List.map_append] at h
    have t := List.forall_mem_append.mpr ⟨t1, t2⟩
    split_ifs
    · exact ⟨.word List.mem_cons_self, List.forall_mem_singleton.mpr (.node hy h t)⟩
    · exact ⟨.word (List.mem_cons_of_mem _ List.mem_cons_self),
        List.forall_mem_singleton.mpr (.node hn h t)⟩
  | headless _ _ ih =>
    obtain ⟨a, ha, rfl, hs⟩ := hf
    obtain ⟨-, hs⟩ := List.cons_subset.mp hs
    obtain ⟨h1, t1⟩ := ih hq he ⟨a, ha, rfl, fun f hf => hs (List.mem_union_iff.mpr (Or.inl hf))⟩
    exact ⟨h1.either_left, t1⟩
  | chain first _ links ih1 ih2 =>
    obtain ⟨a, ha, rfl, hs⟩ := hf
    obtain ⟨hm, hs⟩ := List.cons_subset.mp hs
    have he1 := he.imp_right fun he => List.prefix_nil.mp (he ▸ links.errors_prefix)
    obtain ⟨h1, t1⟩ := ih1 hq he1
      ⟨a, ha, rfl, fun f hf => hs (List.mem_union_iff.mpr (Or.inl hf))⟩
    exact ih2 (first.quiet_or hq he1) he
      ⟨_, rfl, h1.either_left, t1, hm, fun f hf => hs (List.mem_union_iff.mpr (Or.inr hf))⟩
  | grown =>
    obtain ⟨p, rfl, h, t, -, -⟩ := hf
    exact ⟨h, t⟩
  | link ht _ once again ih1 ih2 =>
    obtain ⟨p, rfl, h, t, hm, hs⟩ := hf
    have he1 := he.imp_right fun he =>
      (List.append_eq_nil_iff.mp (List.prefix_nil.mp (he ▸ again.errors_prefix))).2
    obtain ⟨h1, t1⟩ := ih1 hq he1 ⟨_, (Ahead.holds_anything _).yes ht, rfl, hs⟩
    have hj := h.join h1
    rw [← List.map_append] at hj
    exact ih2 (once.quiet_or hq he1) he
      ⟨p, rfl, Form.Derives.either_right (.word List.mem_cons_self),
        List.forall_mem_singleton.mpr (.node hm hj (List.forall_mem_append.mpr ⟨t, t1⟩)), hm, hs⟩
  | call hk hs _ ih =>
    obtain ⟨a, ha, rfl, -⟩ := hf
    obtain ⟨h1, t1⟩ := ih hq he ⟨_, Ahead.holds_ofNext.mpr hs, rfl, Grammar.forms_rule hk refusal⟩
    obtain ⟨words, hw, hsub⟩ := Nonterminal.form_rule hk hr
    obtain ⟨c, hc, hone⟩ := h1.of_words? hw
    rw [hone]
    exact ⟨.word (hsub hc), t1⟩

end Reads

/-- What parses has the shape that its rule says. -/
theorem Parses.formed {piece : Piece} {input rest : List Token} {trees : List Tree}
    (h : Parses piece input trees rest) {f : Form Child}
    (hf : piece.Fits (Grammar.forms .fail) input f) :
    f.Derives (trees.map Tree.child) ∧ ∀ t ∈ trees, t.Formed (Grammar.forms .fail) := by
  have hquiet : (piece.task input).Quiet := by
    cases piece <;> rfl
  have hfits : (piece.task input).Fits .fail (Grammar.forms .fail) f := by
    cases piece
    · exact hf
    · exact hf
  exact (h.reads default).formed (Or.inl rfl) (Or.inr hquiet) (Or.inr rfl) hfits

end PvsIndex
