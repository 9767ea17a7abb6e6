import PvsIndex.Proofs.Declaration.Scoping

/-! The shape of trees with errors in them. A complaint leaves no trace in the tree, so elements may
lack children, but they have no others than the grammar says. -/

namespace PvsIndex

namespace Form

variable {τ : Type} {p : Form τ} {w : List τ} {x : τ}

def later : Form τ → List τ
  | .fail => []
  | .empty => []
  | .word _ => []
  | .seq p q => later p ++ letters q
  | .alt p q => later p ++ later q
  | .star p => letters p
  | .name x => x.elim

theorem Derives.mem_later (h : p.Derives w) (hx : x ∈ w.tail) : x ∈ p.later := by
  induction h with
  | @seq p q u v _ h2 ih1 _ =>
    cases u with
    | nil => exact List.mem_append_right _ (Derives.mem_letters h2 (List.mem_of_mem_tail hx))
    | cons y u =>
      rcases List.mem_append.mp hx with hx | hx
      · exact List.mem_append_left _ (ih1 hx)
      · exact List.mem_append_right _ (Derives.mem_letters h2 hx)
  | left _ ih => exact List.mem_append_left _ (ih hx)
  | right _ ih => exact List.mem_append_right _ (ih hx)
  | more h1 h2 _ _ =>
    have h : Derives (.star _) (_ ++ _) := .more h1 h2
    exact h.mem_letters (List.mem_of_mem_tail hx)
  | @name x => exact x.elim
  | _ => exact absurd hx List.not_mem_nil

end Form

/-- With errors or without, a name is one token, no theory is in another one, and the first child of
a theory is the only one that may be a name. -/
theorem Grammar.forms_recovered : ∀ f ∈ forms .empty, Child.node .theory ∉ f.2.letters ∧
    (f.1 = .identifier → f.2 = .word [.leaf .identifier]) ∧
    (f.1 = .theory → Child.node .identifier ∉ f.2.later) := by
  decide +kernel

/-- With errors or without, a declaration begins with its name. A binding may lack it. -/
theorem Grammar.forms_named : ∀ f ∈ forms .empty, f.1.category?.isSome = true → f.1 ≠ .binding →
    f.2.nullable = false ∧ f.2.heads ⊆ [.node .identifier] := by
  decide +kernel

namespace Tree

variable {ancestors : List Element} {t : Tree} {o : Occurrence}

theorem eq_of_mem_preorderBelow (h : o ∈ t.preorderBelow o.ancestors) : t = o.element.tree := by
  cases t with
  | leaf => simp at h
  | node kind children =>
    rw [preorderBelow_node, List.mem_cons, mem_preorderOf] at h
    rcases h with h | ⟨c, -, h⟩
    · rw [h]
      rfl
    · have hlength := (suffix_of_mem h).length_le
      rw [List.length_cons] at hlength
      omega

theorem Formed.of_child {kind : ElementKind} {children : List Tree} {c : Tree}
    (h : (Tree.node kind children).Formed (Grammar.forms .empty)) (hc : c ∈ children) :
    c.Formed (Grammar.forms .empty) ∧ c.child ≠ .node .theory := by
  cases h with
  | @node _ _ form mem derives inner =>
  have hletter : c.child ∈ form.letters := derives.mem_letters (List.mem_map_of_mem hc)
  exact ⟨inner c hc, fun he => (Grammar.forms_recovered _ mem).1 (he ▸ hletter)⟩

theorem Formed.exists_between (h : t.Formed (Grammar.forms .empty))
    (ht : t.child ≠ .node .theory) (ho : o ∈ t.preorderBelow ancestors) :
    ∃ between, o.ancestors = between ++ ancestors ∧ ∀ e ∈ between, e.kind ≠ .theory := by
  induction t using Tree.induction generalizing ancestors with
  | leaf => simp at ho
  | node kind children ih =>
    rw [preorderBelow_node, List.mem_cons, mem_preorderOf] at ho
    rcases ho with rfl | ⟨c, hc, ho⟩
    · exact ⟨[], rfl, nofun⟩
    · obtain ⟨hformed, hchild⟩ := h.of_child hc
      obtain ⟨between, habove, hnone⟩ := ih c hc hformed hchild ho
      refine ⟨between ++ [⟨kind, children⟩], ?_, ?_⟩
      · rw [habove, List.append_assoc, List.singleton_append]
      · refine List.forall_mem_append.mpr ⟨hnone, List.forall_mem_singleton.mpr fun hk => ht ?_⟩
        rw [Tree.child]
        exact congrArg Child.node hk

theorem Formed.identifier {e : Element} (h : e.tree.Formed (Grammar.forms .empty))
    (hk : e.kind = .identifier) :
    ∃ token, e.children = [.leaf token] ∧ token.kind = .identifier := by
  obtain ⟨kind, children⟩ := e
  cases h with
  | @node _ _ form mem derives inner =>
  have hform : form = .word [.leaf .identifier] := (Grammar.forms_recovered _ mem).2.1 hk
  rw [hform] at derives
  obtain ⟨x, hx, hone⟩ := Form.Derives.of_words? derives rfl
  obtain ⟨c, rfl, hc⟩ := List.map_eq_singleton_iff.mp hone
  obtain ⟨token, rfl, ht⟩ := child_eq_leaf (hc.trans (List.mem_singleton.mp hx))
  exact ⟨token, rfl, ht⟩

theorem Formed.named {e : Element} (h : e.tree.Formed (Grammar.forms .empty))
    (hk : e.kind ≠ .binding) : e.Named := by
  intro hc
  obtain ⟨kind, children⟩ := e
  cases h with
  | @node _ _ form mem derives inner =>
  obtain ⟨hnull, hheads⟩ := Grammar.forms_named _ mem hc hk
  have hne : children ≠ [] := fun he => derives.ne_nil hnull (by rw [he, List.map_nil])
  obtain ⟨c, rest, rfl⟩ := List.exists_cons_of_ne_nil hne
  have hhead : c.child ∈ form.heads := derives.mem_heads rfl
  obtain ⟨cs, rfl⟩ := child_eq_node (List.mem_singleton.mp (hheads hhead))
  simp [Element.childrenOf, Tree.element?]

theorem Formed.theory {e : Element} (h : e.tree.Formed (Grammar.forms .empty))
    (hk : e.kind = .theory) {c : Tree} (hc : c ∈ e.children) (hname : c.child = .node .identifier) :
    e.children.head? = some c := by
  obtain ⟨kind, children⟩ := e
  cases h with
  | @node _ _ form mem derives inner =>
  obtain ⟨first, rest, rfl⟩ := List.exists_cons_of_ne_nil (List.ne_nil_of_mem hc)
  rcases List.mem_cons.mp hc with rfl | hc
  · rfl
  · have hlater : c.child ∈ form.later := derives.mem_later (List.mem_map_of_mem hc)
    rw [hname] at hlater
    exact absurd hlater ((Grammar.forms_recovered _ mem).2.2 hk)

end Tree

namespace Parse

theorem theories_letters_recovered :
    ∀ x ∈ (Grammar.theories.form .empty .anything).letters,
      x.isLeaf = true ∨ x = .node .theory := by
  decide +kernel

/-- The tree of a text, errors or not: theories and tokens between them, and the end of the text. -/
structure Recovered (p : Parse) (trees : List Tree) : Prop where
  root : p.root = ⟨.root, trees ++ [.leaf p.tokens.endOfText]⟩
  formed : ∀ t ∈ trees, t.Formed (Grammar.forms .empty)
  theory : ∀ t ∈ trees, t.child.isLeaf = true ∨ t.child = .node .theory

theorem exists_recovered (text : String) : ∃ trees, (ofText text).Recovered trees := by
  obtain ⟨s, -, hroot, hr⟩ := reads text
  obtain ⟨hd, hformed⟩ := hr.formed (Or.inr rfl) (Or.inl rfl) (Or.inl rfl)
    ⟨.anything, Ahead.holds_anything _, rfl, Grammar.forms_theories .empty⟩
  exact ⟨s.trees, hroot, hformed, fun t ht =>
    theories_letters_recovered _ (hd.mem_letters (List.mem_map_of_mem ht))⟩

namespace Recovered

variable {p : Parse} {trees : List Tree} {o : Occurrence}

theorem exists_tree (h : p.Recovered trees) (ho : o ∈ p.tree.preorder)
    (hk : o.element.kind ≠ .root) : ∃ t ∈ trees, o ∈ t.preorderBelow [p.root] := by
  rw [Parse.tree, Element.tree, Tree.preorder_eq, Tree.preorderBelow_node, List.mem_cons] at ho
  rcases ho with rfl | ho
  · exact absurd (by rw [h.root]) hk
  · obtain ⟨t, ht, ho⟩ := Tree.mem_preorderOf.mp ho
    rw [h.root] at ht
    rcases List.mem_append.mp ht with ht | ht
    · exact ⟨t, ht, ho⟩
    · rw [List.mem_singleton.mp ht] at ho
      simp at ho

theorem element_formed (h : p.Recovered trees) (ho : o ∈ p.tree.preorder)
    (hk : o.element.kind ≠ .root) : o.element.tree.Formed (Grammar.forms .empty) := by
  obtain ⟨t, ht, ho⟩ := h.exists_tree ho hk
  exact (h.formed t ht).of_mem ho

/-- Everything below the root is a theory or in one, and in one only. -/
theorem exists_theory (h : p.Recovered trees) (ho : o ∈ p.tree.preorder)
    (hk : o.element.kind ≠ .root) (hk' : o.element.kind ≠ .theory) :
    ∃ between theory, o.ancestors = between ++ [theory, p.root] ∧ theory.kind = .theory ∧
      ∀ e ∈ between, e.kind ≠ .theory := by
  obtain ⟨t, ht, ho⟩ := h.exists_tree ho hk
  rcases h.theory t ht with hleaf | htheory
  · cases t with
    | leaf => simp at ho
    | node => cases hleaf
  · obtain ⟨children, rfl⟩ := Tree.child_eq_node htheory
    rw [Tree.preorderBelow_node, List.mem_cons, Tree.mem_preorderOf] at ho
    rcases ho with rfl | ⟨c, hc, ho⟩
    · exact absurd rfl hk'
    · obtain ⟨hformed, hchild⟩ := (h.formed _ ht).of_child hc
      obtain ⟨between, habove, hnone⟩ := hformed.exists_between hchild ho
      exact ⟨between, ⟨.theory, children⟩, habove, rfl, hnone⟩

end Recovered

end Parse

end PvsIndex
