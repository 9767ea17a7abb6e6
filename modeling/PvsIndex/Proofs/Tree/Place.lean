import PvsIndex.Proofs.Tree.Extent
import PvsIndex.Proofs.Tree.Lawful

/-! Where the elements of a text without errors stand in it. -/

namespace PvsIndex

namespace Tree

variable {t : Tree} {o p : Occurrence}

theorem leaves_subset_of_above (hp : p ∈ t.preorder) (h : o.Above p) :
    p.element.leaves ⊆ o.element.leaves := by
  obtain ⟨c, hc, hp⟩ := exists_child_of_above hp h
  exact ((leaves_isInfix hp).trans (leaves_isInfix_of_mem_children hc)).subset

end Tree

theorem Element.identifier_range {source : List Char} {e : Element} {t : Token}
    (h : e.children = [.leaf t]) (ht : t.Fits source) :
    e.range = t.range ∧ e.sourceText source = t.text := by
  have hf : e.tree.firstToken? = some t := by
    simp [Element.tree, h, Tree.firstToken?, Tree.firstTokenOf?]
  have hl : e.tree.lastToken? = some t := by
    simp [Element.tree, h, Tree.lastToken?, Tree.lastTokenOf?]
  constructor
  · simp [Element.range, hf, hl, Range.unite]
  · rw [Element.sourceText, hf, hl]
    dsimp only
    rw [Nat.add_sub_cancel_left, ← ht.text, String.ofList_toList]

namespace Parse.Lawful

variable {text : String} {theories : List Tree} {o p name : Occurrence}

theorem placed (h : (ofText text).Lawful theories)
    (ho : o ∈ Tree.preorderOf [(ofText text).root] theories) :
    Token.Placed text.toList o.element.leaves := by
  obtain ⟨t, ht, ho⟩ := Tree.mem_preorderOf.mp ho
  have hpart : o.element.leaves <:+: Tree.leavesOf theories :=
    (Tree.leaves_isInfix ho).trans (Tree.leaves_isInfix_of_mem_children ht)
  rw [h.leaves] at hpart
  exact (Tokens.significant_placed text).sublist hpart.sublist

theorem exists_extent (h : (ofText text).Lawful theories)
    (ho : o ∈ Tree.preorderOf [(ofText text).root] theories) :
    ∃ i j, o.element.Extent text.toList i j := by
  refine Element.exists_extent (h.placed ho) ?_
  obtain ⟨t, ht, ho⟩ := Tree.mem_preorderOf.mp ho
  exact ((h.formed t ht).of_mem ho).leaves_ne_nil

theorem contains_of_above (h : (ofText text).Lawful theories) (hk : o.element.kind ≠ .root)
    (hp : p ∈ (ofText text).tree.preorder) (hpk : p.element.kind ≠ .root) (ha : o.Above p) :
    o.element.range.Contains p.element.range := by
  obtain ⟨i, j, ho⟩ := h.exists_extent (h.inner_of_kind (Tree.mem_preorder_of_suffix hp ha) hk)
  obtain ⟨k, l, hq⟩ := h.exists_extent (h.inner_of_kind hp hpk)
  exact (ho.contains_iff hq).mpr (ho.le_of_subset hq (Tree.leaves_subset_of_above hp ha))

theorem exists_token (h : (ofText text).Lawful theories)
    (hn : name ∈ (ofText text).tree.preorder) (hk : name.element.kind = .identifier) :
    ∃ t, name.element.children = [.leaf t] ∧ t.kind = .identifier ∧ t.Fits text.toList := by
  obtain ⟨t, hc, ht⟩ := (h.element_lawful hn).identifier hk
  refine ⟨t, hc, ht, (h.placed (h.inner_of_kind hn (by rw [hk]; nofun))).fits t ?_⟩
  simp [Element.leaves, Element.tree, Tree.leaves, Tree.leavesOf, hc]

end Parse.Lawful

end PvsIndex
