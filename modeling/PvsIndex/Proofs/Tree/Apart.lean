import PvsIndex.Proofs.Tree.Place

/-! Elements that lie side by side in a text without errors have a token between them, unless the
second is a part. What stands above another element begins with a token of its own. -/

namespace PvsIndex

/-- A token of the source stands between these and those. -/
def Token.Apart (source : List Char) (xs ys : List Token) : Prop :=
  ∃ t, t.Fits source ∧ (∀ x ∈ xs, x.Before t) ∧ ∀ y ∈ ys, t.Before y

namespace Token

variable {source : List Char} {xs ys zs : List Token} {t : Token}

theorem Apart.mono (h : Apart source xs ys) {xs' ys' : List Token} (hx : xs' ⊆ xs)
    (hy : ys' ⊆ ys) : Apart source xs' ys' := by
  obtain ⟨t, ht, hxs, hys⟩ := h
  exact ⟨t, ht, fun x hm => hxs x (hx hm), fun y hm => hys y (hy hm)⟩

/-- What stands between parts of a text keeps them apart. -/
theorem Placed.apart (h : Placed source (xs ++ (zs ++ ys))) (hz : zs ≠ []) :
    Apart source xs ys := by
  obtain ⟨t, ht⟩ := List.exists_mem_of_ne_nil zs hz
  have hmem : t ∈ xs ++ (zs ++ ys) := List.mem_append_right _ (List.mem_append_left _ ht)
  obtain ⟨-, hrest, hbefore⟩ := List.pairwise_append.mp h.ordered
  exact ⟨t, h.fits t hmem, fun x hx => hbefore x hx t (List.mem_append_left _ ht),
    (List.pairwise_append.mp hrest).2.2 t ht⟩

end Token

namespace Parse.Lawful

variable {text : String} {theories : List Tree} {q o p : Occurrence}

theorem leaves_ne_nil (h : (ofText text).Lawful theories) (hq : q ∈ (ofText text).tree.preorder)
    {c : Tree} (hc : c ∈ q.element.children) : c.leaves ≠ [] := by
  rw [h.preorder_eq] at hq
  rcases List.mem_cons.mp hq with rfl | hq
  · rw [h.root] at hc
    rcases List.mem_append.mp hc with hc | hc
    · exact (h.formed c hc).leaves_ne_nil
    · obtain rfl := List.mem_singleton.mp hc
      simp [Tree.leaves]
  · obtain ⟨t, ht, hq⟩ := Tree.mem_preorderOf.mp hq
    cases (h.formed t ht).of_mem hq with
    | node _ _ inner => exact (inner c hc).leaves_ne_nil

/-- The tokens up to a child that is an element stand in the text. The end of the text, which does
not, is the last child of the root. -/
theorem placed_of_split (h : (ofText text).Lawful theories)
    (hq : q ∈ (ofText text).tree.preorder) {l r : List Tree} {kind : ElementKind}
    {children : List Tree} (hs : q.element.children = l ++ .node kind children :: r) :
    Token.Placed text.toList (Tree.leavesOf (l ++ [.node kind children])) := by
  have hsub : ∀ r, (Tree.leavesOf (l ++ [.node kind children])).Sublist
      (Tree.leavesOf (l ++ .node kind children :: r)) := fun r => by
    simp [Tree.leavesOf_eq_flatMap]
  rw [h.preorder_eq] at hq
  rcases List.mem_cons.mp hq with rfl | hq
  · rw [h.root] at hs
    have hplaced := Tokens.significant_placed text
    rcases List.append_eq_append_iff.mp hs with ⟨as, -, hr⟩ | ⟨bs, hl, hr⟩
    · have hmem : Tree.node kind children ∈ [Tree.leaf (ofText text).tokens.endOfText] :=
        hr ▸ List.mem_append_right _ List.mem_cons_self
      cases List.mem_singleton.mp hmem
    · cases bs with
      | nil => cases hr
      | cons b bs =>
        obtain rfl := (List.cons.inj hr).1
        have hleaves := h.leaves
        rw [hl] at hleaves
        exact hplaced.sublist (hleaves ▸ hsub bs)
  · have hplaced := h.placed hq
    rw [Element.leaves, Element.tree, Tree.leaves, hs] at hplaced
    exact hplaced.sublist (hsub r)

/-- An element that begins with a token, or with a declared name, has a token before all other
elements in it. -/
theorem exists_before_of_above (h : (ofText text).Lawful theories)
    (ho : o ∈ (ofText text).tree.preorder)
    (hk : o.element.kind.isPart = true ∨ o.element.kind.introducesScope = true)
    (hp : p ∈ (ofText text).tree.preorder) (hpk : p.element.kind ≠ .identifier)
    (ha : o.Above p) :
    ∃ t ∈ o.element.leaves, t.Fits text.toList ∧ ∀ y ∈ p.element.leaves, t.Before y := by
  obtain ⟨c, rest, hc, hopens⟩ := (h.element_lawful ho).opens hk
  obtain ⟨d, hd, hpd⟩ := Tree.exists_child_of_above hp ha
  have hrest : d ∈ rest := by
    rw [hc] at hd
    refine (List.mem_cons.mp hd).resolve_left ?_
    rintro rfl
    cases d with
    | leaf => simp at hpd
    | node kind children =>
      obtain rfl : kind = .identifier := of_decide_eq_true hopens
      have hname := Tree.mem_of_child ho (by rw [hc]; exact List.mem_cons_self)
      have hone := Tree.preorderBelow_identifier (h.element_lawful hname) rfl
        (o.element :: o.ancestors)
      rw [Element.tree] at hone
      rw [hone] at hpd
      exact hpk (by rw [List.mem_singleton.mp hpd])
  obtain ⟨t, ht⟩ := List.exists_mem_of_ne_nil _ (h.leaves_ne_nil ho (c := c) (by simp [hc]))
  have hkr : o.element.kind ≠ .root := by
    intro hr
    rw [hr] at hk
    simp [ElementKind.isPart, ElementKind.introducesScope] at hk
  have hplaced := h.placed (h.inner_of_kind ho hkr)
  rw [Element.leaves, Element.tree, Tree.leaves, hc, Tree.leavesOf] at hplaced
  refine ⟨t, ?_, hplaced.fits t (List.mem_append_left _ ht), fun y hy => ?_⟩
  · simp [Element.leaves, Element.tree, Tree.leaves, hc, Tree.leavesOf, ht]
  · refine (List.pairwise_append.mp hplaced.ordered).2.2 t ht y ?_
    exact (Tree.leaves_isInfix_of_mem_children hrest).subset ((Tree.leaves_isInfix hpd).subset hy)

/-- Between two elements that lie below different children stands a token, unless the second is a
part. -/
theorem apart_of_splits (h : (ofText text).Lawful theories)
    (hq : q ∈ (ofText text).tree.preorder) (hp : p ∈ (ofText text).tree.preorder)
    (hpk : p.element.kind ≠ .identifier) (hs : q.Splits o p) :
    Token.Apart text.toList o.element.leaves p.element.leaves ∨
      p.element.kind.isPart = true ∧
        ∀ x ∈ o.element.leaves, ∀ y ∈ p.element.leaves, x.Before y := by
  obtain ⟨l, c, m, d, r, hchildren, ho, hpd⟩ := hs
  cases d with
  | leaf => simp at hpd
  | node kind children =>
  have hsplit : q.element.children = (l ++ c :: m) ++ .node kind children :: r := by
    rw [hchildren, List.append_assoc, List.cons_append]
  have hplaced := h.placed_of_split hq hsplit
  have hleaves : Tree.leavesOf (l ++ c :: m ++ [.node kind children]) =
      Tree.leavesOf l ++ (c.leaves ++ (Tree.leavesOf m ++ (Tree.node kind children).leaves)) := by
    simp [Tree.leavesOf_eq_flatMap]
  rw [hleaves] at hplaced
  replace hplaced := hplaced.sublist (List.sublist_append_right _ _)
  have hoc := (Tree.leaves_isInfix ho).subset
  have hpl := (Tree.leaves_isInfix hpd).subset
  cases m with
  | cons x m =>
    refine Or.inl ((hplaced.apart ?_).mono hoc hpl)
    rw [Tree.leavesOf]
    exact List.append_ne_nil_of_left_ne_nil (h.leaves_ne_nil hq (by simp [hchildren])) _
  | nil =>
    have hbefore := (List.pairwise_append.mp hplaced.ordered).2.2
    have hfollows := (List.isChain_split.mp (hchildren ▸ (h.element_lawful hq).follows)).2
    have hpart : kind.isPart = true := by
      refine ((List.isChain_cons_cons.mp hfollows).1 kind rfl).resolve_left fun hleaf => ?_
      cases c with
      | leaf => simp at ho
      | node => cases hleaf
    have hd : (⟨⟨kind, children⟩, q.element :: q.ancestors⟩ : Occurrence) ∈
        (ofText text).tree.preorder := Tree.mem_of_child hq (by simp [hchildren])
    rw [Tree.preorderBelow_node, List.mem_cons, Tree.mem_preorderOf] at hpd
    rcases hpd with rfl | ⟨e, he, hpd⟩
    · exact Or.inr ⟨hpart, fun x hx y hy => hbefore x (hoc hx) y hy⟩
    · obtain ⟨t, ht, hfits, ht'⟩ := h.exists_before_of_above hd (Or.inl hpart) hp hpk
        (Tree.suffix_of_mem hpd)
      exact Or.inl ⟨t, hfits, fun x hx => hbefore x (hoc hx) t ht, ht'⟩

end Parse.Lawful

end PvsIndex
