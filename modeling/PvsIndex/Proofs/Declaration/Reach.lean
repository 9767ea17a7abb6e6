import PvsIndex.Proofs.Tree.Apart

/-! The scopes that touch the use of a name are those around it, and of two scopes around it the
inner one starts later. -/

namespace PvsIndex

namespace Token

variable {source : List Char} {t u : Token}

theorem lt_of_words (ht : t.Fits source) (hu : u.Fits source) (htw : t.kind.isWord = true)
    (huw : u.kind.isWord = true) (h : t.Before u) : t.startIndex + t.length < u.startIndex := by
  refine Nat.lt_of_le_of_ne h fun he => ?_
  have hlt : u.startIndex < source.length := by
    have := hu.length_pos
    have := hu.stop_le
    omega
  have hnext : source[u.startIndex]? = some source[u.startIndex] := List.getElem?_eq_getElem hlt
  have hpart := hu.word_start huw _ hnext
  rw [ht.word_stop htw _ (by rw [he]; exact hnext)] at hpart
  cases hpart

end Token

namespace Element.Extent

variable {source : List Char} {e : Element} {i j : Nat} {n : Token}

theorem lt_start_of_apart (h : e.Extent source i j) (ha : Token.Apart source [n] e.leaves) :
    n.startIndex + n.length < i := by
  obtain ⟨t, ht, hn, he⟩ := ha
  obtain ⟨x, hx, rfl⟩ := h.first
  have hn := hn n List.mem_cons_self
  have hx := he x (List.mem_of_mem_head? hx)
  have := ht.length_pos
  unfold Token.Before at hn hx
  omega

theorem stop_lt_of_apart (h : e.Extent source i j) (ha : Token.Apart source e.leaves [n]) :
    j < n.startIndex := by
  obtain ⟨t, ht, he, hn⟩ := ha
  obtain ⟨x, hx, rfl⟩ := h.last
  have hn := hn n List.mem_cons_self
  have hx := he x (List.mem_of_getLast? hx)
  have := ht.length_pos
  unfold Token.Before at hn hx
  omega

theorem not_touches (h : e.Extent source i j) (hn : n.Fits source)
    (hlt : n.startIndex + n.length < i ∨ j < n.startIndex) {p : Position}
    (hp : n.range.Touches p) : ¬ e.range.Touches p := by
  intro ⟨hi, hj⟩
  have := h.lt
  have := h.le
  have := hn.stop_le
  rw [h.range] at hi hj
  rw [hn.range] at hp
  rcases hlt with hlt | hlt
  · exact absurd (hi.trans hp.2) (not_le_of_gt (Position.ofIndex_lt hlt (by omega)))
  · exact absurd (hp.1.trans hj) (not_le_of_gt (Position.ofIndex_lt hlt (by omega)))

end Element.Extent

namespace ElementKind

theorem ne_root_of_introducesScope {kind : ElementKind} (h : kind.introducesScope = true) :
    kind ≠ root := by
  rintro rfl
  cases h

theorem ne_root_of_isUse {kind : ElementKind} (h : kind.isUse = true) : kind ≠ root := by
  rintro rfl
  cases h

theorem of_isUse {kind : ElementKind} (h : kind.isUse = true) :
    kind ≠ identifier ∧ kind.isPart = false ∧ kind.introducesScope = false := by
  revert h
  cases kind <;> decide

theorem ne_identifier_of_introducesScope {kind : ElementKind}
    (h : kind.introducesScope = true) : kind ≠ identifier := by
  rintro rfl
  cases h

theorem named_of_isPart {kind : ElementKind} (h : kind.isPart = true)
    (hs : kind.introducesScope = true) : kind.category?.isSome = true ∨ kind = theory := by
  revert h hs
  cases kind <;> decide

end ElementKind

namespace Parse.Lawful

variable {text : String} {theories : List Tree} {s u p : Occurrence} {n : Token} {rest : List Tree}

theorem head_fits (h : (ofText text).Lawful theories) (hu : u ∈ (ofText text).tree.preorder)
    (huk : u.element.kind.isUse = true) (hc : u.element.children = .leaf n :: rest) :
    n.Fits text.toList ∧ n.kind = .identifier := by
  obtain ⟨t, rest', ht, hk, -⟩ := (h.element_lawful hu).use huk
  obtain rfl : n = t := Tree.leaf.inj (List.cons.inj (hc.symm.trans ht)).1
  refine ⟨(h.placed (h.inner_of_kind hu (ElementKind.ne_root_of_isUse huk))).fits n ?_, hk⟩
  simp [Element.leaves, Element.tree, Tree.leaves, Tree.leavesOf, hc]

theorem apart_of_use_above (h : (ofText text).Lawful theories)
    (hu : u ∈ (ofText text).tree.preorder) (huk : u.element.kind.isUse = true)
    (hc : u.element.children = .leaf n :: rest) (hs : s ∈ (ofText text).tree.preorder)
    (ha : u.Above s) : Token.Apart text.toList [n] s.element.leaves := by
  obtain ⟨d, hd, hsd⟩ := Tree.exists_child_of_above hs ha
  have hleaf : ∀ t : Token, d ≠ .leaf t := by
    rintro t rfl
    simp at hsd
  obtain ⟨t, rest, ht, -, hnext⟩ := (h.element_lawful hu).use huk
  obtain rfl : n = t := Tree.leaf.inj (List.cons.inj (hc.symm.trans ht)).1
  rw [ht] at hd
  cases rest with
  | nil => exact absurd (List.mem_singleton.mp hd) (hleaf n)
  | cons x rest =>
    cases x with
    | node => cases hnext _ rfl
    | leaf t =>
      have hrest : d ∈ rest := by simpa [hleaf] using hd
      have hplaced := h.placed (h.inner_of_kind hu (ElementKind.ne_root_of_isUse huk))
      rw [Element.leaves, Element.tree, Tree.leaves, ht] at hplaced
      have hplaced : Token.Placed text.toList ([n] ++ ([t] ++ Tree.leavesOf rest)) := hplaced
      refine (hplaced.apart (by simp)).mono (List.Subset.refl _) ?_
      exact ((Tree.leaves_isInfix hsd).trans (Tree.leaves_isInfix_of_mem_children hrest)).subset

theorem exists_word (h : (ofText text).Lawful theories) (hs : s ∈ (ofText text).tree.preorder)
    (hk : s.element.kind.category?.isSome = true ∨ s.element.kind = .theory) :
    ∃ t, s.element.leaves.head? = some t ∧ t.kind = .identifier ∧ t.Fits text.toList := by
  obtain ⟨children, rest, hc⟩ := (h.element_lawful hs).named hk
  have hname := Tree.mem_of_child hs (by rw [hc]; exact List.mem_cons_self)
  obtain ⟨t, ht, hkind, hfits⟩ := h.exists_token hname rfl
  obtain rfl : children = [.leaf t] := ht
  exact ⟨t, by simp [Element.leaves, Element.tree, Tree.leaves, hc, Tree.leavesOf], hkind, hfits⟩

/-- A scope that is not around a use ends before the name in it, or begins after it. -/
theorem not_touches_of_not_above (h : (ofText text).Lawful theories)
    (hu : u ∈ (ofText text).tree.preorder) (huk : u.element.kind.isUse = true)
    (hc : u.element.children = .leaf n :: rest) (hs : s ∈ (ofText text).tree.preorder)
    (hsk : s.element.kind.introducesScope = true) (hns : ¬ s.Above u) {p : Position}
    (hp : n.range.Touches p) : ¬ s.element.range.Touches p := by
  obtain ⟨hn, hnk⟩ := h.head_fits hu huk hc
  obtain ⟨hui, hup, hus⟩ := ElementKind.of_isUse huk
  have hmem : [n] ⊆ u.element.leaves := by
    simp [Element.leaves, Element.tree, Tree.leaves, Tree.leavesOf, hc]
  obtain ⟨i, j, hextent⟩ := h.exists_extent
    (h.inner_of_kind hs (ElementKind.ne_root_of_introducesScope hsk))
  refine hextent.not_touches hn ?_ hp
  rcases Tree.trichotomy hu hs with rfl | ha | ha | ⟨q, hq, hsplit | hsplit⟩
  · rw [hus] at hsk
    cases hsk
  · exact Or.inl (hextent.lt_start_of_apart (h.apart_of_use_above hu huk hc hs ha))
  · exact absurd ha hns
  · rcases h.apart_of_splits hq hs (ElementKind.ne_identifier_of_introducesScope hsk) hsplit with
      ha | ⟨hpart, hbefore⟩
    · exact Or.inl (hextent.lt_start_of_apart (ha.mono hmem (List.Subset.refl _)))
    · obtain ⟨t, ht, htk, htf⟩ := h.exists_word hs (ElementKind.named_of_isPart hpart hsk)
      obtain ⟨x, hx, rfl⟩ := hextent.first
      obtain rfl := Option.some.inj (ht.symm.trans hx)
      refine Or.inl (Token.lt_of_words hn htf (by rw [hnk]; rfl) (by rw [htk]; rfl) ?_)
      exact hbefore n (hmem List.mem_cons_self) t (List.mem_of_mem_head? ht)
  · rcases h.apart_of_splits hq hu hui hsplit with ha | ⟨hpart, -⟩
    · exact Or.inr (hextent.stop_lt_of_apart (ha.mono (List.Subset.refl _) hmem))
    · rw [hup] at hpart
      cases hpart

/-- The scopes that touch the name in a use are those around it. -/
theorem touches_iff (h : (ofText text).Lawful theories) (hu : u ∈ (ofText text).tree.preorder)
    (huk : u.element.kind.isUse = true) (hc : u.element.children = .leaf n :: rest)
    (hs : s ∈ (ofText text).tree.preorder) (hsk : s.element.kind.introducesScope = true)
    {p : Position} (hp : n.range.Touches p) :
    s.element.range.Touches p ↔ s.element ∈ u.ancestors := by
  constructor
  · intro ht
    by_contra hns
    refine h.not_touches_of_not_above hu huk hc hs hsk (fun ha => hns ?_) hp ht
    exact ha.subset List.mem_cons_self
  · intro hmem
    obtain ⟨above, rest', hsplit⟩ := List.append_of_mem hmem
    have ha : (⟨s.element, rest'⟩ : Occurrence).Above u := ⟨above, hsplit.symm⟩
    obtain ⟨hn, -⟩ := h.head_fits hu huk hc
    obtain ⟨i, j, hextent⟩ := h.exists_extent
      (h.inner_of_kind hs (ElementKind.ne_root_of_introducesScope hsk))
    obtain ⟨hi, hj⟩ := hextent.within n
      (Tree.leaves_subset_of_above hu ha (by
        simp [Element.leaves, Element.tree, Tree.leaves, Tree.leavesOf, hc]))
    have hle := hextent.le
    rw [hn.range] at hp
    rw [hextent.range]
    exact ⟨(Position.ofIndex_le hi (by omega)).trans hp.1,
      hp.2.trans (Position.ofIndex_le hj (by omega))⟩

theorem start_lt_of_above (h : (ofText text).Lawful theories)
    (hsk : s.element.kind.introducesScope = true) (hp : p ∈ (ofText text).tree.preorder)
    (hpr : p.element.kind ≠ .root) (hpk : p.element.kind ≠ .identifier) (ha : s.Above p) :
    s.element.range.start < p.element.range.start := by
  have hs := Tree.mem_preorder_of_suffix hp ha
  obtain ⟨t, ht, hfits, hbefore⟩ := h.exists_before_of_above hs (Or.inr hsk) hp hpk ha
  obtain ⟨i, j, hinner⟩ := h.exists_extent (h.inner_of_kind hp hpr)
  obtain ⟨k, l, houter⟩ := h.exists_extent
    (h.inner_of_kind hs (ElementKind.ne_root_of_introducesScope hsk))
  obtain ⟨x, hx, rfl⟩ := hinner.first
  have hle := (houter.within t ht).1
  have hpos := hfits.length_pos
  have hlt := hbefore x (List.mem_of_mem_head? hx)
  have := hinner.lt
  have := hinner.le
  unfold Token.Before at hlt
  rw [hinner.range, houter.range]
  exact Position.ofIndex_lt (by omega) (by omega)

/-- Of two scopes around an element, the inner one starts later. -/
theorem pairwise_scopes (h : (ofText text).Lawful theories)
    (hu : u ∈ (ofText text).tree.preorder) :
    (u.ancestors.filter (·.kind.introducesScope)).Pairwise fun inner outer =>
      outer.range.start < inner.range.start := by
  rw [List.pairwise_filter]
  have hsuffix : ∀ es, es <:+ u.ancestors → es.Pairwise fun inner outer =>
      inner.kind.introducesScope = true → outer.kind.introducesScope = true →
        outer.range.start < inner.range.start := by
    intro es
    induction es with
    | nil => exact fun _ => .nil
    | cons inner es ih =>
      intro hes
      refine List.pairwise_cons.mpr ⟨fun outer hm hik hok => ?_,
        ih ((List.suffix_cons _ _).trans hes)⟩
      obtain ⟨between, above, rfl⟩ := List.append_of_mem hm
      exact h.start_lt_of_above (s := ⟨outer, above⟩) hok (Tree.mem_preorder_of_suffix hu hes)
        (ElementKind.ne_root_of_introducesScope hik)
        (ElementKind.ne_identifier_of_introducesScope hik) (List.suffix_append _ _)
  exact hsuffix _ List.suffix_rfl

end Parse.Lawful

end PvsIndex
