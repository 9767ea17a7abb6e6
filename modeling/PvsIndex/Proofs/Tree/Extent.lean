import PvsIndex.Proofs.Token.Cover
import PvsIndex.Tree.Basic

/-! Where elements stand in the source: from their first token to their last. -/

namespace PvsIndex

namespace Token

/-- These tokens stand in the source, one after another. -/
structure Placed (source : List Char) (ts : List Token) : Prop where
  fits : ∀ t ∈ ts, t.Fits source
  ordered : ts.Pairwise Before

variable {source : List Char} {ts us : List Token} {t u : Token}

theorem Placed.sublist (h : Placed source ts) (hs : us.Sublist ts) : Placed source us :=
  ⟨fun t ht => h.fits t (hs.subset ht), h.ordered.sublist hs⟩

theorem between_of_pairwise (h : ts.Pairwise Before) {first last : Token}
    (hf : ts.head? = some first) (hl : ts.getLast? = some last) (ht : t ∈ ts) :
    first.startIndex ≤ t.startIndex ∧
      t.startIndex + t.length ≤ last.startIndex + last.length := by
  constructor
  · obtain ⟨us, rfl⟩ := List.head?_eq_some_iff.mp hf
    rcases List.mem_cons.mp ht with rfl | ht
    · exact Nat.le_refl _
    · have := (List.pairwise_cons.mp h).1 t ht
      unfold Before at this
      omega
  · obtain ⟨us, rfl⟩ := List.getLast?_eq_some_iff.mp hl
    rcases List.mem_append.mp ht with ht | ht
    · have := (List.pairwise_append.mp h).2.2 t ht last List.mem_cons_self
      unfold Before at this
      omega
    · obtain rfl := List.mem_singleton.mp ht
      exact Nat.le_refl _

end Token

namespace Tokens

theorem significant_placed (text : String) :
    Token.Placed text.toList (ofText text).significant :=
  Token.Placed.sublist ⟨(ofText_spec text).1, (ofText_spec text).2.1⟩ List.filter_sublist

end Tokens

namespace Element

variable {source : List Char} {e : Element}

theorem ends (e : Element) : (e.tree.firstToken? = none ∧ e.tree.lastToken? = none) ∨
    ∃ first last, e.tree.firstToken? = some first ∧ e.tree.lastToken? = some last ∧
      e.leaves.head? = some first ∧ e.leaves.getLast? = some last := by
  rw [Tree.firstToken?_eq_head?, Tree.lastToken?_eq_getLast?]
  by_cases hne : e.leaves = []
  · exact Or.inl (by rw [← Element.leaves, hne]; exact ⟨rfl, rfl⟩)
  · exact Or.inr ⟨_, _, List.head?_eq_some_head hne, List.getLast?_eq_some_getLast hne,
      List.head?_eq_some_head hne, List.getLast?_eq_some_getLast hne⟩

/-- The element covers the characters of the source from `i` up to `j`; it may hold nothing but the
end of the text. -/
structure Covers (source : List Char) (e : Element) (i j : Nat) : Prop where
  first : ∃ t ∈ e.leaves.head?, t.startIndex = i ∧ t.range.start = .ofIndex source i
  last : ∃ t ∈ e.leaves.getLast?, t.startIndex + t.length = j ∧ t.range.stop = .ofIndex source j
  within : ∀ t ∈ e.leaves, i ≤ t.startIndex ∧ t.startIndex + t.length ≤ j
  le : i ≤ j
  stop_le : j ≤ source.length
  range : e.range = ⟨.ofIndex source i, .ofIndex source j⟩
  text : e.sourceText source = String.ofList ((source.drop i).take (j - i))

theorem exists_covers (hs : ∀ t ∈ e.leaves, t.Shows source) (ho : e.leaves.Pairwise Token.Before)
    (hne : e.leaves ≠ []) : ∃ i j, e.Covers source i j := by
  obtain ⟨hf, hl⟩ | ⟨first, last, hf, hl, hhead, hlast⟩ := e.ends
  · rw [Tree.firstToken?_eq_head?] at hf
    exact absurd (List.head?_eq_none_iff.mp hf) hne
  · have hbetween := fun t => @Token.between_of_pairwise _ t ho first last hhead hlast
    have hmem := List.mem_of_mem_head? hhead
    have hmem' := List.mem_of_getLast? hlast
    have hle := (hbetween last hmem').1
    have hle' := (hbetween first hmem).2
    have hstop := (hs last hmem').stop_le
    refine ⟨first.startIndex, last.startIndex + last.length,
      ⟨first, hhead, rfl, by rw [(hs first hmem).range]⟩,
      ⟨last, hlast, rfl, by rw [(hs last hmem').range]⟩, hbetween, by omega, hstop, ?_, ?_⟩
    · rw [Element.range, hf, hl]
      dsimp only [Range.unite]
      rw [(hs first hmem).range, (hs last hmem').range]
      dsimp only
      rw [min_eq_left (Position.ofIndex_le (by omega) (by omega)),
        max_eq_right (Position.ofIndex_le (by omega) (by omega))]
    · rw [Element.sourceText, hf, hl]

/-- The element covers the characters of the source from `i` up to `j`. -/
structure Extent (source : List Char) (e : Element) (i j : Nat) : Prop where
  first : ∃ t, e.leaves.head? = some t ∧ t.startIndex = i
  last : ∃ t, e.leaves.getLast? = some t ∧ t.startIndex + t.length = j
  within : ∀ t ∈ e.leaves, i ≤ t.startIndex ∧ t.startIndex + t.length ≤ j
  lt : i < j
  le : j ≤ source.length
  range : e.range = ⟨.ofIndex source i, .ofIndex source j⟩
  text : e.sourceText source = String.ofList ((source.drop i).take (j - i))

theorem exists_extent (h : Token.Placed source e.leaves) (hne : e.leaves ≠ []) :
    ∃ i j, e.Extent source i j := by
  obtain ⟨i, j, hc⟩ := exists_covers (fun t ht => (h.fits t ht).shows) h.ordered hne
  obtain ⟨first, hfirst, hi, -⟩ := hc.first
  obtain ⟨last, hlast, hj, -⟩ := hc.last
  have hpos := (h.fits first (List.mem_of_mem_head? hfirst)).length_pos
  have hle := (hc.within first (List.mem_of_mem_head? hfirst)).2
  exact ⟨i, j, ⟨first, hfirst, hi⟩, ⟨last, hlast, hj⟩, hc.within, by omega, hc.stop_le, hc.range,
    hc.text⟩

variable {d : Element} {i j k l : Nat}

theorem Extent.contains_iff (h : e.Extent source i j) (hd : d.Extent source k l) :
    e.range.Contains d.range ↔ i ≤ k ∧ l ≤ j := by
  have := h.lt
  have := h.le
  have := hd.lt
  have := hd.le
  rw [h.range, hd.range, Range.Contains, Position.ofIndex_le_iff (by omega) (by omega),
    Position.ofIndex_le_iff (by omega) (by omega)]

theorem Extent.le_of_subset (h : e.Extent source i j) (hd : d.Extent source k l)
    (hs : d.leaves ⊆ e.leaves) : i ≤ k ∧ l ≤ j := by
  obtain ⟨t, ht, rfl⟩ := hd.first
  obtain ⟨u, hu, rfl⟩ := hd.last
  exact ⟨(h.within t (hs (List.mem_of_mem_head? ht))).1,
    (h.within u (hs (List.mem_of_getLast? hu))).2⟩

theorem Covers.contains (h : e.Covers source i j) (h' : d.Covers source k l)
    (hs : d.leaves ⊆ e.leaves) : e.range.Contains d.range := by
  obtain ⟨t, ht, rfl, -⟩ := h'.first
  obtain ⟨u, hu, rfl, -⟩ := h'.last
  have hle := (h.within t (hs (List.mem_of_mem_head? ht))).1
  have hle' := (h.within u (hs (List.mem_of_getLast? hu))).2
  have hstop := h.stop_le
  have hbelow := h'.le
  rw [h.range, h'.range]
  exact ⟨Position.ofIndex_le hle (by omega), Position.ofIndex_le hle' hstop⟩

theorem Covers.le_of_before (h : e.Covers source i j) (h' : d.Covers source k l)
    (hb : ∀ x ∈ e.leaves, ∀ y ∈ d.leaves, x.Before y) : e.range.stop ≤ d.range.start := by
  obtain ⟨u, hu, rfl, -⟩ := h.last
  obtain ⟨t, ht, rfl, -⟩ := h'.first
  have hbefore := hb u (List.mem_of_getLast? hu) t (List.mem_of_mem_head? ht)
  have hle := h'.le
  have hstop := h'.stop_le
  rw [h.range, h'.range]
  exact Position.ofIndex_le hbefore (by omega)

end Element

end PvsIndex
