import Mathlib.Algebra.BigOperators.Group.List.Basic
import Mathlib.Algebra.Order.Monoid.Unbundled.Basic
import PvsIndex.Proofs.Source.Positions

/-! Positions are a monoid in which texts are measured: the measure of several texts in a row is the
sum of their measures. Addition does not commute, but on the left it cancels and keeps the order. -/

namespace PvsIndex

namespace Position

instance : AddMonoid Position where
  add_assoc := add_assoc
  zero_add := zero_add
  add_zero := add_zero
  nsmul := nsmulRec

/-- From one place, the longer distance leads further. -/
instance : AddLeftStrictMono Position where
  elim p d e (h : d < e) := by
    change p + d < p + e
    rw [lt_iff] at h ⊢
    rw [add_line, add_line, add_character, add_character]
    split_ifs <;> omega

instance : AddLeftMono Position :=
  addLeftMono_of_addLeftStrictMono Position

instance : IsLeftCancelAdd Position :=
  AddLeftStrictMono.toIsLeftCancelAdd

theorem ofText_append (s t : String) : ofText (s ++ t) = ofText s + ofText t := by
  rw [ofText, String.toList_append, ofChars_append]
  rfl

theorem sum_eq_listSum (ps : List Position) : sum ps = ps.sum :=
  List.sum_eq_foldl.symm

theorem sum_map_ofText (ss : List String) : sum (ss.map ofText) = ofText (String.join ss) := by
  rw [sum_eq_listSum]
  induction ss with
  | nil => rfl
  | cons s ss ih => rw [List.map_cons, List.sum_cons, ih, String.join_cons, ofText_append]

theorem ofText_pos {s : String} (h : s ≠ "") : 0 < ofText s := by
  have hne : s.toList ≠ [] := fun hnil => h (String.toList_eq_nil_iff.mp hnil)
  have hlt := lt_add_ofChars 0 hne
  rwa [zero_add] at hlt

theorem ofText_eq_zero_iff {s : String} : ofText s = 0 ↔ s = "" := by
  constructor
  · intro h
    by_contra hne
    exact absurd h (ofText_pos hne).ne'
  · rintro rfl
    rfl

/-- Distances add up in any grouping, those of texts as the texts are joined. No text leads back,
and only the empty one leads nowhere. -/
theorem measures_texts (a b c : Position) (s t : String) (ss : List String) :
    (a + b) + c = a + (b + c) ∧ 0 + a = a ∧ a + 0 = a ∧
      ofText (s ++ t) = ofText s + ofText t ∧
      sum (ss.map ofText) = ofText (String.join ss) ∧
      a ≤ a + ofText s ∧ (a = a + ofText s ↔ s = "") ∧
      (a + ofText s < a + ofText (s ++ t) ↔ t ≠ "") := by
  refine ⟨add_assoc a b c, zero_add a, add_zero a, ofText_append s t, sum_map_ofText ss,
    le_add a _, ?_, ?_⟩
  · rw [left_eq_add, ofText_eq_zero_iff]
  · have hgrows : 0 < ofText t ↔ t ≠ "" :=
      ⟨fun h ht => h.ne' (ofText_eq_zero_iff.mpr ht), ofText_pos⟩
    rw [ofText_append, add_lt_add_iff_left, lt_add_iff_pos_right, hgrows]

example : ofText "ab" + ofText "\n" ≠ ofText "\n" + ofText "ab" := by
  decide +kernel

end Position

end PvsIndex
