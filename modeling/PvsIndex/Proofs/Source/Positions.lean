import Mathlib.Order.Defs.LinearOrder
import PvsIndex.Source.Range

/-! Positions are ordered, and that of a character grows with its index. -/

namespace PvsIndex

namespace Position

@[ext] theorem ext {p q : Position} (hl : p.line = q.line) (hc : p.character = q.character) :
    p = q := by
  cases p
  cases q
  simp_all

instance : LinearOrder Position where
  le_refl p := by simp [le_iff]
  le_trans p q r := by
    simp only [le_iff]
    omega
  lt_iff_le_not_ge p q := by
    simp only [le_iff, lt_iff]
    omega
  le_antisymm p q h k := by
    simp only [le_iff] at h k
    ext <;> omega
  le_total p q := by
    simp only [le_iff]
    omega
  toDecidableLE := inferInstance
  toDecidableLT := inferInstance
  toDecidableEq := inferInstance
  min_def _ _ := rfl
  max_def _ _ := rfl

variable {p d e : Position} {c : Char} {cs ds : List Char}

@[simp] theorem add_line (p d : Position) : (p + d).line = p.line + d.line := rfl

theorem add_character (p d : Position) :
    (p + d).character = if 1 ≤ d.line then d.character else p.character + d.character := rfl

theorem add_assoc (p d e : Position) : p + d + e = p + (d + e) := by
  ext
  · simp [Nat.add_assoc]
  · simp only [add_character, add_line]
    split_ifs <;> omega

theorem zero_add (d : Position) : 0 + d = d := by
  ext
  · exact Nat.zero_add _
  · rw [add_character]
    split_ifs
    · rfl
    · exact Nat.zero_add _

theorem add_zero (p : Position) : p + 0 = p := rfl

theorem foldl_ofChar (p : Position) (cs : List Char) :
    cs.foldl (fun p c => p + ofChar c) p = p + ofChars cs := by
  induction cs generalizing p with
  | nil => rfl
  | cons c cs ih =>
    rw [ofChars, List.foldl_cons, List.foldl_cons, ih, ih, zero_add, add_assoc]

theorem ofChars_append (cs ds : List Char) : ofChars (cs ++ ds) = ofChars cs + ofChars ds := by
  rw [ofChars, List.foldl_append]
  exact foldl_ofChar _ ds

theorem ofChars_cons (c : Char) (cs : List Char) : ofChars (c :: cs) = ofChar c + ofChars cs := by
  rw [ofChars, List.foldl_cons, zero_add]
  exact foldl_ofChar _ cs

theorem ofChars_line (cs : List Char) : (ofChars cs).line = cs.count '\n' := by
  induction cs with
  | nil => rfl
  | cons c cs ih =>
    rw [ofChars_cons, add_line, ih, List.count_cons, Nat.add_comm]
    unfold ofChar
    split_ifs <;> simp_all

theorem le_add (p d : Position) : p ≤ p + d := by
  rw [le_iff, add_line, add_character]
  split_ifs <;> omega

theorem lt_add_ofChar (p : Position) (c : Char) : p < p + ofChar c := by
  rw [lt_iff, add_line, add_character]
  unfold ofChar
  split_ifs <;> simp at *

theorem lt_add_ofChars (p : Position) (h : cs ≠ []) : p < p + ofChars cs := by
  obtain ⟨c, cs, rfl⟩ := List.exists_cons_of_ne_nil h
  rw [ofChars_cons, ← add_assoc]
  exact lt_of_lt_of_le (lt_add_ofChar p c) (le_add _ _)

def ofIndex (source : List Char) (i : Nat) : Position :=
  start + ofChars (source.take i)

variable {source : List Char} {i j : Nat}

theorem ofIndex_add (source : List Char) (i n : Nat) :
    ofIndex source (i + n) = ofIndex source i + ofChars ((source.drop i).take n) := by
  rw [ofIndex, List.take_add, ofChars_append, ← add_assoc]
  rfl

theorem ofIndex_lt (h : i < j) (hj : j ≤ source.length) : ofIndex source i < ofIndex source j := by
  obtain ⟨n, rfl⟩ := Nat.exists_eq_add_of_lt h
  rw [Nat.add_assoc, ofIndex_add]
  refine lt_add_ofChars _ (List.ne_nil_of_length_pos ?_)
  simp only [List.length_take, List.length_drop]
  omega

theorem ofIndex_le (h : i ≤ j) (hj : j ≤ source.length) : ofIndex source i ≤ ofIndex source j := by
  rcases Nat.eq_or_lt_of_le h with rfl | h
  · exact le_refl _
  · exact le_of_lt (ofIndex_lt h hj)

theorem ofIndex_le_iff (hi : i ≤ source.length) (hj : j ≤ source.length) :
    ofIndex source i ≤ ofIndex source j ↔ i ≤ j := by
  refine ⟨fun h => ?_, fun h => ofIndex_le h hj⟩
  by_contra hlt
  exact absurd (ofIndex_lt (Nat.lt_of_not_le hlt) hi) (not_lt_of_ge h)

end Position

end PvsIndex
