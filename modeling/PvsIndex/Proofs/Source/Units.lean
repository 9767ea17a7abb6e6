import PvsIndex.Proofs.Source.Positions
import PvsIndex.Source.Word

/-! Counting in code units keeps the order of positions, and stays within machine words for texts
that fit in memory. -/

namespace PvsIndex

namespace Utf16

theorem units_le (c : Char) : units c ≤ 2 := by
  unfold units
  split_ifs <;> omega

theorem unitsIn_mono (cs : List Char) {m n : Nat} (h : m ≤ n) : unitsIn cs m ≤ unitsIn cs n := by
  induction cs generalizing m n with
  | nil => exact h
  | cons c cs ih =>
    cases m with
    | zero => exact Nat.zero_le _
    | succ m =>
      cases n with
      | zero => omega
      | succ n => exact Nat.add_le_add_left (ih (Nat.le_of_succ_le_succ h)) _

theorem unitsIn_le (cs : List Char) (n : Nat) : unitsIn cs n ≤ n + cs.length := by
  induction cs generalizing n with
  | nil => exact Nat.le_refl _
  | cons c cs ih =>
    cases n with
    | zero => exact Nat.zero_le _
    | succ n =>
      have hunits := units_le c
      have hrest := ih n
      rw [unitsIn, List.length_cons]
      omega

theorem units_pos (c : Char) : 1 ≤ units c := by
  unfold units
  split_ifs <;> omega

theorem charactersIn_unitsIn (cs : List Char) (n : Nat) : charactersIn cs (unitsIn cs n) = n := by
  induction cs generalizing n with
  | nil => rfl
  | cons c cs ih =>
    have hpos := units_pos c
    cases n with
    | zero => rw [unitsIn, charactersIn, if_pos (by omega)]
    | succ n => rw [unitsIn, charactersIn, if_neg (by omega), Nat.add_sub_cancel_left, ih]

theorem charactersIn_mono (cs : List Char) {m n : Nat} (h : m ≤ n) :
    charactersIn cs m ≤ charactersIn cs n := by
  induction cs generalizing m n with
  | nil => exact h
  | cons c cs ih =>
    rw [charactersIn, charactersIn]
    split_ifs
    · exact Nat.le_refl _
    · exact Nat.zero_le _
    · omega
    · exact Nat.succ_le_succ (ih (Nat.sub_le_sub_right h _))

theorem length_rowOf_le (row : Nat) (cs : List Char) : (rowOf row cs).length ≤ cs.length := by
  induction cs generalizing row with
  | nil => cases row <;> exact Nat.le_refl _
  | cons c cs ih =>
    cases row with
    | zero => exact (List.takeWhile_sublist _).length_le
    | succ row =>
      rw [rowOf, List.length_cons]
      split_ifs
      · exact Nat.le_succ_of_le (ih row)
      · exact Nat.le_succ_of_le (ih (row + 1))

end Utf16

namespace Position

theorem ofChars_le (cs : List Char) :
    (ofChars cs).line ≤ cs.length ∧ (ofChars cs).character ≤ cs.length := by
  induction cs with
  | nil => exact ⟨Nat.le_refl _, Nat.le_refl _⟩
  | cons c cs ih =>
    rw [ofChars_cons, add_line, add_character, List.length_cons]
    unfold ofChar
    split_ifs <;> dsimp only at * <;> omega

theorem ofIndex_bounds (source : List Char) {i : Nat} (h : i ≤ source.length) :
    1 ≤ (ofIndex source i).line ∧ (ofIndex source i).line ≤ i + 1 ∧
      (ofIndex source i).character ≤ i := by
  have hle := ofChars_le (source.take i)
  rw [List.length_take, Nat.min_eq_left h] at hle
  rw [ofIndex, add_line, add_character, start]
  split_ifs <;> dsimp only <;> omega

end Position

namespace Utf16Position

variable {text : String} {p q : Position}

theorem ofPosition_row (h : p.line = q.line) :
    (ofPosition p text).row = (ofPosition q text).row := by
  rw [ofPosition, ofPosition, h]

theorem ofPosition_mono (h : p.line = q.line) (hc : p.character ≤ q.character) :
    (ofPosition p text).column16 ≤ (ofPosition q text).column16 := by
  rw [ofPosition, ofPosition, h]
  exact Utf16.unitsIn_mono _ hc

theorem toPosition_ofPosition (h : 1 ≤ p.line) : (ofPosition p text).toPosition text = p := by
  rw [ofPosition, toPosition, Utf16.charactersIn_unitsIn]
  ext
  · exact Nat.sub_add_cancel h
  · rfl

theorem toPosition_mono (text : String) {q r : Utf16Position} (h : q.row = r.row)
    (hc : q.column16 ≤ r.column16) :
    (q.toPosition text).character ≤ (r.toPosition text).character := by
  rw [toPosition, toPosition, h]
  exact Utf16.charactersIn_mono _ hc

/-- Positions in a text that fits in memory are words. -/
theorem ofPosition_fits (h : text.toList.length < Word.signedLimit)
    (hl : p.line ≤ text.toList.length + 1) (hc : p.character ≤ text.toList.length) :
    (ofPosition p text).checked = .ok (ofPosition p text) := by
  have hunits := Utf16.unitsIn_le (Utf16.rowOf (p.line - 1) text.toList) p.character
  have hrow := Utf16.length_rowOf_le (p.line - 1) text.toList
  have hlimit : Word.limit = 2 * Word.signedLimit := rfl
  refine if_pos ⟨?_, ?_⟩
  · rw [ofPosition]
    dsimp only
    omega
  · rw [ofPosition]
    dsimp only
    omega

theorem ofIndex_fits (h : text.toList.length < Word.signedLimit) {i : Nat}
    (hi : i ≤ text.toList.length) :
    (ofPosition (.ofIndex text.toList i) text).checked =
      .ok (ofPosition (.ofIndex text.toList i) text) := by
  obtain ⟨-, hline, hcharacter⟩ := Position.ofIndex_bounds text.toList hi
  exact ofPosition_fits h (by omega) (by omega)

end Utf16Position

end PvsIndex
