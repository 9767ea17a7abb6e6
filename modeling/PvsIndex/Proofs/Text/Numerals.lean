import Mathlib.Data.Char
import PvsIndex.Text.Digits
import PvsIndex.Text.Whitespace

/-! Numbers among blanks are read back from their digits. -/

namespace PvsIndex.Text

theorem trimEnd_concat_blank {c : Char} (h : isWhitespace c = true) (cs : List Char) :
    trimEnd (cs ++ [c]) = trimEnd cs := by
  rw [trimEnd, List.reverse_concat, List.dropWhile_cons_of_pos h, trimEnd]

theorem trimEnd_of_last {cs : List Char} (h : ∀ c ∈ cs.getLast?, isWhitespace c = false) :
    trimEnd cs = cs := by
  rw [trimEnd]
  cases hcs : cs.reverse with
  | nil => rw [List.reverse_eq_nil_iff.mp hcs]; rfl
  | cons c ds =>
    have hlast : isWhitespace c = false := h c (by rw [← List.head?_reverse, hcs]; rfl)
    rw [List.dropWhile_cons_of_neg (by rw [hlast]; exact Bool.false_ne_true), ← hcs,
      List.reverse_reverse]

theorem trimEnd_prefix (cs : List Char) : trimEnd cs <+: cs := by
  rw [← List.reverse_suffix, trimEnd, List.reverse_reverse]
  exact List.dropWhile_suffix _

theorem isWhitespace_of_isDigit {c : Char} (h : c.isDigit = true) : isWhitespace c = false := by
  have hrange := Char.isDigit_iff_toNat.mp h
  rw [isWhitespace, Bool.eq_false_iff, Ne, inRanges_iff]
  simp only [whitespaceRanges, List.mem_cons, List.not_mem_nil, or_false, exists_eq_or_imp,
    exists_eq_left]
  have hzero : '0'.toNat = 48 := rfl
  have hnine : '9'.toNat = 57 := rfl
  omega

theorem trimEnd_of_digits {cs : List Char} (h : cs ≠ []) (hdigit : ∀ c ∈ cs, c.isDigit = true)
    (before : List Char) : trimEnd (before ++ cs) = before ++ cs := by
  refine trimEnd_of_last fun c hc => isWhitespace_of_isDigit (hdigit c ?_)
  rw [List.getLast?_append, List.getLast?_eq_some_getLast h, Option.some_or] at hc
  exact Option.some.inj hc ▸ List.getLast_mem h

/-- A number is read back from its digits. -/
theorem readBelow_toDigits {limit n : Nat} (h : n < limit) :
    readBelow limit (Nat.toDigits 10 n) = some n := by
  have hdigit {c : Char} (hc : c ∈ Nat.toDigits 10 n) : c.isDigit = true :=
    Nat.isDigit_of_mem_toDigits (by decide) (by decide) hc
  have hvalue : digitsValue (Nat.toDigits 10 n) = n := by
    have hread := Nat.ofDigitChars_ten_toDigits (n := n)
    simpa only [digitsValue, Nat.ofDigitChars_eq_foldl, Nat.mul_comm 10] using hread
  cases hcs : Nat.toDigits 10 n with
  | nil => exact absurd hcs Nat.toDigits_ne_nil
  | cons c cs =>
    have hall : (c :: cs).all Char.isDigit = true := by
      rw [List.all_eq_true, ← hcs]
      exact fun _ => hdigit
    have hplus : c ≠ '+' := by
      rintro rfl
      exact absurd (hdigit (hcs ▸ List.mem_cons_self)) (by decide)
    rw [hcs] at hvalue
    unfold readBelow
    split
    · next heq => exact absurd (List.cons.inj heq).1 hplus
    · dsimp only
      rw [hall, hvalue, if_neg (by simp), if_pos h]

end PvsIndex.Text
