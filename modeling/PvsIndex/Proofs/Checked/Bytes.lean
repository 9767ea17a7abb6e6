import Mathlib.Data.List.Basic
import PvsIndex.Proofs.Checked.Basic

/-! Cutting a text at bytes. -/

namespace PvsIndex.Text

def bytes (cs : List Char) : Nat :=
  cs.foldr (fun c n => c.utf8Size + n) 0

@[simp] theorem bytes_nil : bytes [] = 0 := rfl

@[simp] theorem bytes_cons (c : Char) (cs : List Char) :
    bytes (c :: cs) = c.utf8Size + bytes cs :=
  rfl

@[simp] theorem bytes_append (cs ds : List Char) : bytes (cs ++ ds) = bytes cs + bytes ds := by
  induction cs with
  | nil => simp
  | cons c cs ih => simp [ih, Nat.add_assoc]

/-- The text from a byte on, if a character begins there or the text ends there. -/
def fromByte? : List Char → Nat → Option (List Char)
  | cs, 0 => some cs
  | [], _ + 1 => none
  | c :: cs, n + 1 => if c.utf8Size ≤ n + 1 then fromByte? cs (n + 1 - c.utf8Size) else none

/-- The text before a byte, if a character begins there or the text ends there. -/
def untilByte? : List Char → Nat → Option (List Char)
  | _, 0 => some []
  | [], _ + 1 => none
  | c :: cs, n + 1 =>
    if c.utf8Size ≤ n + 1 then (untilByte? cs (n + 1 - c.utf8Size)).map (c :: ·) else none

theorem fromByte?_append (cs ds : List Char) : fromByte? (cs ++ ds) (bytes cs) = some ds := by
  induction cs with
  | nil => cases ds <;> rfl
  | cons c cs ih =>
    have hpos := c.utf8Size_pos
    obtain ⟨n, hn⟩ : ∃ n, bytes (c :: cs) = n + 1 := ⟨c.utf8Size + bytes cs - 1, by simp; omega⟩
    have hrest : n + 1 - c.utf8Size = bytes cs := by rw [← hn, bytes_cons]; omega
    rw [List.cons_append, hn, fromByte?, if_pos (by rw [← hn, bytes_cons]; omega), hrest, ih]

theorem untilByte?_append (cs ds : List Char) : untilByte? (cs ++ ds) (bytes cs) = some cs := by
  induction cs with
  | nil => cases ds <;> rfl
  | cons c cs ih =>
    have hpos := c.utf8Size_pos
    obtain ⟨n, hn⟩ : ∃ n, bytes (c :: cs) = n + 1 := ⟨c.utf8Size + bytes cs - 1, by simp; omega⟩
    have hrest : n + 1 - c.utf8Size = bytes cs := by rw [← hn, bytes_cons]; omega
    rw [List.cons_append, hn, untilByte?, if_pos (by rw [← hn, bytes_cons]; omega), hrest, ih]
    rfl

end PvsIndex.Text
