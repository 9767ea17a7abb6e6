/-! Bytes as UTF-8. Where the bytes are no character, the longest beginning of one is passed over
as a whole. -/

namespace PvsIndex.Text.Utf8

/-- What the first byte of a longer character settles: its own bits, the bounds of the second
byte, and how many bytes follow the second. -/
structure Lead where
  bits : Nat
  low : Nat
  high : Nat
  more : Nat

def lead? (b : Nat) : Option Lead :=
  if 0xc2 ≤ b ∧ b ≤ 0xdf then some ⟨b - 0xc0, 0x80, 0xbf, 0⟩
  else if b = 0xe0 then some ⟨0, 0xa0, 0xbf, 1⟩
  else if b = 0xed then some ⟨0xd, 0x80, 0x9f, 1⟩
  else if 0xe1 ≤ b ∧ b ≤ 0xef then some ⟨b - 0xe0, 0x80, 0xbf, 1⟩
  else if b = 0xf0 then some ⟨0, 0x90, 0xbf, 2⟩
  else if b = 0xf4 then some ⟨4, 0x80, 0x8f, 2⟩
  else if 0xf1 ≤ b ∧ b ≤ 0xf3 then some ⟨b - 0xf0, 0x80, 0xbf, 2⟩
  else none

/-- Adds the bits of continuation bytes, `more` of them after the first, which is within the
bounds. Counts the bytes that belong to the character. -/
def addBits (low high : Nat) : Nat → Nat → List UInt8 → Option Nat × Nat
  | _, _, [] => (none, 0)
  | more, code, b :: bs =>
    if low ≤ b.toNat ∧ b.toNat ≤ high then
      let code := code * 0x40 + (b.toNat - 0x80)
      match more with
      | 0 => (some code, 1)
      | more + 1 =>
        let (code, count) := addBits 0x80 0xbf more code bs
        (code, count + 1)
    else (none, 0)

/-- The character that begins with `b`, if there is one, and how many of the bytes after `b` it
takes up. -/
def first (b : UInt8) (bs : List UInt8) : Option Char × Nat :=
  if b.toNat < 0x80 then (some (Char.ofNat b.toNat), 0)
  else match lead? b.toNat with
    | none => (none, 0)
    | some l =>
      let (code, count) := addBits l.low l.high l.more l.bits bs
      (code.map Char.ofNat, count)

/-- The characters, and nothing in the places where there is none. -/
def characters : List UInt8 → List (Option Char)
  | [] => []
  | b :: bs => (first b bs).1 :: characters (bs.drop (first b bs).2)
termination_by bs => bs.length
decreasing_by simp only [List.length_drop, List.length_cons]; omega

def decode? (bs : List UInt8) : Option (List Char) :=
  (characters bs).mapM id

/-- Puts the replacement character where there is none. -/
def decodeLossy (bs : List UInt8) : List Char :=
  (characters bs).map (·.getD '\ufffd')

end PvsIndex.Text.Utf8
