import Mathlib.Data.Char
import PvsIndex.Text.Utf8

/-! The characters of a text are read back from its bytes. -/

namespace PvsIndex.Text.Utf8

def encode (cs : List Char) : List UInt8 :=
  cs.flatMap String.utf8EncodeChar

@[simp] theorem encode_nil : encode [] = [] :=
  rfl

@[simp] theorem encode_cons (c : Char) (cs : List Char) :
    encode (c :: cs) = String.utf8EncodeChar c ++ encode cs :=
  rfl

@[simp] theorem encode_append (cs ds : List Char) : encode (cs ++ ds) = encode cs ++ encode ds :=
  List.flatMap_append

theorem toUTF8_eq_encode (s : String) : s.toUTF8.data.toList = encode s.toList := by
  obtain ⟨cs, rfl⟩ := s.exists_eq_ofList
  rw [String.toUTF8_eq_toByteArray, String.toByteArray_ofList, List.utf8Encode,
    List.toList_data_toByteArray, String.toList_ofList, encode]

theorem toNat_continuation (k : Nat) : (UInt8.ofNat (k % 64 + 128)).toNat = k % 64 + 128 := by
  rw [UInt8.toNat_ofNat']
  omega

section Continuation

variable {low high k : Nat} (hlow : low ≤ k % 64 + 128) (hhigh : k % 64 + 128 ≤ high)

include hlow hhigh

theorem addBits_last (code : Nat) (bs : List UInt8) :
    addBits low high 0 code (UInt8.ofNat (k % 64 + 128) :: bs) =
      (some (code * 64 + k % 64), 1) := by
  simp only [addBits, toNat_continuation, hlow, hhigh, and_self, if_true, Nat.add_sub_cancel]

theorem addBits_more (more code : Nat) (bs : List UInt8) :
    addBits low high (more + 1) code (UInt8.ofNat (k % 64 + 128) :: bs) =
      ((addBits 0x80 0xbf more (code * 64 + k % 64) bs).1,
        (addBits 0x80 0xbf more (code * 64 + k % 64) bs).2 + 1) := by
  simp only [addBits, toNat_continuation, hlow, hhigh, and_self, if_true, Nat.add_sub_cancel]

end Continuation

theorem lead?_two {v : Nat} (hlow : 0x80 ≤ v) (hhigh : v ≤ 0x7ff) :
    lead? (v / 64 % 32 + 192) = some ⟨v / 64, 0x80, 0xbf, 0⟩ := by
  have hbits : v / 64 % 32 + 192 - 0xc0 = v / 64 := by omega
  rw [lead?, if_pos (by omega), hbits]

/-- The bounds of the second byte leave out what is written shorter, and the surrogates. -/
theorem lead?_three {v : Nat} (hlow : 0x800 ≤ v) (hhigh : v ≤ 0xffff)
    (hvalid : v < 0xd800 ∨ 0xdfff < v) :
    ∃ low high, lead? (v / 4096 % 16 + 224) = some ⟨v / 4096, low, high, 1⟩ ∧
      low ≤ v / 64 % 64 + 128 ∧ v / 64 % 64 + 128 ≤ high := by
  have hbits : v / 4096 % 16 + 224 - 0xe0 = v / 4096 := by omega
  unfold lead?
  rw [if_neg (by omega)]
  by_cases he0 : v / 4096 = 0
  · rw [if_pos (by omega), he0]
    exact ⟨_, _, rfl, by omega, by omega⟩
  rw [if_neg (by omega)]
  by_cases hed : v / 4096 = 0xd
  · rw [if_pos (by omega), hed]
    exact ⟨_, _, rfl, by omega, by omega⟩
  · rw [if_neg (by omega), if_pos (by omega), hbits]
    exact ⟨_, _, rfl, by omega, by omega⟩

theorem lead?_four {v : Nat} (hlow : 0x10000 ≤ v) (hhigh : v ≤ 0x10ffff) :
    ∃ low high, lead? (v / 262144 % 8 + 240) = some ⟨v / 262144, low, high, 2⟩ ∧
      low ≤ v / 4096 % 64 + 128 ∧ v / 4096 % 64 + 128 ≤ high := by
  have hbits : v / 262144 % 8 + 240 - 0xf0 = v / 262144 := by omega
  unfold lead?
  rw [if_neg (by omega), if_neg (by omega), if_neg (by omega), if_neg (by omega)]
  by_cases hf0 : v / 262144 = 0
  · rw [if_pos (by omega), hf0]
    exact ⟨_, _, rfl, by omega, by omega⟩
  rw [if_neg (by omega)]
  by_cases hf4 : v / 262144 = 4
  · rw [if_pos (by omega), hf4]
    exact ⟨_, _, rfl, by omega, by omega⟩
  · rw [if_neg (by omega), if_pos (by omega), hbits]
    exact ⟨_, _, rfl, by omega, by omega⟩

/-- A character that begins with a lead byte, from its bits. -/
theorem first_lead {b : Nat} (hlow : 0x80 ≤ b) (hhigh : b < 0x100) {l : Lead}
    (hlead : lead? b = some l) (bs : List UInt8) {code count : Nat}
    (hbits : addBits l.low l.high l.more l.bits bs = (some code, count)) :
    first (UInt8.ofNat b) bs = (some (Char.ofNat code), count) := by
  have hb : (UInt8.ofNat b).toNat = b := by
    rw [UInt8.toNat_ofNat']
    omega
  rw [first, hb, if_neg (by omega), hlead]
  dsimp only
  rw [hbits, Option.map_some]

/-- The bytes of a character give the character, whatever follows them. -/
theorem first_encodeChar (c : Char) (bs : List UInt8) :
    ∃ b rest, String.utf8EncodeChar c = b :: rest ∧
      first b (rest ++ bs) = (some c, rest.length) := by
  have hvalid : c.toNat < 0xd800 ∨ 0xdfff < c.toNat ∧ c.toNat < 0x110000 := c.valid
  obtain ⟨v, hv⟩ : ∃ v, c.toNat = v := ⟨_, rfl⟩
  have hc : c = Char.ofNat v := by rw [← hv, Char.ofNat_toNat]
  rw [hv] at hvalid
  unfold String.utf8EncodeChar
  rw [show c.val.toNat = v from hv, hc]
  dsimp only
  split_ifs with h1 h2 h3
  · refine ⟨_, _, rfl, ?_⟩
    have hb : (UInt8.ofNat v).toNat = v := by
      rw [UInt8.toNat_ofNat']
      omega
    rw [first, hb, if_pos (by omega)]
    rfl
  · refine ⟨_, _, rfl, ?_⟩
    refine first_lead (by omega) (by omega) (lead?_two (by omega) h2) _ ?_
    dsimp only
    rw [List.singleton_append, addBits_last (by omega) (by omega)]
    rw [show v / 64 * 64 + v % 64 = v by omega]
    rfl
  · refine ⟨_, _, rfl, ?_⟩
    obtain ⟨low, high, hlead, hlow, hhigh⟩ := lead?_three (v := v) (by omega) h3 (by omega)
    refine first_lead (by omega) (by omega) hlead _ ?_
    rw [List.cons_append, List.singleton_append, addBits_more hlow hhigh,
      addBits_last (by omega) (by omega)]
    rw [show (v / 4096 * 64 + v / 64 % 64) * 64 + v % 64 = v by omega]
    rfl
  · refine ⟨_, _, rfl, ?_⟩
    obtain ⟨low, high, hlead, hlow, hhigh⟩ := lead?_four (v := v) (by omega) (by omega)
    refine first_lead (by omega) (by omega) hlead _ ?_
    rw [List.cons_append, List.cons_append, List.singleton_append, addBits_more hlow hhigh,
      addBits_more (by omega) (by omega), addBits_last (by omega) (by omega)]
    rw [show ((v / 262144 * 64 + v / 4096 % 64) * 64 + v / 64 % 64) * 64 + v % 64 = v by omega]
    rfl

theorem characters_encode (cs : List Char) : characters (encode cs) = cs.map some := by
  induction cs with
  | nil => rw [encode_nil, characters, List.map_nil]
  | cons c cs ih =>
    obtain ⟨b, rest, hc, hfirst⟩ := first_encodeChar c (encode cs)
    rw [encode_cons, hc, List.cons_append, characters, hfirst, List.drop_left, ih, List.map_cons]

theorem decode?_encode (cs : List Char) : decode? (encode cs) = some cs := by
  rw [decode?, characters_encode, List.mapM_map]
  exact (List.mapM_pure (m := Option)).trans (congrArg some (List.map_id cs))

theorem decodeLossy_encode (cs : List Char) : decodeLossy (encode cs) = cs := by
  rw [decodeLossy, characters_encode, List.map_map]
  exact List.map_id cs

theorem high_of_mem_encodeChar {c : Char} (h : 0x80 ≤ c.toNat) {b : UInt8}
    (hb : b ∈ String.utf8EncodeChar c) : 0x80 ≤ b.toNat := by
  have hvalid : c.toNat < 0xd800 ∨ 0xdfff < c.toNat ∧ c.toNat < 0x110000 := c.valid
  unfold String.utf8EncodeChar at hb
  rw [show c.val.toNat = c.toNat from rfl] at hb
  dsimp only at hb
  rw [if_neg (by omega)] at hb
  split_ifs at hb
  all_goals
    simp only [List.mem_cons, List.not_mem_nil, or_false] at hb
    rcases hb with rfl | rfl | rfl | rfl
  all_goals
    rw [UInt8.toNat_ofNat']
    omega

theorem newline_notMem_encode {cs : List Char} (h : '\n' ∉ cs) : (0x0a : UInt8) ∉ encode cs := by
  intro hmem
  obtain ⟨c, hc, hbyte⟩ := List.mem_flatMap.mp hmem
  by_cases hlow : c.toNat < 0x80
  · have hone : String.utf8EncodeChar c = [UInt8.ofNat c.toNat] := by
      unfold String.utf8EncodeChar
      exact if_pos (Nat.le_of_lt_succ hlow)
    have hvalue := congrArg UInt8.toNat (List.mem_singleton.mp (hone ▸ hbyte))
    rw [UInt8.toNat_ofNat', Nat.mod_eq_of_lt (by omega)] at hvalue
    have hnewline : c = '\n' := by rw [← Char.ofNat_toNat c, ← hvalue]; rfl
    exact h (hnewline ▸ hc)
  · have hhigh := high_of_mem_encodeChar (by omega) hbyte
    exact absurd hhigh (by decide)

end PvsIndex.Text.Utf8
