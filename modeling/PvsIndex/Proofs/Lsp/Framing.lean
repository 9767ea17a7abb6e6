import Mathlib.Data.List.TakeWhile
import PvsIndex.Lsp.Frame
import PvsIndex.Proofs.Text.Numerals
import PvsIndex.Proofs.Text.Utf8

/-! Messages are read back from the stream as they were sent, and none before its last byte. -/

namespace PvsIndex.Frame

open Text Text.Utf8

theorem splitLine?_line (ended : Bool) {line : List UInt8} (h : (0x0a : UInt8) ∉ line)
    (rest : List UInt8) :
    splitLine? ended (line ++ 0x0a :: rest) = some (line ++ [0x0a], rest) := by
  induction line with
  | nil => rfl
  | cons b line ih =>
    rw [List.mem_cons, not_or] at h
    rw [List.cons_append, splitLine?, if_neg (Ne.symm h.1), ih h.2]
    rfl

theorem splitLine?_open {line : List UInt8} (h : (0x0a : UInt8) ∉ line) :
    splitLine? true line = some (line, []) := by
  induction line with
  | nil => rfl
  | cons b line ih =>
    rw [List.mem_cons, not_or] at h
    rw [splitLine?, if_neg (Ne.symm h.1), ih h.2]
    rfl

variable {ended : Bool} {found : Option Nat}

theorem readHeader_of_splitLine? {stream line rest : List UInt8} (hne : stream ≠ [])
    (h : splitLine? ended stream = some (line, rest)) :
    readHeader ended found stream = match decode? line with
      | none => .error .unreadable
      | some line => match found, (trimEnd line).isEmpty with
        | some length, true => .ok (length, rest)
        | found, _ => readHeader ended (announced (trimEnd line) found) rest := by
  cases stream with
  | nil => exact absurd rfl hne
  | cons b bs =>
    rw [readHeader]
    split
    · next hnone => rw [h] at hnone; cases hnone
    · next hsome =>
      rw [h] at hsome
      cases hsome
      rfl

theorem readHeader_line {line : List Char} (h : '\n' ∉ line) (rest : List UInt8) :
    readHeader ended none (encode line ++ 0x0a :: rest) =
      readHeader ended (announced (trimEnd line) none) rest := by
  have hline : encode line ++ [0x0a] = encode (line ++ ['\n']) := (encode_append line ['\n']).symm
  rw [readHeader_of_splitLine? (by simp) (splitLine?_line ended (newline_notMem_encode h) rest),
    hline, decode?_encode]
  dsimp only
  rw [trimEnd_concat_blank (by decide)]

theorem readHeader_blank (length : Nat) (rest : List UInt8) :
    readHeader ended (some length) (0x0d :: 0x0a :: rest) = .ok (length, rest) := by
  have hline : (0x0a : UInt8) ∉ [(0x0d : UInt8)] := by decide
  have hsplit := splitLine?_line ended hline rest
  rw [List.singleton_append] at hsplit
  rw [readHeader_of_splitLine? (List.cons_ne_nil _ _) hsplit]
  have hblank : decode? ([0x0d] ++ [0x0a]) = some ['\r', '\n'] := decode?_encode ['\r', '\n']
  rw [hblank]
  rfl

theorem readHeader_open {line : List UInt8} (h : (0x0a : UInt8) ∉ line) :
    ∃ stop, readHeader true none line = .error stop := by
  rcases eq_or_ne line [] with rfl | hne
  · exact ⟨_, by rw [readHeader]⟩
  rw [readHeader_of_splitLine? hne (splitLine?_open h)]
  cases decode? line with
  | none => exact ⟨_, rfl⟩
  | some line => exact ⟨_, by dsimp only; rw [readHeader]⟩

/-- A line that says nothing of the length: what stands before its first colon, if it has one, is
another name. Blank lines are among these. -/
def Foreign (line : List Char) : Prop :=
  ':' ∈ line → (line.takeWhile (· ≠ ':')).map Char.toLower ≠ lengthHeader.toList.map Char.toLower

instance (line : List Char) : Decidable (Foreign line) :=
  inferInstanceAs (Decidable (_ → _))

theorem announced_of_notMem {line : List Char} (h : ':' ∉ line) :
    announced line found = found := by
  have hname : line.takeWhile (· ≠ ':') = line :=
    List.takeWhile_eq_self_iff.mpr fun c hc => decide_eq_true (ne_of_mem_of_not_mem hc h)
  rw [announced, hname, List.drop_length]

theorem takeWhile_colon {name : List Char} (h : ':' ∉ name) (value : List Char) :
    (name ++ ':' :: value).takeWhile (· ≠ ':') = name := by
  rw [List.takeWhile_append_of_pos fun c hc => decide_eq_true (ne_of_mem_of_not_mem hc h),
    List.takeWhile_cons_of_neg (by simp), List.append_nil]

theorem announced_colon {name : List Char} (h : ':' ∉ name) (value : List Char) :
    announced (name ++ ':' :: value) found =
      if name.map Char.toLower = lengthHeader.toList.map Char.toLower then
        readBelow Word.limit (trim value)
      else found := by
  rw [announced, takeWhile_colon h, List.drop_left]

theorem announced_foreign {line : List Char} (h : Foreign line) :
    announced (trimEnd line) found = found := by
  obtain ⟨blanks, hblanks⟩ := trimEnd_prefix line
  by_cases hcolon : ':' ∈ trimEnd line
  · obtain ⟨name, value, htrim, hname⟩ := List.eq_append_cons_of_mem hcolon
    rw [htrim, List.append_assoc, List.cons_append] at hblanks
    have hother := h (hblanks ▸ by simp)
    rw [← hblanks, takeWhile_colon hname] at hother
    rw [htrim, announced_colon hname, if_neg hother]
  · exact announced_of_notMem hcolon

/-- The line that announces a length, without its line feed. -/
def announcement (length : Nat) : List Char :=
  lengthHeader.toList ++ ':' :: ' ' :: Nat.toDigits 10 length ++ ['\r']

theorem announced_announcement {length : Nat} (h : length < Word.limit) :
    announced (trimEnd (announcement length)) found = some length := by
  have hdigit : ∀ c ∈ Nat.toDigits 10 length, c.isDigit = true := fun c hc =>
    Nat.isDigit_of_mem_toDigits (by decide) (by decide) hc
  have htrim : trim (' ' :: Nat.toDigits 10 length) = Nat.toDigits 10 length := by
    rw [trim, ← List.singleton_append, trimEnd_of_digits Nat.toDigits_ne_nil hdigit,
      List.singleton_append, List.dropWhile_cons_of_pos (by decide)]
    cases hcs : Nat.toDigits 10 length with
    | nil => rfl
    | cons c cs =>
      have hc := isWhitespace_of_isDigit (hdigit c (hcs ▸ List.mem_cons_self))
      rw [List.dropWhile_cons_of_neg (by rw [hc]; exact Bool.false_ne_true)]
  have hline : trimEnd (announcement length) =
      lengthHeader.toList ++ ':' :: ' ' :: Nat.toDigits 10 length := by
    rw [announcement, trimEnd_concat_blank (by decide)]
    have := trimEnd_of_digits Nat.toDigits_ne_nil hdigit (lengthHeader.toList ++ [':', ' '])
    rwa [List.append_assoc] at this
  rw [hline, announced_colon (by decide), if_pos rfl, htrim, readBelow_toDigits h]

/-- A message as it is sent, with lines before its own. -/
structure Framed where
  preamble : List String
  body : String

namespace Framed

/-- The lines before the message are no announcements of a length, and the message is not empty
and fits in memory. -/
structure Proper (f : Framed) : Prop where
  oneLine : ∀ line ∈ f.preamble, '\n' ∉ line.toList
  foreign : ∀ line ∈ f.preamble, Foreign line.toList
  nonempty : f.body ≠ ""
  size : f.body.utf8ByteSize < Word.signedLimit

def text (f : Framed) : String :=
  String.join (f.preamble.map (· ++ "\n")) ++ write f.body

def bytes (f : Framed) : List UInt8 :=
  f.text.toUTF8.data.toList

end Framed

def lineBytes (lines : List String) : List UInt8 :=
  lines.flatMap fun line => encode line.toList ++ [0x0a]

theorem lineBytes_cons (line : String) (lines : List String) :
    lineBytes (line :: lines) = encode line.toList ++ 0x0a :: lineBytes lines := by
  rw [lineBytes, List.flatMap_cons, List.append_assoc]
  rfl

def bodyBytes (body : List UInt8) : List UInt8 :=
  encode (announcement body.length) ++ 0x0a :: 0x0d :: 0x0a :: body

theorem length_encode (s : String) : (encode s.toList).length = s.utf8ByteSize := by
  rw [← toUTF8_eq_encode, Array.length_toList]
  rfl

theorem encode_write (body : String) :
    encode (write body).toList = bodyBytes (encode body.toList) := by
  have htext : (write body).toList =
      announcement body.utf8ByteSize ++ '\n' :: '\r' :: '\n' :: body.toList := by
    have hdigits : (toString body.utf8ByteSize).toList = Nat.toDigits 10 body.utf8ByteSize :=
      (congrArg String.toList Nat.repr_eq_ofList_toDigits).trans String.toList_ofList
    simp only [write, announcement, String.toList_append, hdigits, List.append_assoc]
    rfl
  rw [htext, encode_append, bodyBytes, length_encode]
  rfl

theorem encode_join (lines : List String) :
    encode (String.join (lines.map (· ++ "\n"))).toList = lineBytes lines := by
  rw [String.toList_join, List.flatMap_map, encode, List.flatMap_assoc, lineBytes]
  congr 1
  funext line
  rw [String.toList_append]
  exact encode_append _ _

theorem Framed.bytes_eq (f : Framed) :
    f.bytes = lineBytes f.preamble ++ bodyBytes (encode f.body.toList) := by
  rw [bytes, toUTF8_eq_encode, text, String.toList_append, encode_append, encode_write, encode_join]

theorem newline_notMem_announcement (length : Nat) : '\n' ∉ announcement length := by
  have hdigits : '\n' ∉ Nat.toDigits 10 length := fun h =>
    absurd (Nat.isDigit_of_mem_toDigits (by decide) (by decide) h) (by decide)
  have hname : '\n' ∉ lengthHeader.toList := by decide
  simp [announcement, hdigits, hname]

theorem readHeader_bodyBytes {body : List UInt8} (h : body.length < Word.limit)
    (rest : List UInt8) :
    readHeader ended none (bodyBytes body ++ rest) = .ok (body.length, body ++ rest) := by
  rw [bodyBytes, List.append_assoc, List.cons_append, List.cons_append, List.cons_append,
    readHeader_line (newline_notMem_announcement _), announced_announcement h, readHeader_blank]

theorem readHeader_lineBytes {lines : List String} (hline : ∀ line ∈ lines, '\n' ∉ line.toList)
    (hforeign : ∀ line ∈ lines, Foreign line.toList) (rest : List UInt8) :
    readHeader ended none (lineBytes lines ++ rest) = readHeader ended none rest := by
  induction lines with
  | nil => rfl
  | cons line lines ih =>
    rw [List.forall_mem_cons] at hline hforeign
    rw [lineBytes_cons, List.append_assoc, List.cons_append, readHeader_line hline.1,
      announced_foreign hforeign.1]
    exact ih hline.2 hforeign.2

/-- A message is read whole, and no further. -/
theorem Framed.Proper.read {f : Framed} (h : f.Proper) (rest : List UInt8) :
    Frame.read ended (f.bytes ++ rest) = .ok (.ok (encode f.body.toList, rest)) := by
  have hsize := h.size
  rw [← length_encode] at hsize
  have hlimit : Word.signedLimit < Word.limit := by decide
  have hheader : readHeader ended none (f.bytes ++ rest) =
      .ok ((encode f.body.toList).length, encode f.body.toList ++ rest) := by
    rw [f.bytes_eq, List.append_assoc, readHeader_lineBytes h.oneLine h.foreign,
      readHeader_bodyBytes (hsize.trans hlimit)]
  rw [Frame.read, hheader]
  dsimp only
  rw [if_neg hsize.not_ge, List.take_left, if_neg (Nat.lt_irrefl _), List.drop_left]

/-- Of what is cut before its end, no message is read. -/
def Whole (stream : List UInt8) : Prop :=
  ∀ n < stream.length, ∃ stop, read true (stream.take n) = .ok (.error stop)

theorem read_of_readHeader_error {stream : List UInt8} {stop : Stop}
    (h : readHeader ended none stream = .error stop) : read ended stream = .ok (.error stop) := by
  rw [read, h]

theorem read_take_line {line : List Char} (h : '\n' ∉ line) {n : Nat}
    (hn : n ≤ (encode line).length) (rest : List UInt8) :
    ∃ stop, read true ((encode line ++ rest).take n) = .ok (.error stop) := by
  rw [List.take_append_of_le_length hn]
  obtain ⟨stop, hstop⟩ :=
    readHeader_open fun hmem => newline_notMem_encode h (List.mem_of_mem_take hmem)
  exact ⟨stop, read_of_readHeader_error hstop⟩

theorem Whole.lineBytes {stream : List UInt8} (h : Whole stream) {lines : List String}
    (hline : ∀ line ∈ lines, '\n' ∉ line.toList)
    (hforeign : ∀ line ∈ lines, Foreign line.toList) : Whole (lineBytes lines ++ stream) := by
  induction lines with
  | nil => exact h
  | cons line lines ih =>
    rw [List.forall_mem_cons] at hline hforeign
    intro n hn
    rw [lineBytes_cons, List.append_assoc, List.cons_append] at hn ⊢
    rcases Nat.lt_or_ge (encode line.toList).length n with hlong | hshort
    · obtain ⟨m, rfl⟩ := Nat.exists_eq_add_of_lt hlong
      rw [Nat.add_assoc, List.take_length_add_append, List.take_succ_cons, read,
        readHeader_line hline.1, announced_foreign hforeign.1]
      rw [List.length_append, List.length_cons] at hn
      exact ih hline.2 hforeign.2 m (by omega)
    · exact read_take_line hline.1 hshort _

theorem readHeader_return (length : Nat) :
    readHeader true (some length) [0x0d] = .ok (length, []) := by
  have hreturn : decode? [0x0d] = some ['\r'] := decode?_encode ['\r']
  rw [readHeader_of_splitLine? (List.cons_ne_nil _ _) (splitLine?_open (by decide)), hreturn]
  rfl

theorem read_of_readHeader_ok {stream part : List UInt8} {length : Nat}
    (h : readHeader ended none stream = .ok (length, part)) (hlength : length < Word.signedLimit)
    (hpart : part.length < length) : read ended stream = .ok (.error .incomplete) := by
  rw [read, h]
  dsimp only
  rw [if_neg hlength.not_ge, if_pos (by rw [List.length_take]; omega)]

theorem whole_bodyBytes {body : List UInt8} (h : body.length < Word.signedLimit)
    (hpos : 0 < body.length) : Whole (bodyBytes body) := by
  intro n hn
  have hline := newline_notMem_announcement body.length
  have hlimit : body.length < Word.limit := h.trans (by decide)
  rw [bodyBytes] at hn ⊢
  rcases Nat.lt_or_ge (encode (announcement body.length)).length n with hlong | hshort
  · obtain ⟨m, rfl⟩ := Nat.exists_eq_add_of_lt hlong
    rw [List.length_append, List.length_cons, List.length_cons, List.length_cons] at hn
    have hheader : readHeader true none
        ((encode (announcement body.length) ++ 0x0a :: 0x0d :: 0x0a :: body).take
          ((encode (announcement body.length)).length + m + 1)) =
        readHeader true (some body.length) ((0x0d :: 0x0a :: body).take m) := by
      rw [Nat.add_assoc, List.take_length_add_append, List.take_succ_cons, readHeader_line hline,
        announced_announcement hlimit]
    match m with
    | 0 => exact ⟨_, read_of_readHeader_error (hheader.trans (by rw [List.take_zero, readHeader]))⟩
    | 1 => exact ⟨_, read_of_readHeader_ok (hheader.trans (readHeader_return _)) h hpos⟩
    | m + 2 =>
      refine ⟨_, read_of_readHeader_ok (hheader.trans (readHeader_blank _ (body.take m))) h ?_⟩
      rw [List.length_take]
      omega
  · exact read_take_line hline hshort _

theorem Framed.Proper.whole {f : Framed} (h : f.Proper) : Whole f.bytes := by
  have hsize := h.size
  have hpos : 0 < f.body.utf8ByteSize :=
    Nat.pos_of_ne_zero fun hzero => h.nonempty (String.utf8ByteSize_eq_zero_iff.mp hzero)
  rw [← length_encode] at hsize hpos
  rw [f.bytes_eq]
  exact (whole_bodyBytes hsize hpos).lineBytes h.oneLine h.foreign

def stream (frames : List Framed) : List UInt8 :=
  frames.flatMap Framed.bytes

theorem readAll_of_error {bytes : List UInt8} {stop : Stop}
    (h : read true bytes = .ok (.error stop)) : readAll bytes = .ok [] := by
  rw [readAll]
  split
  · next hfault => rw [h] at hfault; cases hfault
  · rfl
  · next hbody => rw [h] at hbody; cases hbody

theorem readAll_of_ok {bytes body rest : List UInt8}
    (h : read true bytes = .ok (.ok (body, rest))) :
    readAll bytes = (readAll rest).map (String.ofList (decodeLossy body) :: ·) := by
  rw [readAll]
  split
  · next hfault => rw [h] at hfault; cases hfault
  · next herror => rw [h] at herror; cases herror
  · next hbody =>
    rw [h] at hbody
    cases hbody
    cases readAll rest <;> rfl

theorem Framed.Proper.readAll_append {f : Framed} (h : f.Proper) (rest : List UInt8) :
    readAll (f.bytes ++ rest) = (readAll rest).map (f.body :: ·) := by
  rw [readAll_of_ok (h.read rest), decodeLossy_encode, String.ofList_toList]

theorem readAll_nil : readAll [] = .ok [] := by
  have hheader : readHeader true none [] = .error .incomplete := by rw [readHeader]
  exact readAll_of_error (read_of_readHeader_error hheader)

/-- Where a stream is cut, the messages before the cut are read, and nothing of the next one. -/
theorem readAll_take {frames : List Framed} (h : ∀ f ∈ frames, f.Proper) (n : Nat) :
    ∃ k, readAll ((stream frames).take n) = .ok ((frames.take k).map Framed.body) ∧
      ∀ i < frames.length, i < k ↔ (stream (frames.take (i + 1))).length ≤ n := by
  induction frames generalizing n with
  | nil =>
    refine ⟨0, ?_, fun i hi => absurd hi (Nat.not_lt_zero i)⟩
    rw [stream, List.flatMap_nil, List.take_nil, readAll_nil, List.take_zero, List.map_nil]
  | cons f frames ih =>
    rw [List.forall_mem_cons] at h
    have hstream : stream (f :: frames) = f.bytes ++ stream frames := List.flatMap_cons
    have hbefore (i : Nat) : (stream ((f :: frames).take (i + 1))).length =
        f.bytes.length + (stream (frames.take i)).length := by
      rw [List.take_succ_cons, stream, List.flatMap_cons, List.length_append]
      rfl
    rw [hstream]
    rcases Nat.lt_or_ge n f.bytes.length with hcut | hwhole
    · obtain ⟨stop, hstop⟩ := h.1.whole n hcut
      refine ⟨0, ?_, fun i _ => ?_⟩
      · rw [List.take_append_of_le_length hcut.le, readAll_of_error hstop]
        rfl
      · rw [hbefore]
        omega
    · obtain ⟨m, rfl⟩ := Nat.exists_eq_add_of_le hwhole
      obtain ⟨k, hk, hiff⟩ := ih h.2 m
      refine ⟨k + 1, ?_, fun i hi => ?_⟩
      · rw [List.take_length_add_append, h.1.readAll_append, hk]
        rfl
      · rw [hbefore]
        cases i with
        | zero =>
          rw [List.take_zero, stream, List.flatMap_nil, List.length_nil]
          omega
        | succ i =>
          have := hiff i (Nat.lt_of_succ_lt_succ hi)
          omega

/-- The messages of a stream are read as they were sent. Of a stream that is cut, exactly those are
read whose last byte stands before the cut. -/
theorem readAll_stream {frames : List Framed} (h : ∀ f ∈ frames, f.Proper) :
    readAll (stream frames) = .ok (frames.map Framed.body) ∧
      ∀ n, ∃ k, readAll ((stream frames).take n) = .ok ((frames.take k).map Framed.body) ∧
        ∀ i < frames.length, i < k ↔ (stream (frames.take (i + 1))).length ≤ n := by
  refine ⟨?_, readAll_take h⟩
  obtain ⟨k, hk, hiff⟩ := readAll_take h (stream frames).length
  have hall : frames.length ≤ k := by
    by_contra hlt
    have hk := Nat.lt_of_not_le hlt
    have hsplit := congrArg (fun fs => (stream fs).length) (List.take_append_drop (k + 1) frames)
    simp only [stream, List.flatMap_append, List.length_append] at hsplit
    have := (hiff k hk).mpr (by simp only [stream]; omega)
    omega
  rwa [List.take_length, List.take_of_length_le hall] at hk

/-- A blank line, another header and a body of characters of several bytes. -/
theorem readAll_stream_headers :
    readAll (stream
      [⟨["\r", "Content-Type: text\r"], "[\"𝔸\"]"⟩, ⟨[], "Content-Length: 1\r\n\r\n"⟩]) =
      .ok ["[\"𝔸\"]", "Content-Length: 1\r\n\r\n"] := by
  refine (readAll_stream fun f hf => ?_).1
  simp only [List.mem_cons, List.not_mem_nil, or_false] at hf
  rcases hf with rfl | rfl
  · exact ⟨by decide, by decide, by decide, by decide⟩
  · exact ⟨by decide, by decide, by decide, by decide⟩

end PvsIndex.Frame
