import PvsIndex.Fault
import PvsIndex.Source.Word
import PvsIndex.Text.Digits
import PvsIndex.Text.Utf8
import PvsIndex.Text.Whitespace

/-! Messages in a stream of bytes: header lines, a blank line, and as many bytes as announced. -/

namespace PvsIndex.Frame

def lengthHeader : String := "Content-Length"

/-- Why no message is read. -/
inductive Stop where
  | incomplete
  | unreadable

/-- The first line with its line feed, and what follows; none if the stream may still go on in the
line. -/
def splitLine? (ended : Bool) : List UInt8 → Option (List UInt8 × List UInt8)
  | [] => if ended then some ([], []) else none
  | b :: bs =>
    if b = 0x0a then some ([b], bs)
    else (splitLine? ended bs).map fun (line, rest) => (b :: line, rest)

theorem length_of_splitLine? {ended : Bool} {b : UInt8} {bs line rest : List UInt8}
    (h : splitLine? ended (b :: bs) = some (line, rest)) : rest.length ≤ bs.length := by
  induction bs generalizing b line with
  | nil =>
    simp only [splitLine?] at h
    split at h
    · simp_all
    · cases ended <;> simp_all
  | cons c cs ih =>
    simp only [splitLine?] at h
    split at h
    · simp_all
    · obtain ⟨⟨line', rest'⟩, h', heq⟩ := Option.map_eq_some_iff.1 h
      simp only [Prod.mk.injEq] at heq
      obtain ⟨-, rfl⟩ := heq
      exact Nat.le_succ_of_le (ih h')

/-- The length that a header announces; headers of other names leave it as it is. -/
def announced (line : List Char) (length : Option Nat) : Option Nat :=
  let name := line.takeWhile (· ≠ ':')
  match line.drop name.length with
  | [] => length
  | _ :: value =>
    if name.map Char.toLower = lengthHeader.toList.map Char.toLower then
      Text.readBelow Word.limit (Text.trim value)
    else length

/-- The announced length and the stream after the blank line. Blank lines before the length is
known do not count. -/
def readHeader (ended : Bool) (length : Option Nat) : List UInt8 → Except Stop (Nat × List UInt8)
  | [] => .error .incomplete
  | b :: bs =>
    match _h : splitLine? ended (b :: bs) with
    | none => .error .incomplete
    | some (line, rest) =>
      match Text.Utf8.decode? line with
      | none => .error .unreadable
      | some line =>
        let line := Text.trimEnd line
        match length, line.isEmpty with
        | some length, true => .ok (length, rest)
        | length, _ => readHeader ended (announced line length) rest
termination_by bs => bs.length
decreasing_by have := length_of_splitLine? _h; simp only [List.length_cons]; omega

theorem length_of_readHeader {ended : Bool} {found : Option Nat} {stream rest : List UInt8}
    {length : Nat} (h : readHeader ended found stream = .ok (length, rest)) :
    rest.length < stream.length := by
  fun_induction readHeader ended found stream with
  | case1 | case2 | case3 => simp at h
  | case4 _ _ _ _ hsplit =>
    have := length_of_splitLine? hsplit
    simp only [Except.ok.injEq, Prod.mk.injEq] at h
    simp only [← h.2, List.length_cons]
    omega
  | case5 _ _ _ _ hsplit _ _ _ _ _ ih =>
    have := length_of_splitLine? hsplit
    have := ih h
    simp only [List.length_cons]
    omega

/-- The first message of a stream and what follows it. Before the stream has ended, more bytes may
complete the message. -/
def read (ended : Bool) (stream : List UInt8) :
    Except Fault (Except Stop (List UInt8 × List UInt8)) :=
  match readHeader ended none stream with
  | .error stop => .ok (.error stop)
  | .ok (length, rest) =>
    if Word.signedLimit ≤ length then .error .oversized
    else
      let body := rest.take length
      if body.length < length then .ok (.error .incomplete)
      else .ok (.ok (body, rest.drop length))

theorem length_of_read {ended : Bool} {stream body rest : List UInt8}
    (h : read ended stream = .ok (.ok (body, rest))) : rest.length < stream.length := by
  unfold read at h
  split at h
  · simp at h
  · next hh =>
    have := length_of_readHeader hh
    split at h
    · simp at h
    · simp only at h
      split at h
      · simp at h
      · simp only [Except.ok.injEq, Prod.mk.injEq] at h
        rw [← h.2, List.length_drop]
        omega

/-- Every message of a stream that has ended, up to the first that is not complete. -/
def readAll (stream : List UInt8) : Except Fault (List String) :=
  match _h : read true stream with
  | .error fault => .error fault
  | .ok (.error _) => .ok []
  | .ok (.ok (body, rest)) => do
    return String.ofList (Text.Utf8.decodeLossy body) :: (← readAll rest)
termination_by stream.length
decreasing_by exact length_of_read _h

def write (body : String) : String :=
  s!"{lengthHeader}: {body.utf8ByteSize}\r\n\r\n{body}"

end PvsIndex.Frame
