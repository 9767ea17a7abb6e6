import PvsIndex.Proofs.Checked.Bytes
import PvsIndex.Token.Lexer

/-! Splitting a text into tokens byte by byte, with every check on the way. -/

namespace PvsIndex.Checked

open Text

/-- A walk through a text. What lies between the last token and the place reached belongs to the
next token. -/
structure Scanner where
  source : List Char
  /-- The place reached, in bytes. -/
  current : Nat
  /-- The end of the last token: in bytes, in characters, and as a position. -/
  last : Nat
  lastIndex : Nat
  lastPosition : Position
  tokens : List Token

namespace Scanner

def ofText (text : String) : Scanner :=
  ⟨text.toList, 0, 0, 0, .start, []⟩

def checkOrder (s : Scanner) : Checked Unit := do
  require .astray (s.last ≤ s.current)
  require .astray (s.current ≤ bytes s.source)

def atEnd (s : Scanner) : Bool :=
  bytes s.source ≤ s.current

/-- Past the end of the text stand zeros. -/
def nth (s : Scanner) (n : Nat) : Checked Char := do
  let rest ← demand .cut (fromByte? s.source (min s.current (bytes s.source)))
  return rest.getD n '\x00'

def next (s : Scanner) : Checked Char :=
  s.nth 0

def currentText (s : Scanner) : Checked (List Char) := do
  require .cut (s.last ≤ s.current)
  let rest ← demand .cut (fromByte? s.source s.last)
  demand .cut (untilByte? rest (s.current - s.last))

def advance (s : Scanner) (n : Nat) : Scanner :=
  { s with current := s.current + n }

def bumpMany (s : Scanner) (n : Nat) : Checked Scanner := do
  require .pastEnd (s.current + n ≤ bytes s.source)
  (s.advance n).checkOrder
  return s.advance n

def bump (s : Scanner) : Checked Scanner := do
  s.bumpMany (← s.next).utf8Size

def isFollowedBy (s : Scanner) (word : List Char) : Checked Bool := do
  let rest ← demand .cut (fromByte? s.source s.current)
  return word.isPrefixOf rest

def eat (s : Scanner) (word : List Char) : Checked Scanner := do
  if ← s.isFollowedBy word then s.bumpMany (bytes word) else return s

def push (s : Scanner) (kind : TokenKind) (text : List Char) (range : Range) : Scanner :=
  { s with
    last := s.current
    lastIndex := s.lastIndex + text.length
    lastPosition := range.stop
    tokens := s.tokens ++ [⟨kind, String.ofList text, range, s.lastIndex⟩] }

def commit (s : Scanner) (kind : TokenKind) : Checked Scanner := do
  let text ← s.currentText
  let range ← Range.checked s.lastPosition (s.lastPosition + .ofChars text)
  (s.push kind text range).checkOrder
  return s.push kind text range

def finish (s : Scanner) : Checked (List Token) := do
  require .uncovered (s.current = s.last)
  require .uncovered (s.current = bytes s.source)
  let s ← s.commit .eof
  require .uncovered (s.tokens.getLast?.map (·.kind) = some .eof)
  return s.tokens

def bumpWhile (p : Char → Bool) (s : Scanner) : Checked Scanner := do
  if p (← s.next) then (← s.bump) |>.bumpWhile p else return s
partial_fixpoint

def space (s : Scanner) : Checked Scanner := do
  require .wrongStart (isWhitespace (← s.next))
  (← s.bumpWhile isWhitespace).commit .space

def bumpLine (s : Scanner) : Checked Scanner := do
  if s.atEnd then return s
  else if Lexeme.isLineEnd (← s.next) then return s
  else (← s.bump) |>.bumpLine
partial_fixpoint

def comment (s : Scanner) : Checked Scanner := do
  require .wrongStart (← s.isFollowedBy ['%'])
  (← (← s.eat ['%']).bumpLine).commit .comment

def number (s : Scanner) : Checked Scanner := do
  require .wrongStart (← s.next).isDigit
  let s ← s.bumpWhile Char.isDigit
  if (← s.next) = '.' ∧ (← s.nth 1).isDigit then
    (← (← s.bump).bumpWhile Char.isDigit).commit .number
  else s.commit .number

def bumpString (s : Scanner) : Checked Scanner := do
  if s.atEnd then return s
  else
    let c ← s.next
    if c = '\\' then
      let s ← s.bump
      if s.atEnd then s |>.bumpString else (← s.bump) |>.bumpString
    else if c = '"' then return s
    else (← s.bump) |>.bumpString
partial_fixpoint

def string (s : Scanner) : Checked Scanner := do
  require .wrongStart ((← s.next) = '"')
  (← (← (← s.bump).bumpString).eat ['"']).commit .string

def word (s : Scanner) : Checked Scanner := do
  require .wrongStart (Lexeme.isNameStart (← s.next))
  let s ← s.bumpWhile Lexeme.isNamePart
  s.commit ((Keyword.kind? (String.ofList (← s.currentText))).getD .identifier)

def bumpTimes : Nat → Scanner → Checked Scanner
  | 0, s => return s
  | n + 1, s => do bumpTimes n (← s.bump)

def sign (s : Scanner) : Checked Scanner := do
  let (kind, more) := Lexeme.sign (← s.next) [← s.nth 1, ← s.nth 2]
  (← s.bumpTimes (more + 1)).commit kind

def lexeme (s : Scanner) (c : Char) : Checked Scanner :=
  if c = '%' then s.comment
  else if c = '"' then s.string
  else if c.isDigit then s.number
  else if isWhitespace c then s.space
  else if Lexeme.isNameStart c then s.word
  else s.sign

def scan (s : Scanner) : Checked Scanner := do
  if s.atEnd then return s else (← s.lexeme (← s.next)) |>.scan
partial_fixpoint

end Scanner

/-- The tokens of a text, blanks and comments included, and the empty token after them. -/
def tokenize (text : String) : Checked (List Token) := do
  (← (Scanner.ofText text).scan).finish

end PvsIndex.Checked
