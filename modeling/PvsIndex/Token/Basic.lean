import PvsIndex.Source.Range
import PvsIndex.Token.Kind

/-! Tokens with their places in the text. -/

namespace PvsIndex

structure Token where
  kind : TokenKind
  text : String
  range : Range
  /-- The number of characters of the text before the token. -/
  startIndex : Nat
  deriving DecidableEq, Inhabited

namespace Token

def length (t : Token) : Nat :=
  t.text.toList.length

/-- The index of the last character; of an empty token, the one before its start. -/
def stopIndex (t : Token) : Int :=
  t.startIndex + t.length - 1

/-- How a complaint shows the token. -/
def displayText (t : Token) : String :=
  if t.kind = .eof then TokenKind.displayName .eof else t.text

end Token

end PvsIndex
