import PvsIndex.Token.Basic
import PvsIndex.Token.Lexeme

/-! Splitting a text into tokens. Every character belongs to exactly one of them. -/

namespace PvsIndex

/-- The tokens of a text, blanks and comments included, and the empty token after them. -/
structure Tokens where
  lexemes : List Token
  endOfText : Token

namespace Tokens

def toList (ts : Tokens) : List Token :=
  ts.lexemes ++ [ts.endOfText]

/-- The tokens that the grammar speaks of, without the end of the text. -/
def significant (ts : Tokens) : List Token :=
  ts.lexemes.filter (!·.kind.isTrivia)

def scanFrom (position : Position) (index : Nat) : List Char → Tokens
  | [] => ⟨[], ⟨.eof, "", ⟨position, position⟩, index⟩⟩
  | c :: cs =>
    let (kind, extent) := Lexeme.scan c cs
    let lexeme := c :: cs.take extent
    let stop := position + .ofChars lexeme
    let rest := scanFrom stop (index + lexeme.length) (cs.drop extent)
    { rest with lexemes := ⟨kind, String.ofList lexeme, ⟨position, stop⟩, index⟩ :: rest.lexemes }
termination_by cs => cs.length
decreasing_by simp only [List.length_drop, List.length_cons]; omega

def ofText (text : String) : Tokens :=
  scanFrom .start 0 text.toList

end Tokens

end PvsIndex
