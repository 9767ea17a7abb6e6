import PvsIndex.Token.Basic
import PvsIndex.Tree.Kind

/-! Questions about the tokens ahead. Only the kinds of the tokens matter. -/

namespace PvsIndex

def nextKind : List Token → TokenKind
  | [] => .eof
  | t :: _ => t.kind

def secondKind (input : List Token) : TokenKind :=
  nextKind (input.drop 1)

/-- What is left after `(',' name)*`. -/
def afterNames : List Token → List Token
  | comma :: name :: rest =>
    if comma.kind = .comma ∧ name.kind = .identifier then afterNames rest
    else comma :: name :: rest
  | rest => rest

/-- The declaration that begins with a name: the word after the names and their colon tells.
A formula has one name. -/
def declarationAhead (input : List Token) : ElementKind :=
  let rest := input.drop 1
  let colon := afterNames rest
  if nextKind colon ≠ .colon then .functionDecl
  else match secondKind colon with
    | .typeKw | .nonemptyTypeKw => .typeDecl
    | .formulaKw => if nextKind rest = .colon then .formulaDecl else .functionDecl
    | .varKw => .varDecl
    | _ => .functionDecl

inductive Lookahead where
  /-- The next token is of one of these kinds. -/
  | next (kinds : List TokenKind)
  /-- The next token is of none of these kinds. -/
  | past (kinds : List TokenKind)
  /-- The next two tokens are of these kinds. -/
  | pair (first second : TokenKind)
  /-- The token after the next is of this kind, and the text does not end before. -/
  | beyond (kind : TokenKind)
  | declares (kind : ElementKind)

namespace Lookahead

def holds (input : List Token) : Lookahead → Bool
  | next kinds => kinds.contains (nextKind input)
  | past kinds => !kinds.contains (nextKind input)
  | pair first second => nextKind input = first && secondKind input = second
  | beyond kind => nextKind input ≠ .eof && secondKind input = kind
  | declares kind => declarationAhead input = kind

end Lookahead

end PvsIndex
