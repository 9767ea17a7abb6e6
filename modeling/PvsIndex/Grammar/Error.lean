import PvsIndex.Token.Basic

/-! Syntax errors: a token and what the grammar has against it. -/

namespace PvsIndex

inductive Complaint where
  /-- Something else has to stand in the token's place. -/
  | mismatched (expected : List TokenKind)
  /-- The token has to go; something else follows, or may follow. -/
  | extraneous (expected : List TokenKind)
  /-- No type or expression begins with the token. -/
  | noViable
  deriving DecidableEq

namespace Complaint

/-- A single kind by its name, several as a set. -/
def renderExpected : List TokenKind → String
  | [kind] => kind.displayName
  | kinds => "\x7b" ++ ", ".intercalate (kinds.map TokenKind.displayName) ++ "\x7d"

def message (offending : String) : Complaint → String
  | mismatched expected => s!"mismatched input '{offending}' expecting {renderExpected expected}"
  | extraneous expected => s!"extraneous input '{offending}' expecting {renderExpected expected}"
  | noViable => s!"no viable alternative at input '{offending}'"

end Complaint

structure SyntaxError where
  token : Token
  complaint : Complaint
  deriving DecidableEq

namespace SyntaxError

def position (e : SyntaxError) : Position :=
  e.token.range.start

def message (e : SyntaxError) : String :=
  e.complaint.message e.token.displayText

end SyntaxError

end PvsIndex
