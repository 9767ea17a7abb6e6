import PvsIndex.Text.Numeric
import PvsIndex.Text.Whitespace
import PvsIndex.Token.Keyword

/-! The lexeme at the beginning of a text: its kind and its extent. -/

namespace PvsIndex.Lexeme

def isLineEnd (c : Char) : Bool :=
  c = '\r' || c = '\n'

def isNameStart (c : Char) : Bool :=
  Text.isAlphabetic c

def isNamePart (c : Char) : Bool :=
  Text.isAlphanumeric c || c = '_' || c = '?'

/-- How many characters at the front satisfy `p`. -/
def run (p : Char → Bool) (cs : List Char) : Nat :=
  (cs.takeWhile p).length

/-- What follows the opening quote: a backslash hides the next character, and a string that is not
closed runs to the end of the text. -/
def stringRest : List Char → Nat
  | [] => 0
  | '"' :: _ => 1
  | '\\' :: _ :: cs => stringRest cs + 2
  | _ :: cs => stringRest cs + 1

/-- What follows the first digit: a point belongs to the number only before a digit. -/
def numberRest (cs : List Char) : Nat :=
  let whole := run Char.isDigit cs
  match cs.drop whole with
  | '.' :: d :: ds => if d.isDigit then whole + 2 + run Char.isDigit ds else whole
  | _ => whole

/-- A sign, as the kind and the number of its characters after the first. -/
def sign (c : Char) (cs : List Char) : TokenKind × Nat :=
  match c, cs with
  | '(', _ => (.openParen, 0)
  | ')', _ => (.closeParen, 0)
  | '[', _ => (.openBracket, 0)
  | ']', _ => (.closeBracket, 0)
  | '\x7b', _ => (.openBrace, 0)
  | '\x7d', _ => (.closeBrace, 0)
  | ':', _ => (.colon, 0)
  | ',', _ => (.comma, 0)
  | '.', _ => (.dot, 0)
  | ';', _ => (.semicolon, 0)
  | '|', _ => (.pipe, 0)
  | '+', _ => (.plus, 0)
  | '*', _ => (.star, 0)
  | '~', _ => (.tilde, 0)
  | '&', _ => (.ampersand, 0)
  | '<', '=' :: '>' :: _ => (.equivalence, 2)
  | '<', '=' :: _ => (.lessEqual, 1)
  | '<', _ => (.less, 0)
  | '>', '=' :: _ => (.greaterEqual, 1)
  | '>', _ => (.greater, 0)
  | '=', '>' :: _ => (.implication, 1)
  | '=', _ => (.equal, 0)
  | '-', '>' :: _ => (.arrow, 1)
  | '-', _ => (.minus, 0)
  | '/', '=' :: _ => (.notEqual, 1)
  | '/', '\\' :: _ => (.conjunction, 1)
  | '/', _ => (.slash, 0)
  | '\\', '/' :: _ => (.disjunction, 1)
  | _, _ => (.other, 0)

/-- The lexeme that begins with `c`: its kind, and how many characters of `cs` belong to it. -/
def scan (c : Char) (cs : List Char) : TokenKind × Nat :=
  if c = '%' then (.comment, run (!isLineEnd ·) cs)
  else if c = '"' then (.string, stringRest cs)
  else if c.isDigit then (.number, numberRest cs)
  else if Text.isWhitespace c then (.space, run Text.isWhitespace cs)
  else if isNameStart c then
    let extent := run isNamePart cs
    ((Keyword.kind? (String.ofList (c :: cs.take extent))).getD .identifier, extent)
  else sign c cs

end PvsIndex.Lexeme
