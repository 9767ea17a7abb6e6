/-! The kinds of tokens. -/

namespace PvsIndex

/-- Keywords have the suffix `Kw`; `formulaKw` stands for every word that introduces a formula.
Logical and arithmetic signs are named for what they mean. -/
inductive TokenKind where
  | eof | space | comment | other | number | string | identifier
  | allKw | andKw | beginKw | elseKw | elsifKw | endKw | endifKw | existsKw | exportingKw
  | falseKw | forallKw | formulaKw | fromKw | ifKw | iffKw | impliesKw | importingKw | inKw
  | lambdaKw | letKw | nonemptyTypeKw | notKw | orKw | thenKw | theoryKw | trueKw | typeKw
  | varKw
  | ampersand | disjunction | colon | comma | dot | equal | openBrace | openBracket | openParen
  | less | lessEqual | equivalence | minus | pipe | plus | closeBrace | closeBracket
  | closeParen | greater | greaterEqual | implication | arrow | semicolon | slash | conjunction
  | notEqual | star | tilde
  deriving DecidableEq, Inhabited

namespace TokenKind

/-- Blanks and comments separate tokens and are no part of the tree. -/
def isTrivia : TokenKind → Bool
  | space | comment => true
  | _ => false

def name : TokenKind → String
  | eof => "Eof"
  | space => "Space"
  | comment => "Comment"
  | other => "Other"
  | number => "Number"
  | string => "Str"
  | identifier => "Ident"
  | allKw => "All"
  | andKw => "And"
  | beginKw => "Begin"
  | elseKw => "Else"
  | elsifKw => "Elsif"
  | endKw => "End"
  | endifKw => "Endif"
  | existsKw => "Exists"
  | exportingKw => "Exporting"
  | falseKw => "False"
  | forallKw => "Forall"
  | formulaKw => "FormulaKeyword"
  | fromKw => "From"
  | ifKw => "If"
  | iffKw => "Iff"
  | impliesKw => "Implies"
  | importingKw => "Importing"
  | inKw => "In"
  | lambdaKw => "Lambda"
  | letKw => "Let"
  | nonemptyTypeKw => "NonemptyType"
  | notKw => "Not"
  | orKw => "Or"
  | thenKw => "Then"
  | theoryKw => "Theory"
  | trueKw => "True"
  | typeKw => "Type"
  | varKw => "Var"
  | ampersand => "Amp"
  | disjunction => "BackslashSlash"
  | colon => "Colon"
  | comma => "Comma"
  | dot => "Dot"
  | equal => "Equal"
  | openBrace => "LeftBrace"
  | openBracket => "LeftBracket"
  | openParen => "LeftParen"
  | less => "LeftAngle"
  | lessEqual => "LeftEqual"
  | equivalence => "LeftEqualRight"
  | minus => "Minus"
  | pipe => "Pipe"
  | plus => "Plus"
  | closeBrace => "RightBrace"
  | closeBracket => "RightBracket"
  | closeParen => "RightParen"
  | greater => "RightAngle"
  | greaterEqual => "RightEqual"
  | implication => "RightFatArrow"
  | arrow => "RightSlimArrow"
  | semicolon => "Semi"
  | slash => "Slash"
  | conjunction => "SlashBackslash"
  | notEqual => "SlashEqual"
  | star => "Star"
  | tilde => "Tilde"

/-- What a complaint calls a token of this kind that it would rather have seen. -/
def displayName : TokenKind → String
  | eof => "<EOF>"
  | space => "WS"
  | comment => "COMMENT"
  | other => "UNKNOWN"
  | number => "NUMBER"
  | string => "STRING"
  | identifier => "IDENTIFIER"
  | allKw => "'ALL'"
  | andKw => "'AND'"
  | beginKw => "'BEGIN'"
  | elseKw => "'ELSE'"
  | elsifKw => "'ELSIF'"
  | endKw => "'END'"
  | endifKw => "'ENDIF'"
  | existsKw => "'EXISTS'"
  | exportingKw => "'EXPORTING'"
  | falseKw => "'FALSE'"
  | forallKw => "'FORALL'"
  | formulaKw => "FORMULA_NAME"
  | fromKw => "'FROM'"
  | ifKw => "'IF'"
  | iffKw => "'IFF'"
  | impliesKw => "'IMPLIES'"
  | importingKw => "'IMPORTING'"
  | inKw => "'IN'"
  | lambdaKw => "'LAMBDA'"
  | letKw => "'LET'"
  | nonemptyTypeKw => "'NONEMPTY_TYPE'"
  | notKw => "'NOT'"
  | orKw => "'OR'"
  | thenKw => "'THEN'"
  | theoryKw => "'THEORY'"
  | trueKw => "'TRUE'"
  | typeKw => "'TYPE'"
  | varKw => "'VAR'"
  | ampersand => "'&'"
  | disjunction => "'\\/'"
  | colon => "':'"
  | comma => "','"
  | dot => "'.'"
  | equal => "'='"
  | openBrace => "'\x7b'"
  | openBracket => "'['"
  | openParen => "'('"
  | less => "'<'"
  | lessEqual => "'<='"
  | equivalence => "'<=>'"
  | minus => "'-'"
  | pipe => "'|'"
  | plus => "'+'"
  | closeBrace => "'\x7d'"
  | closeBracket => "']'"
  | closeParen => "')'"
  | greater => "'>'"
  | greaterEqual => "'>='"
  | implication => "'=>'"
  | arrow => "'->'"
  | semicolon => "';'"
  | slash => "'/'"
  | conjunction => "'/\\'"
  | notEqual => "'/='"
  | star => "'*'"
  | tilde => "'~'"

end TokenKind

end PvsIndex
