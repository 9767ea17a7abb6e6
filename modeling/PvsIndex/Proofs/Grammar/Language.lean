import PvsIndex.Grammar.Parse
import PvsIndex.Proofs.Grammar.Phrase

/-! The grammar of theories, as phrases over the kinds of tokens. -/

namespace PvsIndex.Language

abbrev Words := Phrase Nonterminal TokenKind

open Phrase

def one (kind : TokenKind) : Words :=
  word [kind]

/-- One item or more, with commas between them. -/
def list (item : Words) : Words :=
  item >> star (one .comma >> item)

/-- The operators, the loosest first. -/
def operators : List Layer :=
  [ .binary [.iffKw, .equivalence],
    .binary [.impliesKw, .implication],
    .binary [.orKw, .disjunction],
    .binary [.andKw, .ampersand, .conjunction],
    .unary [.notKw, .tilde],
    .binary [.equal, .notEqual, .less, .lessEqual, .greater, .greaterEqual],
    .binary [.plus, .minus],
    .binary [.star, .slash],
    .unary [.minus] ]

example : operators = Grammar.layers :=
  rfl

def expression : Words :=
  name (.expression operators)

def type : Words :=
  name .type

def names : Words :=
  list (one .identifier)

def binding : Words :=
  one .identifier >> option (one .colon >> type)

def bindings : Words :=
  list binding

def bindingGroup : Words :=
  (one .openParen >> bindings >> one .closeParen) <|> one .identifier

def binder : Words :=
  word [.forallKw, .existsKw, .lambdaKw] >> list bindingGroup >> one .colon >> expression

def letBinding : Words :=
  binding >> one .equal >> expression

def letExpression : Words :=
  one .letKw >> list letBinding >> one .inKw >> expression

def ifExpression : Words :=
  one .ifKw >> expression >> one .thenKw >> expression >>
    star (one .elsifKw >> expression >> one .thenKw >> expression) >>
    one .elseKw >> expression >> one .endifKw

def arguments : Words :=
  one .openParen >> list expression >> one .closeParen

def atom : Words :=
  one .number <|> one .string <|> one .trueKw <|> one .falseKw <|> one .identifier <|> arguments <|>
    ifExpression <|> binder <|> letExpression

/-- Expressions with the operators of the layers: between operands of the tighter layers, or before
an operand of the same layer. Below the last layer stand atoms, applied to arguments any number of
times. -/
def layered : List Layer → Words
  | [] => atom >> star arguments
  | .binary operators :: ls => layered ls >> .star (word operators >> layered ls)
  | .unary operators :: ls =>
    (word operators >> name (.expression (.unary operators :: ls))) <|> layered ls

def typeExpression : Words :=
  (one .identifier >> option (one .openBracket >> list type >> one .closeBracket)) <|>
    ((one .openBracket >> list type) >> option (one .arrow >> type) >> one .closeBracket) <|>
    (one .openBrace >> bindings >> one .pipe >> expression >> one .closeBrace) <|>
    (one .openParen >> type >> one .closeParen)

def theoryName : Words :=
  one .identifier >> option (one .openBracket >> list expression >> one .closeBracket)

def typeDeclaration : Words :=
  names >> one .colon >> ((one .typeKw >> option (one .plus)) <|> one .nonemptyTypeKw) >>
    option (word [.equal, .fromKw] >> type)

def formulaDeclaration : Words :=
  one .identifier >> one .colon >> one .formulaKw >> expression

def variableDeclaration : Words :=
  names >> one .colon >> one .varKw >> type

def functionDeclaration : Words :=
  names >> star (one .openParen >> bindings >> one .closeParen) >> one .colon >> type >>
    option (one .equal >> expression)

def declaration : Words :=
  typeDeclaration <|> formulaDeclaration <|> variableDeclaration <|> functionDeclaration

def formal : Words :=
  typeDeclaration <|> (names >> one .colon >> type)

def formals : Words :=
  one .openBracket >> list formal >> one .closeBracket

def exporting : Words :=
  one .exportingKw >> (one .allKw <|> list theoryName)

def importing : Words :=
  one .importingKw >> list theoryName

def part : Words :=
  importing <|> declaration

def theory : Words :=
  one .identifier >> option formals >> one .colon >> one .theoryKw >> option exporting >>
    one .beginKw >> star part >> one .endKw >> one .identifier

def text : Words :=
  plus theory >> one .eof

def production : Nonterminal → Words
  | .text => text
  | .type => typeExpression
  | .expression layers => layered layers

end PvsIndex.Language

namespace PvsIndex.Nonterminal

/-- The sequences of token kinds that a named phrase derives. -/
def Derives (name : Nonterminal) (kinds : List TokenKind) : Prop :=
  Phrase.Derives Language.production (.name name) kinds

end PvsIndex.Nonterminal
