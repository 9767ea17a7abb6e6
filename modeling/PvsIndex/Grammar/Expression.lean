import PvsIndex.Grammar.Rule

/-! Expressions, the types inside them, and the names that both bind. -/

namespace PvsIndex.Grammar

open Rule

/-- The operators, the loosest first. -/
def layers : List Layer :=
  [ .binary [.iffKw, .equivalence],
    .binary [.impliesKw, .implication],
    .binary [.orKw, .disjunction],
    .binary [.andKw, .ampersand, .conjunction],
    .unary [.notKw, .tilde],
    .binary [.equal, .notEqual, .less, .lessEqual, .greater, .greaterEqual],
    .binary [.plus, .minus],
    .binary [.star, .slash],
    .unary [.minus] ]

def atomStarts : List TokenKind :=
  [.number, .string, .trueKw, .falseKw, .identifier, .openParen, .ifKw, .forallKw, .existsKw,
    .lambdaKw, .letKw]

/-- The tokens that an expression with these operators may begin with. -/
def expressionStarts : List Layer → List TokenKind
  | [] => atomStarts
  | .binary _ :: ls => expressionStarts ls
  | .unary operators :: ls => operators ++ expressionStarts ls

def typeStarts : List TokenKind :=
  [.identifier, .openBracket, .openBrace, .openParen]

def expression : Rule :=
  required (expressionStarts layers) (.call (.expression layers))

def expressions : Rule :=
  separated expression

def type : Rule :=
  required typeStarts (.call .type)

def types : Rule :=
  separated type

def name : Rule :=
  .branch (.next [.identifier]) (.node .identifier .take) (.report (.mismatched [.identifier]))

def binding : Rule :=
  .node .binding (name >> option [.colon] (.take >> type))

def bindings : Rule :=
  separated binding

/-- Where a colon ends the bindings, a name stands without its type or in parentheses. -/
def bindingGroup : Rule :=
  .branch (.next [.openParen]) (.take >> bindings >> expect .closeParen) (.node .binding name)

def binder : Rule :=
  .node .binderExpr (.take >> separated bindingGroup >> expect .colon >> expression)

def letBinding : Rule :=
  .node .letBinding (binding >> expect .equal >> expression)

def letExpression : Rule :=
  .node .letExpr (.take >> separated letBinding >> expect .inKw >> expression)

def ifExpression : Rule :=
  .node .ifExpr <|
    .take >> expression >> expect .thenKw >> expression >>
    .loop (.next [.elsifKw]) (.take >> expression >> expect .thenKw >> expression) >>
    expect .elseKw >> expression >> expect .endifKw

/-- The rest of a list of arguments after its opening parenthesis. -/
def arguments : Rule :=
  .take >> expressions >> expect .closeParen

def atom : Rule :=
  switch .empty
    [ ([.number], .node .numberExpr .take),
      ([.string], .node .stringExpr .take),
      ([.trueKw], .node .trueExpr .take),
      ([.falseKw], .node .falseExpr .take),
      ([.identifier], .node .nameExpr .take),
      ([.openParen], .node .parenExpr arguments),
      ([.ifKw], ifExpression),
      ([.forallKw, .existsKw, .lambdaKw], binder),
      ([.letKw], letExpression) ]

/-- An expression with the operators of the layers. Below the last layer stand atoms, applied to
arguments any number of times. -/
def layered : List Layer → Rule
  | [] => .chain .callExpr atom (.next [.openParen]) arguments
  | .binary operators :: ls =>
    let operand := layered ls
    .chain .binaryExpr operand (.next operators)
      (.take >> required (expressionStarts ls) operand)
  | .unary operators :: ls =>
    let same := .unary operators :: ls
    .branch (.next operators)
      (.node .unaryExpr (.take >> required (expressionStarts same) (.call (.expression same))))
      (layered ls)

def typeExpression : Rule :=
  switch .empty
    [ ([.identifier],
        .node .nameType (.take >> option [.openBracket] (.take >> types >> expect .closeBracket))),
      ([.openBracket],
        .nodeBy (.take >> types) (.next [.arrow]) .functionType .tupleType
          (option [.arrow] (.take >> type) >> expect .closeBracket)),
      ([.openBrace],
        .node .setType (.take >> bindings >> expect .pipe >> expression >> expect .closeBrace)),
      ([.openParen], .node .parenType (.take >> type >> expect .closeParen)) ]

end PvsIndex.Grammar
