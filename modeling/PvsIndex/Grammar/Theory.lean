import PvsIndex.Grammar.Expression

/-! Declarations and the theories that hold them. -/

namespace PvsIndex.Grammar

open Rule

/-- A comma continues the list only before a name. -/
def names : Rule :=
  name >> .loop (.pair .comma .identifier) (.take >> name)

def theoryName : Rule :=
  expect .identifier >> option [.openBracket] (.take >> expressions >> expect .closeBracket)

def typeDeclaration : Rule :=
  .node .typeDecl <|
    names >> expect .colon >>
    switch (.report (.mismatched [.typeKw, .nonemptyTypeKw]))
      [ ([.typeKw], .take >> option [.plus] .take),
        ([.nonemptyTypeKw], .take) ] >>
    option [.equal, .fromKw] (.take >> type)

def formulaDeclaration : Rule :=
  .node .formulaDecl (name >> expect .colon >> expect .formulaKw >> expression)

def parameters : Rule :=
  .node .params (.take >> bindings >> expect .closeParen)

def functionDeclaration : Rule :=
  .node .functionDecl <|
    names >> .loop (.next [.openParen]) parameters >> expect .colon >> type >>
    option [.equal] (.take >> expression)

def variableDeclaration : Rule :=
  .node .varDecl (names >> expect .colon >> expect .varKw >> type)

def declaration : Rule :=
  .branch (.declares .typeDecl) typeDeclaration <|
  .branch (.declares .formulaDecl) formulaDeclaration <|
  .branch (.declares .varDecl) variableDeclaration functionDeclaration

/-- A formal parameter: a type, or a constant of a type. -/
def formal : Rule :=
  .branch (.declares .typeDecl) typeDeclaration
    (.node .varDecl (names >> expect .colon >> type))

def missingName : Rule :=
  .report (.mismatched [.identifier])

/-- Without a name the list is over, also after a comma. -/
def formalList : Rule :=
  .branch (.next [.identifier])
    (formal >> .loop (.pair .comma .identifier) (.take >> formal) >>
      option [.comma] (.take >> missingName))
    missingName

def formals : Rule :=
  .node .formals (.take >> formalList >> expect .closeBracket)

def exporting : Rule :=
  .node .exporting (.take >> .branch (.next [.allKw]) .take (separated theoryName))

def importing : Rule :=
  .node .importing (.take >> separated theoryName)

/-- Passes over what cannot begin a part of a theory, up to what can. -/
def strayPart : Rule :=
  .report (.extraneous [.endKw, .importingKw, .identifier]) >> .skip >>
  .loop (.past [.identifier, .importingKw, .endKw, .eof]) .skip

def part : Rule :=
  switch strayPart [([.importingKw], importing), ([.identifier], declaration)]

def theory : Rule :=
  .node .theory <|
    name >> option [.openBracket] formals >> expect .colon >> expect .theoryKw >>
    option [.exportingKw] exporting >> expect .beginKw >>
    .loop (.past [.endKw, .eof]) part >> expect .endKw >> expect .identifier

/-- One theory or more. -/
def theories : Rule :=
  .branch (.next [.eof]) (.report (.mismatched [.identifier])) <|
    .loop (.past [.eof]) <|
      .branch (.next [.identifier]) theory (.report (.extraneous [.eof, .identifier]) >> .skip)

end PvsIndex.Grammar
