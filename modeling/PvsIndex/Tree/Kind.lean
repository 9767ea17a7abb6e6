/-! The kinds of syntax elements. -/

namespace PvsIndex

/-- Names, types, expressions, parts of declarations, declarations, theories and the whole text.
A `binding` is the occurrence of a name that a parameter list, binder or set type binds. -/
inductive ElementKind where
  | identifier | nameType | functionType | tupleType | setType | parenType | letBinding
  | numberExpr | stringExpr | trueExpr | falseExpr | nameExpr | parenExpr | callExpr | unaryExpr
  | binaryExpr | ifExpr | binderExpr | letExpr
  | formals | exporting | importing | params | binding | typeDecl | formulaDecl | functionDecl
  | varDecl | theory | root
  deriving DecidableEq, Inhabited

namespace ElementKind

def name : ElementKind → String
  | identifier => "Identifier"
  | nameType => "NameTy"
  | functionType => "FunctionTy"
  | tupleType => "TupleTy"
  | setType => "SetTy"
  | parenType => "ParenTy"
  | letBinding => "LetBinding"
  | numberExpr => "NumberExpr"
  | stringExpr => "StrExpr"
  | trueExpr => "TrueExpr"
  | falseExpr => "FalseExpr"
  | nameExpr => "NameExpr"
  | parenExpr => "ParenExpr"
  | callExpr => "CallExpr"
  | unaryExpr => "UnaryOpExpr"
  | binaryExpr => "BinaryOpExpr"
  | ifExpr => "IfExpr"
  | binderExpr => "BinderExpr"
  | letExpr => "LetExpr"
  | formals => "Formals"
  | exporting => "Exporting"
  | importing => "Importing"
  | params => "Params"
  | binding => "TypeId"
  | typeDecl => "TypeDecl"
  | formulaDecl => "FormulaDecl"
  | functionDecl => "FunctionDecl"
  | varDecl => "VarDecl"
  | theory => "Theory"
  | root => "Root"

/-- The elements that limit where the names declared inside them can be used. -/
def introducesScope : ElementKind → Bool
  | theory | functionDecl | binderExpr | letExpr | setType => true
  | _ => false

end ElementKind

end PvsIndex
