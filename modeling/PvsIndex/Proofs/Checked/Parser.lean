import PvsIndex.Grammar.Parse
import PvsIndex.Proofs.Checked.Arena

/-! Parsing step by step, on a stack of what was built so far, with every check on the way. -/

namespace PvsIndex.Checked

/-- The tree that was built, with all its tokens and elements. -/
structure Stored where
  tokens : List Token
  cells : List Cell
  root : Nat

/-- An element that was completed: where on the stack it lies, and its number. -/
structure Completed where
  depth : Nat
  element : Nat

structure Parser where
  tokens : List Token
  /-- The numbers of the tokens that the grammar speaks of. The last is the end of the text. -/
  significant : List Nat
  /-- How many of them were passed. -/
  current : Nat
  recovering : Bool
  /-- What has no parent yet, the latest last. -/
  stack : List Node
  cells : List Cell
  errors : List SyntaxError

namespace Parser

def ofTokens (tokens : List Token) : Checked Parser := do
  let significant := (tokens.zipIdx.filter (!·.1.kind.isTrivia)).map (·.2)
  require .uncovered
    ((significant.getLast?.bind (tokens[·]?)).map (·.kind) = some .eof)
  return ⟨tokens, significant, 0, false, [], [], []⟩

/-- Past the end of the text, the end is seen again. -/
def nthToken (p : Parser) (offset : Nat) : Checked Nat := do
  require .outOfBounds (0 < p.significant.length)
  demand .outOfBounds p.significant[min (p.current + offset) (p.significant.length - 1)]?

def nthData (p : Parser) (offset : Nat) : Checked Token := do
  demand .outOfBounds p.tokens[← p.nthToken offset]?

def nth (p : Parser) (offset : Nat) : Checked TokenKind := do
  return (← p.nthData offset).kind

def next (p : Parser) : Checked TokenKind :=
  p.nth 0

def push (p : Parser) (node : Node) : Parser :=
  { p with stack := p.stack ++ [node] }

def pass (p : Parser) : Parser :=
  { p with current := p.current + 1 }

def advance (p : Parser) : Checked Parser := do
  require .takesEnd ((← p.next) ≠ .eof)
  let token ← p.nthToken 0
  return p.pass.push (.token token)

def recovered (p : Parser) : Parser :=
  { p with recovering := false }

def bump (p : Parser) : Checked Parser :=
  p.recovered.advance

def skip (p : Parser) : Checked Parser := do
  if (← p.next) ≠ .eof then p.advance else return p

def blame (p : Parser) (complaint : Complaint) (t : Token) : Parser :=
  { p with recovering := true, errors := p.errors ++ [⟨t, complaint⟩] }

def report (p : Parser) (complaint : Complaint) : Checked Parser := do
  if p.recovering then return p
  else return p.blame complaint (← p.nthData 0)

/-- Where the children of an element begin that starts here. -/
def depth (p : Parser) : Nat :=
  p.stack.length

/-- Where the children of an element begin whose first child was completed last. -/
def startParent (p : Parser) (child : Completed) : Checked Nat := do
  require .misplacedChild (child.depth + 1 = p.stack.length)
  require .misplacedChild (p.stack.getLast? = some (.element child.element))
  return child.depth

/-- Puts a new element on the stack in place of what was built since the start. -/
def settle (p : Parser) (cells : List Cell) (start : Nat) : Parser :=
  { p with cells, stack := p.stack.take start }.push (.element p.cells.length)

/-- What was built since the start becomes the children of a new element. -/
def endElement (p : Parser) (kind : ElementKind) (start : Nat) : Checked (Completed × Parser) := do
  require .stackUnderflow (start ≤ p.stack.length)
  let cells ← alloc p.cells kind (p.stack.drop start)
  return (⟨start, p.cells.length⟩, p.settle cells start)

/-- The number of tokens before what follows `(',' name)*`. -/
def passNames (p : Parser) (i : Nat) : Checked Nat := do
  if (← p.nth i) = .comma ∧ (← p.nth (i + 1)) = .identifier then p |>.passNames (i + 2)
  else return i
partial_fixpoint

def declarationAhead (p : Parser) : Checked ElementKind := do
  require .notAtName ((← p.next) = .identifier)
  let i ← p.passNames 1
  if (← p.nth i) ≠ .colon then return .functionDecl
  else match ← p.nth (i + 1) with
    | .typeKw | .nonemptyTypeKw => return .typeDecl
    | .formulaKw => return if i = 1 then .formulaDecl else .functionDecl
    | .varKw => return .varDecl
    | _ => return .functionDecl

def asks (p : Parser) : Lookahead → Checked Bool
  | .next kinds => return kinds.contains (← p.next)
  | .past kinds => return !kinds.contains (← p.next)
  | .pair first second => return (← p.next) = first && (← p.nth 1) = second
  | .beyond kind => return (← p.next) ≠ .eof && (← p.nth 1) = kind
  | .declares kind => return (← p.declarationAhead) = kind

def finish (p : Parser) : Checked Stored := do
  require .leftOver ((← p.next) = .eof)
  let stack := p.stack ++ [.token (← p.nthToken 0)]
  return ⟨p.tokens, ← alloc p.cells .root stack, p.cells.length⟩

mutual

/-- Follows a rule. What is read as one element is known by where it lies on the stack. -/
def follow : Rule → Parser → Checked (Option Completed × Parser)
  | .empty, p => return (none, p)
  | .take, p => return (none, ← p.bump)
  | .skip, p => return (none, ← p.skip)
  | .report complaint, p => return (none, ← p.report complaint)
  | .seq first second, p => do
    let (_, p) ← p |>.follow first
    let (_, p) ← p |>.follow second
    return (none, p)
  | .branch test yes no, p => do
    if ← p.asks test then p |>.follow yes else p |>.follow no
  | .loop test body, p => do
    if ← p.asks test then
      let (_, p) ← p |>.follow body
      p |>.follow (.loop test body)
    else return (none, p)
  | .node kind body, p => do
    let start := p.depth
    let (_, p) ← p |>.follow body
    let (element, p) ← p.endElement kind start
    return (some element, p)
  | .nodeBy opening test yes no closing, p => do
    let start := p.depth
    let (_, p) ← p |>.follow opening
    let kind := if ← p.asks test then yes else no
    let (_, p) ← p |>.follow closing
    let (element, p) ← p.endElement kind start
    return (some element, p)
  | .chain kind head test tail, p => do
    match ← p |>.follow head with
    | (none, p) => return (none, p)
    | (some left, p) => p |>.grow kind test tail left
  | .call name, p => p |>.follow name.rule
partial_fixpoint

/-- Puts an element under another one as long as the test holds. -/
def grow (kind : ElementKind) (test : Lookahead) (tail : Rule) (left : Completed) (p : Parser) :
    Checked (Option Completed × Parser) := do
  if ← p.asks test then
    let start ← p.startParent left
    let (_, p) ← p |>.follow tail
    let (element, p) ← p.endElement kind start
    p |>.grow kind test tail element
  else return (some left, p)
partial_fixpoint

end

end Parser

/-- The tree of a text, and the errors in it. -/
def parse (tokens : List Token) : Checked (Stored × List SyntaxError) := do
  let p ← Parser.ofTokens tokens
  let (_, p) ← p.follow Grammar.theories
  return (← p.finish, p.errors)

end PvsIndex.Checked
