import PvsIndex.Grammar.Error
import PvsIndex.Grammar.Lookahead
import PvsIndex.Tree.Basic

/-! Rules: descriptions of how to read a piece of the text, and their effect on the tokens ahead. -/

namespace PvsIndex

/-- Operators of one precedence: between operands, grouping to the left, or before an operand. -/
inductive Layer where
  | binary (operators : List TokenKind)
  | unary (operators : List TokenKind)

/-- The rules that others refer to by name. An expression has the operators of some layers, the
loosest first. -/
inductive Nonterminal where
  | text
  | type
  | expression (layers : List Layer)

inductive Rule where
  | empty
  | take
  | skip
  | report (complaint : Complaint)
  | seq (first second : Rule)
  | branch (test : Lookahead) (yes no : Rule)
  | loop (test : Lookahead) (body : Rule)
  | node (kind : ElementKind) (body : Rule)
  /-- An element whose kind shows after its opening. -/
  | nodeBy (opening : Rule) (test : Lookahead) (yes no : ElementKind) (closing : Rule)
  /-- An element that becomes the first child of another one as long as the test holds. Where the
  head yields no element, the chain yields none. -/
  | chain (kind : ElementKind) (head : Rule) (test : Lookahead) (tail : Rule)
  | call (name : Nonterminal)

namespace Rule

instance : AndThen Rule := ⟨fun first second => .seq first (second ())⟩

@[simp]
theorem andThen_eq_seq (first second : Rule) : first >> second = .seq first second :=
  rfl

def option (kinds : List TokenKind) (rule : Rule) : Rule :=
  .branch (.next kinds) rule .empty

/-- Accepts a token of the kind, after a token too many if there is one. -/
def expect (kind : TokenKind) : Rule :=
  .branch (.next [kind]) .take <|
    .branch (.beyond kind)
      (.report (.extraneous [kind]) >> .skip >> .take)
      (.report (.mismatched [kind]))

/-- What begins with one of these kinds, or a complaint. -/
def required (starts : List TokenKind) (rule : Rule) : Rule :=
  .branch (.next starts) rule (.report .noViable)

def separated (item : Rule) : Rule :=
  item >> .loop (.next [.comma]) (.take >> item)

def switch (default : Rule) : List (List TokenKind × Rule) → Rule
  | [] => default
  | (kinds, rule) :: cases => .branch (.next kinds) rule (switch default cases)

end Rule

/-- The significant tokens ahead. While recovering, errors are not reported. -/
structure Cursor where
  input : List Token
  recovering : Bool

structure Step where
  trees : List Tree
  errors : List SyntaxError
  cursor : Cursor

namespace Step

def stay (c : Cursor) : Step :=
  ⟨[], [], c⟩

def andThen (s : Step) (f : Cursor → Step) : Step :=
  let t := f s.cursor
  ⟨s.trees ++ t.trees, s.errors ++ t.errors, t.cursor⟩

def wrap (kind : ElementKind) (s : Step) : Step :=
  { s with trees := [.node kind s.trees] }

end Step

namespace Cursor

/-- A token that was accepted ends the recovery. -/
def take : Cursor → Step
  | ⟨[], recovering⟩ => .stay ⟨[], recovering⟩
  | ⟨t :: input, _⟩ => ⟨[.leaf t], [], ⟨input, false⟩⟩

def skip : Cursor → Step
  | ⟨[], recovering⟩ => .stay ⟨[], recovering⟩
  | ⟨t :: input, recovering⟩ => ⟨[.leaf t], [], ⟨input, recovering⟩⟩

/-- Blames the next token and begins to recover. -/
def report (endOfText : Token) (complaint : Complaint) (c : Cursor) : Step :=
  if c.recovering then .stay c
  else ⟨[], [⟨c.input.headD endOfText, complaint⟩], { c with recovering := true }⟩

end Cursor

namespace Rule

/-- Takes turns while the test holds, at most `bound` of them. -/
def runLoop (test : Lookahead) (turn : Cursor → Step) : Nat → Cursor → Step
  | 0, c => .stay c
  | bound + 1, c =>
    if test.holds c.input then (turn c).andThen (runLoop test turn bound) else .stay c

/-- Puts the trees so far under a new element with the trees of each turn. -/
def runChain (kind : ElementKind) (test : Lookahead) (turn : Cursor → Step) : Nat → Step → Step
  | 0, s => s
  | bound + 1, s =>
    if test.holds s.cursor.input then
      runChain kind test turn bound ((s.andThen turn).wrap kind)
    else s

/-- The effect of a rule, given that of the named rules. Each turn of a loop and each call comes
after a token has been read, so the number of tokens bounds both. -/
def run (call : Nonterminal → Cursor → Step) (endOfText : Token) (bound : Nat) :
    Rule → Cursor → Step
  | empty, c => .stay c
  | take, c => c.take
  | skip, c => c.skip
  | report complaint, c => c.report endOfText complaint
  | seq first second, c => (first.run call endOfText bound c).andThen
      (second.run call endOfText bound)
  | branch test yes no, c =>
    if test.holds c.input then yes.run call endOfText bound c else no.run call endOfText bound c
  | loop test body, c => runLoop test (body.run call endOfText bound) bound c
  | node kind body, c => (body.run call endOfText bound c).wrap kind
  | nodeBy opening test yes no closing, c =>
    let opened := opening.run call endOfText bound c
    (opened.andThen (closing.run call endOfText bound)).wrap
      (if test.holds opened.cursor.input then yes else no)
  | chain kind head test tail, c =>
    let s := head.run call endOfText bound c
    if s.trees.isEmpty then s else runChain kind test (tail.run call endOfText bound) bound s
  | .call name, c => call name c

end Rule

end PvsIndex
