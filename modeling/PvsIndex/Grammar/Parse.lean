import PvsIndex.Grammar.Theory
import PvsIndex.Token.Lexer

/-! Parsing a text. There is always a tree, and there are no errors if the text is well-formed. -/

namespace PvsIndex

namespace Nonterminal

def rule : Nonterminal → Rule
  | text => Grammar.theories
  | type => Grammar.typeExpression
  | expression layers => Grammar.layered layers

/-- The effect of a named rule on at most `bound` tokens. -/
def run (endOfText : Token) : Nat → Nonterminal → Cursor → Step
  | 0, _, c => .stay c
  | bound + 1, name, c => name.rule.run (run endOfText bound) endOfText (bound + 1) c

end Nonterminal

structure Parse where
  source : List Char
  tokens : Tokens
  root : Element
  errors : List SyntaxError

namespace Parse

def ofText (text : String) : Parse :=
  let tokens := Tokens.ofText text
  let input := tokens.significant
  let step := Nonterminal.run tokens.endOfText (input.length + 1) .text ⟨input, false⟩
  { source := text.toList
    tokens
    root := ⟨.root, step.trees ++ [.leaf tokens.endOfText]⟩
    errors := step.errors }

def tree (p : Parse) : Tree :=
  p.root.tree

end Parse

end PvsIndex
