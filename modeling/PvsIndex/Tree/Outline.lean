import PvsIndex.Text.Quoted
import PvsIndex.Tree.Basic

/-! Trees line by line: one row for each element and token, with its depth. -/

namespace PvsIndex

inductive Label where
  | element (element : Element)
  | token (token : Token)

/-- A token whose text is not settled by its kind is shown by its text. -/
def Token.outlineText (t : Token) : String :=
  match t.kind with
  | .space | .comment | .other | .number | .string | .identifier => Text.quoted t.text
  | kind => kind.name

def Label.render : Label → String
  | element e => e.kind.name
  | token t => t.outlineText

namespace Tree

mutual

def outlineAt (depth : Nat) : Tree → List (Nat × Label)
  | leaf token => [(depth, .token token)]
  | node kind children => (depth, .element ⟨kind, children⟩) :: outlineOf (depth + 1) children

def outlineOf (depth : Nat) : List Tree → List (Nat × Label)
  | [] => []
  | tree :: trees => tree.outlineAt depth ++ outlineOf depth trees

end

def outline (tree : Tree) : List (Nat × Label) :=
  tree.outlineAt 0

/-- Two blanks for each level of depth, one row a line. -/
def render (tree : Tree) : String :=
  String.join <| tree.outline.map fun (depth, label) =>
    String.ofList (List.replicate (2 * depth) ' ') ++ label.render ++ "\n"

end Tree

end PvsIndex
