import PvsIndex.Token.Basic
import PvsIndex.Tree.Kind

/-! Syntax trees: tokens at the leaves, elements above them. -/

namespace PvsIndex

inductive Tree where
  | leaf (token : Token)
  | node (kind : ElementKind) (children : List Tree)
  deriving Inhabited

/-- An inner node of a tree. -/
structure Element where
  kind : ElementKind
  children : List Tree
  deriving Inhabited

namespace Tree

mutual

def leaves : Tree → List Token
  | leaf token => [token]
  | node _ children => leavesOf children

def leavesOf : List Tree → List Token
  | [] => []
  | tree :: trees => tree.leaves ++ leavesOf trees

end

mutual

def firstToken? : Tree → Option Token
  | leaf token => some token
  | node _ children => firstTokenOf? children

def firstTokenOf? : List Tree → Option Token
  | [] => none
  | tree :: trees => (tree.firstToken?).or (firstTokenOf? trees)

end

mutual

def lastToken? : Tree → Option Token
  | leaf token => some token
  | node _ children => lastTokenOf? children

def lastTokenOf? : List Tree → Option Token
  | [] => none
  | tree :: trees => (lastTokenOf? trees).or tree.lastToken?

end

def element? : Tree → Option Element
  | leaf _ => none
  | node kind children => some ⟨kind, children⟩

theorem leavesOf_eq_flatMap (trees : List Tree) : leavesOf trees = trees.flatMap leaves := by
  induction trees with
  | nil => rfl
  | cons tree trees ih => simp [leavesOf, ih]

mutual

theorem firstToken?_eq_head? : (tree : Tree) → tree.firstToken? = tree.leaves.head?
  | leaf _ => rfl
  | node _ children => by simpa [firstToken?, leaves] using firstTokenOf?_eq_head? children

theorem firstTokenOf?_eq_head? : (trees : List Tree) →
    firstTokenOf? trees = (leavesOf trees).head?
  | [] => rfl
  | tree :: trees => by
    simp [firstTokenOf?, leavesOf, firstToken?_eq_head? tree, firstTokenOf?_eq_head? trees,
      List.head?_append]

end

mutual

theorem lastToken?_eq_getLast? : (tree : Tree) → tree.lastToken? = tree.leaves.getLast?
  | leaf _ => rfl
  | node _ children => by simpa [lastToken?, leaves] using lastTokenOf?_eq_getLast? children

theorem lastTokenOf?_eq_getLast? : (trees : List Tree) →
    lastTokenOf? trees = (leavesOf trees).getLast?
  | [] => rfl
  | tree :: trees => by
    simp [lastTokenOf?, leavesOf, lastToken?_eq_getLast? tree, lastTokenOf?_eq_getLast? trees,
      List.getLast?_append]

end

end Tree

namespace Element

def tree (e : Element) : Tree :=
  .node e.kind e.children

def leaves (e : Element) : List Token :=
  e.tree.leaves

/-- From the first token to the last; an element without tokens has the empty range. -/
def range (e : Element) : Range :=
  match e.tree.firstToken?, e.tree.lastToken? with
  | some first, some last => first.range.unite last.range
  | _, _ => .empty

/-- The part of the source from the first token to the last, with what separates the tokens. -/
def sourceText (source : List Char) (e : Element) : String :=
  match e.tree.firstToken?, e.tree.lastToken? with
  | some first, some last =>
    let stop := last.startIndex + last.length
    String.ofList ((source.drop first.startIndex).take (stop - first.startIndex))
  | _, _ => ""

def childrenOf (kind : ElementKind) (e : Element) : List Element :=
  (e.children.filterMap Tree.element?).filter (·.kind = kind)

end Element

end PvsIndex
