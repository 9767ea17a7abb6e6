import PvsIndex.Tree.Basic

/-! Walking a tree: every element is entered before its children and left after them. -/

namespace PvsIndex

/-- An element where it stands in a tree. -/
structure Occurrence where
  element : Element
  /-- The elements above, innermost first. -/
  ancestors : List Element

inductive Visit where
  | enter (occurrence : Occurrence)
  | leave (occurrence : Occurrence)

namespace Visit

def entered? : Visit → Option Occurrence
  | enter o => some o
  | leave _ => none

def left? : Visit → Option Occurrence
  | enter _ => none
  | leave o => some o

end Visit

namespace Tree

mutual

def visitsBelow (ancestors : List Element) : Tree → List Visit
  | leaf _ => []
  | node kind children =>
    let occurrence : Occurrence := ⟨⟨kind, children⟩, ancestors⟩
    .enter occurrence :: visitsOf (occurrence.element :: ancestors) children ++ [.leave occurrence]

def visitsOf (ancestors : List Element) : List Tree → List Visit
  | [] => []
  | tree :: trees => tree.visitsBelow ancestors ++ visitsOf ancestors trees

end

def visits (tree : Tree) : List Visit :=
  tree.visitsBelow []

/-- The elements in the order in which a walk enters them. -/
def preorder (tree : Tree) : List Occurrence :=
  tree.visits.filterMap Visit.entered?

/-- The elements in the order in which a walk leaves them, which is that of their completion. -/
def postorder (tree : Tree) : List Occurrence :=
  tree.visits.filterMap Visit.left?

end Tree

end PvsIndex
