import Mathlib.Data.List.Basic
import PvsIndex.Proofs.Checked.Basic
import PvsIndex.Tree.Basic

/-! Trees as they are stored: every element in one list, with the numbers of its children and of its
parent. Elements are numbered as they are completed, children before their parent. -/

namespace PvsIndex

/-- A child of an element: the number of a token or of an element. -/
inductive Node where
  | token (id : Nat)
  | element (id : Nat)
  deriving DecidableEq

namespace Node

def element? : Node → Option Nat
  | token _ => none
  | element id => some id

end Node

/-- A stored element. -/
structure Cell where
  kind : ElementKind
  children : List Node
  parent? : Option Nat
  deriving DecidableEq

namespace Tree

mutual

def count : Tree → Nat
  | leaf _ => 0
  | node _ children => countOf children + 1

def countOf : List Tree → Nat
  | [] => 0
  | t :: ts => t.count + countOf ts

end

/-- How a tree is referred to if its first element has the number `base`. -/
def nodeAt (ids : Token → Nat) (base : Nat) : Tree → Node
  | leaf t => .token (ids t)
  | node _ children => .element (base + countOf children)

def nodesAt (ids : Token → Nat) : Nat → List Tree → List Node
  | _, [] => []
  | base, t :: ts => t.nodeAt ids base :: nodesAt ids (base + t.count) ts

mutual

/-- The elements of a tree as they are stored from the number `base` on. -/
def cells (ids : Token → Nat) (base : Nat) (parent? : Option Nat) : Tree → List Cell
  | leaf _ => []
  | node kind children =>
    cellsOf ids base (some (base + countOf children)) children ++
      [⟨kind, nodesAt ids base children, parent?⟩]

def cellsOf (ids : Token → Nat) (base : Nat) (parent? : Option Nat) : List Tree → List Cell
  | [] => []
  | t :: ts => t.cells ids base parent? ++ cellsOf ids (base + t.count) parent? ts

end

variable {ids : Token → Nat} {base : Nat} {parent? : Option Nat} {kind : ElementKind}
  {children ts us : List Tree} {t : Tree}

@[simp] theorem count_leaf (token : Token) : (leaf token).count = 0 := by
  simp [count]

@[simp] theorem count_node (kind : ElementKind) (children : List Tree) :
    (node kind children).count = countOf children + 1 := by
  simp [count]

@[simp] theorem countOf_nil : countOf [] = 0 := by
  simp [countOf]

@[simp] theorem countOf_cons (t : Tree) (ts : List Tree) :
    countOf (t :: ts) = t.count + countOf ts := by
  simp [countOf]

@[simp] theorem countOf_append (ts us : List Tree) :
    countOf (ts ++ us) = countOf ts + countOf us := by
  induction ts with
  | nil => simp
  | cons t ts ih => simp [ih, Nat.add_assoc]

@[simp] theorem nodesAt_nil (ids : Token → Nat) (base : Nat) : nodesAt ids base [] = [] := rfl

@[simp] theorem nodesAt_cons (ids : Token → Nat) (base : Nat) (t : Tree) (ts : List Tree) :
    nodesAt ids base (t :: ts) = t.nodeAt ids base :: nodesAt ids (base + t.count) ts := rfl

theorem nodesAt_append (ids : Token → Nat) (base : Nat) (ts us : List Tree) :
    nodesAt ids base (ts ++ us) = nodesAt ids base ts ++ nodesAt ids (base + countOf ts) us := by
  induction ts generalizing base with
  | nil => simp
  | cons t ts ih => simp [ih, Nat.add_assoc]

@[simp] theorem length_nodesAt (ids : Token → Nat) (base : Nat) (ts : List Tree) :
    (nodesAt ids base ts).length = ts.length := by
  induction ts generalizing base with
  | nil => rfl
  | cons t ts ih => simp [ih]

@[simp] theorem cells_leaf (ids : Token → Nat) (base : Nat) (parent? : Option Nat)
    (token : Token) : (leaf token).cells ids base parent? = [] := by
  simp [cells]

theorem cells_node (ids : Token → Nat) (base : Nat) (parent? : Option Nat) (kind : ElementKind)
    (children : List Tree) : (node kind children).cells ids base parent? =
      cellsOf ids base (some (base + countOf children)) children ++
        [⟨kind, nodesAt ids base children, parent?⟩] := by
  simp [cells]

@[simp] theorem cellsOf_nil (ids : Token → Nat) (base : Nat) (parent? : Option Nat) :
    cellsOf ids base parent? [] = [] := by
  simp [cellsOf]

@[simp] theorem cellsOf_cons (ids : Token → Nat) (base : Nat) (parent? : Option Nat) (t : Tree)
    (ts : List Tree) : cellsOf ids base parent? (t :: ts) =
      t.cells ids base parent? ++ cellsOf ids (base + t.count) parent? ts := by
  simp [cellsOf]

theorem cellsOf_append (ids : Token → Nat) (base : Nat) (parent? : Option Nat)
    (ts us : List Tree) : cellsOf ids base parent? (ts ++ us) =
      cellsOf ids base parent? ts ++ cellsOf ids (base + countOf ts) parent? us := by
  induction ts generalizing base with
  | nil => simp
  | cons t ts ih => simp [ih, Nat.add_assoc]

mutual

theorem length_cells (ids : Token → Nat) (base : Nat) (parent? : Option Nat) :
    (t : Tree) → (t.cells ids base parent?).length = t.count
  | leaf _ => by simp
  | node _ children => by simp [cells_node, length_cellsOf ids base _ children]

theorem length_cellsOf (ids : Token → Nat) (base : Nat) (parent? : Option Nat) :
    (ts : List Tree) → (cellsOf ids base parent? ts).length = countOf ts
  | [] => by simp
  | t :: ts => by simp [length_cells ids base _ t, length_cellsOf ids _ _ ts]

end

end Tree

namespace Checked

/-- An element gets its parent, once. -/
def setParent (parent : Nat) (cells : List Cell) (id : Nat) : Checked (List Cell) := do
  let cell ← demand .outOfBounds cells[id]?
  require .secondParent (cell.parent? = none)
  return cells.set id { cell with parent? := some parent }

/-- Stores a new element, and makes it the parent of its children. -/
def alloc (cells : List Cell) (kind : ElementKind) (children : List Node) :
    Checked (List Cell) :=
  (children.filterMap Node.element?).foldlM (setParent cells.length)
    (cells ++ [⟨kind, children, none⟩])

open PvsIndex.Tree

variable {ids : Token → Nat} {parent : Nat}

theorem setParent_append (before after : List Cell) (kind : ElementKind) (children : List Node) :
    setParent parent (before ++ ⟨kind, children, none⟩ :: after) before.length =
      pure (before ++ ⟨kind, children, some parent⟩ :: after) := by
  have hcell : (before ++ (⟨kind, children, none⟩ : Cell) :: after)[before.length]? =
      some ⟨kind, children, none⟩ := by
    simp
  rw [setParent, demand_of hcell, pure_bind, require_of rfl, pure_bind]
  simp

theorem foldlM_setParent (before after : List Cell) (ts : List Tree) :
    ((nodesAt ids before.length ts).filterMap Node.element?).foldlM (setParent parent)
        (before ++ (cellsOf ids before.length none ts ++ after)) =
      pure (before ++ (cellsOf ids before.length (some parent) ts ++ after)) := by
  induction ts generalizing before with
  | nil => rfl
  | cons t ts ih =>
    cases t with
    | leaf token =>
      simp only [nodesAt_cons, nodeAt, count_leaf, Nat.add_zero, cellsOf_cons, cells_leaf,
        List.nil_append]
      exact ih before
    | node kind children =>
      have hlength : (before ++ cellsOf ids before.length
          (some (before.length + countOf children)) children).length =
            before.length + countOf children := by
        rw [List.length_append, length_cellsOf]
      have hset := @setParent_append parent (before ++ cellsOf ids before.length
        (some (before.length + countOf children)) children)
        (cellsOf ids (before.length + (countOf children + 1)) none ts ++ after) kind
        (nodesAt ids before.length children)
      have hrest := ih (before ++ (node kind children).cells ids before.length (some parent))
      rw [List.length_append, length_cells, count_node] at hrest
      rw [hlength] at hset
      simp only [cells_node, List.append_assoc, List.cons_append, List.nil_append] at hset hrest
      simp only [nodesAt_cons, nodeAt, List.filterMap_cons, Node.element?, List.foldlM_cons,
        cellsOf_cons, cells_node, List.append_assoc, List.cons_append, List.nil_append,
        count_node]
      rw [hset, pure_bind, hrest]

/-- The trees built last become the children of a new element. -/
theorem alloc_cells (forest children : List Tree) (kind : ElementKind) :
    alloc (cellsOf ids 0 none (forest ++ children)) kind (nodesAt ids (countOf forest) children) =
      pure (cellsOf ids 0 none (forest ++ [.node kind children])) := by
  have hlength : (cellsOf ids 0 none (forest ++ children)).length =
      countOf forest + countOf children := by
    rw [length_cellsOf, countOf_append]
  have hset := @foldlM_setParent ids (countOf forest + countOf children) (cellsOf ids 0 none forest)
    [⟨kind, nodesAt ids (countOf forest) children, none⟩] children
  rw [length_cellsOf] at hset
  rw [alloc, hlength, cellsOf_append, Nat.zero_add, List.append_assoc, hset, cellsOf_append,
    Nat.zero_add, cellsOf_cons, cellsOf_nil, cells_node, List.append_nil]

end Checked

end PvsIndex
