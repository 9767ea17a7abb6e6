import Mathlib.Data.List.Basic
import PvsIndex.Tree.Visit

/-! Trees with other tokens at the leaves, and walks in them. -/

namespace PvsIndex

namespace Tree

mutual

def map (f : Token → Token) : Tree → Tree
  | leaf token => .leaf (f token)
  | node kind children => .node kind (mapOf f children)

def mapOf (f : Token → Token) : List Tree → List Tree
  | [] => []
  | tree :: trees => tree.map f :: mapOf f trees

end

variable {f : Token → Token}

theorem mapOf_eq_map (trees : List Tree) : mapOf f trees = trees.map (map f) := by
  induction trees with
  | nil => rfl
  | cons tree trees ih => simp [mapOf, ih]

@[simp] theorem mapOf_append (ts us : List Tree) :
    mapOf f (ts ++ us) = mapOf f ts ++ mapOf f us := by
  simp [mapOf_eq_map]

@[simp] theorem mapOf_eq_nil_iff {trees : List Tree} : mapOf f trees = [] ↔ trees = [] := by
  simp [mapOf_eq_map]

mutual

theorem map_id : (tree : Tree) → tree.map id = tree
  | leaf _ => rfl
  | node kind children => congrArg (node kind) (mapOf_id children)

theorem mapOf_id : (trees : List Tree) → mapOf id trees = trees
  | [] => rfl
  | tree :: trees => by rw [mapOf, map_id tree, mapOf_id trees]

end

mutual

theorem leaves_map : (tree : Tree) → (tree.map f).leaves = tree.leaves.map f
  | leaf _ => rfl
  | node _ children => leavesOf_mapOf children

theorem leavesOf_mapOf : (trees : List Tree) → leavesOf (mapOf f trees) = (leavesOf trees).map f
  | [] => rfl
  | tree :: trees => by
    rw [mapOf, leavesOf, leavesOf, leaves_map tree, leavesOf_mapOf trees, List.map_append]

end

theorem firstToken?_map (t : Tree) : (t.map f).firstToken? = t.firstToken?.map f := by
  rw [firstToken?_eq_head?, firstToken?_eq_head?, leaves_map, List.head?_map]

theorem lastToken?_map (t : Tree) : (t.map f).lastToken? = t.lastToken?.map f := by
  rw [lastToken?_eq_getLast?, lastToken?_eq_getLast?, leaves_map, List.getLast?_map]

theorem visitsOf_append (ancestors : List Element) (ts us : List Tree) :
    visitsOf ancestors (ts ++ us) = visitsOf ancestors ts ++ visitsOf ancestors us := by
  induction ts with
  | nil => rfl
  | cons t ts ih => simp [visitsOf, ih]

end Tree

def Element.map (f : Token → Token) (e : Element) : Element :=
  ⟨e.kind, Tree.mapOf f e.children⟩

theorem Element.childrenOf_map (f : Token → Token) (kind : ElementKind) (e : Element) :
    (e.map f).childrenOf kind = (e.childrenOf kind).map (Element.map f) := by
  obtain ⟨_, children⟩ := e
  unfold childrenOf map
  dsimp only
  induction children with
  | nil => rfl
  | cons t ts ih =>
    cases t with
    | leaf token => exact ih
    | node k children =>
      simp only [Tree.mapOf, Tree.map, Tree.element?, List.filterMap_cons, List.filter_cons]
      split_ifs
      · exact congrArg _ ih
      · exact ih

namespace Occurrence

def transplant (f : Token → Token) (root : Element) (o : Occurrence) : Occurrence :=
  ⟨o.element.map f, o.ancestors.dropLast.map (Element.map f) ++ [root]⟩

theorem transplant_append (f : Token → Token) (root root' e : Element) (above : List Element) :
    (⟨e, above ++ [root]⟩ : Occurrence).transplant f root' =
      ⟨e.map f, above.map (Element.map f) ++ [root']⟩ := by
  rw [transplant, List.dropLast_concat]

end Occurrence

def Visit.map (g : Occurrence → Occurrence) : Visit → Visit
  | enter o => .enter (g o)
  | leave o => .leave (g o)

namespace Tree

mutual

theorem visitsBelow_transplant (f : Token → Token) (root root' : Element) (above : List Element) :
    (tree : Tree) → (tree.map f).visitsBelow (above.map (Element.map f) ++ [root']) =
      (tree.visitsBelow (above ++ [root])).map (Visit.map (Occurrence.transplant f root'))
  | leaf _ => rfl
  | node kind children => by
    have h := visitsOf_transplant f root root' (⟨kind, children⟩ :: above) children
    rw [List.map_cons, List.cons_append, List.cons_append] at h
    simp only [map, visitsBelow, List.map_cons, List.map_append, List.map_nil, Visit.map,
      Occurrence.transplant_append]
    rw [← h]
    rfl

theorem visitsOf_transplant (f : Token → Token) (root root' : Element) (above : List Element) :
    (trees : List Tree) → visitsOf (above.map (Element.map f) ++ [root']) (mapOf f trees) =
      (visitsOf (above ++ [root]) trees).map (Visit.map (Occurrence.transplant f root'))
  | [] => rfl
  | tree :: trees => by
    rw [mapOf, visitsOf, visitsOf, List.map_append, visitsBelow_transplant f root root' above tree,
      visitsOf_transplant f root root' above trees]

end

end Tree

end PvsIndex
