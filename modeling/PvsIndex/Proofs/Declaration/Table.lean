import Mathlib.Data.List.Basic
import PvsIndex.Declaration.Table

/-! What a table says of a name: the declaration that was recorded last. -/

namespace PvsIndex

/-- The declaration of the name in the category, if the entry is one. -/
def Entry.meaning? (category : Category) (name : String) (e : Entry) : Option Declaration :=
  if e.category = category ∧ e.declaration.name = name then some e.declaration else none

namespace Table

@[simp] theorem history_insert (t : Table) (category : Category) (d : Declaration) :
    (t.insert category d).history = t.history.push ⟨category, d⟩ := by
  cases category <;> rfl

theorem get?_insert (t : Table) (e : Entry) (category : Category) (name : String) :
    (t.insert e.category e.declaration).get? category name =
      (e.meaning? category name).or (t.get? category name) := by
  obtain ⟨recorded, d⟩ := e
  unfold get? Entry.meaning?
  by_cases hc : recorded = category
  · subst hc
    by_cases hn : d.name = name
    · cases recorded <;> simp [insert, map, hn]
    · cases recorded <;> simp [insert, map, hn, Std.TreeMap.getElem?_insert]
  · rw [if_neg fun h => hc h.1]
    cases recorded <;> cases category <;> first | exact absurd rfl hc | rfl

def insertAll (t : Table) (entries : List Entry) : Table :=
  entries.foldl (fun t e => t.insert e.category e.declaration) t

theorem insertAll_append (t : Table) (es fs : List Entry) :
    t.insertAll (es ++ fs) = (t.insertAll es).insertAll fs :=
  List.foldl_append

@[simp] theorem history_insertAll (t : Table) (entries : List Entry) :
    (t.insertAll entries).history.toList = t.history.toList ++ entries := by
  induction entries generalizing t with
  | nil => simp [insertAll]
  | cons e entries ih =>
    rw [insertAll, List.foldl_cons]
    refine (ih _).trans ?_
    simp

/-- A name means what it was recorded for last, or what it meant before. -/
theorem get?_insertAll (t : Table) (entries : List Entry) (category : Category) (name : String) :
    (t.insertAll entries).get? category name =
      (entries.filterMap (·.meaning? category name)).getLast?.or (t.get? category name) := by
  induction entries generalizing t with
  | nil => rfl
  | cons e entries ih =>
    rw [insertAll, List.foldl_cons]
    refine (ih _).trans ?_
    rw [get?_insert]
    cases he : e.meaning? category name with
    | none => rw [List.filterMap_cons_none he, Option.none_or]
    | some d =>
      rw [List.filterMap_cons_some he, List.getLast?_cons]
      cases (entries.filterMap (·.meaning? category name)).getLast? <;> rfl

end Table

end PvsIndex
