import Mathlib.Data.List.Dedup
import Mathlib.Data.String.Basic
import PvsIndex.Proofs.Declaration.Table

/-! What a table answers after any records: of each category and name it knows the declaration that
was recorded last, and nothing of what was recorded in between. -/

namespace PvsIndex

namespace Category

theorem mem_all (c : Category) : c ∈ all := by
  cases c <;> decide

theorem all_sorted : all.Pairwise fun c d => c.rank < d.rank := by
  decide

end Category

namespace Entry

variable {e : Entry} {category : Category} {name : String} {d : Declaration}

theorem meaning?_eq_some_iff : e.meaning? category name = some d ↔
    e.category = category ∧ e.declaration.name = name ∧ e.declaration = d := by
  simp [meaning?, and_assoc]

end Entry

namespace Table

variable {t u : Table} {category : Category} {name : String} {d : Declaration}
  {entries : List Entry}

theorem mem_entries : (name, d) ∈ t.entries category ↔ t.get? category name = some d :=
  Std.TreeMap.mem_toList_iff_getElem?_eq_some

theorem pairwise_entries (t : Table) (category : Category) :
    (t.entries category).Pairwise fun a b => a.1 < b.1 :=
  Std.TreeMap.ordered_keys_toList.imp fun h => compare_lt_iff_lt.mp h

theorem nodup_names (t : Table) (category : Category) :
    ((t.entries category).map Prod.fst).Nodup :=
  List.pairwise_map.mpr ((t.pairwise_entries category).imp fun h => ne_of_lt h)

theorem length_entries (t : Table) (category : Category) :
    (t.entries category).length = t.size category :=
  Std.TreeMap.length_toList

/-- Sorting by name gives the entries, in whatever order they were listed. -/
theorem mergeSort_eq_entries {listed : List (String × Declaration)}
    (h : listed.Perm (t.entries category)) :
    listed.mergeSort (fun a b => a.1 ≤ b.1) = t.entries category := by
  have hsorted : (listed.mergeSort fun a b => a.1 ≤ b.1).Pairwise fun a b => a.1 ≤ b.1 := by
    have hle : (listed.mergeSort fun a b => a.1 ≤ b.1).Pairwise fun a b =>
        decide (a.1 ≤ b.1) = true := List.pairwise_mergeSort
      (fun a b c hab hbc => by simpa using le_trans (of_decide_eq_true hab) (of_decide_eq_true hbc))
      (fun a b => by simpa using le_total a.1 b.1) listed
    exact hle.imp fun h => of_decide_eq_true h
  have hperm := (listed.mergeSort_perm fun a b => a.1 ≤ b.1).trans h
  refine hperm.eq_of_pairwise (fun a b ha hb hab hba => ?_) hsorted
    ((t.pairwise_entries category).imp le_of_lt)
  have hname : a.1 = b.1 := le_antisymm hab hba
  have ha' := mem_entries.mp (hperm.mem_iff.mp ha : (a.1, a.2) ∈ t.entries category)
  have hb' := mem_entries.mp (hb : (b.1, b.2) ∈ t.entries category)
  rw [hname] at ha'
  exact Prod.ext hname (Option.some.inj (ha'.symm.trans hb'))

theorem isEmpty_iff : t.isEmpty = true ↔ ∀ category name, t.get? category name = none := by
  have hmap : ∀ category,
      (t.map category).isEmpty = true ↔ ∀ name, t.get? category name = none := by
    intro category
    rw [← Std.TreeMap.isEmpty_toList, List.isEmpty_iff]
    refine List.eq_nil_iff_forall_not_mem.trans ?_
    rw [Prod.forall]
    refine forall_congr' fun name => ?_
    rw [Option.eq_none_iff_forall_ne_some]
    exact forall_congr' fun d => not_congr mem_entries
  rw [isEmpty, List.all_eq_true]
  exact ⟨fun h category => (hmap category).mp (h category (Category.mem_all category)),
    fun h category _ => (hmap category).mpr (h category)⟩

theorem find?_eq_some_iff : t.find? name = some d ↔ ∃ category, t.get? category name = some d ∧
    ∀ other : Category, other.rank < category.rank → t.get? other name = none := by
  constructor
  · intro h
    obtain ⟨before, category, after, hall, hget, hbefore⟩ := List.findSome?_eq_some_iff.mp h
    refine ⟨category, hget, fun other hlt => hbefore other ?_⟩
    have hmem := Category.mem_all other
    have hsorted := Category.all_sorted
    rw [hall] at hmem hsorted
    refine (List.mem_append.mp hmem).resolve_right fun hafter => ?_
    rcases List.mem_cons.mp hafter with rfl | hafter
    · exact lt_irrefl _ hlt
    · exact lt_asymm hlt ((List.pairwise_cons.mp (List.pairwise_append.mp hsorted).2.1).1 _ hafter)
  · rintro ⟨category, hget, hnone⟩
    obtain ⟨before, after, hall⟩ := List.append_of_mem (Category.mem_all category)
    have hsorted := Category.all_sorted
    rw [hall] at hsorted
    exact List.findSome?_eq_some_iff.mpr ⟨before, category, after, hall, hget, fun other hother =>
      hnone other ((List.pairwise_append.mp hsorted).2.2 other hother category List.mem_cons_self)⟩

/-- What is recorded in an empty table is all that the table knows. -/
theorem get?_insertAll_empty (entries : List Entry) (category : Category) (name : String) :
    (({} : Table).insertAll entries).get? category name =
      (entries.filterMap (·.meaning? category name)).getLast? := by
  rw [get?_insertAll]
  cases category <;> exact Option.or_none

theorem get?_insertAll_eq_none_iff : (({} : Table).insertAll entries).get? category name = none ↔
    ∀ e ∈ entries, e.category = category → e.declaration.name ≠ name := by
  rw [get?_insertAll_empty, List.getLast?_eq_none_iff, List.filterMap_eq_nil_iff]
  refine forall₂_congr fun e _ => ?_
  rw [Option.eq_none_iff_forall_ne_some]
  simp [Entry.meaning?_eq_some_iff]

def recordedNames (entries : List Entry) (category : Category) : List String :=
  (entries.filter (·.category = category)).map (·.declaration.name)

theorem mem_recordedNames : name ∈ recordedNames entries category ↔
    (({} : Table).insertAll entries).get? category name ≠ none := by
  rw [ne_eq, get?_insertAll_eq_none_iff]
  simp [recordedNames, and_assoc]

theorem names_insertAll (entries : List Entry) (category : Category) :
    (((({} : Table).insertAll entries).entries category).map Prod.fst).Perm
      (recordedNames entries category).dedup := by
  refine (List.perm_ext_iff_of_nodup (nodup_names _ _) (List.nodup_dedup _)).mpr fun name => ?_
  rw [List.mem_dedup, mem_recordedNames, Option.ne_none_iff_exists', List.mem_map]
  constructor
  · rintro ⟨⟨_, d⟩, hmem, rfl⟩
    exact ⟨d, mem_entries.mp hmem⟩
  · rintro ⟨d, hget⟩
    exact ⟨(name, d), mem_entries.mpr hget, rfl⟩

theorem size_insertAll (entries : List Entry) (category : Category) :
    (({} : Table).insertAll entries).size category =
      (recordedNames entries category).dedup.length := by
  rw [← length_entries, ← (names_insertAll entries category).length_eq, List.length_map]

theorem isEmpty_insertAll : (({} : Table).insertAll entries).isEmpty = true ↔ entries = [] := by
  rw [isEmpty_iff]
  constructor
  · intro h
    refine List.eq_nil_iff_forall_not_mem.mpr fun e he => ?_
    exact get?_insertAll_eq_none_iff.mp (h e.category e.declaration.name) e he rfl rfl
  · rintro rfl category name
    exact get?_insertAll_eq_none_iff.mpr nofun

/-- The two answer every question in the same way, the order of recording apart. -/
structure Agrees (t u : Table) : Prop where
  get? : ∀ category name, t.get? category name = u.get? category name
  size : ∀ category, t.size category = u.size category
  entries : ∀ category, t.entries category = u.entries category
  isEmpty : t.isEmpty = u.isEmpty
  find? : ∀ name, t.find? name = u.find? name
  dump : t.dump = u.dump
  checkedDump : t.checkedDump = u.checkedDump

/-- All answers come from what the names mean in their categories. -/
theorem Agrees.of_get? (h : ∀ category name, t.get? category name = u.get? category name) :
    t.Agrees u := by
  have hentries : ∀ category, t.entries category = u.entries category := fun category =>
    (Std.TreeMap.Equiv.of_forall_constGet?_eq (h category)).toList_eq
  have hsize : ∀ category, t.size category = u.size category := fun category => by
    rw [← length_entries, hentries, length_entries]
  have hcategory : t.dumpCategory = u.dumpCategory := funext fun category => by
    rw [dumpCategory, dumpCategory, hentries, hsize]
  have hdump : t.dump = u.dump := by
    rw [Table.dump, Table.dump, hcategory]
  refine ⟨h, hsize, hentries, ?_, fun name => ?_, hdump, ?_⟩
  · rw [Bool.eq_iff_iff, isEmpty_iff, isEmpty_iff]
    simp only [h]
  · simp only [Table.find?, h]
  · rw [Table.checkedDump, Table.checkedDump, hdump, funext hentries]

/-- The table shows of what was recorded the last declaration for each category and name. -/
structure ShowsLast (t : Table) (entries : List Entry) : Prop where
  get? : ∀ category name,
    t.get? category name = (entries.filterMap (·.meaning? category name)).getLast?
  size : ∀ category, t.size category = (recordedNames entries category).dedup.length
  names : ∀ category,
    ((t.entries category).map Prod.fst).Perm (recordedNames entries category).dedup
  meanings : ∀ category, ∀ x ∈ t.entries category, t.get? category x.1 = some x.2
  ascending : ∀ category, (t.entries category).Pairwise fun a b => a.1 < b.1
  /-- The entries do not depend on the order in which the names of a category are kept. -/
  mergeSort : ∀ category (listed : List (String × Declaration)),
    listed.Perm (t.map category).toList →
    listed.mergeSort (fun a b => a.1 ≤ b.1) = t.entries category
  isEmpty : t.isEmpty = true ↔ entries = []
  find? : ∀ name d, t.find? name = some d ↔ ∃ category, t.get? category name = some d ∧
    ∀ other : Category, other.rank < category.rank → t.get? other name = none

/-- After any records, a table shows the last one for each category and name. Records may be
reordered, as long as those of the same category and name stay in order. -/
theorem showsLast_insertAll (entries : List Entry) :
    (({} : Table).insertAll entries).ShowsLast entries ∧
      ∀ reordered : List Entry, (∀ category name,
        reordered.filterMap (·.meaning? category name) =
          entries.filterMap (·.meaning? category name)) →
        (({} : Table).insertAll reordered).Agrees (({} : Table).insertAll entries) := by
  constructor
  · exact ⟨get?_insertAll_empty entries, size_insertAll entries, names_insertAll entries,
      fun _ _ hx => mem_entries.mp hx, pairwise_entries _, fun _ _ h => mergeSort_eq_entries h,
      isEmpty_insertAll, fun _ _ => find?_eq_some_iff⟩
  · intro reordered h
    refine .of_get? fun category name => ?_
    rw [get?_insertAll_empty, get?_insertAll_empty, h]

/-- A function may be recorded before or after the types of its name, but not the types in another
order. -/
theorem showsLast_insertAll_swapped :
    let first : Declaration := ⟨"T", ⟨1, 0⟩, "T: TYPE", none⟩
    let second : Declaration := ⟨"T", ⟨2, 0⟩, "T: int", none⟩
    let third : Declaration := ⟨"T", ⟨3, 0⟩, "T: TYPE+", none⟩
    let entries : List Entry := [⟨.type, first⟩, ⟨.function, second⟩, ⟨.type, third⟩]
    let reordered : List Entry := [⟨.type, first⟩, ⟨.type, third⟩, ⟨.function, second⟩]
    (∀ category name, reordered.filterMap (·.meaning? category name) =
      entries.filterMap (·.meaning? category name)) ∧
    (({} : Table).insertAll reordered).Agrees (({} : Table).insertAll entries) ∧
    (({} : Table).insertAll entries).get? .type "T" = some third := by
  intro first second third entries reordered
  have h : ∀ category name, reordered.filterMap (·.meaning? category name) =
      entries.filterMap (·.meaning? category name) := by
    intro category name
    cases category <;> simp [reordered, entries, Entry.meaning?, List.filterMap_cons]
  obtain ⟨hshows, hreorder⟩ := showsLast_insertAll entries
  refine ⟨h, hreorder reordered h, (hshows.get? .type "T").trans ?_⟩
  decide

end Table

end PvsIndex
