import Mathlib.Data.List.Induction
import Mathlib.Data.Prod.Lex
import Mathlib.Order.WithBot
import PvsIndex.Declaration.Scoped
import PvsIndex.Proofs.Declaration.LastWrite
import PvsIndex.Proofs.Source.Positions

/-! Lookup at a position in any table: of the entries in force there, none is further in than the
one that is found. Where all entries of a name have the same scope, the position does not matter. -/

namespace PvsIndex

namespace Position

variable {p q : Position}

theorem compare_eq_eq_iff : p.compare q = .eq ↔ p = q := by
  unfold compare
  split_ifs with hlt heq
  · simp [ne_of_lt hlt]
  · simp [heq]
  · simp [heq]

theorem compare_eq_gt_iff : p.compare q = .gt ↔ q < p := by
  unfold compare
  split_ifs with hlt heq
  · simp [le_of_lt hlt]
  · simp [heq]
  · simp [lt_of_le_of_ne (not_lt.mp hlt) (Ne.symm heq)]

end Position

namespace Category

/-- Of some entries, the last one under the first category that has any. -/
def best? (entries : List Entry) : Option Entry :=
  all.findSome? fun category => (entries.filter (·.category = category)).getLast?

theorem exists_best? {entries : List Entry} (h : entries ≠ []) :
    ∃ e, best? entries = some e := by
  obtain ⟨e, he⟩ := List.exists_mem_of_ne_nil _ h
  rw [← Option.isSome_iff_exists, best?, List.findSome?_isSome_iff]
  refine ⟨e.category, mem_all _, ?_⟩
  rw [List.getLast?_isSome]
  exact List.ne_nil_of_mem (List.mem_filter.mpr ⟨he, decide_eq_true rfl⟩)

theorem best?_spec {entries : List Entry} {e : Entry} (h : best? entries = some e) :
    ∃ l r, entries = l ++ e :: r ∧ (∀ d ∈ l, e.category.rank ≤ d.category.rank) ∧
      ∀ d ∈ r, e.category.rank < d.category.rank := by
  obtain ⟨before, c, after, hall, hc, hbefore⟩ := List.findSome?_eq_some_iff.mp h
  obtain ⟨kept, hkept⟩ := List.getLast?_eq_some_iff.mp hc
  obtain ⟨l, m, rfl, -, hm⟩ := List.filter_eq_append_iff.mp hkept
  obtain ⟨m, r, rfl, hskip, he, hr⟩ := List.filter_eq_cons_iff.mp hm
  obtain rfl := of_decide_eq_true he
  have hrank : ∀ d ∈ l ++ (m ++ e :: r), d.category ≠ e.category →
      e.category.rank < d.category.rank := by
    intro d hd hne
    have hmem := mem_all d.category
    rw [hall] at hmem
    rcases List.mem_append.mp hmem with hmem | hmem
    · have hnone := List.getLast?_eq_none_iff.mp (hbefore _ hmem)
      exact absurd (decide_eq_true rfl) (List.filter_eq_nil_iff.mp hnone d hd)
    · have hsorted := all_sorted
      rw [hall] at hsorted
      exact (List.pairwise_cons.mp (List.pairwise_append.mp hsorted).2.1).1 _
        ((List.mem_cons.mp hmem).resolve_left hne)
  refine ⟨l ++ m, r, by rw [List.append_assoc], fun d hd => ?_, fun d hd => ?_⟩
  · by_cases hk : d.category = e.category
    · rw [hk]
    · refine Nat.le_of_lt (hrank d ?_ hk)
      rw [← List.append_assoc]
      exact List.mem_append_left _ hd
  · refine hrank d (by simp [hd]) fun hk => ?_
    exact List.filter_eq_nil_iff.mp hr d hd (decide_eq_true hk)

end Category

namespace Entry

variable {d e : Entry} {r s : Range} {r? s? : Option Range} {entries : List Entry}

/-- Scopes that start later are less, then those that end earlier, and none is the greatest. -/
def scopeKey : Option Range → WithTop (Positionᵒᵈ ×ₗ Position)
  | none => ⊤
  | some r => ↑(toLex (OrderDual.toDual r.start, r.stop))

def key (e : Entry) : WithTop (Positionᵒᵈ ×ₗ Position) ×ₗ Nat :=
  toLex (scopeKey e.declaration.scope, e.category.rank)

theorem scopeKey_some_lt_iff : scopeKey (some r) < scopeKey (some s) ↔
    s.start < r.start ∨ r.start = s.start ∧ r.stop < s.stop := by
  rw [scopeKey, scopeKey, WithTop.coe_lt_coe, Prod.Lex.toLex_lt_toLex, OrderDual.toDual_lt_toDual,
    OrderDual.toDual_inj]

theorem scopeKey_some_le_iff : scopeKey (some r) ≤ scopeKey (some s) ↔
    s.start < r.start ∨ r.start = s.start ∧ r.stop ≤ s.stop := by
  rw [scopeKey, scopeKey, WithTop.coe_le_coe, Prod.Lex.toLex_le_toLex, OrderDual.toDual_lt_toDual,
    OrderDual.toDual_inj]

theorem compareScope_eq_eq_iff : compareScope r? s? = .eq ↔ scopeKey r? = scopeKey s? := by
  cases r? with
  | none => cases s? <;> simp [compareScope, scopeKey]
  | some r =>
    cases s? with
    | none => simp [compareScope, scopeKey]
    | some s =>
      rw [compareScope, Ordering.then_eq_eq, Position.compare_eq_eq_iff, Position.compare_eq_eq_iff,
        eq_comm]
      simp [scopeKey]

theorem compareScope_eq_gt_iff : compareScope r? s? = .gt ↔ scopeKey s? < scopeKey r? := by
  cases r? with
  | none => cases s? <;> simp [compareScope, scopeKey]
  | some r =>
    cases s? with
    | none => simp [compareScope, scopeKey]
    | some s =>
      rw [scopeKey_some_lt_iff, compareScope, Ordering.then_eq_gt, Position.compare_eq_gt_iff,
        Position.compare_eq_gt_iff, Position.compare_eq_eq_iff]

theorem compare_eq_gt_iff : d.compare e = .gt ↔ e.key < d.key := by
  rw [compare, Ordering.then_eq_gt, compareScope_eq_gt_iff, compareScope_eq_eq_iff,
    Nat.compare_eq_gt, key, key, Prod.Lex.toLex_lt_toLex, eq_comm (a := scopeKey _)]

theorem compare_of_scope_eq (h : d.declaration.scope = e.declaration.scope) :
    d.compare e = Ord.compare d.category.rank e.category.rank := by
  rw [compare, compareScope_eq_eq_iff.mpr (congrArg scopeKey h)]
  rfl

theorem compare_of_start_lt (hd : d.declaration.scope = some r) (he : e.declaration.scope = some s)
    (h : s.start < r.start) : d.compare e = .lt ∧ e.compare d = .gt := by
  have hlt : s.start.compare r.start = .lt := if_pos h
  have hgt : r.start.compare s.start = .gt := Position.compare_eq_gt_iff.mpr h
  simp [compare, hd, he, compareScope, hlt, hgt]

/-- The best entry is found if none before it is better and all after it are worse. -/
theorem foldl_closer {l r : List Entry} (hl : ∀ d ∈ l, e.compare d ≠ .gt)
    (hr : ∀ d ∈ r, d.compare e = .gt) : (l ++ e :: r).foldl closer none = some e := by
  have hfirst : ∀ l : List Entry, (∀ d ∈ l, e.compare d ≠ .gt) → ∀ b, (∀ d ∈ b, e.compare d ≠ .gt) →
      closer (l.foldl closer b) e = some e := by
    intro l
    induction l with
    | nil =>
      intro _ b hb
      cases b with
      | none => rfl
      | some b => exact if_neg (hb b rfl)
    | cons d l ih =>
      intro hl b hb
      obtain ⟨hd, hl⟩ := List.forall_mem_cons.mp hl
      refine ih hl _ ?_
      cases b with
      | none => simpa [closer] using hd
      | some b =>
        rw [closer]
        split_ifs
        · exact hb
        · simpa using hd
  have hrest : r.foldl closer (some e) = some e := by
    induction r with
    | nil => rfl
    | cons d r ih =>
      obtain ⟨hd, hr⟩ := List.forall_mem_cons.mp hr
      rw [List.foldl_cons, closer, if_pos hd]
      exact ih hr
  rw [List.foldl_append, List.foldl_cons, hfirst l hl none nofun, hrest]

/-- Of some entries a best one is found, and of several the last. -/
theorem exists_foldl_closer (h : entries ≠ []) : ∃ l e r, entries = l ++ e :: r ∧
    entries.foldl closer none = some e ∧ (∀ d ∈ l, e.key ≤ d.key) ∧ ∀ d ∈ r, e.key < d.key := by
  induction entries using List.reverseRecOn with
  | nil => exact absurd rfl h
  | append_singleton entries x ih =>
    rw [List.foldl_append, List.foldl_cons, List.foldl_nil]
    rcases eq_or_ne entries [] with rfl | hne
    · exact ⟨[], x, [], rfl, rfl, nofun, nofun⟩
    · obtain ⟨l, b, r, rfl, hb, hl, hr⟩ := ih hne
      rw [hb, closer]
      split_ifs with hworse
      · refine ⟨l, b, r ++ [x], by simp, rfl, hl, fun d hd => ?_⟩
        rcases List.mem_append.mp hd with hd | hd
        · exact hr d hd
        · rw [List.mem_singleton.mp hd]
          exact compare_eq_gt_iff.mp hworse
      · have hxb : x.key ≤ b.key := not_lt.mp fun hlt => hworse (compare_eq_gt_iff.mpr hlt)
        refine ⟨l ++ b :: r, x, [], rfl, rfl, fun d hd => ?_, nofun⟩
        rcases List.mem_append.mp hd with hd | hd
        · exact hxb.trans (hl d hd)
        · rcases List.mem_cons.mp hd with rfl | hd
          · exact hxb
          · exact hxb.trans (hr d hd).le

theorem scopeKey_le_of_key_le (h : d.key ≤ e.key) :
    scopeKey d.declaration.scope ≤ scopeKey e.declaration.scope :=
  (Prod.Lex.toLex_le_toLex.mp h).elim le_of_lt fun h => h.1.le

theorem foldl_closer_of_scope_eq {scope : Option Range}
    (h : ∀ e ∈ entries, e.declaration.scope = scope) :
    entries.foldl closer none = Category.best? entries := by
  rcases eq_or_ne entries [] with rfl | hne
  · rfl
  · obtain ⟨e, he⟩ := Category.exists_best? hne
    obtain ⟨l, r, rfl, hl, hr⟩ := Category.best?_spec he
    have heq : ∀ d ∈ l ++ e :: r, d.declaration.scope = e.declaration.scope := fun d hd =>
      (h d hd).trans (h e (by simp)).symm
    rw [he]
    refine foldl_closer (fun d hd => ?_) fun d hd => ?_
    · rw [compare_of_scope_eq (heq d (by simp [hd])).symm, Nat.compare_ne_gt]
      exact hl d hd
    · rw [compare_of_scope_eq (heq d (by simp [hd])), Nat.compare_eq_gt]
      exact hr d hd

/-- Of the candidates `before ++ e :: after`, none is further in than `e`; of those with the same
scope, none has a better category, and none after it has the same one. -/
structure Innermost (before : List Entry) (e : Entry) (after : List Entry) : Prop where
  inner : ∀ c ∈ before ++ after, ∀ r ∈ e.declaration.scope, ∀ s ∈ c.declaration.scope,
    r.Contains s → r = s
  scopeless : e.declaration.scope = none → ∀ c ∈ before ++ after, c.declaration.scope = none
  category : ∀ c ∈ before ++ after, c.declaration.scope = e.declaration.scope →
    e.category.rank ≤ c.category.rank
  last : ∀ c ∈ after, c.declaration.scope = e.declaration.scope → c.category ≠ e.category

theorem Innermost.of_key_le {before after : List Entry} (hb : ∀ c ∈ before, e.key ≤ c.key)
    (ha : ∀ c ∈ after, e.key < c.key) : Innermost before e after := by
  have hle : ∀ c ∈ before ++ after, e.key ≤ c.key := fun c hc =>
    (List.mem_append.mp hc).elim (hb c) fun hc => (ha c hc).le
  refine ⟨fun c hc r hr s hs hrs => ?_, fun he c hc => ?_, fun c hc hscope => ?_,
    fun c hc hscope hcategory => ?_⟩
  · have hscope := scopeKey_le_of_key_le (hle c hc)
    rw [hr, hs, scopeKey_some_le_iff] at hscope
    rcases hscope with hlt | ⟨heq, hstop⟩
    · exact absurd hrs.1 (not_le_of_gt hlt)
    · obtain ⟨start, stop⟩ := r
      obtain ⟨start', stop'⟩ := s
      rw [Range.mk.injEq]
      exact ⟨heq, le_antisymm hstop hrs.2⟩
  · have hscope := scopeKey_le_of_key_le (hle c hc)
    rw [he] at hscope
    cases hc : c.declaration.scope with
    | none => rfl
    | some s =>
      rw [hc] at hscope
      exact absurd hscope (not_le_of_gt (WithTop.coe_lt_top _))
  · rcases Prod.Lex.toLex_le_toLex.mp (hle c hc) with hlt | ⟨-, hrank⟩
    · rw [hscope] at hlt
      exact absurd hlt (lt_irrefl _)
    · exact hrank
  · rcases Prod.Lex.toLex_lt_toLex.mp (ha c hc) with hlt | ⟨-, hrank⟩
    · rw [hscope] at hlt
      exact absurd hlt (lt_irrefl _)
    · rw [hcategory] at hrank
      exact absurd hrank (lt_irrefl _)

end Entry

namespace Table

variable {t : Table} {entries : List Entry} {name : String} {p : Position} {d : Declaration}

/-- By category, the best of the entries of a name is found, whatever their scopes. -/
theorem find?_insertAll (entries : List Entry) (name : String) :
    (({} : Table).insertAll entries).find? name =
      (Category.best? (entries.filter (·.declaration.name = name))).map (·.declaration) := by
  rw [find?, Category.best?, List.map_findSome?]
  congr 1
  funext category
  have hmeaning : entries.filterMap (·.meaning? category name) =
      ((entries.filter (·.declaration.name = name)).filter (·.category = category)).map
        (·.declaration) := by
    induction entries with
    | nil => rfl
    | cons e entries ih =>
      rw [List.filterMap_cons, ih, Entry.meaning?]
      by_cases hc : e.category = category <;> by_cases hn : e.declaration.name = name <;>
        simp [hc, hn]
  rw [get?_insertAll_empty, hmeaning, List.getLast?_map]
  rfl

theorem exists_of_find? (h : (({} : Table).insertAll entries).find? name = some d) :
    ∃ e ∈ entries, e.declaration = d ∧ d.name = name := by
  rw [find?_insertAll] at h
  obtain ⟨e, hbest, rfl⟩ := Option.map_eq_some_iff.mp h
  obtain ⟨l, r, hsplit, -⟩ := Category.best?_spec hbest
  have hmem : e ∈ entries.filter (·.declaration.name = name) := by simp [hsplit]
  obtain ⟨he, hname⟩ := List.mem_filter.mp hmem
  exact ⟨e, he, rfl, of_decide_eq_true hname⟩

theorem ne_of_find?_eq_none (h : (({} : Table).insertAll entries).find? name = none) :
    ∀ e ∈ entries, e.declaration.name ≠ name := by
  intro e he hname
  rw [find?_insertAll, Option.map_eq_none_iff] at h
  have hmem : e ∈ entries.filter (·.declaration.name = name) :=
    List.mem_filter.mpr ⟨he, decide_eq_true hname⟩
  obtain ⟨b, hb⟩ := Category.exists_best? (List.ne_nil_of_mem hmem)
  exact absurd (h.symm.trans hb) nofun

theorem mem_candidates {e : Entry} : e ∈ t.candidates name p ↔
    e ∈ t.history.toList ∧ e.declaration.name = name ∧ e.InForce p := by
  rw [candidates, List.mem_filter, decide_eq_true_eq]

/-- Nothing is found at a position, or one of the best candidates. -/
theorem findAt?_cases (t : Table) (name : String) (p : Position) :
    (t.findAt? name p = none ∧ t.candidates name p = []) ∨
      ∃ before e after, t.findAt? name p = some e.declaration ∧
        t.candidates name p = before ++ e :: after ∧ (∀ c ∈ before, e.key ≤ c.key) ∧
          ∀ c ∈ after, e.key < c.key := by
  rcases eq_or_ne (t.candidates name p) [] with hnone | hne
  · exact Or.inl ⟨by rw [findAt?, hnone]; rfl, hnone⟩
  · obtain ⟨l, e, r, hsplit, hfold, hl, hr⟩ := Entry.exists_foldl_closer hne
    exact Or.inr ⟨l, e, r, by rw [findAt?, hfold]; rfl, hsplit, hl, hr⟩

theorem exists_of_findAt? (h : t.findAt? name p = some d) :
    ∃ e ∈ t.history.toList, e.declaration = d ∧ d.name = name := by
  rcases t.findAt?_cases name p with ⟨hnone, -⟩ | ⟨before, e, after, hfound, hsplit, -⟩
  · exact absurd (hnone.symm.trans h) nofun
  · obtain rfl := Option.some.inj (hfound.symm.trans h)
    obtain ⟨he, hname, -⟩ := mem_candidates.mp (hsplit ▸ by simp : e ∈ t.candidates name p)
    exact ⟨e, he, rfl, hname⟩

theorem findAt?_eq_none_iff : t.findAt? name p = none ↔
    ∀ e ∈ t.history.toList, e.declaration.name = name → ¬ e.InForce p := by
  have hnil : t.candidates name p = [] ↔
      ∀ e ∈ t.history.toList, e.declaration.name = name → ¬ e.InForce p := by
    simp [candidates, List.filter_eq_nil_iff]
  rw [← hnil]
  rcases t.findAt?_cases name p with ⟨hnone, hcandidates⟩ | ⟨before, e, after, hfound, hsplit, -⟩
  · exact iff_of_true hnone hcandidates
  · exact iff_of_false (by simp [hfound]) (by simp [hsplit])

theorem findAt?_eq_find? {scope : Option Range}
    (hscope : ∀ e ∈ entries, e.declaration.name = name → e.declaration.scope = scope)
    (hp : ∀ r ∈ scope, r.Touches p) :
    (({} : Table).insertAll entries).findAt? name p =
      (({} : Table).insertAll entries).find? name := by
  have hcandidates : (({} : Table).insertAll entries).candidates name p =
      entries.filter (·.declaration.name = name) := by
    rw [candidates, history_insertAll]
    refine List.filter_congr fun e he => ?_
    refine decide_eq_decide.mpr (and_iff_left_of_imp fun hname r hr => hp r ?_)
    rwa [← hscope e he hname]
  have hscopes : ∀ e ∈ entries.filter (·.declaration.name = name), e.declaration.scope = scope := by
    intro e he
    obtain ⟨he, hname⟩ := List.mem_filter.mp he
    exact hscope e he (of_decide_eq_true hname)
  rw [findAt?, find?_insertAll, hcandidates, Entry.foldl_closer_of_scope_eq hscopes]

/-- After any records, lookup at a position finds something exactly if an entry of the name is in
force there, and an innermost one. Lookup by category finds something wherever it does, and the
same if all entries of the name have one scope around the position, or none. -/
theorem findAt?_innermost (entries : List Entry) (name : String) (p : Position) :
    ((({} : Table).insertAll entries).findAt? name p = none ↔
      ∀ e ∈ entries, e.declaration.name = name → ¬ e.InForce p) ∧
    (∀ d, (({} : Table).insertAll entries).findAt? name p = some d → ∃ before e after,
      entries.filter (fun e => e.declaration.name = name ∧ e.InForce p) = before ++ e :: after ∧
        e.declaration = d ∧ e.Innermost before after) ∧
    ((({} : Table).insertAll entries).find? name = none →
      (({} : Table).insertAll entries).findAt? name p = none) ∧
    ∀ scope : Option Range,
      (∀ e ∈ entries, e.declaration.name = name → e.declaration.scope = scope) →
      (∀ r ∈ scope, r.Touches p) →
      (({} : Table).insertAll entries).findAt? name p =
        (({} : Table).insertAll entries).find? name := by
  have hhistory : (({} : Table).insertAll entries).history.toList = entries :=
    history_insertAll {} entries
  have hnone : (({} : Table).insertAll entries).findAt? name p = none ↔
      ∀ e ∈ entries, e.declaration.name = name → ¬ e.InForce p := by
    rw [findAt?_eq_none_iff, hhistory]
  refine ⟨hnone, fun d hd => ?_, fun hfind => ?_, fun scope => findAt?_eq_find?⟩
  · rcases findAt?_cases (({} : Table).insertAll entries) name p with
      ⟨hno, -⟩ | ⟨before, e, after, hfound, hsplit, hb, ha⟩
    · exact absurd (hno.symm.trans hd) nofun
    · rw [candidates, hhistory] at hsplit
      exact ⟨before, e, after, hsplit, Option.some.inj (hfound.symm.trans hd),
        Entry.Innermost.of_key_le hb ha⟩
  · exact hnone.mpr fun e he hname => absurd hname (ne_of_find?_eq_none hfind e he)

end Table

end PvsIndex
