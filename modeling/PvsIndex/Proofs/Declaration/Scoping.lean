import PvsIndex.Proofs.Declaration.History
import PvsIndex.Proofs.Declaration.Innermost

/-! Lookup at a position is lexical scoping: of the scopes around a use, the innermost one that
declares the name answers. -/

namespace PvsIndex

namespace Tree

mutual

/-- Trees are the same if they have the same elements and tokens. -/
def decEq : (s t : Tree) → Decidable (s = t)
  | leaf a, leaf b => decidable_of_iff (a = b) (by simp)
  | leaf _, node _ _ => isFalse nofun
  | node _ _, leaf _ => isFalse nofun
  | node k cs, node l ds =>
    have := decEqList cs ds
    decidable_of_iff (k = l ∧ cs = ds) (by simp)

def decEqList : (ss ts : List Tree) → Decidable (ss = ts)
  | [], [] => isTrue rfl
  | [], _ :: _ => isFalse nofun
  | _ :: _, [] => isFalse nofun
  | s :: ss, t :: ts =>
    have := decEq s t
    have := decEqList ss ts
    decidable_of_iff (s = t ∧ ss = ts) (by simp)

end

instance : DecidableEq Tree :=
  decEq

end Tree

deriving instance DecidableEq for Element

/-- The occurrence has this name, and its scope is this one. -/
def Occurrence.Declares (source : List Char) (name : String) (scope : Element) (d : Occurrence) :
    Prop :=
  d.element.sourceText source = name ∧ d.innermost? = some scope

instance (source : List Char) (name : String) (scope : Element) (d : Occurrence) :
    Decidable (d.Declares source name scope) :=
  inferInstanceAs (Decidable (_ ∧ _))

namespace Tree

/-- What is recorded for the declarations of a name that have this scope, in order. -/
def entriesIn (source : List Char) (name : String) (t : Tree) (scope : Element) : List Entry :=
  (t.declared.filter fun d => d.Declares source name scope).filterMap (·.record? source)

/-- Lexical scoping: a walk outwards from a use stops at the first scope that declares the name. -/
def lookUp? (source : List Char) (name : String) (t : Tree) (use : Occurrence) :
    Option Declaration := do
  let scope ← (use.ancestors.filter (·.kind ∈ ElementKind.scopes)).find? fun scope =>
    t.entriesIn source name scope ≠ []
  let e ← Category.best? (t.entriesIn source name scope)
  return e.declaration

variable {source : List Char} {name : String} {t : Tree} {scope : Element} {e : Entry}
  {l r : List Entry}

theorem mem_entriesIn : e ∈ t.entriesIn source name scope ↔
    ∃ d ∈ t.declared, d.Declares source name scope ∧ d.record? source = some e := by
  simp only [entriesIn, List.mem_filterMap, List.mem_filter, decide_eq_true_eq, and_assoc]

theorem exists_split_of_entriesIn (h : t.entriesIn source name scope = l ++ e :: r) :
    ∃ before d after, t.declared = before ++ d :: after ∧ d.Declares source name scope ∧
      d.record? source = some e ∧
      (∀ x ∈ before, x.Declares source name scope → ∀ y, x.record? source = some y → y ∈ l) ∧
      ∀ x ∈ after, x.Declares source name scope → ∀ y, x.record? source = some y → y ∈ r := by
  rw [entriesIn, List.filterMap_filter] at h
  obtain ⟨before, rest, hdeclared, rfl, hrest⟩ := List.filterMap_eq_append_iff.mp h
  obtain ⟨skipped, d, after, rfl, hskip, hd, rfl⟩ := List.filterMap_eq_cons_iff.mp hrest
  have hdecl : d.Declares source name scope := by
    by_contra hn
    simp [hn] at hd
  refine ⟨before ++ skipped, d, after, by simp [hdeclared], hdecl, by simpa [hdecl] using hd,
    fun x hx hxd y hy => ?_, fun x hx hxd y hy => ?_⟩
  · rcases List.mem_append.mp hx with hx | hx
    · exact List.mem_filterMap.mpr ⟨x, hx, by simpa [hxd] using hy⟩
    · have hnone := hskip x hx
      simp [hxd, hy] at hnone
  · exact List.mem_filterMap.mpr ⟨x, hx, by simpa [hxd] using hy⟩

end Tree

namespace Parse.Lawful

variable {text : String} {theories : List Tree} {u d : Occurrence} {n : Token} {rest : List Tree}
  {p : Position} {e : Entry} {scope : Element} {inner outer : List Element}
variable (h : (ofText text).Lawful theories) (hu : u ∈ (ofText text).tree.preorder)
  (huk : u.element.kind.isUse = true) (hc : u.element.children = .leaf n :: rest)
  (hp : n.range.Touches p)

include h hu huk hc hp

/-- What is recorded for a declared name is in force at a use if its scope is around the use. -/
theorem inForce_iff (hd : d ∈ (ofText text).tree.declared) (he : d.record? text.toList = some e) :
    ∃ scope, d.scopeElement? = some scope ∧ e.declaration.scope = some scope.range ∧
      (e.InForce p ↔ scope ∈ u.ancestors.filter (·.kind.introducesScope)) := by
  obtain ⟨construct, scope, hsite⟩ := h.exists_site hd
  obtain ⟨c, -, rfl⟩ := Option.map_eq_some_iff.mp he
  have hk := hsite.introducesScope
  refine ⟨scope.element, hsite.scopeElement, hsite.declaration_scope, ?_⟩
  rw [List.mem_filter, and_iff_left hk, ← h.touches_iff hu huk hc hsite.scope_mem hk hp,
    Entry.InForce]
  simp [hsite.declaration_scope]

theorem mem_scopes_of_candidate (hd : d ∈ (ofText text).tree.declared)
    (he : d.record? text.toList = some e) (hcand : e.declaration.name = n.text ∧ e.InForce p) :
    ∃ scope ∈ u.ancestors.filter (·.kind.introducesScope),
      e.declaration.scope = some scope.range ∧ d.Declares text.toList n.text scope := by
  obtain ⟨scope, hs, hr, hiff⟩ := h.inForce_iff hu huk hc hp hd he
  obtain ⟨c, -, rfl⟩ := Option.map_eq_some_iff.mp he
  exact ⟨scope, hiff.mp hcand.2, hr, hcand.1, d.innermost?_eq.trans hs⟩

theorem candidate_of_declares (hd : d ∈ (ofText text).tree.declared)
    (he : d.record? text.toList = some e) (hs : d.Declares text.toList n.text scope)
    (haround : scope ∈ u.ancestors.filter (·.kind.introducesScope)) :
    e.declaration.name = n.text ∧ e.InForce p ∧ e.declaration.scope = some scope.range := by
  obtain ⟨s, hse, hr, hiff⟩ := h.inForce_iff hu huk hc hp hd he
  obtain rfl := Option.some.inj (hs.2.symm.trans (d.innermost?_eq.trans hse))
  obtain ⟨c, -, rfl⟩ := Option.map_eq_some_iff.mp he
  exact ⟨hs.1, hiff.mpr haround, hr⟩

/-- If no scope further in declares the name, other candidates have the same scope or a worse
one. -/
theorem declares_or_worse
    (haround : u.ancestors.filter (·.kind.introducesScope) = inner ++ scope :: outer)
    (hinner : ∀ s ∈ inner, (ofText text).tree.entriesIn text.toList n.text s = [])
    (he : e.declaration.scope = some scope.range) {x : Occurrence} {y : Entry}
    (hx : x ∈ (ofText text).tree.declared) (hy : x.record? text.toList = some y)
    (hcand : y.declaration.name = n.text ∧ y.InForce p) :
    (x.Declares text.toList n.text scope ∧ y.declaration.scope = e.declaration.scope) ∨
      e.compare y = .lt ∧ y.compare e = .gt := by
  have hscopes := h.pairwise_scopes hu
  rw [haround] at hscopes
  have houter := (List.pairwise_cons.mp (List.pairwise_append.mp hscopes).2.1).1
  obtain ⟨s, hs, hys, hxs⟩ := h.mem_scopes_of_candidate hu huk hc hp hx hy hcand
  rw [haround] at hs
  rcases List.mem_append.mp hs with hs | hs
  · have hmem := Tree.mem_entriesIn.mpr ⟨x, hx, hxs, hy⟩
    rw [hinner s hs] at hmem
    cases hmem
  · rcases List.mem_cons.mp hs with rfl | hs
    · exact Or.inl ⟨hxs, hys.trans he.symm⟩
    · exact Or.inr (Entry.compare_of_start_lt he hys (houter s hs))

theorem foldl_closer_of_best?
    (haround : u.ancestors.filter (·.kind.introducesScope) = inner ++ scope :: outer)
    (hinner : ∀ s ∈ inner, (ofText text).tree.entriesIn text.toList n.text s = [])
    (hbest : Category.best? ((ofText text).tree.entriesIn text.toList n.text scope) = some e) :
    (((ofText text).tree.declared.filterMap (·.record? text.toList)).filter fun e =>
      e.declaration.name = n.text ∧ e.InForce p).foldl Entry.closer none = some e := by
  obtain ⟨l, r, hentries, hl, hr⟩ := Category.best?_spec hbest
  obtain ⟨before, d, after, hdeclared, hd, he, hbefore, hafter⟩ :=
    Tree.exists_split_of_entriesIn hentries
  obtain ⟨hname, hforce, hscope⟩ := h.candidate_of_declares hu huk hc hp
    (by simp [hdeclared]) he hd (by simp [haround])
  rw [hdeclared, List.filterMap_append, List.filterMap_cons_some he, List.filter_append,
    List.filter_cons_of_pos (by exact decide_eq_true ⟨hname, hforce⟩), Entry.foldl_closer]
  · intro y hy
    obtain ⟨hy, hcand⟩ := List.mem_filter.mp hy
    obtain ⟨x, hx, hy⟩ := List.mem_filterMap.mp hy
    rcases h.declares_or_worse hu huk hc hp haround hinner hscope (by simp [hdeclared, hx]) hy
      (of_decide_eq_true hcand) with ⟨hxd, hys⟩ | ⟨hlt, -⟩
    · rw [Entry.compare_of_scope_eq hys.symm, Nat.compare_ne_gt]
      exact hl y (hbefore x hx hxd y hy)
    · rw [hlt]
      nofun
  · intro y hy
    obtain ⟨hy, hcand⟩ := List.mem_filter.mp hy
    obtain ⟨x, hx, hy⟩ := List.mem_filterMap.mp hy
    rcases h.declares_or_worse hu huk hc hp haround hinner hscope (by simp [hdeclared, hx]) hy
      (of_decide_eq_true hcand) with ⟨hxd, hys⟩ | ⟨-, hgt⟩
    · rw [Entry.compare_of_scope_eq hys, Nat.compare_eq_gt]
      exact hr y (hafter x hx hxd y hy)
    · exact hgt

/-- The recorded declarations, looked up at a use, answer as the tree does. -/
theorem closest_eq_lookUp? :
    ((((ofText text).tree.declared.filterMap (·.record? text.toList)).filter fun e =>
      e.declaration.name = n.text ∧ e.InForce p).foldl Entry.closer none).map (·.declaration) =
      (ofText text).tree.lookUp? text.toList n.text u := by
  unfold Tree.lookUp?
  rw [ElementKind.decide_mem_scopes]
  cases hfind : (u.ancestors.filter (·.kind.introducesScope)).find? fun scope =>
      (ofText text).tree.entriesIn text.toList n.text scope ≠ [] with
  | none =>
    rw [List.filter_eq_nil_iff.mpr]
    · rfl
    · intro e he hcand
      obtain ⟨d, hd, he⟩ := List.mem_filterMap.mp he
      obtain ⟨scope, hs, -, hdecl⟩ :=
        h.mem_scopes_of_candidate hu huk hc hp hd he (of_decide_eq_true hcand)
      have hmem := Tree.mem_entriesIn.mpr ⟨d, hd, hdecl, he⟩
      exact List.find?_eq_none.mp hfind scope hs (decide_eq_true (List.ne_nil_of_mem hmem))
  | some scope =>
    obtain ⟨hne, inner, outer, haround, hinner⟩ := List.find?_eq_some_iff_append.mp hfind
    obtain ⟨e, hbest⟩ := Category.exists_best? (of_decide_eq_true hne)
    rw [h.foldl_closer_of_best? hu huk hc hp haround (fun s hs => by simpa using hinner s hs)
      hbest]
    simp [hbest]

end Parse.Lawful

namespace Analysis

/-- Lookup is lexical scoping: at any position of the name in a use, and at its end, the table
answers with what the innermost scope that declares the name has recorded, under its best category
and last there. -/
theorem findAt?_eq_lookUp? {text : String} (h : (Parse.ofText text).errors = [])
    (dumping : Bool) : ∃ a, ofText text dumping = .ok a ∧
      a.table.history.toList =
        (Parse.ofText text).tree.declared.filterMap (·.record? text.toList) ∧
      ∀ u ∈ (Parse.ofText text).tree.preorder, u.element.kind.isUse = true →
        ∃ n rest, u.element.children = .leaf n :: rest ∧ n.kind = .identifier ∧
          ∀ p, n.range.Touches p →
            a.table.findAt? n.text p = (Parse.ofText text).tree.lookUp? text.toList n.text u := by
  obtain ⟨a, ha, -, hh⟩ := exists_history h dumping
  obtain ⟨theories, hl⟩ := Parse.exists_lawful h
  refine ⟨a, ha, hh, fun u hu huk => ?_⟩
  obtain ⟨n, rest, hc, hk, -⟩ := (hl.element_lawful hu).use huk
  refine ⟨n, rest, hc, hk, fun p hp => ?_⟩
  rw [Table.findAt?, Table.candidates, hh]
  exact hl.closest_eq_lookUp? hu huk hc hp

/-- Right after its use in the body, the name of a parameter means the parameter, not the constant
of the same name. -/
theorem findAt?_parameter :
    let text := "t: THEORY BEGIN x: int f(x: int): int = x END t"
    (Parse.ofText text).errors = [] ∧ ∃ a, ofText text false = .ok a ∧
      (a.table.findAt? "x" ⟨1, 41⟩).map (·.position) = some ⟨1, 25⟩ := by
  intro text
  have h : (Parse.ofText text).errors = [] := by decide +kernel
  let n : Token := ⟨.identifier, "x", ⟨⟨1, 40⟩, ⟨1, 41⟩⟩, 40⟩
  have hn : n.range.Touches ⟨1, 41⟩ := by decide
  have hu : ∃ u ∈ (Parse.ofText text).tree.preorder, u.element.kind.isUse = true ∧
      u.element.children.head? = some (.leaf n) ∧
      ((Parse.ofText text).tree.lookUp? text.toList n.text u).map (·.position) =
        some ⟨1, 25⟩ := by
    decide +kernel
  obtain ⟨u, hu, huk, hc, hfound⟩ := hu
  obtain ⟨a, ha, -, huse⟩ := findAt?_eq_lookUp? h false
  obtain ⟨m, rest, hm, -, hfind⟩ := huse u hu huk
  obtain rfl : m = n := by simpa [hm] using hc
  exact ⟨h, a, ha, (congrArg (Option.map (·.position)) (hfind _ hn)).trans hfound⟩

end Analysis

end PvsIndex
