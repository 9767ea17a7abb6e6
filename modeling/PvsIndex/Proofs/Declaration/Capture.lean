import PvsIndex.Proofs.Checked.Resolution

/-! Lookup of a declared name where it stands: it stays in the scope of the name, but scopes that
begin at the name or end there may capture it. -/

namespace PvsIndex

/-- The scope of the entry touches the start of the name from further in than the scope of the name
itself: it is the function that the name declares, or it ends where the name begins. -/
def Entry.Captures (e : Entry) (name : Occurrence) : Prop :=
  ∃ r, e.declaration.scope = some r ∧ (r.stop = name.element.range.start ∨
    ∃ construct, name.parent? = some construct ∧ construct.kind = .functionDecl ∧
      r = construct.range)

theorem ElementKind.eq_functionDecl {kind : ElementKind} (h : kind.category?.isSome = true)
    (hs : kind.introducesScope = true) : kind = functionDecl := by
  revert h hs
  cases kind <;> decide

namespace Table

variable {t : Table} {name : String} {p : Position} {e : Entry}

theorem exists_of_mem_candidates (h : e ∈ t.candidates name p) :
    ∃ b ∈ t.candidates name p, t.findAt? name p = some b.declaration ∧
      ∀ c ∈ t.candidates name p,
        Entry.scopeKey b.declaration.scope ≤ Entry.scopeKey c.declaration.scope := by
  rcases t.findAt?_cases name p with ⟨-, hnone⟩ | ⟨before, b, after, hfound, hsplit, hb, ha⟩
  · rw [hnone] at h
    cases h
  · refine ⟨b, hsplit ▸ by simp, hfound, fun c hc => Entry.scopeKey_le_of_key_le ?_⟩
    rw [hsplit] at hc
    rcases List.mem_append.mp hc with hc | hc
    · exact hb c hc
    · rcases List.mem_cons.mp hc with rfl | hc
      · exact le_refl _
      · exact (ha c hc).le

end Table

namespace Parse

namespace Lawful

variable {text : String} {theories : List Tree} {o : Occurrence} {e : Entry}

theorem exists_scope_of_mem (h : (ofText text).Lawful theories)
    (he : e ∈ (ofText text).tree.declared.filterMap (·.record? text.toList)) :
    ∃ s ∈ (ofText text).tree.preorder, s.element.kind.introducesScope = true ∧
      e.declaration.scope = some s.element.range := by
  obtain ⟨name, hn, hrecord⟩ := List.mem_filterMap.mp he
  obtain ⟨construct, scope, hsite⟩ := h.exists_site hn
  obtain ⟨c, -, rfl⟩ := Option.map_eq_some_iff.mp hrecord
  exact ⟨scope, hsite.scope_mem, hsite.introducesScope, hsite.declaration_scope⟩

theorem element_leaves_ne_nil (h : (ofText text).Lawful theories)
    (ho : o ∈ (ofText text).tree.preorder) (hk : o.element.kind ≠ .root) :
    o.element.leaves ≠ [] := by
  obtain ⟨i, j, hextent⟩ := h.exists_extent (h.inner_of_kind ho hk)
  obtain ⟨t, ht, -⟩ := hextent.first
  exact List.ne_nil_of_mem (List.mem_of_mem_head? ht)

theorem start_lt_stop (h : (ofText text).Lawful theories) (ho : o ∈ (ofText text).tree.preorder)
    (hk : o.element.kind ≠ .root) : o.element.range.start < o.element.range.stop := by
  obtain ⟨i, j, hextent⟩ := h.exists_extent (h.inner_of_kind ho hk)
  rw [hextent.range]
  exact Position.ofIndex_lt hextent.lt hextent.le

end Lawful

namespace Site

variable {text : String} {theories : List Tree} {name construct scope s : Occurrence}

section Lawful

variable (h : Site text name construct scope) (hl : (ofText text).Lawful theories)

include h hl

theorem leaves_ne_nil : name.element.leaves ≠ [] :=
  hl.element_leaves_ne_nil h.mem h.ne_root

theorem start_lt_stop : name.element.range.start < name.element.range.stop :=
  hl.start_lt_stop h.mem h.ne_root

/-- The scope of a name starts before the construct that declares it. -/
theorem scope_start_lt : scope.element.range.start < construct.element.range.start := by
  refine hl.start_lt_of_above h.introducesScope h.construct_mem
    (ElementKind.ne_of_category? h.category).1 (fun hk => ?_) h.above
  have hc := h.category
  rw [hk] at hc
  cases hc

theorem start_lt_name : scope.element.range.start < name.element.range.start :=
  (h.scope_start_lt hl).trans_le (h.construct_contains hl).1

theorem name_lt_stop : name.element.range.start < scope.element.range.stop :=
  (h.start_lt_stop hl).trans_le (h.scope_contains hl).2

/-- Of the scopes around a name, its own is the innermost, but for the function that it declares. -/
theorem scope_cases (hs : s.Above name) (hsk : s.element.kind.introducesScope = true) :
    s = construct ∨ s.element = scope.element ∨
      s.element.range.start < scope.element.range.start := by
  rw [Occurrence.Above, h.ancestors, List.suffix_cons_iff] at hs
  rcases hs with heq | habove
  · obtain ⟨helement, hancestors⟩ := List.cons.inj heq
    obtain ⟨element, ancestors⟩ := s
    obtain rfl : element = construct.element := helement
    obtain rfl : ancestors = construct.ancestors := hancestors
    exact Or.inl rfl
  · have hfirst := h.scopeElement
    rw [Occurrence.scopeElement?, h.ancestors, List.drop_one, List.tail_cons,
      ← List.head?_filter] at hfirst
    obtain ⟨outer, hscopes⟩ := List.head?_eq_some_iff.mp hfirst
    have hmem : s.element ∈ construct.ancestors.filter (·.kind.introducesScope) :=
      List.mem_filter.mpr ⟨habove.subset List.mem_cons_self, hsk⟩
    have hpair := hl.pairwise_scopes h.construct_mem
    rw [hscopes] at hmem hpair
    rcases List.mem_cons.mp hmem with heq | houter
    · exact Or.inr (Or.inl heq)
    · exact Or.inr (Or.inr ((List.pairwise_cons.mp hpair).1 _ houter))

theorem above_or_stop_eq (hs : s ∈ (ofText text).tree.preorder)
    (hsk : s.element.kind.introducesScope = true)
    (ht : s.element.range.Touches name.element.range.start) :
    s.Above name ∨ s.element.range.stop = name.element.range.start := by
  have hsne := hl.element_leaves_ne_nil hs (ElementKind.ne_root_of_introducesScope hsk)
  rcases Tree.trichotomy h.mem hs with rfl | hbelow | habove | ⟨q, hq, hsplit | hsplit⟩
  · exact absurd h.identifier (ElementKind.ne_identifier_of_introducesScope hsk)
  · obtain ⟨token, hc, -⟩ := hl.exists_token h.mem h.identifier
    obtain ⟨c, hchild, hsc⟩ := Tree.exists_child_of_above hs hbelow
    rw [hc, List.mem_singleton] at hchild
    simp [hchild] at hsc
  · exact Or.inl habove
  · have hle := stop_le_of_splits hq h.mem hs (h.leaves_ne_nil hl) hsne hsplit
    exact absurd (hle.trans ht.1) (not_le_of_gt (h.start_lt_stop hl))
  · exact Or.inr (le_antisymm
      (stop_le_of_splits hq hs h.mem hsne (h.leaves_ne_nil hl) hsplit) ht.2)

theorem start_lt_of_stop_eq (hs : s ∈ (ofText text).tree.preorder)
    (hsk : s.element.kind.introducesScope = true)
    (hstop : s.element.range.stop = name.element.range.start) :
    scope.element.range.start < s.element.range.start := by
  have hroot := ElementKind.ne_root_of_introducesScope hsk
  have hsne := hl.element_leaves_ne_nil hs hroot
  have hne := leaves_ne_nil_of_above h.mem h.scope_above (h.leaves_ne_nil hl)
  have hlt := h.name_lt_stop hl
  rw [← hstop] at hlt
  rcases Tree.trichotomy hs h.scope_mem with rfl | habove | hbelow | ⟨q, hq, hsplit | hsplit⟩
  · exact absurd hlt (lt_irrefl _)
  · exact absurd (contains_of_above h.scope_mem habove hne).2 (not_le_of_gt hlt)
  · exact hl.start_lt_of_above h.introducesScope hs hroot
      (ElementKind.ne_identifier_of_introducesScope hsk) hbelow
  · have hle := stop_le_of_splits hq hs h.scope_mem hsne hne hsplit
    rw [hstop] at hle
    exact absurd hle (not_le_of_gt (h.start_lt_name hl))
  · have hle := stop_le_of_splits hq h.scope_mem hs hne hsne hsplit
    exact absurd (hle.trans (hl.start_lt_stop hs hroot).le) (not_le_of_gt hlt)

/-- What is in force at a name, in a scope no wider than that of the name, has the same scope or
captures the name. -/
theorem scope_eq_or_captures {e : Entry}
    (he : e ∈ (ofText text).tree.declared.filterMap (·.record? text.toList))
    (hforce : e.InForce name.element.range.start)
    (hle : Entry.scopeKey e.declaration.scope ≤ Entry.scopeKey (some scope.element.range)) :
    e.declaration.scope = some scope.element.range ∨ e.Captures name := by
  obtain ⟨s, hs, hsk, hscope⟩ := hl.exists_scope_of_mem he
  rcases h.above_or_stop_eq hl hs hsk (hforce _ hscope) with habove | hstop
  · rcases h.scope_cases hl habove hsk with rfl | heq | hlt
    · exact Or.inr ⟨_, hscope, Or.inr
        ⟨s.element, h.parent?, ElementKind.eq_functionDecl h.category hsk, rfl⟩⟩
    · exact Or.inl (hscope.trans (congrArg (fun e => some e.range) heq))
    · rw [hscope, Entry.scopeKey_some_le_iff] at hle
      rcases hle with hgt | ⟨heq, -⟩
      · exact absurd hlt (not_lt_of_gt hgt)
      · exact absurd heq hlt.ne
  · exact Or.inr ⟨_, hscope, Or.inl hstop⟩

theorem narrower_of_captures {e : Entry}
    (he : e ∈ (ofText text).tree.declared.filterMap (·.record? text.toList))
    (hc : e.Captures name) : e.InForce name.element.range.start ∧
      Entry.scopeKey e.declaration.scope < Entry.scopeKey (some scope.element.range) ∧
      ∃ r, e.declaration.scope = some r ∧ scope.element.range.Contains r := by
  obtain ⟨s, hs, hsk, hscope⟩ := hl.exists_scope_of_mem he
  have hinside : s.element.range.Touches name.element.range.start ∧
      scope.element.range.start < s.element.range.start ∧
      scope.element.range.Contains s.element.range := by
    obtain ⟨r, hr, hcapture⟩ := hc
    obtain rfl := Option.some.inj (hscope.symm.trans hr)
    rcases hcapture with hstop | ⟨function, hparent, -, hrange⟩
    · have hlt := h.start_lt_of_stop_eq hl hs hsk hstop
      have hle := (hl.start_lt_stop hs (ElementKind.ne_root_of_introducesScope hsk)).le
      exact ⟨⟨hle.trans hstop.le, hstop.ge⟩, hlt, hlt.le, hstop.le.trans (h.name_lt_stop hl).le⟩
    · rw [hrange, ← Option.some.inj (h.parent?.symm.trans hparent)]
      have hcontains := h.construct_contains hl
      exact ⟨⟨hcontains.1, (h.start_lt_stop hl).le.trans hcontains.2⟩, h.scope_start_lt hl,
        h.scope_contains_construct hl⟩
  obtain ⟨htouches, hlt, hcontains⟩ := hinside
  refine ⟨fun r hr => Option.some.inj (hscope.symm.trans hr) ▸ htouches, ?_, _, hscope, hcontains⟩
  rw [hscope]
  exact Entry.scopeKey_some_lt_iff.mpr (Or.inl hlt)

end Lawful

end Site

end Parse

/-- What lookup of a declared name finds where the name stands: a declaration of that name, in its
scope and not in a narrower one, unless that captures the name. -/
structure Table.FindsAt (t : Table) (name : Occurrence) (e : Entry) (d : Declaration) : Prop where
  found : t.findAt? e.declaration.name e.declaration.position = some d
  named : d.name = e.declaration.name
  inside : ∃ r s, d.scope = some r ∧ e.declaration.scope = some s ∧ s.Contains r
  scope : d.scope = e.declaration.scope ↔ ∀ c ∈ t.history.toList,
    c.declaration.name = e.declaration.name → ¬c.Captures name
  captured : d.scope ≠ e.declaration.scope → ∃ c ∈ t.history.toList,
    c.declaration = d ∧ c.Captures name

namespace Analysis

theorem findsAt_of_declared {text : String} {theories : List Tree} {t : Table} {name : Occurrence}
    {e : Entry} (h : (Parse.ofText text).Lawful theories)
    (hh : t.history.toList =
      (Parse.ofText text).tree.declared.filterMap (·.record? text.toList))
    (hn : name ∈ (Parse.ofText text).tree.declared) (he : name.record? text.toList = some e) :
    ∃ d, t.FindsAt name e d := by
  obtain ⟨construct, scope, hsite⟩ := h.exists_site hn
  have hmem : e ∈ t.history.toList := hh ▸ List.mem_filterMap.mpr ⟨name, hn, he⟩
  obtain ⟨category, -, rfl⟩ := Option.map_eq_some_iff.mp he
  have hscope : (name.declaration text.toList).scope = some scope.element.range :=
    hsite.declaration_scope
  have hown : (⟨category, name.declaration text.toList⟩ : Entry) ∈
      t.candidates (name.declaration text.toList).name name.element.range.start := by
    refine Table.mem_candidates.mpr ⟨hmem, rfl, fun r hr => ?_⟩
    obtain rfl := Option.some.inj (hscope.symm.trans hr)
    exact ⟨(hsite.start_lt_name h).le, (hsite.name_lt_stop h).le⟩
  obtain ⟨b, hb, hfound, hbest⟩ := Table.exists_of_mem_candidates hown
  obtain ⟨hbmem, hname, hforce⟩ := Table.mem_candidates.mp hb
  have hle := hbest _ hown
  rw [hscope] at hle
  have hcases := hsite.scope_eq_or_captures h (hh ▸ hbmem) hforce hle
  refine ⟨b.declaration, hfound, hname, ?_, ⟨fun heq c hc hcname hcap => ?_, fun hnone => ?_⟩,
    fun hne => ⟨b, hbmem, rfl, hcases.resolve_left fun heq => hne (heq.trans hscope.symm)⟩⟩
  · rcases hcases with heq | hcap
    · exact ⟨_, _, heq, hscope, le_refl _, le_refl _⟩
    · obtain ⟨-, -, r, hr, hcontains⟩ := hsite.narrower_of_captures h (hh ▸ hbmem) hcap
      exact ⟨r, _, hr, hscope, hcontains⟩
  · obtain ⟨hcforce, hlt, -⟩ := hsite.narrower_of_captures h (hh ▸ hc) hcap
    have hbc := hbest c (Table.mem_candidates.mpr ⟨hc, hcname, hcforce⟩)
    rw [heq, hscope] at hbc
    exact absurd hlt (not_lt_of_ge hbc)
  · exact (hcases.resolve_right (hnone b hbmem hname)).trans hscope.symm

/-- For a text without errors, lookup of a declared name where it stands finds a declaration of that
name in its scope. It has the same scope, unless the name is captured by a parameter of the function
that it declares, or by what has a scope that ends where the name begins. -/
theorem findAt?_declared {text : String} (h : (Parse.ofText text).errors = [])
    (dumping : Bool) : ∃ a, ofText text dumping = .ok a ∧
      a.table.history.toList =
        (Parse.ofText text).tree.declared.filterMap (·.record? text.toList) ∧
      ∀ name ∈ (Parse.ofText text).tree.declared, ∃ e, name.record? text.toList = some e ∧
        ∃ d, a.table.FindsAt name e d := by
  obtain ⟨a, ha, -, hh⟩ := exists_history h dumping
  obtain ⟨theories, hl⟩ := Parse.exists_lawful h
  refine ⟨a, ha, hh, fun name hn => ?_⟩
  obtain ⟨category, hc⟩ := Option.isSome_iff_exists.mp (List.mem_filter.mp hn).2
  have he : name.record? text.toList = some ⟨category, name.declaration text.toList⟩ := by
    rw [Occurrence.record?, hc]
    rfl
  exact ⟨_, he, findsAt_of_declared hl hh hn he⟩

/-- The names of a function and of its parameter. -/
theorem findAt?_declared_function :
    let text := "t: THEORY BEGIN f(x: int): int = x END t"
    (Parse.ofText text).errors = [] ∧
      (Parse.ofText text).tree.declared.map (·.element.range.start) = [⟨1, 16⟩, ⟨1, 18⟩] ∧
      ∃ a, ofText text false = .ok a ∧ ∀ name ∈ (Parse.ofText text).tree.declared,
        ∃ e, name.record? text.toList = some e ∧ ∃ d, a.table.FindsAt name e d := by
  intro text
  have h : (Parse.ofText text).errors = [] := by decide +kernel
  obtain ⟨a, ha, -, hnames⟩ := findAt?_declared h false
  exact ⟨h, by decide +kernel, a, ha, hnames⟩

/-- A parameter captures the name of its function, and the name of what comes right after it. -/
theorem findAt?_captured :
    let text := "t: THEORY BEGIN f(f, x: int): int = (f)x: int END t"
    (Parse.ofText text).errors = [] ∧ ∃ a, ofText text false = .ok a ∧
      ∀ p ∈ ([⟨1, 16⟩, ⟨1, 39⟩] : List Position), ∃ e ∈ a.table.history.toList,
        e.declaration.position = p ∧ ∃ d ∈ a.table.findAt? e.declaration.name p,
          d.scope ≠ e.declaration.scope := by
  intro text
  have h : (Parse.ofText text).errors = [] := by decide +kernel
  obtain ⟨a, ha, -, hh⟩ := exists_history h false
  refine ⟨h, a, ha, ?_⟩
  simp only [Table.findAt?, Table.candidates, hh]
  decide +kernel

end Analysis

end PvsIndex
