import PvsIndex.Analysis
import PvsIndex.Proofs.Declaration.Declared
import PvsIndex.Proofs.Declaration.Reach
import PvsIndex.Proofs.Declaration.Table

/-! What is recorded for a text without errors: the names that its tree declares, in order. -/

namespace PvsIndex

namespace Occurrence

def declaration (source : List Char) (name : Occurrence) : Declaration :=
  { name := name.element.sourceText source
    position := name.element.range.start
    sourceText := (name.parent?.map (·.sourceText source)).getD ""
    scope := name.innermost?.map (·.range) }

/-- What is recorded for an identifier, if it declares its name. -/
def record? (source : List Char) (name : Occurrence) : Option Entry :=
  name.category?.map (⟨·, name.declaration source⟩)

/-- Recording the name does not fail. -/
structure Recordable (source : List Char) (name : Occurrence) : Prop where
  named : name.element.sourceText source ≠ ""
  within : ∀ scope ∈ name.scopeElement?, scope.range.Contains name.element.range

variable {source : List Char} {construct : Occurrence} {name : Element} {category : Category}

theorem Recordable.scope? {name : Occurrence} (h : name.Recordable source) :
    name.scope? = .ok (name.declaration source).scope := by
  unfold Occurrence.scope? declaration
  rw [innermost?_eq]
  cases hs : name.scopeElement? with
  | none => rfl
  | some scope => exact if_pos (h.within scope hs)

theorem Recordable.ofConstruct (h : (construct.below name).Recordable source) :
    Declaration.ofConstruct source construct name =
      .ok ((construct.below name).declaration source) := by
  unfold Declaration.ofConstruct
  rw [h.scope?]
  exact if_neg h.named

end Occurrence

def Visit.entries (source : List Char) : Visit → List Entry
  | enter o => o.names.filterMap (·.record? source)
  | leave _ => []

theorem Visit.flatMap_entries (source : List Char) (visits : List Visit) :
    visits.flatMap (entries source) =
      ((visits.filterMap entered?).flatMap Occurrence.names).filterMap (·.record? source) := by
  induction visits with
  | nil => rfl
  | cons visit visits ih =>
    cases visit with
    | enter o => simp [entries, entered?, ih]
    | leave o => exact ih

/-- A construct that declares names holds one. -/
def Element.Named (e : Element) : Prop :=
  e.kind.category?.isSome = true → e.childrenOf .identifier ≠ []

theorem Element.Lawful.holdsName {e : Element} (h : e.Lawful) : e.Named := by
  intro hc
  obtain ⟨category, hc⟩ := Option.isSome_iff_exists.mp hc
  obtain ⟨name, names, hnames, -⟩ := h.childrenOf_identifier hc
  rw [hnames]
  exact List.cons_ne_nil _ _

namespace Recording

variable {source : List Char} {construct : Occurrence} {category : Category}

theorem insertNames_eq {names : List Element}
    (h : ∀ name ∈ names, (construct.below name).Recordable source) (t : Table) :
    insertNames source category construct names t = .ok (t.insertAll
      (names.map fun name => ⟨category, (construct.below name).declaration source⟩)) := by
  induction names generalizing t with
  | nil => rfl
  | cons name names ih =>
    obtain ⟨hn, hrest⟩ := List.forall_mem_cons.mp h
    rw [insertNames, List.foldlM_cons, hn.ofConstruct]
    exact ih hrest _

theorem category?_below {name : Element} (h : construct.element.kind.category? = some category)
    (hn : name ∈ construct.element.childrenOf .identifier) :
    (construct.below name).category? = some category := by
  have hk : name.kind = .identifier := of_decide_eq_true (List.mem_filter.mp hn).2
  simp [Occurrence.category?_def, Occurrence.below, Occurrence.parent?, hk, h]

theorem filterMap_record? (h : construct.element.kind.category? = some category)
    {names : List Element} (hn : names ⊆ construct.element.childrenOf .identifier) :
    (names.map construct.below).filterMap (·.record? source) =
      names.map fun name => ⟨category, (construct.below name).declaration source⟩ := by
  induction names with
  | nil => rfl
  | cons name names ih =>
    obtain ⟨hname, hrest⟩ := List.cons_subset.mp hn
    have hentry : (construct.below name).record? source =
        some ⟨category, (construct.below name).declaration source⟩ := by
      rw [Occurrence.record?, category?_below h hname]
      rfl
    rw [List.map_cons, List.filterMap_cons_some hentry, ih hrest, List.map_cons]

theorem record_eq (h : construct.element.Named)
    (hn : ∀ name ∈ construct.names, name.Recordable source) (t : Table) :
    record source construct t =
      .ok (t.insertAll (construct.names.filterMap (·.record? source))) := by
  unfold Occurrence.names at hn ⊢
  unfold record
  cases hc : construct.element.kind.category? with
  | none => rfl
  | some category =>
    obtain ⟨name, names, hnames⟩ := List.exists_cons_of_ne_nil (h (by rw [hc]; rfl))
    rw [hc] at hn
    dsimp only at hn ⊢
    rw [hnames, List.take_succ_cons, List.take_zero] at hn ⊢
    have hsub : (if category.declaresList then name :: names else [name]) ⊆
        construct.element.childrenOf .identifier := by
      rw [hnames]
      split_ifs
      · exact List.Subset.refl _
      · exact List.cons_subset_cons _ (List.nil_subset _)
    rw [filterMap_record? hc hsub]
    exact insertNames_eq (fun x hx => hn _ (List.mem_map_of_mem hx)) t

theorem record_nameless (h : ¬construct.element.Named) (t : Table) : record source construct t =
    .error (.nameless construct.element.kind construct.element.range) := by
  obtain ⟨hc, hnone⟩ := Classical.not_imp.mp h
  obtain ⟨category, hc⟩ := Option.isSome_iff_exists.mp hc
  rw [record, hc, not_not.mp hnone]

/-- What becomes of a recording at a visit where nothing fails. -/
def play (source : List Char) (dumping : Bool) (r : Recording) : Visit → Recording
  | .enter o => { r with table := r.table.insertAll ((Visit.enter o).entries source) }
  | .leave o =>
    if dumping ∧ o.element.kind = .theory then { r with dumps := r.dumps.push r.table.dump } else r

theorem foldlM_step {visits : List Visit} (dumping : Bool)
    (h : ∀ o ∈ visits.filterMap Visit.entered?, o.element.Named ∧
      ∀ name ∈ o.names, name.Recordable source) (r : Recording) :
    visits.foldlM (step source dumping) r = .ok (visits.foldl (play source dumping) r) := by
  induction visits generalizing r with
  | nil => rfl
  | cons visit visits ih =>
    cases visit with
    | enter o =>
      obtain ⟨⟨hl, hn⟩, hrest⟩ := List.forall_mem_cons.mp h
      rw [List.foldlM_cons, step, record_eq hl hn]
      exact ih hrest _
    | leave o =>
      rw [List.foldlM_cons, List.foldl_cons, step, play]
      split_ifs
      · exact ih h _
      · exact ih h _

theorem table_foldl_play (source : List Char) (dumping : Bool) (visits : List Visit)
    (r : Recording) : (visits.foldl (play source dumping) r).table =
      r.table.insertAll (visits.flatMap (Visit.entries source)) := by
  induction visits generalizing r with
  | nil => rfl
  | cons visit visits ih =>
    rw [List.foldl_cons, ih, List.flatMap_cons, Table.insertAll_append]
    cases visit with
    | enter o => rfl
    | leave o =>
      rw [play]
      split_ifs
      · rfl
      · rfl

theorem dumps_foldl_play (source : List Char) (dumping : Bool) (visits : List Visit)
    (r : Recording) : r.dumps.toList <+: (visits.foldl (play source dumping) r).dumps.toList := by
  induction visits generalizing r with
  | nil => exact List.prefix_rfl
  | cons visit visits ih =>
    refine List.IsPrefix.trans ?_ (ih _)
    cases visit with
    | enter o => exact List.prefix_rfl
    | leave o =>
      rw [play]
      split_ifs
      · simp
      · exact List.prefix_rfl

end Recording

theorem Element.mem_childrenOf {e x : Element} {kind : ElementKind}
    (h : x ∈ e.childrenOf kind) : x.kind = kind ∧ x.tree ∈ e.children := by
  obtain ⟨hm, hk⟩ := List.mem_filter.mp h
  obtain ⟨t, ht, he⟩ := List.mem_filterMap.mp hm
  cases t with
  | leaf => cases he
  | node kind' children =>
    obtain rfl := Option.some.inj he
    exact ⟨of_decide_eq_true hk, ht⟩

namespace ElementKind

theorem ne_of_category? {kind : ElementKind} (h : kind.category?.isSome = true) :
    kind ≠ root ∧ kind ≠ theory := by
  constructor <;> rintro rfl <;> cases h

end ElementKind

namespace Occurrence

theorem mem_names {construct name : Occurrence} (h : name ∈ construct.names) :
    ∃ category x, construct.element.kind.category? = some category ∧
      x ∈ construct.element.childrenOf .identifier ∧ name = construct.below x := by
  unfold names at h
  cases hc : construct.element.kind.category? with
  | none => simp [hc] at h
  | some category =>
    rw [hc] at h
    obtain ⟨x, hx, rfl⟩ := List.mem_map.mp h
    refine ⟨category, x, rfl, ?_, rfl⟩
    split_ifs at hx
    · exact hx
    · exact List.mem_of_mem_take hx

end Occurrence

namespace Parse

/-- A name that is declared, the construct that declares it, and the scope of the name. -/
structure Site (text : String) (name construct scope : Occurrence) : Prop where
  mem : name ∈ (ofText text).tree.preorder
  identifier : name.element.kind = .identifier
  ancestors : name.ancestors = construct.element :: construct.ancestors
  category : construct.element.kind.category?.isSome = true
  scopeElement : name.scopeElement? = some scope.element
  above : scope.Above construct

namespace Site

variable {text : String} {theories : List Tree} {name construct scope : Occurrence}

theorem construct_above (h : Site text name construct scope) : construct.Above name := by
  rw [Occurrence.Above, h.ancestors]

theorem construct_mem (h : Site text name construct scope) :
    construct ∈ (ofText text).tree.preorder :=
  Tree.mem_preorder_of_suffix h.mem h.construct_above

theorem scope_above (h : Site text name construct scope) : scope.Above name :=
  h.above.trans ((List.suffix_cons _ _).trans h.construct_above)

theorem scope_mem (h : Site text name construct scope) : scope ∈ (ofText text).tree.preorder :=
  Tree.mem_preorder_of_suffix h.mem h.scope_above

theorem introducesScope (h : Site text name construct scope) :
    scope.element.kind.introducesScope = true :=
  List.find?_some (p := fun e : Element => e.kind.introducesScope) h.scopeElement

theorem parent? (h : Site text name construct scope) : name.parent? = some construct.element := by
  rw [Occurrence.parent?, h.ancestors, List.head?_cons]

theorem category?_eq (h : Site text name construct scope) :
    name.category? = construct.element.kind.category? := by
  rw [Occurrence.category?_def, if_pos h.identifier, h.parent?, Option.bind_some]

theorem declaration_sourceText (h : Site text name construct scope) :
    (name.declaration text.toList).sourceText = construct.element.sourceText text.toList := by
  rw [Occurrence.declaration, h.parent?, Option.map_some, Option.getD_some]

theorem declaration_scope (h : Site text name construct scope) :
    (name.declaration text.toList).scope = some scope.element.range := by
  rw [Occurrence.declaration, Occurrence.innermost?_eq, h.scopeElement, Option.map_some]

theorem ne_root (h : Site text name construct scope) : name.element.kind ≠ .root := by
  rw [h.identifier]
  nofun

section Ranges

variable (h : Site text name construct scope) (hl : (ofText text).Lawful theories)

include h hl

theorem construct_contains : construct.element.range.Contains name.element.range :=
  hl.contains_of_above (ElementKind.ne_of_category? h.category).1 h.mem h.ne_root h.construct_above

theorem scope_contains : scope.element.range.Contains name.element.range :=
  hl.contains_of_above (ElementKind.ne_root_of_introducesScope h.introducesScope) h.mem h.ne_root
    h.scope_above

theorem scope_contains_construct : scope.element.range.Contains construct.element.range :=
  hl.contains_of_above (ElementKind.ne_root_of_introducesScope h.introducesScope) h.construct_mem
    (ElementKind.ne_of_category? h.category).1 h.above

end Ranges

end Site

end Parse

namespace Parse.Lawful

variable {text : String} {theories : List Tree} {o name : Occurrence}

theorem declared_eq (h : (ofText text).Lawful theories) :
    (ofText text).tree.declared = (ofText text).tree.preorder.flatMap Occurrence.names := by
  have hl : ∀ o ∈ (ofText text).tree.preorderBelow [], o.element.Lawful :=
    fun o ho => h.element_lawful ho
  have hown : Tree.ownName [] (ofText text).tree = [] := by
    simp [Parse.tree, Element.tree, Tree.ownName, Occurrence.category?_def, Occurrence.parent?]
  rw [Tree.declared, Tree.preorder_eq, Tree.filter_preorderBelow hl, hown, List.nil_append]

theorem exists_scope (h : (ofText text).Lawful theories) (ho : o ∈ (ofText text).tree.preorder)
    (hc : o.element.kind.category?.isSome = true) (x : Element) :
    ∃ scope rest, (o.below x).scopeElement? = some scope ∧ scope.kind.introducesScope = true ∧
      scope :: rest <:+ o.ancestors := by
  obtain ⟨hroot, htheory⟩ := ElementKind.ne_of_category? hc
  obtain ⟨e, he, hk⟩ := h.theory_above (h.inner_of_kind ho hroot) htheory
  obtain ⟨scope, hs⟩ := Option.isSome_iff_exists.mp
    (List.find?_isSome.mpr ⟨e, he, by rw [hk]; rfl⟩ :
      (o.ancestors.find? (·.kind.introducesScope)).isSome = true)
  obtain ⟨hscope, above, rest, hsplit, -⟩ := List.find?_eq_some_iff_append.mp hs
  exact ⟨scope, rest, hs, hscope, above, hsplit.symm⟩

theorem mem_preorder_of_names (ho : o ∈ (ofText text).tree.preorder) (hn : name ∈ o.names) :
    name ∈ (ofText text).tree.preorder := by
  obtain ⟨category, x, -, hx, rfl⟩ := Occurrence.mem_names hn
  exact Tree.mem_of_child ho (Element.mem_childrenOf hx).2

theorem exists_site_of_names (h : (ofText text).Lawful theories)
    (ho : o ∈ (ofText text).tree.preorder) (hn : name ∈ o.names) :
    ∃ scope, Site text name o scope := by
  have hmem := mem_preorder_of_names ho hn
  obtain ⟨category, x, hc, hx, rfl⟩ := Occurrence.mem_names hn
  have hsome : o.element.kind.category?.isSome = true := by rw [hc]; rfl
  obtain ⟨scope, rest, hscope, -, habove⟩ := h.exists_scope ho hsome x
  exact ⟨⟨scope, rest⟩, hmem, (Element.mem_childrenOf hx).1, rfl, hsome, hscope, habove⟩

theorem exists_site (h : (ofText text).Lawful theories)
    (hn : name ∈ (ofText text).tree.declared) :
    ∃ construct scope, Site text name construct scope := by
  rw [h.declared_eq] at hn
  obtain ⟨o, ho, hn⟩ := List.mem_flatMap.mp hn
  exact ⟨o, h.exists_site_of_names ho hn⟩

theorem recordable (h : (ofText text).Lawful theories) (ho : o ∈ (ofText text).tree.preorder)
    (hn : name ∈ o.names) : name.Recordable text.toList := by
  obtain ⟨scope, hsite⟩ := h.exists_site_of_names ho hn
  obtain ⟨t, htree, -, hfits⟩ := h.exists_token hsite.mem hsite.identifier
  constructor
  · rw [(Element.identifier_range htree hfits).2]
    exact hfits.text_ne
  · intro s hs
    obtain rfl := Option.some.inj (hsite.scopeElement.symm.trans hs)
    exact hsite.scope_contains h

/-- Recording succeeds. -/
theorem recording_eq (h : (ofText text).Lawful theories) (dumping : Bool) :
    (ofText text).recording dumping =
      .ok ((ofText text).tree.visits.foldl (Recording.play text.toList dumping) {}) :=
  Recording.foldlM_step dumping
    (fun _ ho => ⟨(h.element_lawful ho).holdsName, fun _ hn => h.recordable ho hn⟩) {}

theorem recording_ok (h : (ofText text).Lawful theories) (dumping : Bool) :
    ∃ r, (ofText text).recording dumping = .ok r ∧ r.table.history.toList =
      (ofText text).tree.declared.filterMap (·.record? text.toList) := by
  refine ⟨_, h.recording_eq dumping, ?_⟩
  rw [Recording.table_foldl_play, Table.history_insertAll, Visit.flatMap_entries, h.declared_eq]
  rfl

end Parse.Lawful

namespace Analysis

variable {text : String} {dumping : Bool}

theorem ofText_of_errors (h : (Parse.ofText text).errors ≠ []) :
    ofText text dumping = .ok ⟨Parse.ofText text, {}⟩ := by
  have hsome : (Parse.ofText text).errors.isEmpty = false := by simpa using h
  rw [ofText]
  dsimp only
  rw [hsome]
  rfl

theorem ofText_of_recording (h : (Parse.ofText text).errors = []) {r : Recording}
    (hr : (Parse.ofText text).recording dumping = .ok r) :
    ofText text dumping = .ok ⟨Parse.ofText text, r⟩ := by
  rw [ofText]
  dsimp only
  rw [h, hr]
  rfl

/-- For a text without errors, the history of the table is that of the names that its tree
declares. -/
theorem exists_history (h : (Parse.ofText text).errors = []) (dumping : Bool) :
    ∃ a, ofText text dumping = .ok a ∧ a.parse = Parse.ofText text ∧ a.table.history.toList =
      (Parse.ofText text).tree.declared.filterMap (·.record? text.toList) := by
  obtain ⟨theories, hl⟩ := Parse.exists_lawful h
  obtain ⟨r, hr, hh⟩ := hl.recording_ok dumping
  exact ⟨_, ofText_of_recording h hr, rfl, hh⟩

theorem exists_ok (text : String) (dumping : Bool) :
    ∃ r, ofText text dumping = .ok ⟨Parse.ofText text, r⟩ := by
  by_cases h : (Parse.ofText text).errors = []
  · obtain ⟨theories, hl⟩ := Parse.exists_lawful h
    obtain ⟨r, hr, -⟩ := hl.recording_ok dumping
    exact ⟨r, ofText_of_recording h hr⟩
  · exact ⟨{}, ofText_of_errors h⟩

end Analysis

end PvsIndex
