import PvsIndex.Proofs.Checked.Following
import PvsIndex.Proofs.Checked.Indexer
import PvsIndex.Proofs.Checked.Scanning
import PvsIndex.Proofs.Declaration.History
import PvsIndex.Proofs.Lists
import PvsIndex.Proofs.Tree.Extent

/-! What is looked up in a stored tree is what stands in the tree, and so are the declarations that
are recorded. -/

namespace PvsIndex.Checked

/-- The work does what the other work does: it yields the same, and it finds a nameless construct
where the other one does. -/
structure Tracks {α : Type} (x : Checked α) (y : Except Fault α) : Prop where
  ok : ∀ a, y = .ok a → x = pure a
  nameless : ∀ kind range, y = .error (.nameless kind range) → x = throw .nameless

namespace Tracks

variable {α β : Type} {x : Checked α} {y : Except Fault α} {f : α → Checked β}
  {g : α → Except Fault β}

theorem pure (a : α) : Tracks (Pure.pure a : Checked α) (.ok a) :=
  ⟨fun _ h => congrArg Pure.pure (Except.ok.inj h), nofun⟩

theorem nameless_error (kind : ElementKind) (range : Range) :
    Tracks (throw .nameless : Checked α) (.error (.nameless kind range)) :=
  ⟨nofun, fun _ _ _ => rfl⟩

theorem bind (h : x.Tracks y) (hf : ∀ a, (f a).Tracks (g a)) : Tracks (x >>= f) (y >>= g) := by
  cases y with
  | ok a =>
    rw [h.ok a rfl, pure_bind]
    exact hf a
  | error fault =>
    refine ⟨nofun, fun kind range he => ?_⟩
    rw [h.nameless kind range (congrArg Except.error (Except.error.inj he))]
    rfl

end Tracks

end PvsIndex.Checked

namespace PvsIndex.Checked.Stored

open PvsIndex.Tree

/-- Trees over tokens of the text are stored from a number on. -/
structure Holds (s : Stored) (text : String) (parent? : Option Nat) (base : Nat)
    (ts : List Tree) : Prop where
  tokens : s.tokens = (Tokens.ofText text).toList
  leaves : (leavesOf ts).Sublist (Tokens.ofText text).toList
  cells : cellsOf (Tokens.ofText text).id base parent? ts <+: s.cells.drop base

/-- An element of this number is stored. -/
def At (s : Stored) (text : String) (parent? : Option Nat) (id : Nat) (e : Element) : Prop :=
  ∃ base, id = base + countOf e.children ∧ s.Holds text parent? base [e.tree]

variable {s : Stored} {text : String} {parent? : Option Nat} {base id : Nat} {t : Tree}
  {ts : List Tree} {kind : ElementKind} {children : List Tree} {e : Element}

namespace Holds

theorem head (h : s.Holds text parent? base (t :: ts)) : s.Holds text parent? base [t] := by
  refine ⟨h.tokens, .trans ?_ h.leaves, .trans ?_ h.cells⟩
  · simp [leavesOf]
  · simp

theorem tail (h : s.Holds text parent? base (t :: ts)) :
    s.Holds text parent? (base + t.count) ts := by
  have hcells := h.cells
  rw [cellsOf_cons, List.prefix_append_iff, length_cells, List.drop_drop] at hcells
  exact ⟨h.tokens, .trans (List.sublist_append_right _ _) h.leaves, hcells.2⟩

theorem below (h : s.Holds text parent? base [.node kind children]) :
    s.Holds text (some (base + countOf children)) base children := by
  have hcells := h.cells
  rw [cellsOf_cons, cells_node, List.append_assoc, List.prefix_append_iff] at hcells
  have hleaves := h.leaves
  rw [leavesOf, leavesOf, List.append_nil, Tree.leaves] at hleaves
  exact ⟨h.tokens, hleaves, hcells.1⟩

theorem getElem? (h : s.Holds text parent? base [.node kind children]) :
    s.cells[base + countOf children]? =
      some ⟨kind, nodesAt (Tokens.ofText text).id base children, parent?⟩ := by
  have hcells := h.cells
  rw [cellsOf_cons, cells_node, List.append_assoc, List.prefix_append_iff, length_cellsOf,
    List.drop_drop, cellsOf_nil, List.append_nil] at hcells
  obtain ⟨rest, hrest⟩ := hcells.2
  rw [← List.head?_drop, ← hrest]
  rfl

theorem cell (h : s.Holds text parent? base [.node kind children]) :
    s.cell (base + countOf children) =
      pure ⟨kind, nodesAt (Tokens.ofText text).id base children, parent?⟩ :=
  demand_of h.getElem?

end Holds

theorem At.holds (h : s.At text parent? id e) : ∃ base, id = base + countOf e.children ∧
    s.Holds text (some id) base e.children ∧
      s.cell id = pure ⟨e.kind, nodesAt (Tokens.ofText text).id base e.children, parent?⟩ := by
  obtain ⟨base, rfl, h⟩ := h
  exact ⟨base, rfl, h.below, h.cell⟩

theorem At.cell (h : s.At text parent? id e) :
    ∃ nodes, s.cell id = pure ⟨e.kind, nodes, parent?⟩ := by
  obtain ⟨base, -, -, hcell⟩ := h.holds
  exact ⟨_, hcell⟩

theorem Holds.elements (h : s.Holds text parent? base ts) :
    List.Forall₂ (s.At text parent?)
      ((nodesAt (Tokens.ofText text).id base ts).filterMap Node.element?)
      (ts.filterMap Tree.element?) := by
  induction ts generalizing base with
  | nil => exact .nil
  | cons t ts ih =>
    cases t with
    | leaf => exact ih h.tail
    | node kind children =>
      exact .cons ⟨base, rfl, h.head⟩ (ih h.tail)

theorem At.elements (h : s.At text parent? id e) : ∃ ids, s.elements id = pure ids ∧
    List.Forall₂ (s.At text (some id)) ids (e.children.filterMap Tree.element?) := by
  obtain ⟨base, -, hchildren, hcell⟩ := h.holds
  exact ⟨_, by rw [Stored.elements, hcell, pure_bind], hchildren.elements⟩

section Ends

mutual

theorem seek_first (parent? : Option Nat) (base : Nat) :
    (t : Tree) → s.Holds text parent? base [t] →
    s.seek (·) (t.nodeAt (Tokens.ofText text).id base) =
      pure (t.firstToken?.map (Tokens.ofText text).id)
  | .leaf token, _ => by
    rw [nodeAt, seek]
    rfl
  | .node kind children, h => by
    rw [nodeAt, seek, h.cell, pure_bind]
    exact seekIn_first _ base children h.below

theorem seekIn_first (parent? : Option Nat) (base : Nat) :
    (ts : List Tree) → s.Holds text parent? base ts →
    s.seekIn (·) (nodesAt (Tokens.ofText text).id base ts) =
      pure ((firstTokenOf? ts).map (Tokens.ofText text).id)
  | [], _ => by
    rw [nodesAt_nil, seekIn]
    rfl
  | t :: ts, h => by
    rw [nodesAt_cons, seekIn, seek_first _ base t h.head, pure_bind, firstTokenOf?]
    cases t.firstToken? with
    | some token => rfl
    | none => exact seekIn_first _ _ ts h.tail

end

theorem seekIn_append (order : List Node → List Node) (xs ys : List Node) :
    s.seekIn order (xs ++ ys) = (do
      match ← s.seekIn order xs with
      | some id => return some id
      | none => s.seekIn order ys) := by
  induction xs with
  | nil => rw [List.nil_append, seekIn, pure_bind]
  | cons x xs ih =>
    rw [List.cons_append, seekIn, seekIn, bind_assoc]
    refine bind_congr fun found? => ?_
    cases found? with
    | some id => rw [pure_bind]
    | none => exact ih

mutual

theorem seek_last (parent? : Option Nat) (base : Nat) : (t : Tree) → s.Holds text parent? base [t] →
    s.seek List.reverse (t.nodeAt (Tokens.ofText text).id base) =
      pure (t.lastToken?.map (Tokens.ofText text).id)
  | .leaf token, _ => by
    rw [nodeAt, seek]
    rfl
  | .node kind children, h => by
    rw [nodeAt, seek, h.cell, pure_bind]
    exact seekIn_last _ base children h.below

theorem seekIn_last (parent? : Option Nat) (base : Nat) :
    (ts : List Tree) → s.Holds text parent? base ts →
    s.seekIn List.reverse (nodesAt (Tokens.ofText text).id base ts).reverse =
      pure ((lastTokenOf? ts).map (Tokens.ofText text).id)
  | [], _ => by
    rw [nodesAt_nil, List.reverse_nil, seekIn]
    rfl
  | t :: ts, h => by
    rw [nodesAt_cons, List.reverse_cons, seekIn_append, seekIn_last _ _ ts h.tail, pure_bind,
      lastTokenOf?]
    cases lastTokenOf? ts with
    | some token => rfl
    | none =>
      rw [seekIn, seek_last _ base t h.head]
      cases t.lastToken? with
      | some token => rfl
      | none =>
        rw [seekIn]
        rfl

end

end Ends

section Element

theorem join_text (ts : List Token) :
    String.join (ts.map (·.text)) = String.ofList (ts.flatMap (·.text.toList)) := by
  rw [← String.toList_inj, String.toList_join, String.toList_ofList, List.flatMap_map]

variable (h : s.At text parent? id e)

include h

theorem At.firstToken? :
    s.firstToken? id = pure (e.tree.firstToken?.map (Tokens.ofText text).id) := by
  obtain ⟨base, rfl, h⟩ := h
  exact seek_first _ base e.tree h

theorem At.lastToken? :
    s.lastToken? id = pure (e.tree.lastToken?.map (Tokens.ofText text).id) := by
  obtain ⟨base, rfl, h⟩ := h
  exact seek_last _ base e.tree h

theorem At.sublist : e.leaves.Sublist (Tokens.ofText text).toList := by
  obtain ⟨base, -, h⟩ := h
  have hleaves := h.leaves
  rwa [leavesOf, leavesOf, List.append_nil] at hleaves

theorem At.tokens : s.tokens = (Tokens.ofText text).toList := by
  obtain ⟨base, -, h⟩ := h
  exact h.tokens

theorem At.token {t : Token} (ht : t ∈ e.leaves) :
    s.token ((Tokens.ofText text).id t) = pure t := by
  rw [Stored.token, h.tokens]
  exact demand_of (Tokens.getElem?_id (h.sublist.subset ht))

theorem At.range : s.range id = pure e.range := by
  rw [Stored.range, h.firstToken?, pure_bind, h.lastToken?, pure_bind, Element.range]
  rcases e.ends with ⟨hf, hl⟩ | ⟨first, last, hf, hl, hhead, hlast⟩
  · rw [hf, hl]
    exact Range.checked_of (le_refl _)
  · rw [hf, hl, Option.map_some, Option.map_some]
    dsimp only
    rw [h.token (List.mem_of_mem_head? hhead), pure_bind, h.token (List.mem_of_getLast? hlast),
      pure_bind]

theorem At.sourceText : s.sourceText id = pure (e.sourceText text.toList) := by
  rw [Stored.sourceText, h.firstToken?, pure_bind, h.lastToken?, pure_bind, Element.sourceText]
  rcases e.ends with ⟨hf, hl⟩ | ⟨first, last, hf, hl, hhead, hlast⟩
  · rw [hf, hl]
    rfl
  · have hle := Tokens.id_le_of_sublist h.sublist hhead hlast
    have hslice := Tokens.flatMap_text_slice
      (Tokens.getElem?_id (h.sublist.subset (List.mem_of_mem_head? hhead)))
      (Tokens.getElem?_id (h.sublist.subset (List.mem_of_getLast? hlast))) hle
    rw [hf, hl, Option.map_some, Option.map_some]
    dsimp only
    rw [require_of (Nat.le_succ_of_le hle), pure_bind, h.tokens, ← hslice.2, join_text]

end Element

section Children

theorem filterAuxM_at {ids : List Nat} {es : List Element}
    (h : List.Forall₂ (s.At text parent?) ids es) (kind : ElementKind) (found : List Nat) :
    ∃ ids', List.filterAuxM (fun child => return decide ((← s.cell child).kind = kind)) ids found =
        pure (ids'.reverse ++ found) ∧
      List.Forall₂ (s.At text parent?) ids' (es.filter (·.kind = kind)) := by
  induction h generalizing found with
  | nil => exact ⟨[], rfl, .nil⟩
  | @cons id e ids es hid _ ih =>
    obtain ⟨nodes, hcell⟩ := hid.cell
    rw [List.filterAuxM, hcell, List.filter_cons]
    by_cases hk : e.kind = kind
    · obtain ⟨ids', hids', hforall⟩ := ih (id :: found)
      refine ⟨id :: ids', ?_, ?_⟩
      · simpa [hk] using hids'
      · simpa [hk] using List.Forall₂.cons hid hforall
    · obtain ⟨ids', hids', hforall⟩ := ih found
      refine ⟨ids', ?_, ?_⟩
      · simpa [hk] using hids'
      · simpa [hk] using hforall

theorem At.childrenOf (h : s.At text parent? id e) (kind : ElementKind) :
    ∃ ids, s.childrenOf kind id = pure ids ∧
      List.Forall₂ (s.At text (some id)) ids (e.childrenOf kind) := by
  obtain ⟨ids, hids, hforall⟩ := h.elements
  obtain ⟨ids', hids', hforall'⟩ := filterAuxM_at hforall kind []
  refine ⟨ids', ?_, hforall'⟩
  rw [Stored.childrenOf, hids, pure_bind, List.filterM, hids', pure_bind]
  simp

end Children

section Scopes

/-- The elements above are stored, innermost first, each the parent of the one before. -/
inductive Above (s : Stored) (text : String) : List Element → Option Nat → Prop
  | nil : Above s text [] none
  | cons {e : Element} {es : List Element} {id : Nat} {parent? : Option Nat} :
    s.At text parent? id e → Above s text es parent? → Above s text (e :: es) (some id)

/-- An element is stored where it stands. -/
def Stands (s : Stored) (text : String) (id : Nat) (o : Occurrence) : Prop :=
  ∃ parent?, s.At text parent? id o.element ∧ s.Above text o.ancestors parent?

variable {es : List Element} {o : Occurrence} {name : Element} {nameId : Nat}

theorem Above.climb (h : s.Above text es parent?) (hname : s.At text (some id) nameId name)
    (hscope : ∀ scope ∈ es.find? (·.kind.introducesScope), scope.range.Contains name.range) :
    s.climb nameId parent? = pure ((es.find? (·.kind.introducesScope)).map (·.range)) := by
  induction h with
  | nil =>
    rw [Stored.climb]
    rfl
  | @cons e es id parent? hat _ ih =>
    obtain ⟨nodes, hcell⟩ := hat.cell
    rw [Stored.climb, hcell, pure_bind]
    by_cases hk : e.kind.introducesScope = true
    · have hfind : (e :: es).find? (·.kind.introducesScope) = some e := by simp [hk]
      rw [if_pos hk, hat.range, pure_bind, hname.range, pure_bind,
        require_of (hscope e (hfind ▸ rfl)), pure_bind, hfind]
      rfl
    · have hfind : (e :: es).find? (·.kind.introducesScope) =
          es.find? (·.kind.introducesScope) := by simp [hk]
      rw [if_neg hk, hfind]
      exact ih (hfind ▸ hscope)

theorem Stands.scope? (h : s.Stands text id o) (hname : s.At text (some id) nameId name)
    {scope? : Option Range} (hscope : (o.below name).scope? = .ok scope?) :
    s.scope? nameId = pure scope? := by
  obtain ⟨parent?, hat, habove⟩ := h
  obtain ⟨nodes', hnamecell⟩ := hname.cell
  obtain ⟨nodes, hcell⟩ := hat.cell
  have helement : (o.below name).scopeElement? = o.ancestors.find? (·.kind.introducesScope) := rfl
  have hclimb := habove.climb hname
  rw [Occurrence.scope?, helement] at hscope
  rw [Stored.scope?, hnamecell, pure_bind]
  dsimp only
  rw [hcell, pure_bind]
  cases hfind : o.ancestors.find? (·.kind.introducesScope) with
  | none =>
    rw [hfind] at hscope hclimb
    rw [hclimb nofun, ← Except.ok.inj hscope, Option.map_none]
  | some scope =>
    rw [hfind] at hscope hclimb
    dsimp only at hscope
    split_ifs at hscope with hcontains
    rw [hclimb (fun _ he => Option.some.inj he ▸ hcontains), ← Except.ok.inj hscope,
      Option.map_some]

end Scopes

section Recording

variable {o : Occurrence} {name : Element} {nameId : Nat} {r : Recording}

theorem Stands.tracks_scope? (h : s.Stands text id o) (hname : s.At text (some id) nameId name) :
    (s.scope? nameId).Tracks (o.below name).scope? := by
  refine ⟨fun scope? hscope => h.scope? hname hscope, fun kind range hscope => ?_⟩
  unfold Occurrence.scope? at hscope
  split at hscope
  · cases hscope
  · split_ifs at hscope
    cases hscope

theorem Stands.declaration (h : s.Stands text id o) (hname : s.At text (some id) nameId name) :
    (s.declaration id nameId).Tracks (Declaration.ofConstruct text.toList o name) := by
  have hat := h.choose_spec.1
  rw [Stored.declaration, Declaration.ofConstruct, hname.sourceText, pure_bind, hname.range,
    pure_bind, hat.sourceText, pure_bind]
  refine (h.tracks_scope? hname).bind fun scope? => ?_
  dsimp only
  by_cases hempty : name.sourceText text.toList = ""
  · rw [if_pos hempty]
    exact ⟨nofun, nofun⟩
  · rw [require_of hempty, pure_bind, if_neg hempty]
    exact .pure _

theorem Stands.insertNames (h : s.Stands text id o) {ids : List Nat} {names : List Element}
    (hnames : List.Forall₂ (s.At text (some id)) ids names) (category : Category) (t : Table) :
    (ids.foldlM (fun (t : Table) name => return t.insert category (← s.declaration id name))
      t).Tracks (Recording.insertNames text.toList category o names t) := by
  induction hnames generalizing t with
  | nil => exact .pure _
  | cons hname _ ih =>
    rw [Recording.insertNames, List.foldlM_cons, List.foldlM_cons]
    exact ((h.declaration hname).bind fun d => .pure _).bind fun t => ih t

/-- What is recorded from what is stored is what is recorded from the tree. -/
theorem Stands.enter (h : s.Stands text id o) (dumping : Bool) (r : Recording) :
    (s.enter id r).Tracks (Recording.step text.toList dumping r (.enter o)) := by
  have hat := h.choose_spec.1
  obtain ⟨nodes, hcell⟩ := hat.cell
  rw [Stored.enter, hcell, pure_bind, Recording.step, Recording.record]
  dsimp only
  cases hc : o.element.kind.category? with
  | none => exact .pure _
  | some category =>
    obtain ⟨ids, hids, hforall⟩ := hat.childrenOf .identifier
    dsimp only
    rw [namesOf, hids, pure_bind]
    cases hnames : o.element.childrenOf .identifier with
    | nil =>
      rw [hnames] at hforall
      cases hforall
      exact .nameless_error _ _
    | cons name names =>
      rw [hnames] at hforall
      cases hforall with
      | @cons nameId _ ids _ hname hrest =>
        rw [require_of (List.cons_ne_nil _ _), pure_bind, pure_bind]
        refine .bind ?_ fun t => .pure _
        refine h.insertNames ?_ category r.table
        split_ifs
        · exact .cons hname hrest
        · exact .cons hname .nil

theorem Stands.leave (h : s.Stands text id o) (dumping : Bool) (r : Recording) :
    (s.leave dumping id r).Tracks (Recording.step text.toList dumping r (.leave o)) := by
  obtain ⟨nodes, hcell⟩ := h.choose_spec.1.cell
  rw [Stored.leave, hcell, pure_bind, Recording.step]
  dsimp only
  split_ifs <;> exact .pure _

end Recording

section Walk

variable {σ : Type} {step : σ → Visit → Except Fault σ} {enter leave : Nat → σ → Checked σ}

/-- Entering and leaving what is stored do what the step does. -/
structure Hooks (s : Stored) (text : String) (step : σ → Visit → Except Fault σ)
    (enter leave : Nat → σ → Checked σ) : Prop where
  enter : ∀ id o state, s.Stands text id o → (enter id state).Tracks (step state (.enter o))
  leave : ∀ id o state, s.Stands text id o → (leave id state).Tracks (step state (.leave o))

mutual

/-- A walk through what is stored does what a walk through the tree does. -/
theorem walk_tracks (hooks : s.Hooks text step enter leave) {es : List Element}
    {parent? : Option Nat} {base : Nat} (state : σ) (habove : s.Above text es parent?) :
    (t : Tree) → s.Holds text parent? base [t] →
    (([t.nodeAt (Tokens.ofText text).id base].filterMap Node.element?).foldlM
      (fun state id => s.walk enter leave id state) state).Tracks
        ((t.visitsBelow es).foldlM step state)
  | .leaf _, _ => .pure _
  | .node kind children, h => by
    have hat : s.At text parent? (base + countOf children) ⟨kind, children⟩ := ⟨base, rfl, h⟩
    have hstands : s.Stands text (base + countOf children) ⟨⟨kind, children⟩, es⟩ :=
      ⟨parent?, hat, habove⟩
    change (s.walk enter leave (base + countOf children) state >>= pure).Tracks _
    rw [bind_pure, walk, visitsBelow, List.cons_append, List.foldlM_cons]
    refine (hooks.enter _ _ _ hstands).bind fun entered => ?_
    rw [Stored.elements, h.cell, pure_bind, pure_bind, List.foldlM_append]
    refine (walks_track hooks entered (.cons hat habove) children h.below).bind fun inner => ?_
    change (leave _ inner).Tracks (step inner _ >>= pure)
    rw [bind_pure]
    exact hooks.leave _ _ _ hstands

theorem walks_track (hooks : s.Hooks text step enter leave) {es : List Element}
    {parent? : Option Nat} {base : Nat} (state : σ) (habove : s.Above text es parent?) :
    (ts : List Tree) → s.Holds text parent? base ts →
    (((nodesAt (Tokens.ofText text).id base ts).filterMap Node.element?).foldlM
      (fun state id => s.walk enter leave id state) state).Tracks
        ((visitsOf es ts).foldlM step state)
  | [], _ => .pure _
  | t :: ts, h => by
    rw [visitsOf, List.foldlM_append, nodesAt_cons, ← List.singleton_append, List.filterMap_append,
      List.foldlM_append]
    exact (walk_tracks hooks state habove t h.head).bind fun state =>
      walks_track hooks state habove ts h.tail

end

end Walk

theorem holds_stored (text : String) :
    (Parse.ofText text).stored.Holds text none 0 [(Parse.ofText text).tree] := by
  refine ⟨rfl, ?_, ?_⟩
  · have hleaves := Parse.leaves_tree text
    rw [leavesOf, leavesOf, List.append_nil, hleaves, Tokens.toList]
    exact .append List.filter_sublist (.refl _)
  · have hcells : (Parse.ofText text).stored.cells =
        (Parse.ofText text).tree.cells (Tokens.ofText text).id 0 none := rfl
    rw [cellsOf_cons, cellsOf_nil, List.append_nil, List.drop_zero, hcells]

/-- Indexing what is stored records what the tree declares. -/
theorem index_stored (text : String) (dumping : Bool) :
    ((Parse.ofText text).stored.index dumping).Tracks ((Parse.ofText text).recording dumping) := by
  have hooks : (Parse.ofText text).stored.Hooks text (Recording.step text.toList dumping)
      (Parse.ofText text).stored.enter ((Parse.ofText text).stored.leave dumping) :=
    ⟨fun _ _ r hstands => hstands.enter dumping r, fun _ _ r hstands => hstands.leave dumping r⟩
  have hwalk := walk_tracks hooks {} .nil _ (holds_stored text)
  rw [Parse.tree, Element.tree, nodeAt, Nat.zero_add, List.filterMap_cons, Node.element?,
    List.filterMap_nil, List.foldlM_cons] at hwalk
  rw [index, ← bind_pure ((Parse.ofText text).stored.walk _ _ _ _)]
  exact hwalk

end PvsIndex.Checked.Stored

namespace PvsIndex.Checked

/-- Every text is parsed without a breach. -/
theorem parseText_eq (text : String) : parseText text =
    pure ((Parse.ofText text).stored, (Parse.ofText text).diagnostics) := by
  rw [parseText, tokenize_eq, pure_bind, parse_eq, pure_bind]
  rfl

/-- Every text is analyzed to the end, and no check fails on the way: what is stored is the tree,
and the diagnostics and declarations are those of the analysis. -/
theorem analyze_eq (text : String) (dumping : Bool) : ∃ a, Analysis.ofText text dumping = .ok a ∧
    analyze text dumping = pure (a.parse.stored, a.diagnostics, a.recording) := by
  by_cases herrors : (Parse.ofText text).errors = []
  · obtain ⟨theories, hl⟩ := Parse.exists_lawful herrors
    obtain ⟨r, hr, -⟩ := hl.recording_ok dumping
    have hnone : (Parse.ofText text).diagnostics = [] := by
      rw [Parse.diagnostics, herrors, List.map_nil]
    refine ⟨_, Analysis.ofText_of_recording herrors hr, ?_⟩
    rw [analyze, parseText_eq, pure_bind]
    dsimp only
    rw [hnone, if_neg (not_not_intro rfl), (Stored.index_stored text dumping).ok r hr, pure_bind]
    exact congrArg (fun ds => pure (_, ds, r)) hnone.symm
  · have hsome : (Parse.ofText text).diagnostics ≠ [] := by
      rwa [Parse.diagnostics, ne_eq, List.map_eq_nil_iff]
    refine ⟨_, Analysis.ofText_of_errors herrors, ?_⟩
    rw [analyze, parseText_eq, pure_bind]
    dsimp only
    rw [if_pos hsome]
    rfl

end PvsIndex.Checked
