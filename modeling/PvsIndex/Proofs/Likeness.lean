import PvsIndex.Proofs.Checked.Forest
import PvsIndex.Proofs.Declaration.Definition
import PvsIndex.Proofs.Grammar.Blame
import PvsIndex.Proofs.Grammar.Renaming

/-! Texts whose tokens are of the same kinds have the same tree, the same errors and the same
declarations, up to the tokens themselves. -/

namespace PvsIndex

namespace Tokens

/-- The tokens that the grammar speaks of, and the end of the text. -/
def spoken (ts : Tokens) : List Token :=
  ts.significant ++ [ts.endOfText]

theorem nodup_spoken (text : String) : (ofText text).spoken.Nodup := by
  have hsublist : (ofText text).spoken.Sublist (ofText text).toList :=
    .append List.filter_sublist (.refl _)
  exact (nodup_toList text).sublist hsublist

end Tokens

namespace Token

/-- One token is the other by its ordinal. -/
def Alike (a b : String) (t u : Token) : Prop :=
  ∃ n : Nat, (Tokens.ofText a).spoken[n]? = some t ∧ (Tokens.ofText b).spoken[n]? = some u

/-- Puts the tokens of one list in the place of those of another. -/
def rename (ts us : List Token) (t : Token) : Token :=
  us[ts.idxOf t]?.getD t

variable {ts us : List Token}

theorem kind_rename (h : ts.map kind = us.map kind) (t : Token) :
    (rename ts us t).kind = t.kind := by
  have hlength : ts.length = us.length := by simpa using congrArg List.length h
  unfold rename
  cases hu : us[ts.idxOf t]? with
  | none => rfl
  | some u =>
    obtain ⟨hlt, rfl⟩ := List.getElem?_eq_some_iff.mp hu
    have hi : ts.idxOf t < ts.length := by omega
    have hkind := congrArg (·[ts.idxOf t]?) h
    rw [List.getElem?_map, List.getElem?_map, List.getElem?_eq_getElem hi, hu, List.getElem_idxOf]
      at hkind
    exact (Option.some.inj hkind).symm

theorem map_rename (hnodup : ts.Nodup) (h : ts.length = us.length) :
    ts.map (rename ts us) = us := by
  refine List.ext_getElem (by simpa using h) fun i hi hi' => ?_
  rw [List.getElem_map, rename, hnodup.idxOf_getElem, List.getElem?_eq_getElem hi',
    Option.getD_some]

end Token

/-- The tokens of one text put in the place of those of another, kind by kind. -/
structure Respells (a b : String) (f : Token → Token) : Prop where
  kind : ∀ t, (f t).kind = t.kind
  tokens : (Tokens.ofText a).spoken.map f = (Tokens.ofText b).spoken

namespace Respells

variable {a b : String} {f : Token → Token}

theorem exists_of_kinds (h : (Tokens.ofText a).significant.map Token.kind =
    (Tokens.ofText b).significant.map Token.kind) : ∃ f, Respells a b f := by
  have hlength : (Tokens.ofText a).significant.length = (Tokens.ofText b).significant.length := by
    simpa using congrArg List.length h
  have hkinds : (Tokens.ofText a).spoken.map Token.kind =
      (Tokens.ofText b).spoken.map Token.kind := by
    simp [Tokens.spoken, h, Tokens.endOfText_kind]
  exact ⟨_, Token.kind_rename hkinds,
    Token.map_rename (Tokens.nodup_spoken a) (by simp [Tokens.spoken, hlength])⟩

theorem alike (h : Respells a b f) {t : Token} (ht : t ∈ (Tokens.ofText a).spoken) :
    t.Alike a b (f t) := by
  obtain ⟨n, hn⟩ := List.mem_iff_getElem?.mp ht
  exact ⟨n, hn, by rw [← h.tokens, List.getElem?_map, hn, Option.map_some]⟩

/-- Both texts are read in the same way, as the one reading is that of the other tokens. -/
theorem parse (h : Respells a b f) : (Parse.ofText b).root = (Parse.ofText a).root.map f ∧
    (Parse.ofText b).errors = (Parse.ofText a).errors.map (·.map f) := by
  obtain ⟨s, herrors, hroot, -, hs⟩ := Parse.reads_all a
  obtain ⟨u, herrors', hroot', -, hu⟩ := Parse.reads_all b
  have htokens := h.tokens
  rw [Tokens.spoken, Tokens.spoken, List.map_append, List.map_singleton] at htokens
  obtain ⟨hsignificant, hend⟩ := List.append_inj' htokens rfl
  have hmap := hs.map h.kind
  have hinput : (⟨(Tokens.ofText a).significant, false⟩ : Cursor).map f =
      ⟨(Tokens.ofText b).significant, false⟩ := by
    rw [Cursor.map, hsignificant]
  rw [List.singleton_inj.mp hend, Task.map, hinput] at hmap
  obtain rfl := hmap.unique hu
  refine ⟨?_, by rw [herrors, herrors']; rfl⟩
  rw [hroot, hroot', Element.map, Tree.mapOf_append]
  simp only [Tree.mapOf, Tree.map, List.singleton_inj.mp hend]
  rfl

theorem tree (h : Respells a b f) : (Parse.ofText b).tree = (Parse.ofText a).tree.map f := by
  rw [Parse.tree, Parse.tree, h.parse.1]
  rfl

end Respells

/-- One error is the other: the token and the message, the quoted text of the token apart. -/
structure SyntaxError.Alike (a b : String) (e e' : SyntaxError) : Prop where
  token : e.token.Alike a b e'.token
  complaint : e.complaint = e'.complaint
  message : ∃ before after, e.message = before ++ e.token.displayText ++ after ∧
    e'.message = before ++ e'.token.displayText ++ after

/-- One entry is the other: the category and the token that is the declared name. -/
structure Entry.Alike (a b : String) (e e' : Entry) : Prop where
  category : e.category = e'.category
  token : ∃ t u : Token, t.Alike a b u ∧ t.kind = .identifier ∧ u.kind = .identifier ∧
    e.declaration.name = t.text ∧ e.declaration.position = t.range.start ∧
    e'.declaration.name = u.text ∧ e'.declaration.position = u.range.start

/-- Elements with the same number, or tokens with the same ordinal in the two lists. -/
inductive Node.Alike (ids ids' : List Nat) : Node → Node → Prop where
  | token {n i j : Nat} (hi : ids[n]? = some i) (hj : ids'[n]? = some j) :
    Alike ids ids' (.token i) (.token j)
  | element (id : Nat) : Alike ids ids' (.element id) (.element id)

structure Cell.Alike (ids ids' : List Nat) (c c' : Cell) : Prop where
  kind : c.kind = c'.kind
  parent : c.parent? = c'.parent?
  children : List.Forall₂ (Node.Alike ids ids') c.children c'.children

/-- Two trees are stored in the same way, each with the tokens of its text at the leaves. -/
structure Checked.Stored.Alike (s s' : Checked.Stored) : Prop where
  root : s.root = s'.root
  cells : List.Forall₂ (Cell.Alike s.significant s'.significant) s.cells s'.cells
  leaves : s.leavesBelow (.element s.root) = pure s.significant ∧
    s'.leavesBelow (.element s'.root) = pure s'.significant

namespace Tree

variable {ids ids' : List Nat} {f : Token → Token} {id id' : Token → Nat}

mutual

@[simp] theorem count_map : (t : Tree) → (t.map f).count = t.count
  | leaf _ => by simp [map]
  | node _ children => by rw [map, count_node, count_node, countOf_mapOf children]

@[simp] theorem countOf_mapOf : (ts : List Tree) → countOf (mapOf f ts) = countOf ts
  | [] => rfl
  | t :: ts => by rw [mapOf, countOf_cons, countOf_cons, count_map t, countOf_mapOf ts]

end

theorem forall₂_nodesAt {ts : List Tree} (base : Nat)
    (h : ∀ t ∈ leavesOf ts, Node.Alike ids ids' (.token (id t)) (.token (id' (f t)))) :
    List.Forall₂ (Node.Alike ids ids') (nodesAt id base ts) (nodesAt id' base (mapOf f ts)) := by
  induction ts generalizing base with
  | nil => exact .nil
  | cons t ts ih =>
    rw [leavesOf, List.forall_mem_append] at h
    rw [mapOf, nodesAt_cons, nodesAt_cons, count_map]
    refine .cons ?_ (ih _ h.2)
    cases t with
    | leaf token => exact h.1 token List.mem_cons_self
    | node kind children =>
      rw [map, nodeAt, nodeAt, countOf_mapOf]
      exact .element _

mutual

theorem forall₂_cells (base : Nat) (parent? : Option Nat) : (t : Tree) →
    (∀ u ∈ t.leaves, Node.Alike ids ids' (.token (id u)) (.token (id' (f u)))) →
    List.Forall₂ (Cell.Alike ids ids') (t.cells id base parent?)
      ((t.map f).cells id' base parent?)
  | leaf token, _ => by
    rw [map, cells_leaf, cells_leaf]
    exact .nil
  | node kind children, h => by
    rw [map, cells_node, cells_node, countOf_mapOf]
    exact List.rel_append (forall₂_cellsOf base _ children h)
      (.cons ⟨rfl, rfl, forall₂_nodesAt base h⟩ .nil)

theorem forall₂_cellsOf (base : Nat) (parent? : Option Nat) : (ts : List Tree) →
    (∀ u ∈ leavesOf ts, Node.Alike ids ids' (.token (id u)) (.token (id' (f u)))) →
    List.Forall₂ (Cell.Alike ids ids') (cellsOf id base parent? ts)
      (cellsOf id' base parent? (mapOf f ts))
  | [], _ => by
    rw [mapOf, cellsOf_nil, cellsOf_nil]
    exact .nil
  | t :: ts, h => by
    rw [leavesOf, List.forall_mem_append] at h
    rw [mapOf, cellsOf_cons, cellsOf_cons, count_map]
    exact List.rel_append (forall₂_cells base _ t h.1) (forall₂_cellsOf _ _ ts h.2)

end

end Tree

namespace Occurrence

def map (f : Token → Token) (o : Occurrence) : Occurrence :=
  ⟨o.element.map f, o.ancestors.map (Element.map f)⟩

theorem category?_map (f : Token → Token) (o : Occurrence) : (o.map f).category? = o.category? := by
  obtain ⟨e, ancestors⟩ := o
  cases ancestors <;> rfl

end Occurrence

namespace Tree

theorem preorderBelow_map (f : Token → Token) (ancestors : List Element) (t : Tree) :
    (t.map f).preorderBelow (ancestors.map (Element.map f)) =
      (t.preorderBelow ancestors).map (Occurrence.map f) := by
  induction t using Tree.induction generalizing ancestors with
  | leaf => rw [map, preorderBelow_leaf, preorderBelow_leaf, List.map_nil]
  | node kind children ih =>
    have hchildren := List.flatMap_congr fun c hc => ih c hc (⟨kind, children⟩ :: ancestors)
    rw [map, preorderBelow_node, preorderBelow_node, List.map_cons, preorderOf_eq_flatMap,
      preorderOf_eq_flatMap, List.map_flatMap, ← hchildren, mapOf_eq_map, List.flatMap_map]
    simp only [Occurrence.map, Element.map, mapOf_eq_map, List.map_cons]

theorem declared_map (f : Token → Token) (t : Tree) :
    (t.map f).declared = t.declared.map (Occurrence.map f) := by
  have hpreorder : (t.map f).preorder = t.preorder.map (Occurrence.map f) :=
    preorderBelow_map f [] t
  have hcategory : (fun o : Occurrence => (o.map f).category?.isSome) =
      fun o => o.category?.isSome := funext fun o => congrArg Option.isSome (o.category?_map f)
  rw [declared, declared, hpreorder, List.filter_map]
  exact congrArg (fun p => (t.preorder.filter p).map (Occurrence.map f)) hcategory

end Tree

theorem Parse.token_mem_spoken {text : String} {e : SyntaxError} (h : e ∈ (ofText text).errors) :
    e.token ∈ (Tokens.ofText text).spoken := by
  obtain ⟨s, herrors, -, -, hr⟩ := reads_all text
  exact hr.blamed (P := (· ∈ (Tokens.ofText text).spoken))
    (List.mem_append_right _ List.mem_cons_self) (fun t ht => List.mem_append_left _ ht) nofun e
    (herrors ▸ h)

theorem Complaint.exists_message_eq (c : Complaint) :
    ∃ before after, ∀ offending, c.message offending = before ++ offending ++ after := by
  cases c with
  | mismatched expected =>
    exact ⟨"mismatched input '", "' expecting " ++ renderExpected expected,
      fun offending => String.append_assoc⟩
  | extraneous expected =>
    exact ⟨"extraneous input '", "' expecting " ++ renderExpected expected,
      fun offending => String.append_assoc⟩
  | noViable => exact ⟨"no viable alternative at input '", "'", fun offending => rfl⟩

namespace Respells

variable {a b : String} {f : Token → Token}

theorem errors (h : Respells a b f) :
    List.Forall₂ (SyntaxError.Alike a b) (Parse.ofText a).errors (Parse.ofText b).errors := by
  rw [h.parse.2, List.forall₂_map_right_iff, List.forall₂_same]
  intro e he
  obtain ⟨before, after, hmessage⟩ := e.complaint.exists_message_eq
  exact ⟨h.alike (Parse.token_mem_spoken he), rfl, before, after, hmessage _, hmessage _⟩

theorem stored (h : Respells a b f) : (Parse.ofText a).stored.Alike (Parse.ofText b).stored := by
  have hsignificant (text : String) : (Parse.ofText text).stored.significant =
      (Tokens.ofText text).spoken.map (Tokens.ofText text).id := Tokens.filter_zipIdx text
  have hcells (text : String) : (Parse.ofText text).stored.cells =
      (Parse.ofText text).tree.cells (Tokens.ofText text).id 0 none := rfl
  refine ⟨?_, ?_, (Checked.Stored.faithful_stored a).leaves,
    (Checked.Stored.faithful_stored b).leaves⟩
  · rw [Parse.stored, Parse.stored, h.parse.1]
    exact (Tree.countOf_mapOf _).symm
  · rw [hsignificant, hsignificant, hcells, hcells, h.tree]
    refine Tree.forall₂_cells 0 none _ fun u hu => ?_
    rw [Parse.leaves_tree] at hu
    obtain ⟨n, hn, hn'⟩ := h.alike hu
    exact .token (n := n) (by rw [List.getElem?_map, hn]; rfl) (by rw [List.getElem?_map, hn']; rfl)

/-- What describes a name and what describes the name in its place. -/
theorem entry (h : Respells a b f) {name : Occurrence} {e e' : Entry}
    (hmem : name ∈ (Parse.ofText a).tree.preorder) (he : e.Describes a.toList name)
    (he' : e'.Describes b.toList (name.map f)) : e.Alike a b e' := by
  obtain ⟨t, htree, hk, -, -, htext, hposition⟩ := he.token
  obtain ⟨u, htree', hk', -, -, htext', hposition'⟩ := he'.token
  obtain ⟨construct, before, after, hparent, hcategory, -⟩ := he.construct
  obtain ⟨construct', before', after', hparent', hcategory', -⟩ := he'.construct
  have hmap : (name.map f).parent? = name.parent?.map (Element.map f) := List.head?_map
  rw [hmap, hparent] at hparent'
  obtain rfl := Option.some.inj hparent'
  have hchildren : (name.map f).element.children = [.leaf (f t)] := by
    rw [Occurrence.map, Element.map, htree]
    rfl
  obtain rfl : f t = u := by simpa using hchildren.symm.trans htree'
  have ht : t ∈ (Tokens.ofText a).spoken := Parse.mem_of_children hmem htree
  have hcategories := (ElementKind.mem_declaring.mp hcategory).symm.trans
    (ElementKind.mem_declaring.mp hcategory')
  exact ⟨Option.some.inj hcategories, t, f t, h.alike ht, hk, hk', htext, hposition, htext',
    hposition'⟩

theorem history (h : Respells a b f) (dumping : Bool) : ∃ x y,
    Analysis.ofText a dumping = .ok x ∧ Analysis.ofText b dumping = .ok y ∧
      List.Forall₂ (Entry.Alike a b) x.table.history.toList y.table.history.toList := by
  by_cases hnone : (Parse.ofText a).errors = []
  · have hnone' : (Parse.ofText b).errors = [] := by rw [h.parse.2, hnone, List.map_nil]
    obtain ⟨x, hx, -, hhistory⟩ := Analysis.exists_history hnone dumping
    obtain ⟨y, hy, -, hhistory'⟩ := Analysis.exists_history hnone' dumping
    obtain ⟨theories, hlawful⟩ := Parse.exists_lawful hnone
    obtain ⟨theories', hlawful'⟩ := Parse.exists_lawful hnone'
    have hdeclared : (Parse.ofText b).tree.declared =
        (Parse.ofText a).tree.declared.map (Occurrence.map f) := by
      rw [h.tree, Tree.declared_map]
    refine ⟨x, y, hx, hy, ?_⟩
    rw [hhistory, hhistory', hdeclared, List.filterMap_map]
    refine List.forall₂_filterMap fun name hname => ?_
    obtain ⟨e, hrecord, he⟩ := hlawful.exists_describes hname
    obtain ⟨e', hrecord', he'⟩ :=
      hlawful'.exists_describes (hdeclared ▸ List.mem_map_of_mem hname)
    rw [Function.comp_apply, hrecord, hrecord']
    exact .some (h.entry (List.mem_of_mem_filter hname) he he')
  · have hsome : (Parse.ofText b).errors ≠ [] := by rwa [h.parse.2, ne_eq, List.map_eq_nil_iff]
    exact ⟨_, _, Analysis.ofText_of_errors hnone, Analysis.ofText_of_errors hsome, .nil⟩

end Respells

namespace Checked

/-- Texts whose tokens are of the same kinds, blanks and comments apart, are parsed in the same way
and declare the same: trees, errors and entries differ in the tokens only. -/
theorem alike_of_kinds {a b : String} (h : (Tokens.ofText a).significant.map Token.kind =
      (Tokens.ofText b).significant.map Token.kind) (dumping : Bool) :
    ∃ s errors s' errors' x y, tokenize a >>= parse = pure (s, errors) ∧
      tokenize b >>= parse = pure (s', errors') ∧
      Analysis.ofText a dumping = .ok x ∧ Analysis.ofText b dumping = .ok y ∧
      s.Alike s' ∧ List.Forall₂ (SyntaxError.Alike a b) errors errors' ∧
      List.Forall₂ (Entry.Alike a b) x.table.history.toList y.table.history.toList := by
  obtain ⟨f, hf⟩ := Respells.exists_of_kinds h
  obtain ⟨x, y, hx, hy, hhistory⟩ := hf.history dumping
  refine ⟨_, _, _, _, x, y, ?_, ?_, hx, hy, hf.stored, hf.errors, hhistory⟩
  · rw [tokenize_eq, pure_bind, parse_eq]
  · rw [tokenize_eq, pure_bind, parse_eq]

/-- With other names, other blanks and keywords in other letters there are the same elements and no
errors, and the type is declared by the name in the same place. -/
theorem alike_of_kinds_spelling :
    let a := "t: THEORY BEGIN x: TYPE END t"
    let b := "Letters : theory % names\n begin\n  β : Type\n end Letters"
    ((Tokens.ofText a).significant.map Token.kind = (Tokens.ofText b).significant.map Token.kind) ∧
      ∃ s s' x y, tokenize a >>= parse = pure (s, []) ∧ tokenize b >>= parse = pure (s', []) ∧
        Analysis.ofText a false = .ok x ∧ Analysis.ofText b false = .ok y ∧
        s'.cells.map (·.kind) = [.identifier, .identifier, .typeDecl, .theory, .root] ∧
        y.table.history.toList.map (fun e =>
          (e.category, e.declaration.name, e.declaration.position)) = [(.type, "β", ⟨3, 2⟩)] := by
  intro a b
  have h : (Tokens.ofText a).significant.map Token.kind =
      (Tokens.ofText b).significant.map Token.kind := by
    decide +kernel
  have hnone : (Parse.ofText a).errors = [] := by decide +kernel
  have hkinds : (Parse.ofText a).stored.cells.map (·.kind) =
      [.identifier, .identifier, .typeDecl, .theory, .root] := by
    decide +kernel
  have hentries : ((Parse.ofText a).tree.declared.filterMap (·.record? a.toList)).map (fun e =>
      (e.category, e.declaration.position)) = [(.type, ⟨1, 16⟩)] := by
    decide +kernel
  have hplaces : ∀ p ∈ (Tokens.ofText a).spoken.zip (Tokens.ofText b).spoken,
      p.1.range.start = ⟨1, 16⟩ → p.2.text = "β" ∧ p.2.range.start = ⟨3, 2⟩ := by
    decide +kernel
  clear_value a b
  have hparse : tokenize a >>= parse = pure ((Parse.ofText a).stored, []) := by
    rw [tokenize_eq, pure_bind, parse_eq, hnone]
  obtain ⟨s, errors, s', errors', x, y, hs, hs', hx, hy, halike, herrors, hhistory⟩ :=
    alike_of_kinds h false
  obtain ⟨rfl, rfl⟩ := Prod.mk.inj (pure_inj (hparse.symm.trans hs))
  obtain rfl := List.forall₂_nil_left_iff.mp herrors
  have hcells : List.Forall₂ (· = ·) ((Parse.ofText a).stored.cells.map (·.kind))
      (s'.cells.map (·.kind)) :=
    List.forall₂_map_left_iff.mpr (List.forall₂_map_right_iff.mpr
      (halike.cells.imp fun _ _ hcell => hcell.kind))
  rw [List.forall₂_eq_eq_eq, hkinds] at hcells
  refine ⟨h, _, s', x, y, hparse, hs', hx, hy, hcells.symm, ?_⟩
  obtain ⟨_, hx', -, hrecorded⟩ := Analysis.exists_history hnone false
  obtain rfl := Except.ok.inj (hx.symm.trans hx')
  rw [← hrecorded] at hentries
  obtain ⟨d, _, hsplit, hd, hnil⟩ := List.map_eq_cons_iff.mp hentries
  obtain rfl := List.map_eq_nil_iff.mp hnil
  rw [hsplit] at hhistory
  obtain ⟨e, _, he, hnil', hhistory⟩ := List.forall₂_cons_left_iff.mp hhistory
  obtain rfl := List.forall₂_nil_left_iff.mp hnil'
  obtain ⟨t, u, ⟨n, hn, hn'⟩, -, -, -, hposition, hname', hposition'⟩ := he.token
  have hpair : (t, u) ∈ (Tokens.ofText a).spoken.zip (Tokens.ofText b).spoken :=
    List.mem_of_getElem? (List.getElem?_zip_eq_some.mpr ⟨hn, hn'⟩)
  have hstart : t.range.start = ⟨1, 16⟩ := hposition.symm.trans (congrArg Prod.snd hd)
  have hcategory : e.category = .type := he.category.symm.trans (congrArg Prod.fst hd)
  have hname : e.declaration.name = "β" := hname'.trans (hplaces _ hpair hstart).1
  have hplace : e.declaration.position = ⟨3, 2⟩ := hposition'.trans (hplaces _ hpair hstart).2
  rw [hhistory, List.map_singleton, hcategory, hname, hplace]

end Checked

end PvsIndex
