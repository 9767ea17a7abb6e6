import PvsIndex.Proofs.Checked.Following
import PvsIndex.Proofs.Declaration.Indexing
import PvsIndex.Proofs.Declaration.Scoping
import PvsIndex.Proofs.Source.Units
import PvsIndex.Proofs.Token.Words
import PvsIndex.Service

/-! What the name at a position is found to be: a declaration of that name, which was recorded. -/

namespace PvsIndex

namespace LookupMode

variable {entries : List Entry} {name : String} {p : Position} {mode : LookupMode}

theorem exists_of_find? {d : Declaration}
    (h : mode.find? (({} : Table).insertAll entries) name (some p) = some d) :
    ∃ e ∈ entries, e.declaration = d ∧ d.name = name := by
  cases mode with
  | byCategory => exact Table.exists_of_find? h
  | «scoped» =>
    obtain ⟨e, he, hd⟩ := Table.exists_of_findAt? h
    rw [Table.history_insertAll] at he
    exact ⟨e, he, hd⟩

theorem scoped_of_find?_eq_none
    (h : mode.find? (({} : Table).insertAll entries) name (some p) = none) :
    ∀ e ∈ entries, e.declaration.name = name → mode = .scoped ∧ ¬ e.InForce p := by
  intro e he hname
  cases mode with
  | byCategory => exact absurd hname (Table.ne_of_find?_eq_none h e he)
  | «scoped» =>
    refine ⟨rfl, Table.findAt?_eq_none_iff.mp h e ?_ hname⟩
    rw [Table.history_insertAll]
    exact he

end LookupMode

namespace Parse

theorem mem_of_children {text : String} {o : Occurrence} {t : Token}
    (ho : o ∈ (ofText text).tree.preorder) (h : o.element.children = [.leaf t]) :
    t ∈ (Tokens.ofText text).significant ++ [(Tokens.ofText text).endOfText] := by
  have hleaf : t ∈ o.element.leaves := by
    simp [Element.leaves, Element.tree, Tree.leaves, Tree.leavesOf, h]
  rw [← leaves_tree]
  exact (Tree.leaves_isInfix ho).subset hleaf

end Parse

/-- The token is a name that the construct declares in the text, and the declaration is what is
recorded for it. -/
structure Token.Declares (text : String) (t : Token) (construct : Element) (d : Declaration) :
    Prop where
  mem : t ∈ (Tokens.ofText text).toList
  kind : t.kind = .identifier
  declared : ∃ name ∈ (Parse.ofText text).tree.declared,
    name.element.children = [.leaf t] ∧ name.parent? = some construct
  recorded : ∃ a, Analysis.ofText text false = .ok a ∧
    ∃ e ∈ a.table.history.toList, e.declaration = d
  name : d.name = t.text
  position : d.position = t.range.start
  sourceText : d.sourceText = construct.sourceText text.toList

/-- The token is the one name that touches the position. -/
def Token.OnlyAt (text : String) (p : Position) (n : Token) : Prop :=
  ∀ m : Token, m ∈ (Tokens.ofText text).toList ∧ m.kind = .identifier ∧ m.range.Touches p ↔ m = n

theorem Token.OnlyAt.of_touches {text : String} {p : Position} {n : Token}
    (hn : n ∈ (Tokens.ofText text).toList) (hk : n.kind = .identifier) (hp : n.range.Touches p) :
    n.OnlyAt text p := by
  intro m
  constructor
  · rintro ⟨hm, hmk, hmp⟩
    exact Tokens.eq_of_touches hm hn (by rw [hmk]; rfl) (by rw [hk]; rfl) hmp hp
  · rintro rfl
    exact ⟨hn, hk, hp⟩

namespace Token.Declares

variable {text : String} {t : Token} {construct : Element} {d : Declaration}

theorem nameRange (h : t.Declares text construct d)
    (hfits : text.toList.length < Word.signedLimit) : d.nameRange = .ok t.range := by
  have hword : t.kind.isWord = true := by rw [h.kind]; rfl
  have ht := Tokens.fits_of_word h.mem hword
  have hle := ht.stop_le
  have hlimit : Word.limit = 2 * Word.signedLimit := rfl
  have hstop : t.range.start + .ofText t.text = t.range.stop := by
    rw [ht.range, Position.ofIndex_add, ← ht.text]
    rfl
  have hbounds := Position.ofIndex_bounds text.toList hle
  have hchecked : t.range.stop.checked = .ok t.range.stop := by
    refine if_pos ⟨?_, ?_⟩
    · rw [ht.range]
      dsimp only
      omega
    · rw [ht.range]
      dsimp only
      omega
  have horder : t.range.start ≤ t.range.stop := by
    rw [ht.range]
    exact Position.ofIndex_le (Nat.le_add_right _ _) hle
  rw [Declaration.nameRange, h.name, h.position, hstop, hchecked]
  exact if_pos horder

end Token.Declares

namespace Analysis

variable {text : String}

theorem exists_table (h : (Parse.ofText text).errors = []) (dumping : Bool) :
    ∃ r : Recording, ofText text dumping = .ok ⟨Parse.ofText text, r⟩ ∧
      r.table = ({} : Table).insertAll
        ((Parse.ofText text).tree.declared.filterMap (·.record? text.toList)) := by
  obtain ⟨theories, hl⟩ := Parse.exists_lawful h
  refine ⟨_, ofText_of_recording h (hl.recording_eq dumping), ?_⟩
  rw [Recording.table_foldl_play, Visit.flatMap_entries, hl.declared_eq]
  rfl

theorem exists_declares (h : (Parse.ofText text).errors = []) {e : Entry}
    (he : e ∈ (Parse.ofText text).tree.declared.filterMap (·.record? text.toList)) :
    ∃ (t : Token) (construct : Element), t.Declares text construct e.declaration := by
  obtain ⟨theories, hl⟩ := Parse.exists_lawful h
  obtain ⟨r, hr, htable⟩ := exists_table h false
  obtain ⟨name, hname, hrecord⟩ := List.mem_filterMap.mp he
  obtain ⟨e', hrecord', hdescribes⟩ := hl.exists_describes hname
  obtain rfl := Option.some.inj (hrecord.symm.trans hrecord')
  obtain ⟨t, htree, hk, -, -, htext, hposition⟩ := hdescribes.token
  obtain ⟨construct, before, after, hparent, -⟩ := hdescribes.construct
  obtain ⟨category, -, hd⟩ := Option.map_eq_some_iff.mp hrecord
  have ht : t ∈ (Tokens.ofText text).toList := by
    have hmem := Parse.mem_of_children (List.mem_of_mem_filter hname) htree
    rcases List.mem_append.mp hmem with h | h
    · exact Tokens.significant_subset h
    · exact List.mem_append_right _ h
  refine ⟨t, construct, ht, hk, ⟨name, hname, htree, hparent⟩, ⟨_, hr, e, ?_, rfl⟩, htext,
    hposition, ?_⟩
  · rw [table, htable, Table.history_insertAll]
    exact he
  · rw [← hd, Occurrence.declaration, hparent]
    rfl

theorem declarationAt?_of_errors {mode : LookupMode} (h : (Parse.ofText text).errors ≠ [])
    {a : Analysis} (ha : ofText text false = .ok a) (p : Position) :
    a.declarationAt? mode p = none := by
  obtain rfl := Except.ok.inj (ha.symm.trans (ofText_of_errors h))
  unfold declarationAt?
  cases nameAt? _ p with
  | none => rfl
  | some name => cases mode <;> rfl

theorem nameAt?_cases (text : String) (r : Recording) (p : Position) :
    ((⟨Parse.ofText text, r⟩ : Analysis).nameAt? p = none ∧ ∀ n : Token, ¬ n.OnlyAt text p) ∨
      ∃ n : Token, n.OnlyAt text p ∧
        (⟨Parse.ofText text, r⟩ : Analysis).nameAt? p = some n.text := by
  have htokens : (Parse.ofText text).tokens = Tokens.ofText text := rfl
  unfold nameAt?
  dsimp only
  rw [htokens]
  cases hfind : (Tokens.ofText text).toList.find? fun t =>
      t.kind = .identifier ∧ t.range.Touches p with
  | none =>
    refine Or.inl ⟨rfl, fun n hn => ?_⟩
    obtain ⟨hmem, hnk, hnp⟩ := (hn n).mpr rfl
    exact absurd (decide_eq_true ⟨hnk, hnp⟩) (List.find?_eq_none.mp hfind n hmem)
  | some n =>
    have hn : n.kind = .identifier ∧ n.range.Touches p := by simpa using List.find?_some hfind
    exact Or.inr ⟨n, .of_touches (List.mem_of_find?_eq_some hfind) hn.1 hn.2, rfl⟩

theorem declarationAt?_of_nameAt? {a : Analysis} {mode : LookupMode} {p : Position} {name : String}
    (h : a.nameAt? p = some name) :
    a.declarationAt? mode p = mode.find? a.table name (some p) := by
  rw [declarationAt?, h]
  rfl

/-- In a text without errors, a declaration that is found is that of a name which the tree declares,
and the name is the one that touches the position. Where none is found, what was recorded for the
name there is not in force. -/
theorem declarationAt?_cases (h : (Parse.ofText text).errors = []) {a : Analysis}
    (ha : ofText text false = .ok a) (mode : LookupMode) (p : Position) :
    (a.declarationAt? mode p = none ∧ ∀ n : Token, n.OnlyAt text p →
      ∀ e ∈ a.table.history.toList, e.declaration.name = n.text → mode = .scoped ∧ ¬ e.InForce p) ∨
    ∃ (d : Declaration) (n t : Token) (construct : Element), a.declarationAt? mode p = some d ∧
      n.OnlyAt text p ∧ t.Declares text construct d ∧ t.text = n.text := by
  obtain ⟨r, hr, htable⟩ := exists_table h false
  obtain rfl := Except.ok.inj (ha.symm.trans hr)
  have hhistory : (⟨Parse.ofText text, r⟩ : Analysis).table.history.toList =
      (Parse.ofText text).tree.declared.filterMap (·.record? text.toList) := by
    rw [table, htable, Table.history_insertAll]
    rfl
  rcases nameAt?_cases text r p with ⟨hnone, hno⟩ | ⟨n, hn, hname⟩
  · refine Or.inl ⟨?_, fun n hn => absurd hn (hno n)⟩
    rw [declarationAt?, hnone]
    rfl
  rw [declarationAt?_of_nameAt? hname, hhistory, table, htable]
  cases hfind : mode.find? _ n.text (some p) with
  | none =>
    refine Or.inl ⟨rfl, fun m hm e he hem => ?_⟩
    obtain rfl : m = n := (hn m).mp ((hm m).mpr rfl)
    exact LookupMode.scoped_of_find?_eq_none hfind e he hem
  | some d =>
    obtain ⟨e, he, rfl, hed⟩ := LookupMode.exists_of_find? hfind
    obtain ⟨t, construct, hdeclares⟩ := exists_declares h he
    exact Or.inr ⟨_, n, t, construct, rfl, hn, hdeclares, hdeclares.name.symm.trans hed⟩

theorem nameAt?_of_onlyAt {n : Token} {p : Position} (hn : n.OnlyAt text p) (r : Recording) :
    (⟨Parse.ofText text, r⟩ : Analysis).nameAt? p = some n.text := by
  rcases nameAt?_cases text r p with ⟨-, hno⟩ | ⟨u, hu, hname⟩
  · exact absurd hn (hno n)
  · obtain rfl : u = n := (hn u).mp ((hu u).mpr rfl)
    exact hname

theorem declarationAt?_byCategory {a : Analysis} (ha : ofText text false = .ok a) {n m : Token}
    {p q : Position} (hn : n.OnlyAt text p) (hm : m.OnlyAt text q) (htext : n.text = m.text) :
    a.declarationAt? .byCategory p = a.declarationAt? .byCategory q := by
  obtain ⟨r, hr⟩ := exists_ok text false
  obtain rfl := Except.ok.inj (ha.symm.trans hr)
  rw [declarationAt?_of_nameAt? (nameAt?_of_onlyAt hn r),
    declarationAt?_of_nameAt? (nameAt?_of_onlyAt hm r), htext]
  rfl

end Analysis

end PvsIndex
