import PvsIndex.Proofs.Declaration.History
import PvsIndex.Proofs.Token.Append
import PvsIndex.Proofs.Tree.Map

/-! What is recorded for a piece of a text does not change when other text stands before and after
it, but for the places. -/

namespace PvsIndex

theorem Position.shift_le_iff {n : Nat} {p q : Position} : p.shift n ≤ q.shift n ↔ p ≤ q := by
  simp only [le_iff, shift]
  omega

theorem Range.unite_shift (n : Nat) (r s : Range) :
    (r.shift n).unite (s.shift n) = (r.unite s).shift n := by
  simp only [unite, shift, min_def, max_def, Position.shift_le_iff]
  split_ifs <;> rfl

def Declaration.shift (n : Nat) (d : Declaration) : Declaration :=
  { d with position := d.position.shift n, scope := d.scope.map (Range.shift n) }

def Entry.shift (n : Nat) (e : Entry) : Entry :=
  { e with declaration := e.declaration.shift n }

theorem Entry.shift_zero : Entry.shift 0 = id := by
  funext e
  have hrange : Range.shift 0 = id := rfl
  rw [Entry.shift, Declaration.shift, hrange, Option.map_id]
  rfl

theorem Entry.meaning?_shift (n : Nat) (category : Category) (name : String) (e : Entry) :
    (e.shift n).meaning? category name = (e.meaning? category name).map (Declaration.shift n) := by
  unfold meaning?
  by_cases h : e.category = category ∧ e.declaration.name = name
  · rw [if_pos h]
    exact if_pos h
  · rw [if_neg h]
    exact if_neg h

theorem Table.get?_insertAll_shift (t : Table) (entries : List Entry) (n : Nat)
    (category : Category) (name : String) :
    (t.insertAll (entries.map (Entry.shift n))).get? category name =
      (((({} : Table).insertAll entries).get? category name).map (Declaration.shift n)).or
        (t.get? category name) := by
  have hempty : ({} : Table).get? category name = none := by
    cases category <;> simp [get?, map]
  have hmeaning : (entries.map (Entry.shift n)).filterMap (·.meaning? category name) =
      (entries.filterMap (·.meaning? category name)).map (Declaration.shift n) := by
    rw [List.filterMap_map, List.map_filterMap]
    exact List.filterMap_congr fun e _ => e.meaning?_shift n category name
  rw [get?_insertAll, get?_insertAll, hmeaning, hempty, Option.or_none, List.getLast?_map]

namespace Element

variable {source : List Char} {e : Element} {i j : Nat}

theorem Extent.ends_map (h : e.Extent source i j) (f : Token → Token) : ∃ first last,
    e.tree.firstToken? = some first ∧ e.tree.lastToken? = some last ∧
      (e.map f).tree.firstToken? = some (f first) ∧ (e.map f).tree.lastToken? = some (f last) ∧
      first.startIndex = i ∧ last.startIndex + last.length = j := by
  obtain ⟨first, hhead, hi⟩ := h.first
  obtain ⟨last, hend, hj⟩ := h.last
  have hfirst : e.tree.firstToken? = some first := (Tree.firstToken?_eq_head? _).trans hhead
  have hlast : e.tree.lastToken? = some last := (Tree.lastToken?_eq_getLast? _).trans hend
  have hfirst' : (e.map f).tree.firstToken? = _ := Tree.firstToken?_map e.tree
  have hlast' : (e.map f).tree.lastToken? = _ := Tree.lastToken?_map e.tree
  rw [hfirst] at hfirst'
  rw [hlast] at hlast'
  exact ⟨first, last, hfirst, hlast, hfirst', hlast', hi, hj⟩

theorem Extent.range_move (h : e.Extent source i j) (n k : Nat) :
    (e.map (Token.move n k)).range = e.range.shift n := by
  obtain ⟨first, last, hfirst, hlast, hfirst', hlast', -⟩ := h.ends_map (Token.move n k)
  rw [Element.range, Element.range, hfirst, hlast, hfirst', hlast']
  exact Range.unite_shift n _ _

theorem Extent.sourceText_move (h : e.Extent source i j) (n : Nat) (pre post : List Char) :
    (e.map (Token.move n pre.length)).sourceText (pre ++ source ++ post) = e.sourceText source := by
  obtain ⟨first, last, hfirst, hlast, hfirst', hlast', hi, hj⟩ :=
    h.ends_map (Token.move n pre.length)
  have hlt := h.lt
  have hle := h.le
  have hdrop : (pre ++ source ++ post).drop (first.startIndex + pre.length) =
      source.drop first.startIndex ++ post := by
    rw [List.append_assoc, Nat.add_comm, List.drop_length_add_append,
      List.drop_append_of_le_length (by omega)]
  have hextent : last.startIndex + pre.length + last.length - (first.startIndex + pre.length) =
      last.startIndex + last.length - first.startIndex := by
    omega
  rw [Element.sourceText, Element.sourceText, hfirst, hlast, hfirst', hlast']
  dsimp only [Token.move, Token.length] at hextent ⊢
  rw [hdrop, hextent, List.take_append_of_le_length]
  unfold Token.length at hj
  rw [List.length_drop]
  omega

end Element

namespace Occurrence

/-- The element stands below the root, and what leads from the root to it covers some of the
source. -/
def Rooted (source : List Char) (root : Element) (o : Occurrence) : Prop :=
  ∃ above, o.ancestors = above ++ [root] ∧ ∀ e ∈ o.element :: above, ∃ i j, e.Extent source i j

variable {source : List Char} {root root' : Element} {o : Occurrence}

/-- In a longer text, a name is recorded as before, some lines further down. -/
theorem Rooted.record?_transplant (h : o.Rooted source root) (hroot : root.kind = .root)
    (hroot' : root'.kind = .root) (n : Nat) (pre post : List Char) :
    (o.transplant (Token.move n pre.length) root').record? (pre ++ source ++ post) =
      (o.record? source).map (Entry.shift n) := by
  obtain ⟨name, ancestors⟩ := o
  obtain ⟨above, rfl, hextent⟩ := h
  rw [transplant_append]
  cases above with
  | nil => simp [record?, category?_def, parent?, hroot, hroot', ElementKind.category?]
  | cons construct rest =>
    obtain ⟨⟨_, _, hname⟩, hextent⟩ := List.forall_mem_cons.mp hextent
    obtain ⟨⟨_, _, hconstruct⟩, hrest⟩ := List.forall_mem_cons.mp hextent
    have hscope : ((rest.map (Element.map (Token.move n pre.length)) ++ [root']).find?
        (·.kind.introducesScope)).map (·.range) =
          (((rest ++ [root]).find? (·.kind.introducesScope)).map (·.range)).map
            (Range.shift n) := by
      have hsame : rest.find? ((·.kind.introducesScope) ∘ Element.map (Token.move n pre.length)) =
          rest.find? (·.kind.introducesScope) := rfl
      rw [List.find?_append, List.find?_append, List.find?_singleton, List.find?_singleton,
        hroot, hroot', List.find?_map, hsame]
      cases hfound : rest.find? (·.kind.introducesScope) with
      | none => rfl
      | some scope =>
        obtain ⟨_, _, hcovers⟩ := hrest scope (List.mem_of_find?_eq_some hfound)
        exact congrArg some (hcovers.range_move n pre.length)
    have hdeclaration : Occurrence.declaration (pre ++ source ++ post)
        ⟨name.map (Token.move n pre.length),
          (construct :: rest).map (Element.map (Token.move n pre.length)) ++ [root']⟩ =
        (Occurrence.declaration source ⟨name, construct :: rest ++ [root]⟩).shift n := by
      unfold declaration Declaration.shift
      rw [innermost?_eq, innermost?_eq]
      congr 1
      · exact hname.sourceText_move n pre post
      · exact congrArg Range.start (hname.range_move n pre.length)
      · exact hconstruct.sourceText_move n pre post
    have hcategory : Occurrence.category? ⟨name.map (Token.move n pre.length),
        (construct :: rest).map (Element.map (Token.move n pre.length)) ++ [root']⟩ =
        Occurrence.category? ⟨name, construct :: rest ++ [root]⟩ := rfl
    rw [record?, record?, hdeclaration, hcategory, Option.map_map]
    rfl

theorem transplant_below (h : o.ancestors ≠ []) (f : Token → Token) (root x : Element) :
    (o.below x).transplant f root = (o.transplant f root).below (x.map f) := by
  unfold below transplant
  dsimp only
  rw [List.dropLast_cons_of_ne_nil h]
  rfl

theorem names_transplant (h : o.ancestors ≠ []) (f : Token → Token) (root : Element) :
    (o.transplant f root).names = o.names.map (transplant f root) := by
  have hmap (names : List Element) : (names.map (Element.map f)).map (o.transplant f root).below =
      (names.map o.below).map (transplant f root) := by
    rw [List.map_map, List.map_map]
    exact List.map_congr_left fun x _ => (transplant_below h f root x).symm
  have hcategory : (o.transplant f root).element.kind = o.element.kind := rfl
  have hchildren : (o.transplant f root).element.childrenOf .identifier = _ :=
    Element.childrenOf_map f .identifier o.element
  unfold names
  rw [hcategory, hchildren]
  cases o.element.kind.category? with
  | none => rfl
  | some category =>
    dsimp only
    rw [← hmap, ← List.map_take]
    split_ifs
    · rfl
    · rfl

end Occurrence

namespace Parse.Lawful

variable {text : String} {theories : List Tree} {o : Occurrence}

theorem rooted (h : (ofText text).Lawful theories)
    (ho : o ∈ Tree.preorderOf [(ofText text).root] theories) :
    o.Rooted text.toList (ofText text).root := by
  obtain ⟨t, ht, hmem⟩ := Tree.mem_preorderOf.mp ho
  obtain ⟨above, habove⟩ := Tree.suffix_of_mem hmem
  refine ⟨above, habove.symm, List.forall_mem_cons.mpr ⟨h.exists_extent ho, fun e he => ?_⟩⟩
  obtain ⟨inner, outer, rfl⟩ := List.append_of_mem he
  have hsuffix : e :: (outer ++ [(ofText text).root]) <:+ o.ancestors :=
    ⟨inner, by rw [← habove]; simp⟩
  rcases Tree.mem_of_suffix hmem hsuffix with hs | hs
  · exact absurd hs.length_le (by simp)
  · exact h.exists_extent (Tree.mem_preorderOf.mpr ⟨t, ht, hs⟩)

theorem entries_transplant (h : (ofText text).Lawful theories) {visit : Visit}
    (hv : visit ∈ Tree.visitsOf [(ofText text).root] theories) {root : Element}
    (hroot : root.kind = .root) (n : Nat) (pre post : List Char) :
    (visit.map (Occurrence.transplant (Token.move n pre.length) root)).entries
        (pre ++ text.toList ++ post) =
      (visit.entries text.toList).map (Entry.shift n) := by
  cases visit with
  | leave o => rfl
  | enter o =>
    have ho : o ∈ Tree.preorderOf [(ofText text).root] theories :=
      List.mem_filterMap.mpr ⟨_, hv, rfl⟩
    have hmem : o ∈ (ofText text).tree.preorder := by
      rw [h.preorder_eq]
      exact List.mem_cons_of_mem _ ho
    obtain ⟨above, habove, -⟩ := h.rooted ho
    have hne : o.ancestors ≠ [] := by simp [habove]
    have hkind : (ofText text).root.kind = .root := by rw [h.root]
    rw [Visit.map, Visit.entries, Visit.entries, Occurrence.names_transplant hne,
      List.filterMap_map, List.map_filterMap]
    refine List.filterMap_congr fun name hname => ?_
    obtain ⟨category, x, -, hx, rfl⟩ := Occurrence.mem_names hname
    have hx : (o.below x).element.kind ≠ .root := by
      rw [show (o.below x).element.kind = .identifier from (Element.mem_childrenOf hx).1]
      decide
    exact (h.rooted (h.inner_of_kind (mem_preorder_of_names hmem hname) hx)).record?_transplant
      hkind hroot n pre post

variable {root : Element}

/-- In a longer text, the theories declare what they declare alone, some lines further down. -/
theorem flatMap_entries_visitsOf (h : (ofText text).Lawful theories) (hroot : root.kind = .root)
    (n : Nat) (pre post : List Char) :
    (Tree.visitsOf [root] (Tree.mapOf (Token.move n pre.length) theories)).flatMap
        (Visit.entries (pre ++ text.toList ++ post)) =
      ((Tree.visitsOf [(ofText text).root] theories).flatMap
        (Visit.entries text.toList)).map (Entry.shift n) := by
  have hvisits := Tree.visitsOf_transplant (Token.move n pre.length) (ofText text).root root []
    theories
  rw [List.map_nil, List.nil_append, List.nil_append] at hvisits
  rw [hvisits, List.flatMap_map, List.map_flatMap]
  exact List.flatMap_congr fun visit hv => h.entries_transplant hv hroot n pre post

theorem foldl_play_visitsOf (h : (ofText text).Lawful theories) (hroot : root.kind = .root)
    (post : List Char) (dumping : Bool) (r : Recording) :
    (Tree.visitsOf [root] theories).foldl (Recording.play (text.toList ++ post) dumping) r =
      (Tree.visitsOf [(ofText text).root] theories).foldl
        (Recording.play text.toList dumping) r := by
  have hvisits := Tree.visitsOf_transplant (Token.move 0 0) (ofText text).root root [] theories
  rw [List.map_nil, List.nil_append, List.nil_append,
    show Token.move 0 0 = id from rfl, Tree.mapOf_id] at hvisits
  rw [hvisits, List.foldl_map]
  refine List.foldl_ext _ _ _ fun r visit hv => ?_
  cases visit with
  | leave o => rfl
  | enter o =>
    have hentries := h.entries_transplant hv hroot 0 [] post
    rw [Entry.shift_zero, List.map_id] at hentries
    exact congrArg (fun es => { r with table := r.table.insertAll es }) hentries

theorem recording_eq_visitsOf (h : (ofText text).Lawful theories) (dumping : Bool) :
    (ofText text).recording dumping = .ok ((Tree.visitsOf [(ofText text).root] theories).foldl
      (Recording.play text.toList dumping) {}) := by
  have hkind : (ofText text).root.kind = .root := by rw [h.root]
  have hvisits : (ofText text).tree.visits = .enter ⟨(ofText text).root, []⟩ ::
      (Tree.visitsOf [(ofText text).root] theories ++ [.leave ⟨(ofText text).root, []⟩]) := by
    rw [Parse.tree, h.root]
    simp [Tree.visits, Element.tree, Tree.visitsBelow, Tree.visitsOf_append, Tree.visitsOf]
  have hnames : (⟨(ofText text).root, []⟩ : Occurrence).names = [] := by
    simp [Occurrence.names, hkind, ElementKind.category?]
  rw [h.recording_eq, hvisits, List.foldl_cons, List.foldl_append]
  simp [Recording.play, Visit.entries, hnames, hkind, Table.insertAll]

end Parse.Lawful

end PvsIndex
