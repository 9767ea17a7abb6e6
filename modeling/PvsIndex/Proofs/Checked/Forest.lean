import Mathlib.Logic.Relation
import PvsIndex.Proofs.Checked.Indexing

/-! What is stored for a text is an ordered forest over the tokens of the text, with errors in it or
without. -/

namespace PvsIndex.Checked.Stored

open PvsIndex.Tree

/-- The tokens at or below a node, from left to right. -/
def leavesBelow (s : Stored) : Node → Checked (List Nat)
  | .token id => return [id]
  | .element id => do
    let parts ← (← s.cell id).children.mapM fun child => s |>.leavesBelow child
    return parts.flatten
partial_fixpoint

/-- The tokens that are neither blanks nor comments. -/
def significant (s : Stored) : List Nat :=
  (s.tokens.zipIdx.filter (!·.1.kind.isTrivia)).map (·.2)

/-- The one element has the other among its children. -/
def IsParent (s : Stored) (parent child : Nat) : Prop :=
  ∃ cell, s.cells[parent]? = some cell ∧ .element child ∈ cell.children

def occurrences (s : Stored) (parent child : Nat) : Nat :=
  ((s.cells[parent]?.map (·.children)).getD []).count (.element child)

/-- Walks through an element and notes what is left. -/
def note (s : Stored) (ids : List Nat) (id : Nat) : Checked (List Nat) :=
  s.walk (fun _ ids => pure ids) (fun id ids => pure (ids ++ [id])) id ids

/-- The elements in the order in which a walk leaves them. -/
def exits (s : Stored) : Checked (List Nat) :=
  s.note [] s.root

/-- An element has tokens, from the start of the first to the stop of the last, and shows what
stands there in the source. -/
structure Extent (s : Stored) (source : List Char) (id : Nat) (r : Range) : Prop where
  range : s.range id = pure r
  ends : ∃ ids first last t u, s.leavesBelow (.element id) = pure ids ∧ ids.head? = some first ∧
    ids.getLast? = some last ∧ s.tokens[first]? = some t ∧ s.tokens[last]? = some u ∧
      r = ⟨t.range.start, u.range.stop⟩
  text : ∃ before part after, source = before ++ part ++ after ∧
    s.sourceText id = pure (String.ofList part) ∧
      r = ⟨.start + .ofChars before, .start + .ofChars (before ++ part)⟩

/-- An ordered forest of the source. -/
structure Faithful (s : Stored) (source : List Char) : Prop where
  leaves : s.leavesBelow (.element s.root) = pure s.significant
  /-- The end of the text is the last child of the root. -/
  eof : ∃ cell t, s.cells[s.root]? = some cell ∧ s.tokens.getLast? = some t ∧ t.kind = .eof ∧
    cell.children.getLast? = some (.token (s.tokens.length - 1))
  parent : ∀ id cell, s.cells[id]? = some cell → (cell.parent? = none ↔ id = s.root)
  once : ∀ parent id cell, s.cells[id]? = some cell →
    s.occurrences parent id = if cell.parent? = some parent then 1 else 0
  closed : ∀ parent id, s.IsParent parent id → id < s.cells.length
  reachable : ∀ id < s.cells.length, Relation.ReflTransGen s.IsParent s.root id
  postorder : s.exits = pure (List.range s.cells.length)
  extent : ∀ id < s.cells.length,
    s.leavesBelow (.element id) = pure [] ∨ ∃ r, s.Extent source id r
  within : ∀ parent id r, s.IsParent parent id → s.Extent source id r →
    ∃ q, s.Extent source parent q ∧ q.Contains r
  apart : ∀ id ids, s.elements id = pure ids → ids.Pairwise fun i j => ∀ q r,
    s.Extent source i q → s.Extent source j r → q.stop ≤ r.start

/-- What is stored under a number is the element. -/
structure Is (s : Stored) (text : String) (id : Nat) (e : Element) : Prop where
  kind : ∃ cell, s.cells[id]? = some cell ∧ cell.kind = e.kind
  leaves : s.leavesBelow (.element id) = pure (e.leaves.map (Tokens.ofText text).id)
  range : s.range id = pure e.range
  sourceText : s.sourceText id = pure (e.sourceText text.toList)

variable {s : Stored} {text : String} {parent? : Option Nat} {base id : Nat} {ts : List Tree}
  {e : Element}

section Leaves

mutual

theorem leavesBelow_nodeAt (parent? : Option Nat) (base : Nat) : (t : Tree) →
    s.Holds text parent? base [t] → s.leavesBelow (t.nodeAt (Tokens.ofText text).id base) =
      pure (t.leaves.map (Tokens.ofText text).id)
  | .leaf token, _ => by
    rw [nodeAt, leavesBelow, leaves]
    rfl
  | .node kind children, h => by
    rw [nodeAt, leavesBelow, h.cell, pure_bind, mapM_leavesBelow _ base children h.below,
      pure_bind, leaves, leavesOf_eq_flatMap, List.map_flatMap]
    rfl

theorem mapM_leavesBelow (parent? : Option Nat) (base : Nat) : (ts : List Tree) →
    s.Holds text parent? base ts →
      (nodesAt (Tokens.ofText text).id base ts).mapM s.leavesBelow =
        pure (ts.map fun t => t.leaves.map (Tokens.ofText text).id)
  | [], _ => rfl
  | t :: ts, h => by
    rw [nodesAt_cons, List.mapM_cons, leavesBelow_nodeAt _ base t h.head, pure_bind,
      mapM_leavesBelow _ _ ts h.tail, pure_bind]
    rfl

end

theorem At.getElem? (h : s.At text parent? id e) :
    ∃ nodes, s.cells[id]? = some ⟨e.kind, nodes, parent?⟩ := by
  obtain ⟨base, rfl, h⟩ := h
  exact ⟨_, h.getElem?⟩

theorem At.leavesBelow (h : s.At text parent? id e) :
    s.leavesBelow (.element id) = pure (e.leaves.map (Tokens.ofText text).id) := by
  obtain ⟨base, rfl, h⟩ := h
  exact leavesBelow_nodeAt _ base e.tree h

theorem At.is (h : s.At text parent? id e) : s.Is text id e := by
  obtain ⟨nodes, hcell⟩ := h.getElem?
  exact ⟨⟨_, hcell, rfl⟩, h.leavesBelow, h.range, h.sourceText⟩

end Leaves

section Parents

theorem lt_of_mem_nodesAt {ids : Token → Nat} (h : Node.element id ∈ nodesAt ids base ts) :
    base ≤ id ∧ id < base + countOf ts := by
  induction ts generalizing base with
  | nil => cases h
  | cons t ts ih =>
    rw [countOf_cons]
    rcases List.mem_cons.mp h with h | h
    · cases t with
      | leaf => cases h
      | node kind children =>
        rw [Node.element.inj h, count_node]
        omega
    · have := ih h
      omega

theorem count_nodesAt_le (ids : Token → Nat) (base : Nat) (ts : List Tree) (id : Nat) :
    (nodesAt ids base ts).count (.element id) ≤ 1 := by
  induction ts generalizing base with
  | nil => exact Nat.zero_le _
  | cons t ts ih =>
    rw [nodesAt_cons, List.count_cons]
    split_ifs with hnode
    · cases t with
      | leaf => simp [nodeAt] at hnode
      | node kind children =>
        obtain rfl : base + countOf children = id := by simpa [nodeAt] using hnode
        have hrest : (nodesAt ids (base + (node kind children).count) ts).count
            (.element (base + countOf children)) = 0 := by
          refine List.count_eq_zero.mpr fun hmem => ?_
          have := (lt_of_mem_nodesAt hmem).1
          rw [count_node] at this
          omega
        omega
    · exact ih _

theorem Holds.exists_at (h : s.Holds text parent? base ts)
    (hm : Node.element id ∈ nodesAt (Tokens.ofText text).id base ts) :
    ∃ e, s.At text parent? id e ∧ e.tree ∈ ts := by
  induction ts generalizing base with
  | nil => cases hm
  | cons t ts ih =>
    rcases List.mem_cons.mp hm with hm | hm
    · cases t with
      | leaf => cases hm
      | node kind children =>
        exact ⟨⟨kind, children⟩, ⟨base, Node.element.inj hm, h.head⟩, List.mem_cons_self⟩
    · obtain ⟨e, hat, hmem⟩ := ih h.tail hm
      exact ⟨e, hat, List.mem_cons_of_mem _ hmem⟩

theorem At.exists_child {child : Nat} (h : s.At text parent? id e) (hc : s.IsParent id child) :
    ∃ d, s.At text (some id) child d ∧ d.tree ∈ e.children := by
  obtain ⟨base, rfl, h⟩ := h
  obtain ⟨cell, hcell, hm⟩ := hc
  obtain rfl := Option.some.inj (h.getElem?.symm.trans hcell)
  exact h.below.exists_at hm

theorem occurrences_pos_iff {parent child : Nat} :
    0 < s.occurrences parent child ↔ s.IsParent parent child := by
  rw [occurrences, List.count_pos_iff, IsParent]
  cases s.cells[parent]? <;> simp

theorem At.occurrences_le (h : s.At text parent? id e) (child : Nat) :
    s.occurrences id child ≤ 1 := by
  obtain ⟨base, rfl, h⟩ := h
  rw [occurrences, h.getElem?]
  exact count_nodesAt_le _ _ _ _

mutual

/-- Everything in the part of the store of a tree has its parent there, and is reached from the
parent of the tree. -/
theorem exists_parent (parent base id : Nat) : (t : Tree) → s.Holds text (some parent) base [t] →
    (∀ child, t.nodeAt (Tokens.ofText text).id base = .element child →
      s.IsParent parent child) → base ≤ id → id < base + t.count →
    ∃ q e, s.At text (some q) id e ∧ s.IsParent q id ∧ Relation.ReflTransGen s.IsParent parent q
  | .leaf token, _, _, hle, hlt => by
    rw [count_leaf] at hlt
    omega
  | .node kind children, h, hparent, hle, hlt => by
    have hchild := hparent _ rfl
    by_cases hid : id = base + countOf children
    · subst hid
      exact ⟨parent, ⟨kind, children⟩, ⟨base, rfl, h⟩, hchild, .refl⟩
    · rw [count_node] at hlt
      obtain ⟨q, e, hat, hq, hreach⟩ := exists_parentOf (base + countOf children) base id children
        h.below (fun child hm => ⟨_, h.getElem?, hm⟩) hle (by omega)
      exact ⟨q, e, hat, hq, .head hchild hreach⟩

theorem exists_parentOf (parent base id : Nat) : (ts : List Tree) →
    s.Holds text (some parent) base ts →
    (∀ child, .element child ∈ nodesAt (Tokens.ofText text).id base ts →
      s.IsParent parent child) → base ≤ id → id < base + countOf ts →
    ∃ q e, s.At text (some q) id e ∧ s.IsParent q id ∧ Relation.ReflTransGen s.IsParent parent q
  | [], _, _, hle, hlt => by
    rw [countOf_nil] at hlt
    omega
  | t :: ts, h, hparent, hle, hlt => by
    by_cases hid : id < base + t.count
    · exact exists_parent parent base id t h.head
        (fun child hn => hparent child (hn ▸ List.mem_cons_self)) hle hid
    · rw [countOf_cons] at hlt
      exact exists_parentOf parent _ id ts h.tail
        (fun child hm => hparent child (List.mem_cons_of_mem _ hm)) (by omega) (by omega)

end

end Parents

section Postorder

mutual

/-- The elements are stored in the order in which a walk through the tree leaves them. -/
theorem forall₂_left (es : List Element) (parent? : Option Nat) (base : Nat) : (t : Tree) →
    s.Holds text parent? base [t] → s.Above text es parent? →
    List.Forall₂ (s.Stands text) (List.range' base t.count)
      ((t.visitsBelow es).filterMap Visit.left?)
  | .leaf _, _, _ => .nil
  | .node kind children, h, habove => by
    have hat : s.At text parent? (base + countOf children) ⟨kind, children⟩ := ⟨base, rfl, h⟩
    have hinner := forall₂_leftOf (⟨kind, children⟩ :: es) _ base children h.below
      (.cons hat habove)
    rw [count_node, List.range'_1_concat, visitsBelow, List.cons_append,
      List.filterMap_cons_none rfl, List.filterMap_append]
    exact List.rel_append hinner (.cons ⟨parent?, hat, habove⟩ .nil)

theorem forall₂_leftOf (es : List Element) (parent? : Option Nat) (base : Nat) :
    (ts : List Tree) → s.Holds text parent? base ts → s.Above text es parent? →
    List.Forall₂ (s.Stands text) (List.range' base (countOf ts))
      ((visitsOf es ts).filterMap Visit.left?)
  | [], _, _ => .nil
  | t :: ts, h, habove => by
    rw [countOf_cons, ← List.range'_append_1, visitsOf, List.filterMap_append]
    exact List.rel_append (forall₂_left es parent? base t h.head habove)
      (forall₂_leftOf es parent? _ ts h.tail habove)

end

mutual

theorem walk_exits (parent? : Option Nat) (base : Nat) (ids : List Nat) : (t : Tree) →
    s.Holds text parent? base [t] →
    ([t.nodeAt (Tokens.ofText text).id base].filterMap Node.element?).foldlM s.note ids =
      pure (ids ++ List.range' base t.count)
  | .leaf _, _ => by
    rw [count_leaf, List.range'_zero, List.append_nil]
    rfl
  | .node kind children, h => by
    have hchildren := walks_exits _ base ids children h.below
    change s.note ids (base + countOf children) >>= pure = _
    rw [bind_pure, note, walk, pure_bind, Stored.elements, h.cell, pure_bind, pure_bind]
    change (List.foldlM s.note ids _ >>= _) = _
    rw [hchildren, pure_bind, count_node, List.range'_1_concat, List.append_assoc]

theorem walks_exits (parent? : Option Nat) (base : Nat) (ids : List Nat) : (ts : List Tree) →
    s.Holds text parent? base ts →
    ((nodesAt (Tokens.ofText text).id base ts).filterMap Node.element?).foldlM s.note ids =
      pure (ids ++ List.range' base (countOf ts))
  | [], _ => by simp
  | t :: ts, h => by
    rw [nodesAt_cons, ← List.singleton_append, List.filterMap_append, List.foldlM_append,
      walk_exits parent? base ids t h.head, pure_bind, walks_exits parent? _ _ ts h.tail,
      countOf_cons, List.append_assoc, List.range'_append_1]

end

end Postorder

section Extent

theorem At.exists_covers (h : s.At text parent? id e) (hne : e.leaves ≠ []) :
    ∃ i j, e.Covers text.toList i j :=
  Element.exists_covers (fun _ ht => Tokens.shows_of_mem (h.sublist.subset ht))
    ((Tokens.toList_pairwise text).sublist h.sublist) hne

theorem At.extent (h : s.At text parent? id e) (hne : e.leaves ≠ []) :
    s.Extent text.toList id e.range := by
  obtain ⟨i, j, hc⟩ := h.exists_covers hne
  obtain ⟨first, hfirst, -, hstart⟩ := hc.first
  obtain ⟨last, hlast, -, hstop⟩ := hc.last
  have htake : text.toList.take j =
      text.toList.take i ++ (text.toList.drop i).take (j - i) := by
    rw [← List.take_add, Nat.add_sub_cancel' hc.le]
  refine ⟨h.range, ?_, ?_⟩
  · refine ⟨_, (Tokens.ofText text).id first, (Tokens.ofText text).id last, first, last,
      h.leavesBelow, ?_, ?_, ?_, ?_, ?_⟩
    · rw [List.head?_map, hfirst, Option.map_some]
    · rw [List.getLast?_map, hlast, Option.map_some]
    · rw [h.tokens]
      exact Tokens.getElem?_id (h.sublist.subset (List.mem_of_mem_head? hfirst))
    · rw [h.tokens]
      exact Tokens.getElem?_id (h.sublist.subset (List.mem_of_getLast? hlast))
    · rw [hc.range, hstart, hstop]
  · refine ⟨text.toList.take i, (text.toList.drop i).take (j - i), text.toList.drop j, ?_, ?_, ?_⟩
    · rw [← htake, List.take_append_drop]
    · rw [h.sourceText, hc.text]
    · rw [hc.range, ← htake]
      rfl

theorem Extent.eq_range {r : Range} (h : s.Extent text.toList id r)
    (hat : s.At text parent? id e) : r = e.range ∧ e.leaves ≠ [] := by
  obtain ⟨ids, first, last, t, u, hids, hhead, -⟩ := h.ends
  refine ⟨pure_inj (h.range.symm.trans hat.range), fun hnone => ?_⟩
  rw [pure_inj (hids.symm.trans hat.leavesBelow), hnone] at hhead
  cases hhead

theorem At.exists_extent_contains {parent : Nat} {d : Element} {r : Range}
    (h : s.At text parent? parent e) (hd : s.At text (some parent) id d)
    (hmem : d.tree ∈ e.children) (hr : s.Extent text.toList id r) :
    ∃ q, s.Extent text.toList parent q ∧ q.Contains r := by
  obtain ⟨rfl, hne⟩ := hr.eq_range hd
  have hsub : d.leaves ⊆ e.leaves := (leaves_isInfix_of_mem_children hmem).subset
  have hparent : e.leaves ≠ [] := fun hnone => hne (List.subset_nil.mp (hnone ▸ hsub))
  obtain ⟨i, j, hcovers⟩ := hd.exists_covers hne
  obtain ⟨k, l, hcovers'⟩ := h.exists_covers hparent
  exact ⟨_, h.extent hparent, hcovers'.contains hcovers hsub⟩

end Extent

section Apart

theorem leaves_of_element? {t : Tree} (h : t.element? = some e) : t.leaves = e.leaves := by
  cases t with
  | leaf => cases h
  | node kind children => rw [← Option.some.inj h]; rfl

theorem At.pairwise_elements (h : s.At text parent? id e) :
    (e.children.filterMap Tree.element?).Pairwise fun d d' =>
      ∀ x ∈ d.leaves, ∀ y ∈ d'.leaves, x.Before y := by
  have hleaves : e.leaves = e.children.flatMap leaves := leavesOf_eq_flatMap e.children
  have hbefore := (Tokens.toList_pairwise text).sublist h.sublist
  rw [hleaves, List.pairwise_flatMap] at hbefore
  refine List.Pairwise.filterMap _ (fun t u htu d hd d' hd' => ?_) hbefore.2
  rwa [leaves_of_element? hd, leaves_of_element? hd'] at htu

theorem At.pairwise_extents (h : s.At text parent? id e) {ids : List Nat}
    (hids : s.elements id = pure ids) : ids.Pairwise fun i j => ∀ q r,
      s.Extent text.toList i q → s.Extent text.toList j r → q.stop ≤ r.start := by
  obtain ⟨ids', hids', hforall⟩ := h.elements
  obtain rfl := pure_inj (hids.symm.trans hids')
  refine List.pairwise_of_forall₂ hforall h.pairwise_elements
    fun i j d e hi hj hbefore q r hq hr => ?_
  obtain ⟨rfl, hne⟩ := hq.eq_range hi
  obtain ⟨rfl, hne'⟩ := hr.eq_range hj
  obtain ⟨i, j, hcovers⟩ := hi.exists_covers hne
  obtain ⟨k, l, hcovers'⟩ := hj.exists_covers hne'
  exact hcovers.le_of_before hcovers' hbefore

end Apart

section Whole

variable (text : String)

theorem at_root : (Parse.ofText text).stored.At text none (Parse.ofText text).stored.root
    (Parse.ofText text).root :=
  ⟨0, (Nat.zero_add _).symm, holds_stored text⟩

theorem length_cells_stored : (Parse.ofText text).stored.cells.length =
    (Parse.ofText text).stored.root + 1 := by
  have hlength := length_cells (Tokens.ofText text).id 0 none (Parse.ofText text).tree
  rwa [Parse.tree, Element.tree, count_node] at hlength

variable {text}

theorem exists_at {id : Nat} (h : id < (Parse.ofText text).stored.cells.length) :
    ∃ parent? e, (Parse.ofText text).stored.At text parent? id e ∧
      (parent? = none ↔ id = (Parse.ofText text).stored.root) ∧
      ∀ q ∈ parent?, (Parse.ofText text).stored.IsParent q id ∧ Relation.ReflTransGen
        (Parse.ofText text).stored.IsParent (Parse.ofText text).stored.root q := by
  by_cases hid : id = (Parse.ofText text).stored.root
  · exact ⟨none, _, hid ▸ at_root text, ⟨fun _ => hid, fun _ => rfl⟩,
      fun _ hq => absurd hq (Option.not_mem_none _)⟩
  · rw [length_cells_stored] at h
    obtain ⟨base, hbase, hholds⟩ := at_root text
    obtain rfl : base = 0 := by
      rw [Parse.stored] at hbase
      dsimp only at hbase
      omega
    have hparent := hholds.getElem?
    have hbelow := hholds.below
    rw [← hbase] at hparent hbelow
    obtain ⟨q, e, hat, hq, hreach⟩ := exists_parentOf _ 0 id _ hbelow
      (fun child hm => ⟨_, hparent, hm⟩) (Nat.zero_le _) (by rw [← hbase]; omega)
    exact ⟨some q, e, hat, ⟨fun he => absurd he (Option.some_ne_none q), fun he => absurd he hid⟩,
      fun _ hp => Option.some.inj hp ▸ ⟨hq, hreach⟩⟩

theorem exists_at_cell {id : Nat} {cell : Cell}
    (h : (Parse.ofText text).stored.cells[id]? = some cell) :
    ∃ e, (Parse.ofText text).stored.At text cell.parent? id e ∧
      (cell.parent? = none ↔ id = (Parse.ofText text).stored.root) ∧
      ∀ q, cell.parent? = some q → (Parse.ofText text).stored.IsParent q id := by
  obtain ⟨parent?, e, hat, hnone, hsome⟩ := exists_at (List.getElem?_eq_some_iff.mp h).1
  obtain ⟨nodes, hcell⟩ := hat.getElem?
  obtain rfl := Option.some.inj (hcell.symm.trans h)
  exact ⟨e, hat, hnone, fun q hq => (hsome q hq).1⟩

theorem exists_at_child {parent id : Nat} (h : (Parse.ofText text).stored.IsParent parent id) :
    ∃ parent? e d, (Parse.ofText text).stored.At text parent? parent e ∧
      (Parse.ofText text).stored.At text (some parent) id d ∧ d.tree ∈ e.children := by
  have hchild := h
  obtain ⟨cell, hcell, -⟩ := h
  obtain ⟨e, hat, -⟩ := exists_at_cell hcell
  obtain ⟨d, hd, hmem⟩ := hat.exists_child hchild
  exact ⟨_, e, d, hat, hd, hmem⟩

/-- What is stored for a text is an ordered forest of the text. -/
theorem faithful_stored (text : String) : (Parse.ofText text).stored.Faithful text.toList where
  leaves := by
    have hleaves : (Parse.ofText text).root.leaves =
        (Tokens.ofText text).significant ++ [(Tokens.ofText text).endOfText] :=
      Parse.leaves_tree text
    rw [(at_root text).leavesBelow, hleaves, ← Tokens.filter_zipIdx]
    rfl
  eof := by
    obtain ⟨trees, -, hroot, -, -⟩ := Parse.reads_all text
    obtain ⟨base, hbase, hholds⟩ := at_root text
    refine ⟨_, (Tokens.ofText text).endOfText, hbase ▸ hholds.getElem?, ?_,
      Tokens.endOfText_kind text, ?_⟩
    · exact List.getLast?_concat
    · rw [hroot, nodesAt_append, nodesAt_cons, nodesAt_nil, List.getLast?_concat, nodeAt,
        Tokens.id_endOfText]
      rfl
  parent id cell hcell := by
    obtain ⟨e, -, hnone, -⟩ := exists_at_cell hcell
    exact hnone
  once parent id cell hcell := by
    obtain ⟨e, -, -, hsome⟩ := exists_at_cell hcell
    by_cases hparent : (Parse.ofText text).stored.IsParent parent id
    · obtain ⟨q?, q, d, hq, hd, -⟩ := exists_at_child hparent
      obtain ⟨nodes, hchild⟩ := hd.getElem?
      obtain rfl := Option.some.inj (hchild.symm.trans hcell)
      have hpos := occurrences_pos_iff.mpr hparent
      have hle := hq.occurrences_le id
      rw [if_pos rfl]
      omega
    · have hzero := mt occurrences_pos_iff.mp hparent
      rw [if_neg fun he => hparent (hsome parent he)]
      omega
  closed parent id hparent := by
    obtain ⟨q?, q, d, -, hd, -⟩ := exists_at_child hparent
    obtain ⟨nodes, hchild⟩ := hd.getElem?
    exact (List.getElem?_eq_some_iff.mp hchild).1
  reachable id h := by
    obtain ⟨parent?, e, hat, hnone, hsome⟩ := exists_at h
    cases parent? with
    | none => exact hnone.mp rfl ▸ .refl
    | some q => exact .tail (hsome q rfl).2 (hsome q rfl).1
  postorder := by
    have hexits := walk_exits none 0 [] _ (holds_stored text)
    rw [Parse.tree, Element.tree, nodeAt, Nat.zero_add, List.filterMap_cons, Node.element?,
      List.filterMap_nil, List.foldlM_cons, List.nil_append, ← List.range_eq_range'] at hexits
    rw [exits, ← bind_pure ((Parse.ofText text).stored.note _ _), length_cells_stored]
    exact hexits
  extent id h := by
    obtain ⟨parent?, e, hat, -, -⟩ := exists_at h
    by_cases hne : e.leaves = []
    · exact Or.inl (by rw [hat.leavesBelow, hne, List.map_nil])
    · exact Or.inr ⟨_, hat.extent hne⟩
  within parent id r hparent hr := by
    obtain ⟨q?, q, d, hq, hd, hmem⟩ := exists_at_child hparent
    exact hq.exists_extent_contains hd hmem hr
  apart id ids hids := by
    have hid : id < (Parse.ofText text).stored.cells.length := by
      by_contra hout
      rw [elements, Stored.cell, List.getElem?_eq_none (Nat.le_of_not_lt hout)] at hids
      cases hids
    obtain ⟨parent?, e, hat, -, -⟩ := exists_at hid
    exact hat.pairwise_extents hids

theorem forall₂_stands (text : String) :
    List.Forall₂ ((Parse.ofText text).stored.Stands text)
      (List.range (Parse.ofText text).stored.cells.length) (Parse.ofText text).tree.postorder := by
  have hforall := forall₂_left [] none 0 _ (holds_stored text) .nil
  have hlength : (Parse.ofText text).tree.count = (Parse.ofText text).stored.cells.length :=
    (length_cells _ _ _ _).symm
  rwa [hlength, ← List.range_eq_range'] at hforall

theorem forall₂_postorder (text : String) :
    List.Forall₂ (fun id o => (Parse.ofText text).stored.Is text id o.element)
      (List.range (Parse.ofText text).stored.cells.length) (Parse.ofText text).tree.postorder := by
  refine (forall₂_stands text).imp fun id o h => ?_
  obtain ⟨parent?, hat, -⟩ := h
  exact hat.is

end Whole

end PvsIndex.Checked.Stored

namespace PvsIndex.Checked

/-- Parsing stores an ordered forest of the source, with errors in it or without: its tokens in
order, every element under its one parent, children before parents, and each element from the start
of its first token to the stop of its last. The elements are those of the tree in the order in which
a walk leaves them. -/
theorem parseText_faithful (text : String) :
    ∃ s diagnostics, parseText text = pure (s, diagnostics) ∧ tokenize text = pure s.tokens ∧
      s.Faithful text.toList ∧ List.Forall₂ (fun id o => s.Is text id o.element)
        (List.range s.cells.length) (Parse.ofText text).tree.postorder :=
  ⟨_, _, parseText_eq text, tokenize_eq text, Stored.faithful_stored text,
    Stored.forall₂_postorder text⟩

end PvsIndex.Checked
