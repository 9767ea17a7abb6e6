import PvsIndex.Proofs.Checked.Parser
import PvsIndex.Proofs.Grammar.Correctness
import PvsIndex.Proofs.Lists

/-! No check fails while a text is parsed, and what is stored is its tree. -/

namespace PvsIndex

namespace Tokens

def id (ts : Tokens) (t : Token) : Nat :=
  ts.toList.idxOf t

variable (text : String)

theorem pairwise_startIndex : (ofText text).toList.Pairwise fun t u =>
    t.startIndex < u.startIndex := by
  obtain ⟨hfits, hbefore, hend⟩ := ofText_spec text
  rw [toList, List.pairwise_append]
  refine ⟨hbefore.imp_of_mem fun {t u} ht _ hb => ?_, List.pairwise_singleton _ _,
    fun t ht u hu => ?_⟩
  · have hpos := (hfits t ht).length_pos
    unfold Token.Before at hb
    omega
  · have hpos := (hfits t ht).length_pos
    have hstop := (hfits t ht).stop_le
    rw [List.mem_singleton.mp hu, hend, endToken]
    dsimp only
    omega

theorem nodup_toList : (ofText text).toList.Nodup :=
  (pairwise_startIndex text).imp fun hlt he => by
    rw [he] at hlt
    exact Nat.lt_irrefl _ hlt

theorem significant_sublist :
    ((ofText text).significant ++ [(ofText text).endOfText]).Sublist (ofText text).toList :=
  List.filter_sublist.append_right _

theorem endOfText_kind : (ofText text).endOfText.kind = .eof := by
  rw [(ofText_spec text).2.2]
  rfl

variable {text}

theorem getElem?_id {t : Token} (h : t ∈ (ofText text).toList) :
    (ofText text).toList[(ofText text).id t]? = some t :=
  List.getElem?_idxOf h

theorem id_le_of_sublist {ts : List Token} {t u : Token} (hs : ts.Sublist (ofText text).toList)
    (ht : ts.head? = some t) (hu : ts.getLast? = some u) :
    (ofText text).id t ≤ (ofText text).id u := by
  have hget := getElem?_id (hs.subset (List.mem_of_mem_head? ht))
  have hget' := getElem?_id (hs.subset (List.mem_of_getLast? hu))
  obtain ⟨hlt, hi⟩ := List.getElem?_eq_some_iff.mp hget
  obtain ⟨hlt', hj⟩ := List.getElem?_eq_some_iff.mp hget'
  have hle : t.startIndex ≤ u.startIndex := by
    obtain ⟨ts, rfl⟩ := List.head?_eq_some_iff.mp ht
    rcases List.mem_cons.mp (List.mem_of_getLast? hu) with rfl | hmem
    · exact Nat.le_refl _
    · exact Nat.le_of_lt ((List.pairwise_cons.mp ((pairwise_startIndex text).sublist hs)).1 u hmem)
  by_contra hid
  have hbefore := List.pairwise_iff_getElem.mp (pairwise_startIndex text) _ _ hlt' hlt
    (Nat.lt_of_not_le hid)
  rw [hi, hj] at hbefore
  exact Nat.not_le_of_lt hbefore hle

theorem significant_subset : (ofText text).significant ⊆ (ofText text).toList :=
  fun _ h => List.mem_append_left _ (List.mem_of_mem_filter h)

theorem endOfText_mem : (ofText text).endOfText ∈ (ofText text).toList :=
  List.mem_append_right _ List.mem_cons_self

theorem id_endOfText (text : String) :
    (ofText text).id (ofText text).endOfText = (ofText text).toList.length - 1 := by
  have hnot : (ofText text).endOfText ∉ (ofText text).lexemes := fun hmem =>
    ((ofText_spec text).1 _ hmem).kind_ne (endOfText_kind text)
  rw [id, toList, List.idxOf_append_of_notMem hnot, List.idxOf_cons_self, List.length_append,
    List.length_singleton, Nat.add_sub_cancel, Nat.add_zero]

end Tokens

theorem Tokens.filter_zipIdx (text : String) :
    ((ofText text).toList.zipIdx.filter (!·.1.kind.isTrivia)).map (·.2) =
      ((ofText text).significant ++ [(ofText text).endOfText]).map (ofText text).id := by
  have hfilter : (ofText text).toList.filter (!·.kind.isTrivia) =
      (ofText text).significant ++ [(ofText text).endOfText] := by
    have htrivia : (ofText text).endOfText.kind.isTrivia = false := by
      rw [endOfText_kind]
      rfl
    rw [toList, List.filter_append, significant]
    simp [htrivia]
  rw [List.zipIdx_eq_map_idxOf (nodup_toList text), List.filter_map, List.map_map, ← hfilter]
  rfl

namespace Checked.Parser

open PvsIndex.Tree

/-- After some trees were built, with some tokens left. -/
def after (text : String) (forest : List Tree) (c : Cursor) (errors : List SyntaxError) : Parser :=
  let ts := Tokens.ofText text
  { tokens := ts.toList
    significant := (ts.significant ++ [ts.endOfText]).map ts.id
    current := ts.significant.length - c.input.length
    recovering := c.recovering
    stack := nodesAt ts.id 0 forest
    cells := cellsOf ts.id 0 none forest
    errors }

variable {text : String} {forest children : List Tree} {c : Cursor} {errors : List SyntaxError}

theorem ofTokens_eq (text : String) : ofTokens (Tokens.ofText text).toList =
    pure (after text [] ⟨(Tokens.ofText text).significant, false⟩ []) := by
  have hend : ((((Tokens.ofText text).significant ++ [(Tokens.ofText text).endOfText]).map
      (Tokens.ofText text).id).getLast?.bind ((Tokens.ofText text).toList[·]?)).map (·.kind) =
        some .eof := by
    simp [Tokens.getElem?_id Tokens.endOfText_mem, Tokens.endOfText_kind]
  rw [ofTokens, Tokens.filter_zipIdx, require_of hend, pure_bind]
  simp [after]

section

variable (hc : c.input <:+ (Tokens.ofText text).significant)

include hc

theorem nthToken_after (offset : Nat) :
    (after text forest c errors).nthToken offset =
      pure ((Tokens.ofText text).id
        ((c.input.drop offset).headD (Tokens.ofText text).endOfText)) := by
  obtain ⟨passed, hsplit⟩ := hc
  have hlength : (Tokens.ofText text).significant.length = passed.length + c.input.length := by
    rw [← hsplit, List.length_append]
  have hpos : 0 < (after text forest c errors).significant.length := by
    simp [after]
  have hget : (after text forest c errors).significant[
      min ((after text forest c errors).current + offset)
        ((after text forest c errors).significant.length - 1)]? =
      some ((Tokens.ofText text).id
        ((c.input.drop offset).headD (Tokens.ofText text).endOfText)) := by
    simp only [after, List.length_map, List.length_append, List.length_singleton,
      Nat.add_sub_cancel, hlength, List.getElem?_map]
    rw [← hsplit, List.append_assoc, List.headD_eq_head?_getD, List.head?_drop]
    by_cases hoffset : offset < c.input.length
    · rw [Nat.min_eq_left (by omega), List.getElem?_append_right (by omega),
        Nat.add_sub_cancel_left, List.getElem?_append_left hoffset]
      simp [List.getElem?_eq_getElem hoffset]
    · rw [Nat.min_eq_right (by omega), List.getElem?_append_right (by omega),
        Nat.add_sub_cancel_left, List.getElem?_append_right (Nat.le_refl _), Nat.sub_self,
        List.getElem?_eq_none (Nat.le_of_not_lt hoffset)]
      rfl
  rw [nthToken, require_of hpos, pure_bind, demand_of hget]

theorem nthData_after (offset : Nat) :
    (after text forest c errors).nthData offset =
      pure ((c.input.drop offset).headD (Tokens.ofText text).endOfText) := by
  have hmem : (c.input.drop offset).headD (Tokens.ofText text).endOfText ∈
      (Tokens.ofText text).toList := by
    cases hdrop : c.input.drop offset with
    | nil => exact Tokens.endOfText_mem
    | cons t input =>
      have ht : t ∈ c.input := List.mem_of_mem_drop (hdrop ▸ List.mem_cons_self)
      exact Tokens.significant_subset (hc.subset ht)
  rw [nthData, nthToken_after hc, pure_bind]
  exact demand_of (Tokens.getElem?_id hmem)

theorem nth_after (offset : Nat) :
    (after text forest c errors).nth offset =
      pure (nextKind (c.input.drop offset)) := by
  have hkind : ((c.input.drop offset).headD (Tokens.ofText text).endOfText).kind =
      nextKind (c.input.drop offset) := by
    cases c.input.drop offset with
    | nil => exact Tokens.endOfText_kind text
    | cons => rfl
  rw [nth, nthData_after hc, pure_bind, hkind]

theorem next_after :
    (after text forest c errors).next = pure (nextKind c.input) :=
  nth_after hc 0

end

theorem push_leaf (t : Token) :
    (after text forest c errors).push (.token ((Tokens.ofText text).id t)) =
      after text (forest ++ [.leaf t]) c errors := by
  simp [push, after, nodesAt_append, cellsOf_append, nodeAt]

variable {t : Token} {input : List Token} {recovering : Bool}

theorem pass_after (hc : t :: input <:+ (Tokens.ofText text).significant) :
    (after text forest ⟨t :: input, recovering⟩ errors).pass =
      after text forest ⟨input, recovering⟩ errors := by
  have hle := hc.length_le
  rw [List.length_cons] at hle
  have hcurrent : (Tokens.ofText text).significant.length - (input.length + 1) + 1 =
      (Tokens.ofText text).significant.length - input.length := by
    omega
  simp only [pass, after, List.length_cons, hcurrent]

theorem advance_after (hc : t :: input <:+ (Tokens.ofText text).significant) :
    (after text forest ⟨t :: input, recovering⟩ errors).advance =
      pure (after text (forest ++ [.leaf t]) ⟨input, recovering⟩ errors) := by
  have hkind : nextKind (t :: input) ≠ .eof :=
    Parse.kind_ne_eof_of_mem_significant (hc.subset List.mem_cons_self)
  rw [advance, next_after hc, pure_bind, require_of hkind, pure_bind, nthToken_after hc, pure_bind,
    pass_after hc]
  exact congrArg pure (push_leaf t)

theorem bump_after (hc : c.input <:+ (Tokens.ofText text).significant)
    (h : nextKind c.input ≠ .eof) :
    (after text forest c errors).bump =
      pure (after text (forest ++ c.take.trees) c.take.cursor errors) := by
  obtain ⟨input, recovering⟩ := c
  cases input with
  | nil => exact absurd rfl h
  | cons t input => exact @advance_after text forest errors t input false hc

theorem skip_after (hc : c.input <:+ (Tokens.ofText text).significant) :
    (after text forest c errors).skip =
      pure (after text (forest ++ c.skip.trees) c.skip.cursor errors) := by
  obtain ⟨input, recovering⟩ := c
  rw [skip, next_after hc, pure_bind]
  cases input with
  | nil =>
    rw [if_neg (by simp [nextKind])]
    simp [Cursor.skip, Step.stay]
  | cons t input =>
    have hkind : nextKind (t :: input) ≠ .eof :=
      Parse.kind_ne_eof_of_mem_significant (hc.subset List.mem_cons_self)
    rw [if_pos hkind]
    exact advance_after hc

theorem report_after (hc : c.input <:+ (Tokens.ofText text).significant) (complaint : Complaint) :
    (after text forest c errors).report complaint =
      pure (after text forest (c.report (Tokens.ofText text).endOfText complaint).cursor
        (errors ++ (c.report (Tokens.ofText text).endOfText complaint).errors)) := by
  obtain ⟨input, recovering⟩ := c
  cases recovering with
  | true =>
    have hrecovering : (after text forest ⟨input, true⟩ errors).recovering = true := rfl
    rw [report, if_pos hrecovering]
    simp [Cursor.report, Step.stay]
  | false =>
    have hrecovering : (after text forest ⟨input, false⟩ errors).recovering = false := rfl
    rw [report, if_neg (by rw [hrecovering]; exact Bool.false_ne_true), nthData_after hc, pure_bind]
    rfl

theorem depth_after : (after text forest c errors).depth = forest.length := by
  simp [depth, after]

/-- What was built since the start becomes one element. -/
theorem endElement_after (kind : ElementKind) :
    (after text (forest ++ children) c errors).endElement kind forest.length =
      pure (⟨forest.length, countOf forest + countOf children⟩,
        after text (forest ++ [.node kind children]) c errors) := by
  have hle : forest.length ≤ (after text (forest ++ children) c errors).stack.length := by
    simp [after]
  have hstack : (after text (forest ++ children) c errors).stack =
      nodesAt (Tokens.ofText text).id 0 forest ++
        nodesAt (Tokens.ofText text).id (countOf forest) children := by
    simp [after, nodesAt_append]
  have hdrop : (after text (forest ++ children) c errors).stack.drop forest.length =
      nodesAt (Tokens.ofText text).id (countOf forest) children := by
    rw [hstack]
    exact List.drop_left' (length_nodesAt _ _ _)
  have htake : (after text (forest ++ children) c errors).stack.take forest.length =
      nodesAt (Tokens.ofText text).id 0 forest := by
    rw [hstack]
    exact List.take_left' (length_nodesAt _ _ _)
  have hlength : (after text (forest ++ children) c errors).cells.length =
      countOf forest + countOf children := by
    simp [after, length_cellsOf]
  have halloc : alloc (after text (forest ++ children) c errors).cells kind
      (nodesAt (Tokens.ofText text).id (countOf forest) children) =
        pure (cellsOf (Tokens.ofText text).id 0 none (forest ++ [.node kind children])) :=
    alloc_cells forest children kind
  have hsettle : (after text (forest ++ children) c errors).settle
      (cellsOf (Tokens.ofText text).id 0 none (forest ++ [.node kind children])) forest.length =
        after text (forest ++ [.node kind children]) c errors := by
    simp only [settle, push, htake, hlength]
    simp [after, nodesAt_append, nodeAt]
  rw [endElement, require_of hle, pure_bind, hdrop, halloc, pure_bind, hsettle, hlength]

theorem startParent_after {kind : ElementKind} :
    (after text (forest ++ [.node kind children]) c errors).startParent
      ⟨forest.length, countOf forest + countOf children⟩ = pure forest.length := by
  have hdepth : forest.length + 1 =
      (after text (forest ++ [.node kind children]) c errors).stack.length := by
    simp [after]
  have hlast : (after text (forest ++ [.node kind children]) c errors).stack.getLast? =
      some (.element (countOf forest + countOf children)) := by
    simp [after, nodesAt_append, nodeAt]
  rw [startParent, require_of hdepth, pure_bind, require_of hlast, pure_bind]

end Checked.Parser

end PvsIndex
