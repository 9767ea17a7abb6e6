import PvsIndex.Proofs.Checked.Parsing
import PvsIndex.Proofs.Grammar.Orderly

/-! Every rule that reads to its end is followed on the stack without a breach, and builds the trees
that it reads. -/

namespace PvsIndex

namespace Checked.Parser

open PvsIndex.Tree

variable {text : String} {forest : List Tree} {c : Cursor} {errors : List SyntaxError}

section

variable (hc : c.input <:+ (Tokens.ofText text).significant)

include hc

theorem passNames_after (i : Nat) : ∃ j, (after text forest c errors).passNames i = pure j ∧
    c.input.drop j = afterNames (c.input.drop i) ∧
    (j = i ∨ nextKind (c.input.drop i) = .comma) := by
  induction hrest : c.input.drop i using afterNames.induct generalizing i with
  | case1 comma name rest hpair ih =>
    have hsecond : c.input.drop (i + 1) = name :: rest := by
      rw [← List.drop_drop, hrest, List.drop_one, List.tail_cons]
    have hrest' : c.input.drop (i + 2) = rest := by
      rw [← List.drop_drop, hrest]
      rfl
    obtain ⟨j, hj, hdrop, -⟩ := ih (i + 2) hrest'
    refine ⟨j, ?_, ?_, Or.inr hpair.1⟩
    · rw [passNames, nth_after hc, pure_bind, nth_after hc, pure_bind, hrest, hsecond]
      exact (if_pos hpair).trans hj
    · rw [hdrop, afterNames, if_pos hpair]
  | case2 comma name rest hpair =>
    have hsecond : c.input.drop (i + 1) = name :: rest := by
      rw [← List.drop_drop, hrest, List.drop_one, List.tail_cons]
    refine ⟨i, ?_, ?_, Or.inl rfl⟩
    · rw [passNames, nth_after hc, pure_bind, nth_after hc, pure_bind, hrest, hsecond]
      exact if_neg hpair
    · rw [hrest, afterNames, if_neg hpair]
  | case3 rest hshort =>
    have hsecond : nextKind (c.input.drop (i + 1)) ≠ .identifier := by
      rw [← List.drop_drop, hrest]
      rcases rest with _ | ⟨t, _ | ⟨u, rest⟩⟩
      · simp [nextKind]
      · simp [nextKind]
      · exact (hshort _ _ _ rfl).elim
    refine ⟨i, ?_, ?_, Or.inl rfl⟩
    · rw [passNames, nth_after hc, pure_bind, nth_after hc, pure_bind]
      exact if_neg fun h => hsecond h.2
    · rw [hrest, afterNames]
      exact hshort

theorem declarationAhead_after (h : nextKind c.input = .identifier) :
    (after text forest c errors).declarationAhead = pure (PvsIndex.declarationAhead c.input) := by
  obtain ⟨j, hj, hdrop, hfirst⟩ := @passNames_after text forest c errors hc 1
  have hsecond : nextKind (c.input.drop (j + 1)) = secondKind (c.input.drop j) := by
    rw [secondKind, List.drop_drop]
  rw [declarationAhead, next_after hc, pure_bind, require_of h, pure_bind, hj, pure_bind,
    nth_after hc, pure_bind, nth_after hc, hsecond, hdrop]
  unfold PvsIndex.declarationAhead
  dsimp only
  by_cases hcolon : nextKind (afterNames (c.input.drop 1)) = .colon
  · have hone : j = 1 ↔ nextKind (c.input.drop 1) = .colon := by
      refine ⟨fun he => ?_, fun hc => hfirst.resolve_right fun he => ?_⟩
      · rw [← hcolon, ← hdrop, he]
      · rw [hc] at he
        cases he
    rw [if_neg (not_not.mpr hcolon), if_neg (not_not.mpr hcolon), pure_bind]
    simp only [hone]
    split <;> simp_all
  · rw [if_pos hcolon, if_pos hcolon]

theorem asks_after {test : Lookahead} (h : test.Proper c.input) :
    (after text forest c errors).asks test = pure (test.holds c.input) := by
  cases test with
  | next kinds =>
    rw [asks, next_after hc, pure_bind]
    rfl
  | past kinds =>
    rw [asks, next_after hc, pure_bind]
    rfl
  | pair first second =>
    rw [asks, next_after hc, pure_bind, nth_after hc, pure_bind]
    rfl
  | beyond kind =>
    rw [asks, next_after hc, pure_bind, nth_after hc, pure_bind]
    rfl
  | declares kind =>
    rw [asks, declarationAhead_after hc h, pure_bind]
    rfl

end

/-- What a rule says of the element that it has read, if it has read one. -/
def Marks (forest trees : List Tree) : Option Completed → Prop
  | none => trees = []
  | some e => ∃ kind children, trees = [.node kind children] ∧
      e = ⟨forest.length, countOf forest + countOf children⟩

/-- On the stack, the task comes to the same trees, errors and tokens left. -/
def Follows (text : String) (s : Step) : Task → Prop
  | .read r c => r.orderly = true → c.input <:+ (Tokens.ofText text).significant →
      ∀ (forest : List Tree) (errors : List SyntaxError), ∃ e,
        (after text forest c errors).follow r =
          pure (e, after text (forest ++ s.trees) s.cursor (errors ++ s.errors)) ∧
        (r.single = true → Marks forest s.trees e)
  | .grow kind test tail t => tail.orderly = true → test.near = true →
      t.cursor.input <:+ (Tokens.ofText text).significant →
      ∀ (forest : List Tree) (errors : List SyntaxError) (k : ElementKind) (children : List Tree),
        t.trees = [.node k children] → ∃ e,
          grow kind test tail ⟨forest.length, countOf forest + countOf children⟩
              (after text (forest ++ t.trees) t.cursor (errors ++ t.errors)) =
            pure (e, after text (forest ++ s.trees) s.cursor (errors ++ s.errors)) ∧
          Marks forest s.trees e

variable {task : Task} {s : Step}

/-- What is read is followed on the stack. -/
theorem follows_of_reads (h : Reads (Tokens.ofText text).endOfText task s) :
    Follows text s task := by
  induction h with
  | @empty c =>
    intro _ _ forest errors
    refine ⟨none, ?_, fun _ => rfl⟩
    rw [follow]
    simp
  | @take c hk =>
    intro _ hc forest errors
    refine ⟨none, ?_, fun hs => absurd hs Bool.false_ne_true⟩
    have hnil : c.take.errors = [] := by
      obtain ⟨input, recovering⟩ := c
      cases input <;> rfl
    rw [follow, bump_after hc hk, pure_bind, hnil, List.append_nil]
  | @skip c =>
    intro _ hc forest errors
    refine ⟨none, ?_, fun hs => absurd hs Bool.false_ne_true⟩
    have hnil : c.skip.errors = [] := by
      obtain ⟨input, recovering⟩ := c
      cases input <;> rfl
    rw [follow, skip_after hc, pure_bind, hnil, List.append_nil]
  | @report c complaint =>
    intro _ hc forest errors
    have hnil : (c.report (Tokens.ofText text).endOfText complaint).trees = [] := by
      unfold Cursor.report
      split <;> rfl
    refine ⟨none, ?_, fun _ => hnil⟩
    rw [follow, report_after hc, pure_bind, hnil, List.append_nil]
  | @seq first second c s t head next ih1 ih2 =>
    intro ho hc forest errors
    obtain ⟨ho1, ho2⟩ := Bool.and_eq_true_iff.mp ho
    obtain ⟨e1, h1, -⟩ := ih1 ho1 hc forest errors
    obtain ⟨e2, h2, -⟩ := ih2 ho2 (head.input_suffix.trans hc) (forest ++ s.trees)
      (errors ++ s.errors)
    refine ⟨none, ?_, fun hs => absurd hs Bool.false_ne_true⟩
    rw [follow, h1, pure_bind]
    dsimp only
    rw [h2, pure_bind, List.append_assoc, List.append_assoc]
    rfl
  | @yes test yes no c s hp ht _ ih =>
    intro ho hc forest errors
    obtain ⟨ho1, -⟩ := Bool.and_eq_true_iff.mp ho
    obtain ⟨e, h1, hm⟩ := ih ho1 hc forest errors
    refine ⟨e, ?_, fun hs => hm (Bool.and_eq_true_iff.mp hs).1⟩
    rw [follow, asks_after hc hp, pure_bind, if_pos ht, h1]
  | @no test yes no c s hp ht _ ih =>
    intro ho hc forest errors
    obtain ⟨-, ho2⟩ := Bool.and_eq_true_iff.mp ho
    obtain ⟨e, h1, hm⟩ := ih ho2 hc forest errors
    refine ⟨e, ?_, fun hs => hm (Bool.and_eq_true_iff.mp hs).2⟩
    rw [follow, asks_after hc hp, pure_bind, if_neg (Bool.eq_false_iff.mp ht), h1]
  | @finish test body c ht =>
    intro ho hc forest errors
    obtain ⟨hn, -⟩ := Bool.and_eq_true_iff.mp ho
    refine ⟨none, ?_, fun hs => absurd hs Bool.false_ne_true⟩
    rw [follow, asks_after hc (Lookahead.proper_of_near hn _), pure_bind,
      if_neg (Bool.eq_false_iff.mp ht)]
    simp
  | @turn test body c s t ht _ once _ ih1 ih2 =>
    intro ho hc forest errors
    obtain ⟨hn, ho1⟩ := Bool.and_eq_true_iff.mp ho
    obtain ⟨e1, h1, -⟩ := ih1 ho1 hc forest errors
    obtain ⟨e2, h2, -⟩ := ih2 ho (once.input_suffix.trans hc) (forest ++ s.trees)
      (errors ++ s.errors)
    refine ⟨e2, ?_, fun hs => absurd hs Bool.false_ne_true⟩
    rw [follow, asks_after hc (Lookahead.proper_of_near hn _), pure_bind, if_pos ht, h1, pure_bind]
    dsimp only
    rw [h2, List.append_assoc, List.append_assoc]
    rfl
  | @node kind body c s _ ih =>
    intro ho hc forest errors
    obtain ⟨e, h1, -⟩ := ih ho hc forest errors
    refine ⟨some ⟨forest.length, countOf forest + countOf s.trees⟩, ?_,
      fun _ => ⟨kind, s.trees, rfl, rfl⟩⟩
    rw [follow, depth_after]
    dsimp only
    rw [h1, pure_bind]
    dsimp only
    rw [endElement_after, pure_bind]
    rfl
  | @nodeBy opening test yes no closing c s t opened _ ih1 ih2 =>
    intro ho hc forest errors
    obtain ⟨hn, ho⟩ := Bool.and_eq_true_iff.mp ho
    obtain ⟨ho1, ho2⟩ := Bool.and_eq_true_iff.mp ho
    have hmid := opened.input_suffix.trans hc
    obtain ⟨e1, h1, -⟩ := ih1 ho1 hc forest errors
    obtain ⟨e2, h2, -⟩ := ih2 ho2 hmid (forest ++ s.trees) (errors ++ s.errors)
    refine ⟨some ⟨forest.length, countOf forest + countOf (s.trees ++ t.trees)⟩, ?_,
      fun _ => ⟨_, s.trees ++ t.trees, rfl, rfl⟩⟩
    rw [follow, depth_after]
    dsimp only
    rw [h1, pure_bind]
    dsimp only
    rw [asks_after hmid (Lookahead.proper_of_near hn _), pure_bind, h2, pure_bind]
    dsimp only
    rw [List.append_assoc, endElement_after, pure_bind, List.append_assoc]
    rfl
  | @headless kind head test tail c s _ hnil ih =>
    intro ho hc forest errors
    obtain ⟨hs, ho⟩ := Bool.and_eq_true_iff.mp ho
    obtain ⟨hs, -⟩ := Bool.and_eq_true_iff.mp hs
    obtain ⟨ho1, -⟩ := Bool.and_eq_true_iff.mp ho
    obtain ⟨e, h1, hm⟩ := ih ho1 hc forest errors
    cases e with
    | none =>
      refine ⟨none, ?_, fun _ => hnil⟩
      rw [follow, h1, pure_bind]
    | some e =>
      obtain ⟨k, children, htrees, -⟩ := hm hs
      rw [hnil] at htrees
      cases htrees
  | @chain kind head test tail c s t first hne _ ih1 ih2 =>
    intro ho hc forest errors
    obtain ⟨hs, ho⟩ := Bool.and_eq_true_iff.mp ho
    obtain ⟨hs, hn⟩ := Bool.and_eq_true_iff.mp hs
    obtain ⟨ho1, ho2⟩ := Bool.and_eq_true_iff.mp ho
    obtain ⟨e, h1, hm⟩ := ih1 ho1 hc forest errors
    cases e with
    | none => exact absurd (hm hs) hne
    | some e =>
      obtain ⟨k, children, htrees, rfl⟩ := hm hs
      obtain ⟨e, h2, hm⟩ := ih2 ho2 hn (first.input_suffix.trans hc) forest errors k children htrees
      refine ⟨e, ?_, fun _ => hm⟩
      rw [follow, h1, pure_bind]
      exact h2
  | @grown kind test tail s ht =>
    intro _ hn hc forest errors k children htrees
    refine ⟨some ⟨forest.length, countOf forest + countOf children⟩, ?_, k, children, htrees, rfl⟩
    rw [grow, asks_after hc (Lookahead.proper_of_near hn _), pure_bind,
      if_neg (Bool.eq_false_iff.mp ht)]
  | @link kind test tail s t u ht _ once _ ih1 ih2 =>
    intro ho hn hc forest errors k children htrees
    obtain ⟨e1, h1, -⟩ := ih1 ho hc (forest ++ s.trees) (errors ++ s.errors)
    obtain ⟨e2, h2, hm⟩ := ih2 ho hn (once.input_suffix.trans hc) forest errors kind
      (s.trees ++ t.trees) rfl
    refine ⟨e2, ?_, hm⟩
    rw [grow, asks_after hc (Lookahead.proper_of_near hn _), pure_bind, if_pos ht, htrees,
      startParent_after, pure_bind, ← htrees, h1, pure_bind]
    dsimp only
    rw [List.append_assoc, endElement_after, pure_bind, List.append_assoc]
    exact h2
  | @call name c s known _ _ ih =>
    intro _ hc forest errors
    obtain ⟨hs, ho⟩ := Nonterminal.single_orderly known
    obtain ⟨e, h1, hm⟩ := ih ho hc forest errors
    refine ⟨e, ?_, fun _ => hm hs⟩
    rw [follow, h1]

end Checked.Parser

namespace Reads

variable {endOfText : Token} {c : Cursor} {s : Step}

theorem loop_done {test : Lookahead} {body : Rule}
    (h : Reads endOfText (.read (.loop test body) c) s) : test.holds s.cursor.input = false := by
  generalize htask : Task.read (.loop test body) c = task at h
  induction h generalizing c with
  | finish ht =>
    obtain ⟨hr, rfl⟩ := Task.read.inj htask
    obtain ⟨rfl, rfl⟩ := Rule.loop.inj hr
    exact ht
  | turn _ _ _ _ _ ih =>
    obtain ⟨hr, -⟩ := Task.read.inj htask
    obtain ⟨rfl, rfl⟩ := Rule.loop.inj hr
    exact ih rfl
  | _ => cases htask

theorem theories_done (h : Reads endOfText (.read Grammar.theories c) s) :
    nextKind s.cursor.input = .eof := by
  rw [Grammar.theories_eq] at h
  cases h with
  | yes _ ht h =>
    cases h with
    | report =>
      rw [Cursor.report_input]
      simpa [Lookahead.holds] using ht
  | no _ _ h => simpa [Lookahead.holds] using h.loop_done

end Reads

namespace Parse

def stored (p : Parse) : Checked.Stored :=
  ⟨p.tokens.toList, p.tree.cells p.tokens.id 0 none, Tree.countOf p.root.children⟩

theorem reads_all (text : String) : ∃ s, (ofText text).errors = s.errors ∧
    (ofText text).root = ⟨.root, s.trees ++ [.leaf (Tokens.ofText text).endOfText]⟩ ∧
    s.cursor.input = [] ∧ Reads (Tokens.ofText text).endOfText
      (.read Grammar.theories ⟨(Tokens.ofText text).significant, false⟩) s := by
  obtain ⟨s, he, hroot, hr⟩ := reads text
  refine ⟨s, he, hroot, ?_, hr⟩
  refine (nextKind_eq_eof fun t ht => ?_).mp hr.theories_done
  exact kind_ne_eof_of_mem_significant (hr.input_suffix.subset ht)

theorem leaves_tree (text : String) : (ofText text).tree.leaves =
    (Tokens.ofText text).significant ++ [(Tokens.ofText text).endOfText] := by
  obtain ⟨s, -, hroot, hend, hr⟩ := reads_all text
  have hleaves := hr.leaves
  rw [hend, List.append_nil] at hleaves
  rw [tree, hroot, Element.tree, Tree.leaves, Tree.leavesOf_append, hleaves]
  rfl

end Parse

namespace Checked

open PvsIndex.Tree in
theorem Parser.finish_after {text : String} {forest : List Tree} {recovering : Bool}
    {errors : List SyntaxError} : (after text forest ⟨[], recovering⟩ errors).finish =
      pure ⟨(Tokens.ofText text).toList,
        (node .root (forest ++ [leaf (Tokens.ofText text).endOfText])).cells
          (Tokens.ofText text).id 0 none, countOf forest⟩ := by
  have hc : (⟨[], recovering⟩ : Cursor).input <:+ (Tokens.ofText text).significant :=
    List.nil_suffix
  have halloc := @alloc_cells (Tokens.ofText text).id []
    (forest ++ [leaf (Tokens.ofText text).endOfText]) .root
  have hcells : cellsOf (Tokens.ofText text).id 0 none
      (forest ++ [leaf (Tokens.ofText text).endOfText]) =
        cellsOf (Tokens.ofText text).id 0 none forest := by
    simp [cellsOf_append]
  have hstack : nodesAt (Tokens.ofText text).id 0
      (forest ++ [leaf (Tokens.ofText text).endOfText]) =
        nodesAt (Tokens.ofText text).id 0 forest ++
          [.token ((Tokens.ofText text).id (Tokens.ofText text).endOfText)] := by
    simp [nodesAt_append, nodeAt]
  rw [List.nil_append, countOf_nil, hcells, hstack, List.nil_append, cellsOf_cons, cellsOf_nil,
    List.append_nil] at halloc
  have hend : nextKind (⟨[], recovering⟩ : Cursor).input = .eof := rfl
  rw [finish, next_after hc, pure_bind, require_of hend, pure_bind, nthToken_after hc, pure_bind]
  simp only [after, List.drop_nil, List.headD_nil, halloc, pure_bind, length_cellsOf]

/-- A text is parsed without a breach: what is stored is its tree. -/
theorem parse_eq (text : String) : parse (Tokens.ofText text).toList =
    pure ((Parse.ofText text).stored, (Parse.ofText text).errors) := by
  obtain ⟨⟨trees, errors, input, recovering⟩, he, hroot, hend, hr⟩ := Parse.reads_all text
  obtain rfl : input = [] := hend
  obtain ⟨e, hfollow, -⟩ :=
    Parser.follows_of_reads hr Grammar.theories_orderly List.suffix_rfl [] []
  rw [parse, Parser.ofTokens_eq, pure_bind, hfollow, pure_bind]
  dsimp only
  rw [List.nil_append, List.nil_append, Parser.finish_after, pure_bind, Parse.stored, he,
    Parse.tree, hroot]
  simp [Element.tree, Parse.ofText, Parser.after]

end Checked

end PvsIndex
