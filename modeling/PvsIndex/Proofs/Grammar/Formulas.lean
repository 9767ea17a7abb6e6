import PvsIndex.Proofs.Grammar.Grouping
import PvsIndex.Proofs.Grammar.Rereading

/-! Formulas: in the tree of a text, expressions are grouped as their operators ask for, and a
formula that states a grouped expression is read as that expression. -/

namespace PvsIndex

namespace Tree

/-- The declaration states the expression. -/
inductive States (e : Tree) : Tree → Prop where
  | formula {n c w} (hn : n.kind = .identifier) (hc : c.kind = .colon) (hw : w.kind = .formulaKw) :
      States e (.node .formulaDecl [.node .identifier [.leaf n], .leaf c, .leaf w, e])

/-- The theory consists of these declarations. -/
inductive Consists (ds : List Tree) : Tree → Prop where
  | theory {n c t b l m} (hn : n.kind = .identifier) (hc : c.kind = .colon)
      (ht : t.kind = .theoryKw) (hb : b.kind = .beginKw) (hl : l.kind = .endKw)
      (hm : m.kind = .identifier) : Consists ds (.node .theory
        (.node .identifier [.leaf n] :: .leaf c :: .leaf t :: .leaf b ::
          (ds ++ [.leaf l, .leaf m])))

/-- The declaration states an expression that is grouped. -/
def IsFormula (d : Tree) : Prop :=
  ∃ e : Tree, e.IsExpression ∧ e.Grouped ∧ e.States d

end Tree

open PvsIndex.Tree

variable {d : Tree} {ds : List Tree} {rest : List Token}

namespace Tree.IsFormula

theorem leaves_append (n c w : Token) (e : Tree) (rest : List Token) :
    (node .formulaDecl [.node .identifier [.leaf n], .leaf c, .leaf w, e]).leaves ++ rest =
      n :: c :: w :: (e.leaves ++ rest) := by
  simp [leaves, leavesOf]

theorem nextKind_eq (h : d.IsFormula) (rest : List Token) :
    nextKind (d.leaves ++ rest) = .identifier := by
  obtain ⟨e, -, -, ⟨hn, -, -⟩⟩ := h
  exact hn

theorem parses (h : d.IsFormula) (hr : nextKind rest ∉ Ending.closed.continues Grammar.layers) :
    Parses (.rule Grammar.formulaDeclaration) (d.leaves ++ rest) [d] rest := by
  obtain ⟨e, hbuilt, hgrouped, ⟨hn, hc, hw⟩⟩ := h
  have he : e.Rereads := Built.rereads hbuilt (List.forall_mem_singleton.mpr hgrouped)
  rw [leaves_append]
  exact .node (.seq (.identifier hn _) (.seq (.expect hc (by decide) _)
    (.seq (.expect hw (by decide) _) (he.parses hr))))

/-- The words of a formula tell it apart from other declarations. -/
theorem declarationAhead_eq (h : d.IsFormula) (rest : List Token) :
    declarationAhead (d.leaves ++ rest) = .formulaDecl := by
  obtain ⟨e, -, -, @⟨n, c, w, hn, hc, hw⟩⟩ := h
  have hnames : afterNames (c :: w :: (e.leaves ++ rest)) = c :: w :: (e.leaves ++ rest) :=
    afterNames_of_ne_comma (by simp [hc])
  rw [leaves_append, declarationAhead]
  simp [hnames, hc, hw, secondKind]

theorem part (h : d.IsFormula) (hr : nextKind rest ∉ Ending.closed.continues Grammar.layers) :
    Parses (.rule Grammar.part) (d.leaves ++ rest) [d] rest := by
  have hname := h.nextKind_eq rest
  have hahead := h.declarationAhead_eq rest
  refine Parses.switch_iff.mpr ?_
  rw [hname]
  exact .no hname (by simp [Lookahead.holds, hahead])
    (.yes hname (by simp [Lookahead.holds, hahead]) (h.parses hr))

end Tree.IsFormula

theorem Parses.formulas (h : ∀ d ∈ ds, d.IsFormula) {l : Token} (hl : l.kind = .endKw)
    (rest : List Token) :
    Parses (.rule (.loop (.past [.endKw, .eof]) Grammar.part)) (leavesOf ds ++ l :: rest) ds
        (l :: rest) ∧
      nextKind (leavesOf ds ++ l :: rest) ∉ Ending.closed.continues Grammar.layers := by
  induction ds with
  | nil =>
    refine ⟨.finish (by simp [leavesOf, Lookahead.holds, hl]), ?_⟩
    rw [leavesOf, List.nil_append, nextKind_cons, hl]
    decide
  | cons d ds ih =>
    obtain ⟨hd, hds⟩ := List.forall_mem_cons.mp h
    obtain ⟨hp, hnext⟩ := ih hds
    have hname := hd.nextKind_eq (leavesOf ds ++ l :: rest)
    have hpart := hd.part hnext
    have hlength := hpart.length_lt (List.mem_singleton.mpr hname) (by decide +kernel)
    rw [leavesOf, List.append_assoc]
    exact ⟨.turn (by simp [Lookahead.holds, hname]) hlength hpart hp, by rw [hname]; decide⟩

/-- A theory of formulas is read back, up to the end of the text. -/
theorem Parses.theory_of_consists {theory : Tree} (h : Consists ds theory)
    (hds : ∀ d ∈ ds, d.IsFormula) :
    Parses (.rule Grammar.theory) theory.leaves [theory] [] := by
  obtain @⟨n, c, t, b, l, m, hn, hc, ht, hb, hl, hm⟩ := h
  have hleaves : (Tree.node .theory (.node .identifier [.leaf n] :: .leaf c :: .leaf t :: .leaf b ::
      (ds ++ [.leaf l, .leaf m]))).leaves = n :: c :: t :: b :: (leavesOf ds ++ [l, m]) := by
    simp [Tree.leaves, leavesOf]
  rw [hleaves]
  obtain ⟨hformulas, -⟩ := Parses.formulas hds hl [m]
  have hnone : nextKind (c :: t :: b :: (leavesOf ds ++ [l, m])) ∉ [.openBracket] := by simp [hc]
  have hnone' : nextKind (b :: (leavesOf ds ++ [l, m])) ∉ [.exportingKw] := by simp [hb]
  exact .node (.seq (.identifier hn _) (.seq (.option_none hnone)
    (.seq (.expect hc (by decide) _) (.seq (.expect ht (by decide) _) (.seq (.option_none hnone')
      (.seq (.expect hb (by decide) _) (.seq hformulas (.seq (.expect hl (by decide) _)
        (.expect hm (by decide) _)))))))))

theorem Parses.theories_of_consists {theory : Tree} (h : Consists ds theory)
    (hds : ∀ d ∈ ds, d.IsFormula) :
    Parses (.rule Grammar.theories) theory.leaves [theory] [] := by
  have hname : nextKind theory.leaves = .identifier := by
    obtain ⟨hn⟩ := h
    exact hn
  have hp := Parses.theory_of_consists h hds
  have hlength := hp.length_lt (List.mem_singleton.mpr hname) (by decide +kernel)
  have honce : Parses (.rule (.branch (.next [.identifier]) Grammar.theory
      (.report (.extraneous [.eof, .identifier]) >> .skip))) theory.leaves [theory] [] :=
    .yes trivial (by simp [Lookahead.holds, hname]) hp
  have hdone : (Lookahead.past [.eof]).holds [] = false := by decide
  exact .no trivial (by simp [Lookahead.holds, hname])
    (.turn (by simp [Lookahead.holds, hname]) hlength honce (.finish hdone))

theorem Tree.IsFormula.run_eq (h : d.IsFormula) (endOfText : Token) {bound : Nat}
    (hb : (d.leaves ++ rest).length ≤ bound)
    (hr : nextKind rest ∉ Ending.closed.continues Grammar.layers) :
    Grammar.formulaDeclaration.run (Nonterminal.run endOfText bound) endOfText (bound + 1)
      ⟨d.leaves ++ rest, false⟩ = ⟨[d], [], ⟨rest, false⟩⟩ := by
  have hflow : (Grammar.formulaDeclaration.flow ⟨.ofNext [.identifier], false⟩).isSome = true := by
    decide +kernel
  obtain ⟨g, hg⟩ := Option.isSome_iff_exists.mp hflow
  have hname := List.mem_singleton.mpr (h.nextKind_eq rest)
  obtain ⟨hreads, -⟩ := Rule.run_reads (Nonterminal.run_enters endOfText bound)
    Grammar.formulaDeclaration (c := ⟨d.leaves ++ rest, false⟩) hb hg
    ⟨Ahead.holds_ofNext.mpr hname, le_rfl, by simp⟩
  exact hreads.unique ((h.parses hr).reads endOfText)

/-- A grouped expression is the only one with its tokens. -/
theorem Tree.Grouped.eq_of_leaves_eq {e e' : Tree} (he : e.IsExpression) (hg : e.Grouped)
    (he' : e'.IsExpression) (hg' : e'.Grouped) (h : e.leaves = e'.leaves) : e = e' := by
  have reads {e : Tree} (he : e.IsExpression) (hg : e.Grouped) :
      Reads default (.read Grammar.expression ⟨e.leaves ++ [], false⟩) ⟨[e], [], ⟨[], false⟩⟩ := by
    have hrereads : e.Rereads := Built.rereads he (List.forall_mem_singleton.mpr hg)
    have hend : nextKind [] ∉ Ending.closed.continues Grammar.layers := by decide
    exact (hrereads.parses hend).reads default
  have hsame := (h ▸ reads he hg).unique (reads he' hg')
  exact List.singleton_inj.mp (congrArg Step.trees hsame)

namespace Parse

theorem ofText_consists {text : String} {theory : Tree} (h : Consists ds theory)
    (hds : ∀ d ∈ ds, d.IsFormula) (htext : (Tokens.ofText text).significant = theory.leaves) :
    (ofText text).errors = [] ∧
      (ofText text).root = ⟨.root, [theory, .leaf (Tokens.ofText text).endOfText]⟩ := by
  obtain ⟨s, herrors, hroot, hs⟩ := reads text
  rw [htext] at hs
  obtain rfl := hs.unique ((Parses.theories_of_consists h hds).reads _)
  exact ⟨herrors, hroot⟩

/-- Expressions are grouped as their operators ask for. In the tree of a text without errors all
of them are; a theory that states grouped expressions is read as it stands, as is every formula
among other declarations; and no other grouped expression has the same tokens. -/
theorem groups_by_precedence :
    (∀ text, (ofText text).errors = [] → (ofText text).tree.Grouped) ∧
      (∀ ds theory text, (∀ d ∈ ds, IsFormula d) → Consists ds theory →
        (Tokens.ofText text).significant = theory.leaves → (ofText text).errors = [] ∧
          (ofText text).root = ⟨.root, [theory, .leaf (Tokens.ofText text).endOfText]⟩) ∧
      (∀ d rest endOfText bound, IsFormula d → (d.leaves ++ rest).length ≤ bound →
        nextKind rest ∉ Ending.closed.continues Grammar.layers →
        Grammar.formulaDeclaration.run (Nonterminal.run endOfText bound) endOfText (bound + 1)
          ⟨d.leaves ++ rest, false⟩ = ⟨[d], [], ⟨rest, false⟩⟩) ∧
      ∀ e e', IsExpression e → e.Grouped → IsExpression e' → e'.Grouped → e.leaves = e'.leaves →
        e = e' :=
  ⟨fun _ => grouped, fun _ _ _ hds h htext => ofText_consists h hds htext,
    fun _ _ endOfText _ h hb hr => h.run_eq endOfText hb hr,
    fun _ _ he hg he' hg' h => hg.eq_of_leaves_eq he he' hg' h⟩

/-- A product is an operand of a sum. -/
theorem groups_by_precedence_sum :
    let text := "t: THEORY BEGIN f: LEMMA a + b * c END t"
    ∃ a plus b times c d theory,
      States (.node .binaryExpr [.node .nameExpr [.leaf a], .leaf plus,
        .node .binaryExpr [.node .nameExpr [.leaf b], .leaf times, .node .nameExpr [.leaf c]]]) d ∧
      IsFormula d ∧ Consists [d] theory ∧ (Tokens.ofText text).significant = theory.leaves ∧
      (ofText text).errors = [] ∧
      (ofText text).root = ⟨.root, [theory, .leaf (Tokens.ofText text).endOfText]⟩ := by
  intro text
  have hkinds : kindsOf (Tokens.ofText text).significant =
      [.identifier, .colon, .theoryKw, .beginKw, .identifier, .colon, .formulaKw, .identifier,
        .plus, .identifier, .star, .identifier, .endKw, .identifier] := by decide +kernel
  clear_value text
  simp only [kindsOf, List.map_eq_cons_iff, List.map_eq_nil_iff] at hkinds
  obtain ⟨n, _, htext, hn, t1, _, rfl, h1, t2, _, rfl, h2, t3, _, rfl, h3, t4, _, rfl, h4, t5, _,
    rfl, h5, t6, _, rfl, h6, a, _, rfl, ha, plus, _, rfl, hplus, b, _, rfl, hb, times, _, rfl,
    htimes, c, _, rfl, hc, l, _, rfl, hl, m, _, rfl, hm, rfl⟩ := hkinds
  have hword {t : Token} (ht : t.kind = .identifier) : IsExpression (.node .nameExpr [.leaf t]) :=
    .word (by rw [ht]; decide)
  have hgrouped (t : Token) : (Tree.node .nameExpr [.leaf t]).Grouped :=
    .node trivial (List.forall_mem_singleton.mpr .leaf)
  have hplus : plus.kind.binaryLevel? = some 7 := by rw [hplus]; rfl
  have htimes : times.kind.binaryLevel? = some 8 := by rw [htimes]; rfl
  have hproduct := (hgrouped b).binary (hgrouped c) ⟨rfl, rfl⟩ htimes (Nat.le_add_left 8 3)
    (Nat.le_add_left 9 2) rfl
  have hsum := (hgrouped a).binary hproduct ⟨rfl, rfl⟩ hplus (Nat.le_add_left 7 4)
    (level_binary htimes).ge rfl
  have hbuilt := Built.binary (hword ha) hplus (.binary (hword hb) htimes (hword hc))
  have hformula : IsFormula _ := ⟨_, hbuilt, hsum, .formula h4 h5 h6⟩
  obtain ⟨-, hread, -⟩ := groups_by_precedence
  refine ⟨a, plus, b, times, c, _, _, .formula h4 h5 h6, hformula, .theory hn h1 h2 h3 hl hm,
    htext, ?_⟩
  exact hread _ _ _ (List.forall_mem_singleton.mpr hformula) (.theory hn h1 h2 h3 hl hm) htext

end Parse

end PvsIndex
