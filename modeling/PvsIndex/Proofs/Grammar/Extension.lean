import PvsIndex.Proofs.Grammar.Correctness
import PvsIndex.Proofs.Grammar.Orderly

/-! What is read of a theory stays when more text follows. Every question on the way is settled by
tokens up to the name at its end. -/

namespace PvsIndex

variable {input rest : List Token} {trees : List Tree} {test : Lookahead}

theorem nextKind_append (h : input ≠ []) (extra : List Token) :
    nextKind (input ++ extra) = nextKind input := by
  obtain ⟨t, input, rfl⟩ := List.exists_cons_of_ne_nil h
  rfl

theorem secondKind_append (h : 2 ≤ input.length) (extra : List Token) :
    secondKind (input ++ extra) = secondKind input := by
  have hne : input.drop 1 ≠ [] := by
    refine List.ne_nil_of_length_pos ?_
    rw [List.length_drop]
    omega
  rw [secondKind, List.drop_append_of_le_length (by omega), nextKind_append hne]
  rfl

/-- Two tokens at least, and the word that ends a theory among them. -/
structure Closing (input : List Token) : Prop where
  two_le : 2 ≤ input.length
  ends : ∃ t ∈ input, t.kind = .endKw

namespace Closing

theorem append (ts : List Token) (h : Closing rest) : Closing (ts ++ rest) where
  two_le := by
    rw [List.length_append]
    exact Nat.le_add_left_of_le h.two_le
  ends := by
    obtain ⟨t, ht, hk⟩ := h.ends
    exact ⟨t, List.mem_append_right _ ht, hk⟩

theorem ne_nil (h : Closing input) : input ≠ [] :=
  List.ne_nil_of_length_pos (Nat.lt_of_lt_of_le Nat.two_pos h.two_le)

end Closing

/-- No list of names goes past the end of a theory. -/
theorem afterNames_append (h : ∃ t ∈ input, t.kind = .endKw) (extra : List Token) :
    afterNames (input ++ extra) = afterNames input ++ extra ∧
      ∃ t ∈ afterNames input, t.kind = .endKw := by
  induction input using afterNames.induct with
  | case1 comma name rest hpair ih =>
    have hrest : ∃ t ∈ rest, t.kind = .endKw := by
      obtain ⟨t, ht, hk⟩ := h
      rcases List.mem_cons.mp ht with rfl | ht
      · simp [hpair.1] at hk
      · rcases List.mem_cons.mp ht with rfl | ht
        · simp [hpair.2] at hk
        · exact ⟨t, ht, hk⟩
    rw [List.cons_append, List.cons_append, afterNames, afterNames, if_pos hpair, if_pos hpair]
    exact ih hrest
  | case2 comma name rest hpair =>
    rw [List.cons_append, List.cons_append, afterNames, afterNames, if_neg hpair, if_neg hpair]
    exact ⟨rfl, h⟩
  | case3 rest hshort =>
    obtain ⟨t, ht, hk⟩ := h
    rcases rest with _ | ⟨u, _ | ⟨v, rest⟩⟩
    · cases ht
    · obtain rfl := List.mem_singleton.mp ht
      refine ⟨?_, t, ht, hk⟩
      cases extra with
      | nil => rfl
      | cons v extra =>
        rw [List.singleton_append, afterNames, if_neg fun hpair => by simp [hk] at hpair]
        rfl
    · exact (hshort u v rest rfl).elim

theorem Closing.declarationAhead_append (h : Closing input) (hname : nextKind input = .identifier)
    (extra : List Token) : declarationAhead (input ++ extra) = declarationAhead input := by
  obtain ⟨t, input, rfl⟩ := List.exists_cons_of_ne_nil h.ne_nil
  have hrest : ∃ u ∈ input, u.kind = .endKw := by
    obtain ⟨u, hu, hk⟩ := h.ends
    rcases List.mem_cons.mp hu with rfl | hu
    · exact absurd (hname.symm.trans hk) nofun
    · exact ⟨u, hu, hk⟩
  obtain ⟨hnames, u, hu, hk⟩ := afterNames_append hrest extra
  have hne : input ≠ [] := List.ne_nil_of_mem hrest.choose_spec.1
  unfold declarationAhead
  dsimp only
  rw [List.cons_append, List.drop_succ_cons, List.drop_succ_cons, List.drop_zero, List.drop_zero,
    hnames, nextKind_append (List.ne_nil_of_mem hu), nextKind_append hne]
  cases hafter : afterNames input with
  | nil => exact absurd hu (by simp [hafter])
  | cons v after =>
    by_cases hcolon : v.kind = .colon
    · -- The colon is not the word that ends the theory, so this stands behind it.
      have hmem : u ∈ after := by
        rw [hafter] at hu
        refine (List.mem_cons.mp hu).resolve_left ?_
        rintro rfl
        exact absurd (hcolon.symm.trans hk) nofun
      have htwo : 2 ≤ (v :: after).length := Nat.succ_le_succ (List.length_pos_of_mem hmem)
      rw [secondKind_append htwo]
    · rw [nextKind_cons, if_pos hcolon, if_pos hcolon]

theorem Closing.holds_append (h : Closing input) (hp : test.Proper input) (extra : List Token) :
    test.holds (input ++ extra) = test.holds input := by
  cases test with
  | next kinds => simp only [Lookahead.holds, nextKind_append h.ne_nil]
  | past kinds => simp only [Lookahead.holds, nextKind_append h.ne_nil]
  | pair first second =>
    simp only [Lookahead.holds, nextKind_append h.ne_nil, secondKind_append h.two_le]
  | beyond kind => simp only [Lookahead.holds, nextKind_append h.ne_nil, secondKind_append h.two_le]
  | declares kind => simp only [Lookahead.holds, h.declarationAhead_append hp]

theorem Closing.proper_append (h : Closing input) (hp : test.Proper input) (extra : List Token) :
    test.Proper (input ++ extra) := by
  cases test with
  | declares kind => exact (nextKind_append h.ne_nil extra).trans hp
  | _ => trivial

/-- The tests of loops and chains ask for the next two tokens only. -/
def Piece.orderly : Piece → Bool
  | rule r => r.orderly
  | chain _ test tail _ => test.near && tail.orderly

namespace Parses

/-- Where a theory has still to end, what is read does not depend on what follows it. -/
theorem append {piece : Piece} (h : Parses piece input trees rest) (ho : piece.orderly = true)
    (hr : Closing rest) (extra : List Token) :
    Closing input ∧ Parses piece (input ++ extra) trees (rest ++ extra) := by
  induction h with
  | empty => exact ⟨hr, .empty⟩
  | @take t input h => exact ⟨hr.append [t], .take h⟩
  | @skip t input => exact ⟨hr.append [t], .skip⟩
  | skipNone => exact absurd rfl hr.ne_nil
  | seq _ _ ih1 ih2 =>
    obtain ⟨ho1, ho2⟩ := (Bool.and_eq_true _ _).mp ho
    obtain ⟨hm, h2⟩ := ih2 ho2 hr
    obtain ⟨hc, h1⟩ := ih1 ho1 hm
    exact ⟨hc, .seq h1 h2⟩
  | yes hp h _ ih =>
    obtain ⟨ho1, -⟩ := (Bool.and_eq_true _ _).mp ho
    obtain ⟨hc, h1⟩ := ih ho1 hr
    exact ⟨hc, .yes (hc.proper_append hp extra) ((hc.holds_append hp extra).trans h) h1⟩
  | no hp h _ ih =>
    obtain ⟨-, ho2⟩ := (Bool.and_eq_true _ _).mp ho
    obtain ⟨hc, h1⟩ := ih ho2 hr
    exact ⟨hc, .no (hc.proper_append hp extra) ((hc.holds_append hp extra).trans h) h1⟩
  | finish h =>
    obtain ⟨hn, -⟩ := (Bool.and_eq_true _ _).mp ho
    exact ⟨hr, .finish ((hr.holds_append (Lookahead.proper_of_near hn _) extra).trans h)⟩
  | turn h hl _ _ ih1 ih2 =>
    obtain ⟨hn, ho1⟩ := (Bool.and_eq_true _ _).mp ho
    obtain ⟨hm, h2⟩ := ih2 ho hr
    obtain ⟨hc, h1⟩ := ih1 ho1 hm
    exact ⟨hc, .turn ((hc.holds_append (Lookahead.proper_of_near hn _) extra).trans h)
      (by simpa using hl) h1 h2⟩
  | node _ ih =>
    obtain ⟨hc, h1⟩ := ih ho hr
    exact ⟨hc, .node h1⟩
  | @nodeBy opening test yes no closing input mid rest ts us _ _ ih1 ih2 =>
    obtain ⟨hn, ho⟩ := (Bool.and_eq_true _ _).mp ho
    obtain ⟨ho1, ho2⟩ := (Bool.and_eq_true _ _).mp ho
    obtain ⟨hm, h2⟩ := ih2 ho2 hr
    obtain ⟨hc, h1⟩ := ih1 ho1 hm
    refine ⟨hc, ?_⟩
    rw [← hm.holds_append (Lookahead.proper_of_near hn _) extra]
    exact .nodeBy h1 h2
  | headless _ ih =>
    obtain ⟨-, ho⟩ := (Bool.and_eq_true _ _).mp ho
    obtain ⟨hc, h1⟩ := ih ((Bool.and_eq_true _ _).mp ho).1 hr
    exact ⟨hc, .headless h1⟩
  | chain _ h _ ih1 ih2 =>
    obtain ⟨hn, ho⟩ := (Bool.and_eq_true _ _).mp ho
    obtain ⟨ho1, ho2⟩ := (Bool.and_eq_true _ _).mp ho
    obtain ⟨hm, h2⟩ := ih2 ((Bool.and_eq_true _ _).mpr ⟨((Bool.and_eq_true _ _).mp hn).2, ho2⟩) hr
    obtain ⟨hc, h1⟩ := ih1 ho1 hm
    exact ⟨hc, .chain h1 h h2⟩
  | grown h =>
    obtain ⟨hn, -⟩ := (Bool.and_eq_true _ _).mp ho
    exact ⟨hr, .grown ((hr.holds_append (Lookahead.proper_of_near hn _) extra).trans h)⟩
  | link h hl _ _ ih1 ih2 =>
    obtain ⟨hn, ho1⟩ := (Bool.and_eq_true _ _).mp ho
    obtain ⟨hm, h2⟩ := ih2 ho hr
    obtain ⟨hc, h1⟩ := ih1 ho1 hm
    exact ⟨hc, .link ((hc.holds_append (Lookahead.proper_of_near hn _) extra).trans h)
      (by simpa using hl) h1 h2⟩
  | call hk h _ ih =>
    obtain ⟨hc, h1⟩ := ih (Nonterminal.single_orderly hk).2 hr
    exact ⟨hc, .call hk (nextKind_append hc.ne_nil extra ▸ h) h1⟩

theorem of_expect {kind : TokenKind} (h : Parses (.rule (.expect kind)) input trees rest) :
    ∃ t, t.kind = kind ∧ kind ≠ .eof ∧ input = t :: rest ∧ trees = [.leaf t] := by
  cases h with
  | yes _ ht h =>
    cases h with
    | @take t input hk =>
      have hkind : t.kind = kind := by simpa [Lookahead.holds] using ht
      exact ⟨t, hkind, hkind ▸ hk, rfl, rfl⟩
  | no _ _ h =>
    cases h with
    | yes _ _ h =>
      cases h with
      | seq h _ => cases h
    | no _ _ h => cases h

theorem expect {t : Token} {kind : TokenKind} (h : t.kind = kind) (hne : kind ≠ .eof)
    (rest : List Token) : Parses (.rule (.expect kind)) (t :: rest) [.leaf t] rest :=
  .yes trivial (by simp [Lookahead.holds, h]) (.take (h ▸ hne))

theorem identifier {n : Token} (hn : n.kind = .identifier) (rest : List Token) :
    Parses (.rule Grammar.name) (n :: rest) [.node .identifier [.leaf n]] rest :=
  .yes trivial (by simp [Lookahead.holds, hn]) (.node (.take (by simp [hn])))

end Parses

namespace Rule

/-- What the rule reads ends with a name after the word that ends a theory, whatever follows. -/
def Closes (r : Rule) : Prop :=
  ∀ ⦃input trees rest⦄, Parses (.rule r) input trees rest → (∃ ts word name,
    input = ts ++ word :: name :: rest ∧ word.kind = .endKw ∧ name.kind = .identifier) ∧
    ∀ extra, Parses (.rule r) (input ++ extra) trees (rest ++ extra)

theorem closes_end : (expect .endKw >> expect .identifier).Closes := by
  intro input trees rest h
  cases h with
  | seq hend hname =>
    obtain ⟨name, hk, hne, rfl, rfl⟩ := hname.of_expect
    obtain ⟨word, hk', hne', rfl, rfl⟩ := hend.of_expect
    exact ⟨⟨[], word, name, rfl, hk', hk⟩, fun extra =>
      .seq (.expect hk' hne' _) (.expect hk hne _)⟩

theorem Closes.seq {first second : Rule} (ho : first.orderly = true) (h : second.Closes) :
    (first >> second).Closes := by
  intro input trees rest hp
  cases hp with
  | @seq _ _ _ _ _ us _ h1 h2 =>
    obtain ⟨⟨ts, word, name, rfl, hw, hn⟩, hext⟩ := h h2
    have hend : Closing (word :: name :: rest) :=
      ⟨by simp, word, List.mem_cons_self, hw⟩
    refine ⟨⟨Tree.leavesOf us ++ ts, word, name, ?_, hw, hn⟩, fun extra => ?_⟩
    · exact h1.leaves.symm.trans (List.append_assoc _ _ _).symm
    · exact .seq (h1.append ho (hend.append ts) extra).2 (hext extra)

theorem Closes.node {kind : ElementKind} {body : Rule} (h : body.Closes) :
    (Rule.node kind body).Closes := by
  intro input trees rest hp
  cases hp with
  | node hp =>
    obtain ⟨hends, hext⟩ := h hp
    exact ⟨hends, fun extra => .node (hext extra)⟩

theorem closes_theory : Grammar.theory.Closes := by
  refine .node (.seq ?_ (.seq ?_ (.seq ?_ (.seq ?_ (.seq ?_ (.seq ?_ (.seq ?_ closes_end)))))))
  all_goals decide

end Rule

/-- Theories that parse are read in the same way when more text follows, and then the text that
follows is. -/
theorem Parses.theoryList_append {endOfText : Token} {extra : List Token} {s : Step}
    (h : Parses (.rule Grammar.theoryList) input trees [])
    (hs : Reads endOfText (.read Grammar.theoryList ⟨extra, false⟩) s) :
    (∀ t ∈ input.getLast?, t.kind = .identifier) ∧
      Reads endOfText (.read Grammar.theoryList ⟨input ++ extra, false⟩)
        ((⟨trees, [], ⟨extra, false⟩⟩ : Step).join s) := by
  generalize hr : ([] : List Token) = rest at h
  generalize hp : Piece.rule Grammar.theoryList = piece at h
  induction h with
  | finish =>
    subst hr
    exact ⟨nofun, hs⟩
  | @turn test body input mid rest ts us h hl once _ _ ih =>
    obtain ⟨rfl, rfl⟩ := Rule.loop.inj (Piece.rule.inj hp)
    obtain ⟨hlast, hagain⟩ := ih hr rfl
    cases once with
    | no _ _ once =>
      cases once with
      | seq once _ => cases once
    | yes _ hname once =>
      obtain ⟨⟨pre, word, name, hinput, -, hk⟩, hext⟩ := Rule.closes_theory once
      have hne : input ≠ [] := by simp [hinput]
      have hname : nextKind (input ++ extra) = .identifier := by
        rw [nextKind_append hne]
        simpa [Lookahead.holds] using hname
      refine ⟨fun t ht => ?_, ?_⟩
      · rw [hinput, List.append_cons, List.append_cons, List.getLast?_append,
          List.getLast?_append, List.getLast?_singleton] at ht
        rcases Option.or_eq_some_iff.mp ht with ht | ⟨-, ht⟩
        · exact hlast t ht
        · obtain rfl := Option.some.inj ht
          exact hk
      · have hjoin : (⟨ts ++ us, [], ⟨extra, false⟩⟩ : Step).join s =
            (⟨ts, [], ⟨mid ++ extra, false⟩⟩ : Step).join
              ((⟨us, [], ⟨extra, false⟩⟩ : Step).join s) := by
          simp [Step.join]
        rw [hjoin]
        exact .turn (by simp [Lookahead.holds, hname]) (by simpa using hl)
          (.yes trivial (by simp [Lookahead.holds, hname]) ((hext extra).reads endOfText)) hagain
  | _ => cases hp

end PvsIndex
