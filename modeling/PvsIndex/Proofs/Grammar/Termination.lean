import PvsIndex.Proofs.Grammar.Flow

/-! Every text is read to its end within the bounds: the check of the rules succeeds, and a rule
that passes the check reads as it should. -/

namespace PvsIndex

namespace Flow

variable {f g : Flow} {limit : Nat} {c : Cursor} {test : Lookahead}

theorem Holds.not_dead (h : f.Holds limit c) : ¬ f.Dead := by
  intro hd
  have := h.1.1
  rw [hd] at this
  exact List.not_mem_nil this

theorem Holds.through {check : Flow → Option Flow} (h : f.Holds limit c)
    (hf : f.through check = some g) : check f = some g := by
  simpa [Flow.through, h.not_dead] using hf

theorem Holds.meet_left (h : f.Holds limit c) : (f.meet g).Holds limit c := by
  unfold meet
  rw [if_neg h.not_dead]
  split_ifs with hg he
  · exact h
  · exact ⟨h.1, h.2.1, fun hm => h.2.2 (by simp_all)⟩
  · exact ⟨Ahead.holds_anything _, h.2.1, fun hm => h.2.2 (by simp_all)⟩

theorem Holds.meet_right (h : g.Holds limit c) : (f.meet g).Holds limit c := by
  unfold meet
  split_ifs with hf hg he
  · exact h
  · exact absurd hg h.not_dead
  · exact ⟨he ▸ h.1, h.2.1, fun hm => h.2.2 (by simp_all)⟩
  · exact ⟨Ahead.holds_anything _, h.2.1, fun hm => h.2.2 (by simp_all)⟩

theorem Holds.yes (h : f.Holds limit c) (ht : test.holds c.input = true) :
    (⟨f.ahead.yes test, f.moved⟩ : Flow).Holds limit c :=
  ⟨h.1.yes ht, h.2⟩

theorem Holds.no (h : f.Holds limit c) (ht : test.holds c.input = false) :
    (⟨f.ahead.no test, f.moved⟩ : Flow).Holds limit c :=
  ⟨h.1.no ht, h.2⟩

theorem Asks.proper (ha : f.Asks test) (h : f.Holds limit c) : test.Proper c.input := by
  cases test with
  | declares kind =>
    have := h.1.1
    rw [show f.ahead.next = [.identifier] from ha] at this
    exact List.mem_singleton.mp this
  | _ => trivial

end Flow

open PvsIndex.Flow

theorem Cursor.take_holds {f : Flow} {limit : Nat} {c : Cursor} (h : f.Holds limit c)
    (he : .eof ∉ f.ahead.next) : (⟨f.ahead.shift, true⟩ : Flow).Holds limit c.take.cursor := by
  obtain ⟨input, recovering⟩ := c
  cases input with
  | nil => exact absurd h.1.1 he
  | cons t input =>
    have hl : input.length < limit := h.2.1
    exact ⟨h.1.shift, hl.le, fun _ => hl⟩

theorem Cursor.skip_holds {f : Flow} {limit : Nat} {c : Cursor} (h : f.Holds limit c)
    (he : .eof ∉ f.ahead.next) : (⟨f.ahead.shift, true⟩ : Flow).Holds limit c.skip.cursor := by
  obtain ⟨input, recovering⟩ := c
  cases input with
  | nil => exact absurd h.1.1 he
  | cons t input =>
    have hl : input.length < limit := h.2.1
    exact ⟨h.1.shift, hl.le, fun _ => hl⟩

theorem Cursor.length_skip (c : Cursor) : c.skip.cursor.input.length ≤ c.input.length := by
  obtain ⟨input, recovering⟩ := c
  cases input <;> simp [Cursor.skip]

@[simp] theorem Cursor.report_input (c : Cursor) (endOfText : Token) (complaint : Complaint) :
    (c.report endOfText complaint).cursor.input = c.input := by
  unfold Cursor.report
  split <;> rfl

namespace Rule

variable {endOfText : Token} {test : Lookahead} {body tail : Rule} {turn : Cursor → Step} {n : Nat}

/-- A turn that starts where the test holds reads as the rule does, and reads a token. -/
def Moves (endOfText : Token) (test : Lookahead) (body : Rule) (turn : Cursor → Step) (n : Nat) :
    Prop :=
  ∀ c : Cursor, test.holds c.input = true → c.input.length ≤ n →
    Reads endOfText (.read body c) (turn c) ∧ (turn c).cursor.input.length < c.input.length

theorem Moves.runLoop (h : Moves endOfText test body turn n) (bound : Nat) (c : Cursor)
    (hb : c.input.length < bound) (hn : c.input.length ≤ n) :
    Reads endOfText (.read (.loop test body) c) (runLoop test turn bound c) ∧
      test.holds (runLoop test turn bound c).cursor.input = false ∧
      (runLoop test turn bound c).cursor.input.length ≤ c.input.length := by
  induction bound generalizing c with
  | zero => omega
  | succ bound ih =>
    unfold Rule.runLoop
    cases ht : test.holds c.input with
    | false => exact ⟨.finish ht, ht, le_rfl⟩
    | true =>
      obtain ⟨once, progress⟩ := h c ht hn
      obtain ⟨again, hf, hl⟩ := ih (turn c).cursor (by omega) (by omega)
      exact ⟨.turn ht progress once again, hf, hl.trans progress.le⟩

theorem Moves.runChain (h : Moves endOfText test tail turn n) (kind : ElementKind) (bound : Nat)
    (s : Step) (hb : s.cursor.input.length < bound) (hn : s.cursor.input.length ≤ n) :
    Reads endOfText (.grow kind test tail s) (runChain kind test turn bound s) ∧
      (runChain kind test turn bound s).cursor.input.length ≤ s.cursor.input.length := by
  induction bound generalizing s with
  | zero => omega
  | succ bound ih =>
    unfold Rule.runChain
    cases ht : test.holds s.cursor.input with
    | false => exact ⟨.grown ht, le_rfl⟩
    | true =>
      obtain ⟨once, progress⟩ := h s.cursor ht hn
      have hc : ((s.andThen turn).wrap kind).cursor = (turn s.cursor).cursor := rfl
      obtain ⟨again, hl⟩ := ih ((s.andThen turn).wrap kind) (by rw [hc]; omega) (by rw [hc]; omega)
      exact ⟨.link ht progress once again, hl.trans progress.le⟩

variable {call : Nonterminal → Cursor → Step}

/-- What is left after a named rule, entered where it may be. -/
def Enters (endOfText : Token) (call : Nonterminal → Cursor → Step) (n : Nat) : Prop :=
  ∀ (name : Nonterminal) (c : Cursor), name.Known → nextKind c.input ∈ name.starts →
    c.input.length < n → Reads endOfText (.read name.rule c) (call name c) ∧
      (call name c).cursor.input.length ≤ c.input.length

theorem run_reads (hcall : Enters endOfText call n) (r : Rule) {f g : Flow} {limit : Nat}
    {c : Cursor} (hn : limit ≤ n) (hr : r.flow f = some g) (hc : f.Holds limit c) :
    Reads endOfText (.read r c) (r.run call endOfText (n + 1) c) ∧
      g.Holds limit (r.run call endOfText (n + 1) c).cursor := by
  have moves : ∀ {test : Lookahead} {body : Rule}, Flow.Turns test body.flow →
      (∀ {f g : Flow} {limit : Nat} {c : Cursor}, limit ≤ n → body.flow f = some g →
        f.Holds limit c → Reads endOfText (.read body c) (body.run call endOfText (n + 1) c) ∧
          g.Holds limit (body.run call endOfText (n + 1) c).cursor) →
      Moves endOfText test body (body.run call endOfText (n + 1)) n := by
    rintro test body ⟨g, hg, hm⟩ ih c ht hl
    have hf : (⟨Ahead.anything.yes test, false⟩ : Flow).Holds c.input.length c :=
      ⟨(Ahead.holds_anything _).yes ht, le_rfl, by simp⟩
    obtain ⟨hr, hh⟩ := ih hl (hf.through hg) hf
    exact ⟨hr, hh.2.2 (hm.resolve_left hh.not_dead)⟩
  induction r generalizing f g limit c with
  | empty =>
    obtain rfl := Option.some.inj hr
    exact ⟨.empty, hc⟩
  | take =>
    simp only [flow] at hr
    split_ifs at hr with he
    obtain rfl := Option.some.inj hr
    exact ⟨.take fun hk => he (hk ▸ hc.1.1), Cursor.take_holds hc he⟩
  | skip =>
    obtain rfl := Option.some.inj hr
    refine ⟨.skip, ?_⟩
    split_ifs with he
    · have hl := c.length_skip
      exact ⟨Ahead.holds_anything _, hl.trans hc.2.1, fun hm => hl.trans_lt (hc.2.2 hm)⟩
    · exact Cursor.skip_holds hc he
  | report complaint =>
    obtain rfl := Option.some.inj hr
    refine ⟨.report, ?_⟩
    unfold Flow.Holds
    rw [run, Cursor.report_input]
    exact hc
  | seq first second ih1 ih2 =>
    obtain ⟨f1, hf1, hf2⟩ := Option.bind_eq_some_iff.mp hr
    obtain ⟨h1, hc1⟩ := ih1 hn hf1 hc
    obtain ⟨h2, hc2⟩ := ih2 hn hf2 hc1
    exact ⟨.seq h1 h2, hc2⟩
  | branch test yes no ih1 ih2 =>
    simp only [flow] at hr
    split_ifs at hr with ha
    obtain ⟨f1, hf1, hr⟩ := Option.bind_eq_some_iff.mp hr
    obtain ⟨f2, hf2, hr⟩ := Option.bind_eq_some_iff.mp hr
    obtain rfl := Option.some.inj hr
    unfold run
    cases ht : test.holds c.input with
    | true =>
      obtain ⟨h1, hc1⟩ := ih1 hn ((hc.yes ht).through hf1) (hc.yes ht)
      exact ⟨.yes (ha.proper hc) ht h1, hc1.meet_left⟩
    | false =>
      obtain ⟨h2, hc2⟩ := ih2 hn ((hc.no ht).through hf2) (hc.no ht)
      exact ⟨.no (ha.proper hc) ht h2, hc2.meet_right⟩
  | loop test body ih =>
    simp only [flow] at hr
    split_ifs at hr with hm
    obtain rfl := Option.some.inj hr
    have hl : c.input.length ≤ n := hc.2.1.trans hn
    obtain ⟨h1, hf, hle⟩ := (moves hm ih).runLoop (n + 1) c (by omega) hl
    exact ⟨h1, (Ahead.holds_anything _).no hf, hle.trans hc.2.1, fun hm => hle.trans_lt (hc.2.2 hm)⟩
  | node kind body ih =>
    obtain ⟨h1, hc1⟩ := ih hn hr hc
    exact ⟨.node h1, hc1⟩
  | nodeBy opening test yes no closing ih1 ih2 =>
    obtain ⟨f1, hf1, hf2⟩ := Option.bind_eq_some_iff.mp hr
    obtain ⟨h1, hc1⟩ := ih1 hn hf1 hc
    obtain ⟨h2, hc2⟩ := ih2 hn hf2 hc1
    exact ⟨.nodeBy h1 h2, hc2⟩
  | chain kind head test tail ih1 ih2 =>
    obtain ⟨f1, hf1, hr⟩ := Option.bind_eq_some_iff.mp hr
    split_ifs at hr with hm
    obtain rfl := Option.some.inj hr
    obtain ⟨h1, hc1⟩ := ih1 hn hf1 hc
    unfold run
    dsimp only
    split_ifs with he
    · exact ⟨.headless h1 (List.isEmpty_iff.mp he), Ahead.holds_anything _, hc1.2⟩
    · have hl := hc1.2.1.trans hn
      obtain ⟨h2, hle⟩ := (moves hm ih2).runChain kind (n + 1) _ (by omega) hl
      exact ⟨.chain h1 (by simpa using he) h2, Ahead.holds_anything _, hle.trans hc1.2.1,
        fun hm => hle.trans_lt (hc1.2.2 hm)⟩
  | call name =>
    simp only [flow] at hr
    split_ifs at hr with h
    obtain rfl := Option.some.inj hr
    obtain ⟨hm, hk, hs⟩ := h
    have hl := hc.2.2 hm
    obtain ⟨h1, hle⟩ := hcall name c hk (hs hc.1.1) (hl.trans_le hn)
    exact ⟨.call hk (hs hc.1.1) h1, Ahead.holds_anything _, (hle.trans_lt hl).le,
      fun _ => hle.trans_lt hl⟩

end Rule

namespace Nonterminal

theorem flow_text : (Grammar.theories.flow ⟨.anything, false⟩).isSome = true := by
  decide +kernel

/-- The check of the named rules succeeds, from the tokens that they may be entered at. -/
theorem flow_isSome {name : Nonterminal} (h : name.Known) :
    (name.rule.flow ⟨.ofNext name.starts, false⟩).isSome = true := by
  have layered : ∀ layers ∈ Grammar.layers.tails, ((Grammar.layered layers).flow
      ⟨.ofNext (Grammar.expressionStarts layers), false⟩).isSome = true := by decide +kernel
  have type : (Grammar.typeExpression.flow ⟨.ofNext Grammar.typeStarts, false⟩).isSome = true := by
    decide +kernel
  cases name with
  | text => exact h.elim
  | type => exact type
  | expression layers => exact layered layers ((List.mem_tails _ _).mpr h)

theorem run_enters (endOfText : Token) (n : Nat) : Rule.Enters endOfText (run endOfText n) n := by
  induction n with
  | zero => exact fun _ _ _ _ hl => absurd hl (Nat.not_lt_zero _)
  | succ n ih =>
    intro name c hk hs hl
    obtain ⟨g, hg⟩ := Option.isSome_iff_exists.mp (flow_isSome hk)
    obtain ⟨hr, hh⟩ := Rule.run_reads ih name.rule (by omega) hg
      (c := c) ⟨Ahead.holds_ofNext.mpr hs, le_rfl, by simp⟩
    exact ⟨hr, hh.2.1⟩

/-- The bounds are never met: a text is read as it is read without them. -/
theorem reads_text (endOfText : Token) {bound : Nat} {c : Cursor} (h : c.input.length < bound) :
    Reads endOfText (.read Grammar.theories c) (run endOfText bound text c) := by
  obtain ⟨g, hg⟩ := Option.isSome_iff_exists.mp flow_text
  cases bound with
  | zero => omega
  | succ n =>
    exact (Rule.run_reads (run_enters endOfText n) _ (by omega) hg
      ⟨Ahead.holds_anything _, le_rfl, by simp⟩).1

end Nonterminal

end PvsIndex
