import PvsIndex.Proofs.Grammar.Acceptance

/-! Prediction: a check that every test of a rule tells what comes, and that a rule which passes it
reads all that its phrase derives. -/

namespace PvsIndex

open Phrase PvsIndex.Language

namespace Grammar

def binaryOperators : List Layer → List TokenKind
  | [] => []
  | .binary operators :: ls => operators ++ binaryOperators ls
  | .unary _ :: ls => binaryOperators ls

end Grammar

namespace Nonterminal

/-- The kinds of tokens that do not continue what a named rule has read. -/
def follow : Nonterminal → List TokenKind
  | text => []
  | type => TokenKind.all.filter (· ≠ .openBracket)
  | expression layers =>
    if layers = Grammar.layers then
      TokenKind.all.filter (· ∉ .openParen :: Grammar.binaryOperators layers)
    else []

theorem mem_follow_expression {kind : TokenKind}
    (h : kind ∉ .openParen :: Grammar.binaryOperators Grammar.layers) :
    kind ∈ (expression Grammar.layers).follow := by
  rw [follow, if_pos rfl]
  exact List.mem_filter.mpr ⟨TokenKind.mem_all _, decide_eq_true h⟩

end Nonterminal

theorem first_layered (layers : List Layer) : (layered layers).nullable = false ∧
    (layered layers).first Nonterminal.starts ⊆ Grammar.expressionStarts layers := by
  induction layers with
  | nil => decide
  | cons layer layers ih =>
    cases layer with
    | binary operators =>
      exact ⟨by simp [layered, HAndThen.hAndThen, AndThen.andThen, nullable, ih.1],
        by simpa [layered, HAndThen.hAndThen, AndThen.andThen, first, ih.1,
          Grammar.expressionStarts] using ih.2⟩
    | unary operators =>
      refine ⟨by simp [layered, HAndThen.hAndThen, AndThen.andThen, HOrElse.hOrElse,
        OrElse.orElse, nullable, ih.1], ?_⟩
      simp only [layered, HAndThen.hAndThen, AndThen.andThen, HOrElse.hOrElse, OrElse.orElse,
        first, nullable, Grammar.expressionStarts, Bool.false_eq_true, ite_false, List.append_nil]
      exact List.append_subset.mpr ⟨List.subset_append_left _ _,
        List.Subset.trans ih.2 (List.subset_append_right _ _)⟩

/-- The named rules are entered where their phrases begin. -/
theorem startsRight : StartsRight production Nonterminal.starts := by
  intro x
  cases x with
  | text => exact ⟨by decide, fun _ _ => TokenKind.mem_all _⟩
  | type => exact ⟨by decide, by decide⟩
  | expression layers => exact first_layered layers

theorem mem_leads {p : Words} {ts rest : List Token} {follow : List TokenKind}
    (h : Phrase.Derives production p (kindsOf ts)) (hr : nextKind rest ∈ follow) :
    nextKind (ts ++ rest) ∈ p.leads Nonterminal.starts follow := by
  cases ts with
  | nil =>
    have hn := (h.nullable_or_first startsRight).1 rfl
    simpa [leads, hn] using Or.inr hr
  | cons t ts => exact List.mem_append_left _ (h.mem_first startsRight)

theorem exists_append_of_kindsOf {ts : List Token} {u v : List TokenKind}
    (h : kindsOf ts = u ++ v) :
    ∃ us vs, ts = us ++ vs ∧ kindsOf us = u ∧ kindsOf vs = v :=
  List.map_eq_append_iff.mp h

theorem exists_flatten_of_kindsOf {ts : List Token} {ws : List (List TokenKind)}
    (h : kindsOf ts = ws.flatten) :
    ∃ tss : List (List Token), ts = tss.flatten ∧ tss.map kindsOf = ws := by
  induction ws generalizing ts with
  | nil => exact ⟨[], List.map_eq_nil_iff.mp h, rfl⟩
  | cons w ws ih =>
    obtain ⟨us, vs, rfl, rfl, hv⟩ := exists_append_of_kindsOf h
    obtain ⟨tss, rfl, rfl⟩ := ih hv
    exact ⟨us :: tss, rfl, rfl⟩

theorem derives_star_kindsOf {p : Words} {ts : List Token} :
    Phrase.Derives production (.star p) (kindsOf ts) ↔ ∃ tss : List (List Token),
      ts = tss.flatten ∧ ∀ us ∈ tss, Phrase.Derives production p (kindsOf us) := by
  constructor
  · intro h
    obtain ⟨ws, he, hws⟩ := derives_star.mp h
    obtain ⟨tss, rfl, rfl⟩ := exists_flatten_of_kindsOf he
    exact ⟨tss, rfl, List.forall_mem_map.mp hws⟩
  · rintro ⟨tss, rfl, h⟩
    rw [kindsOf_flatten]
    exact .star_of_forall (List.forall_mem_map.mpr h)

namespace Lookahead

/-- The test holds before the kinds of the one list and fails before those of the other. -/
def Tells (yes no : List TokenKind) : Lookahead → Prop
  | next kinds => yes ⊆ kinds ∧ ∀ k ∈ no, k ∉ kinds
  | past kinds => (∀ k ∈ yes, k ∉ kinds) ∧ no ⊆ kinds
  | declares _ => yes ⊆ [.identifier] ∧ no ⊆ [.identifier]
  | _ => False

instance (yes no : List TokenKind) (test : Lookahead) : Decidable (test.Tells yes no) :=
  match test with
  | next _ => inferInstanceAs (Decidable (_ ∧ _))
  | past _ => inferInstanceAs (Decidable (_ ∧ _))
  | declares _ => inferInstanceAs (Decidable (_ ∧ _))
  | pair _ _ => inferInstanceAs (Decidable False)
  | beyond _ => inferInstanceAs (Decidable False)

theorem Tells.holds {yes no : List TokenKind} {test : Lookahead} (h : test.Tells yes no)
    (ha : ∀ kind, test ≠ .declares kind) (input : List Token) :
    (nextKind input ∈ yes → test.holds input = true) ∧
      (nextKind input ∈ no → test.holds input = false) := by
  cases test with
  | next kinds =>
    exact ⟨fun hy => by simpa [Lookahead.holds] using h.1 hy,
      fun hn => by simpa [Lookahead.holds] using h.2 _ hn⟩
  | past kinds =>
    exact ⟨fun hy => by simpa [Lookahead.holds] using h.1 _ hy,
      fun hn => by simpa [Lookahead.holds] using h.2 hn⟩
  | declares kind => exact absurd rfl (ha kind)
  | pair => exact h.elim
  | beyond => exact h.elim

theorem Tells.proper {yes no : List TokenKind} {test : Lookahead} (h : test.Tells yes no)
    {input : List Token} (hi : nextKind input ∈ yes ∨ nextKind input ∈ no) :
    test.Proper input := by
  cases test with
  | declares kind => exact List.mem_singleton.mp (hi.elim (fun k => h.1 k) fun k => h.2 k)
  | _ => trivial

end Lookahead

namespace Rule

/-- What comes with each turn of a loop. -/
def turn (test : Lookahead) (body : Rule) : Words :=
  body.phrase (Ahead.anything.yes test)

/-- The test holds before each turn of a loop and fails before what follows. -/
def TellsTurns (body : Rule) (follow : List TokenKind) (test : Lookahead) : Prop :=
  match test with
  | .pair first second => first ∉ follow ∧ match body with
    | .seq .take r => (r.phrase .anything).nullable = false ∧
        (r.phrase .anything).first Nonterminal.starts ⊆ [second]
    | _ => False
  | .declares _ => False
  | test => test.Tells ((turn test body).first Nonterminal.starts) follow

instance (body : Rule) (follow : List TokenKind) (test : Lookahead) :
    Decidable (body.TellsTurns follow test) := by
  unfold TellsTurns
  split
  · split <;> infer_instance
  · infer_instance
  · infer_instance

/-- The tests tell what comes, given what may follow. Named rules are entered only after a token. -/
def predictive : Rule → Ahead → Bool → List TokenKind → Bool
  | empty, _, _, _ => true
  | take, a, _, _ => .eof ∉ a.next
  | skip, _, _, _ => false
  | report _, _, _, _ => true
  | seq first second, a, moved, follow =>
    (first.seq second).phrase a = .fail ||
      first.predictive a moved ((second.phrase .anything).leads Nonterminal.starts follow) &&
        second.predictive .anything (moved || !(first.phrase a).nullable) follow
  | branch test yes no, a, moved, follow =>
    let p := (a.yes test).allow (yes.phrase (a.yes test))
    let q := (a.no test).allow (no.phrase (a.no test))
    test.Tells (p.leads Nonterminal.starts follow) (q.leads Nonterminal.starts follow) &&
      (p = .fail || yes.predictive (a.yes test) moved follow) &&
        (q = .fail || no.predictive (a.no test) moved follow)
  | loop test body, _, moved, follow =>
    !(turn test body).nullable && body.TellsTurns follow test &&
      body.predictive (Ahead.anything.yes test) moved
        ((turn test body).first Nonterminal.starts ++ follow)
  | node _ body, a, moved, follow => body.predictive a moved follow
  | nodeBy opening _ _ _ closing, a, moved, follow =>
    opening.predictive a moved ((closing.phrase .anything).leads Nonterminal.starts follow) &&
      closing.predictive .anything (moved || !(opening.phrase a).nullable) follow
  | chain _ _ _ _, _, _, _ => false
  | .call x, _, moved, follow =>
    moved && (x = .type ∨ x = .expression Grammar.layers) && follow ⊆ x.follow

/-- Where a rule asks which declaration begins: the kind, and what comes if the answer is yes or
no. -/
def questions : Rule → Ahead → List (ElementKind × Words × Words)
  | seq first second, a => first.questions a ++ second.questions .anything
  | branch (.declares kind) yes no, a =>
    (kind, yes.phrase a, no.phrase a) :: (yes.questions a ++ no.questions a)
  | branch test yes no, a => yes.questions (a.yes test) ++ no.questions (a.no test)
  | loop test body, _ => body.questions (Ahead.anything.yes test)
  | node _ body, a => body.questions a
  | nodeBy opening _ _ _ closing, a => opening.questions a ++ closing.questions .anything
  | _, _ => []

end Rule

theorem allow_derives {a : Ahead} {p : Words} {w : List TokenKind}
    (h : Phrase.Derives production (a.allow p) w) : Phrase.Derives production p w := by
  unfold Ahead.allow at h
  split_ifs at h
  · exact absurd h not_derives_fail
  · exact h

/-- The words that come tell which declaration begins. -/
def AnswersRight (kind : ElementKind) (yes no : Words) : Prop :=
  ∀ ts rest : List Token,
    (Phrase.Derives production yes (kindsOf ts) → declarationAhead (ts ++ rest) = kind) ∧
      (Phrase.Derives production no (kindsOf ts) → declarationAhead (ts ++ rest) ≠ kind)

namespace Rule

/-- The rule reads what the phrase derives, up to a bound on the length. -/
def Covers (r : Rule) (p : Words) (follow : List TokenKind) (bound : Nat) : Prop :=
  ∀ ts rest : List Token, Phrase.Derives production p (kindsOf ts) → ts.length < bound →
    nextKind rest ∈ follow → ∃ trees, Parses (.rule r) (ts ++ rest) trees rest

/-- The named rules read what they should, below a bound on the length. -/
def NamesCover (bound : Nat) : Prop :=
  ∀ x : Nonterminal, x = .type ∨ x = .expression Grammar.layers →
    x.rule.Covers (production x) x.follow bound

/-- The bound left once a token may have been read. -/
def room (moved : Bool) (n : Nat) : Nat :=
  if moved then n else n + 1

variable {r first second body : Rule} {p q : Words} {follow : List TokenKind} {n : Nat}
  {moved : Bool} {test : Lookahead}

theorem length_lt_room {us vs : List Token} (hu : Phrase.Derives production p (kindsOf us))
    (hl : (us ++ vs).length < room moved n) : vs.length < room (moved || !p.nullable) n := by
  rw [List.length_append] at hl
  cases hp : p.nullable with
  | true =>
    simp only [Bool.not_true, Bool.or_false]
    omega
  | false =>
    have hne := List.length_pos_of_ne_nil (hu.ne_nil startsRight hp)
    rw [length_kindsOf] at hne
    unfold room at hl ⊢
    split_ifs at hl <;> simp <;> omega

theorem Covers.seq
    (h1 : first.Covers p (q.leads Nonterminal.starts follow) (room moved n))
    (h2 : second.Covers q follow (room (moved || !p.nullable) n)) :
    (first.seq second).Covers (p.join q) follow (room moved n) := by
  intro ts rest h hl hr
  obtain ⟨u, v, he, hu, hv⟩ := derives_join.mp h
  obtain ⟨us, vs, rfl, rfl, rfl⟩ := exists_append_of_kindsOf he
  have hlen := length_lt_room hu hl
  rw [List.length_append] at hl
  obtain ⟨xs, hx⟩ := h1 us (vs ++ rest) hu (by omega) (mem_leads hv hr)
  obtain ⟨ys, hy⟩ := h2 vs rest hv hlen hr
  exact ⟨xs ++ ys, by rw [List.append_assoc]; exact .seq hx hy⟩

theorem TellsTurns.holds (h : body.TellsTurns follow test) {input : List Token}
    (hi : nextKind input ∈ follow) : test.holds input = false := by
  cases test with
  | next kinds =>
    have ht : (Lookahead.next kinds).Tells _ follow := h
    exact (ht.holds (by simp) input).2 hi
  | past kinds =>
    have ht : (Lookahead.past kinds).Tells _ follow := h
    exact (ht.holds (by simp) input).2 hi
  | pair first second =>
    have hne : nextKind input ≠ first := fun he => h.1 (he ▸ hi)
    simp [Lookahead.holds, hne]
  | beyond kind => exact h.elim
  | declares kind => exact h.elim

theorem TellsTurns.turns (h : body.TellsTurns follow test) {t : Token} {ts rest : List Token}
    (hd : Phrase.Derives production (turn test body) (kindsOf (t :: ts))) :
    test.holds (t :: ts ++ rest) = true := by
  have hf := hd.mem_first startsRight
  cases test with
  | next kinds =>
    have ht : (Lookahead.next kinds).Tells _ follow := h
    exact (ht.holds (by simp) _).1 hf
  | past kinds =>
    have ht : (Lookahead.past kinds).Tells _ follow := h
    exact (ht.holds (by simp) _).1 hf
  | beyond kind => exact h.elim
  | declares kind => exact h.elim
  | pair first second =>
    obtain ⟨-, h⟩ := h
    split at h
    · rename_i r
      obtain ⟨u, v, he, hu, hv⟩ := derives_join.mp hd
      obtain ⟨us, vs, hts, rfl, rfl⟩ := exists_append_of_kindsOf he
      obtain ⟨k, hk, hus⟩ := derives_word.mp hu
      obtain ⟨x, rfl, rfl⟩ := List.map_eq_singleton_iff.mp hus
      obtain ⟨rfl, rfl⟩ := List.cons.inj hts
      obtain ⟨y, ys, rfl⟩ := List.exists_cons_of_ne_nil
        (List.ne_nil_of_length_pos (by
          rw [← length_kindsOf]
          exact List.length_pos_of_ne_nil (hv.ne_nil startsRight h.1)))
      have hy := List.mem_singleton.mp (h.2 (hv.mem_first startsRight))
      have ht : t.kind = first := by simpa [Ahead.yes, Ahead.keep, Ahead.anything] using hk
      simp [Lookahead.holds, secondKind, nextKind, ht, hy]
    · exact h.elim

theorem Covers.loop (hb : body.Covers (turn test body)
      ((turn test body).first Nonterminal.starts ++ follow) (room moved n))
    (hp : (turn test body).nullable = false) (ht : body.TellsTurns follow test) :
    (loop test body).Covers (.star (turn test body)) follow (room moved n) := by
  intro ts rest h hl hr
  obtain ⟨tss, rfl, hts⟩ := derives_star_kindsOf.mp h
  clear h
  induction tss with
  | nil => exact ⟨[], .finish (ht.holds hr)⟩
  | cons us tss ih =>
    obtain ⟨hu, hvs⟩ := List.forall_mem_cons.mp hts
    rw [List.flatten_cons, List.length_append] at hl
    obtain ⟨ys, hy⟩ := ih hvs (by omega)
    obtain ⟨t, ts, rfl⟩ := List.exists_cons_of_ne_nil (l := us) (by
      rintro rfl
      exact hu.ne_nil startsRight hp rfl)
    have hnext : nextKind (tss.flatten ++ rest) ∈
        (turn test body).first Nonterminal.starts ++ follow :=
      mem_leads (derives_star_kindsOf.mpr ⟨tss, rfl, hvs⟩) hr
    obtain ⟨xs, hx⟩ := hb (t :: ts) (tss.flatten ++ rest) hu (by omega) hnext
    rw [List.flatten_cons, List.append_assoc]
    exact ⟨xs ++ ys, .turn (ht.turns hu)
      (by simp only [List.length_append, List.length_cons]; omega) hx hy⟩

theorem questions_yes {test : Lookahead} {yes no : Rule} {a : Ahead}
    {x : ElementKind × Words × Words} (h : x ∈ yes.questions (a.yes test)) :
    x ∈ (branch test yes no).questions a := by
  cases test with
  | declares kind => exact List.mem_cons_of_mem _ (List.mem_append_left _ h)
  | _ => exact List.mem_append_left _ h

theorem questions_no {test : Lookahead} {yes no : Rule} {a : Ahead}
    {x : ElementKind × Words × Words} (h : x ∈ no.questions (a.no test)) :
    x ∈ (branch test yes no).questions a := by
  cases test with
  | declares kind => exact List.mem_cons_of_mem _ (List.mem_append_right _ h)
  | _ => exact List.mem_append_right _ h

/-- A rule whose tests tell what comes reads what its phrase derives. -/
theorem covers (hn : NamesCover n) (r : Rule) {a : Ahead} {moved : Bool}
    {follow : List TokenKind} (hp : r.predictive a moved follow = true)
    (hq : ∀ x ∈ r.questions a, AnswersRight x.1 x.2.1 x.2.2) :
    r.Covers (r.phrase a) follow (room moved n) := by
  induction r generalizing a moved follow with
  | empty =>
    intro ts rest h _ _
    obtain rfl := List.map_eq_nil_iff.mp (derives_empty.mp h)
    exact ⟨[], .empty⟩
  | take =>
    intro ts rest h _ _
    obtain ⟨k, hk, hts⟩ := derives_word.mp h
    obtain ⟨t, rfl, rfl⟩ := List.map_eq_singleton_iff.mp hts
    have he : .eof ∉ a.next := by simpa [predictive] using hp
    exact ⟨_, .take fun h => he (h ▸ hk)⟩
  | skip => simp [predictive] at hp
  | report => exact fun _ _ h _ _ => absurd h not_derives_fail
  | seq first second ih1 ih2 =>
    rcases Bool.or_eq_true_iff.mp hp with hf | hp
    · intro ts rest h _ _
      rw [of_decide_eq_true hf] at h
      exact absurd h not_derives_fail
    · obtain ⟨h1, h2⟩ := Bool.and_eq_true_iff.mp hp
      exact Covers.seq (ih1 h1 fun x hx => hq x (List.mem_append_left _ hx))
        (ih2 h2 fun x hx => hq x (List.mem_append_right _ hx))
  | branch test yes no ih1 ih2 =>
    intro ts rest h hl hr
    simp only [predictive, Bool.and_eq_true, Bool.or_eq_true, decide_eq_true_eq] at hp
    obtain ⟨⟨ht, hy⟩, hno⟩ := hp
    rcases derives_either.mp h with h | h
    · have hi := mem_leads h hr
      have hy := hy.resolve_left fun hf => not_derives_fail (hf ▸ h)
      obtain ⟨trees, hp⟩ := ih1 hy (fun x hx => hq x (questions_yes hx)) ts rest
        (allow_derives h) hl hr
      refine ⟨trees, .yes (ht.proper (Or.inl hi)) ?_ hp⟩
      cases test with
      | declares kind =>
        have := (hq _ List.mem_cons_self ts rest).1 (allow_derives h)
        simpa [Lookahead.holds] using this
      | _ => exact (ht.holds (by simp) _).1 hi
    · have hi := mem_leads h hr
      have hno := hno.resolve_left fun hf => not_derives_fail (hf ▸ h)
      obtain ⟨trees, hp⟩ := ih2 hno (fun x hx => hq x (questions_no hx)) ts rest
        (allow_derives h) hl hr
      refine ⟨trees, .no (ht.proper (Or.inr hi)) ?_ hp⟩
      cases test with
      | declares kind =>
        have := (hq _ List.mem_cons_self ts rest).2 (allow_derives h)
        simpa [Lookahead.holds] using this
      | _ => exact (ht.holds (by simp) _).2 hi
  | loop test body ih =>
    simp only [predictive, Bool.and_eq_true, Bool.not_eq_true', decide_eq_true_eq] at hp
    exact Covers.loop (ih hp.2 hq) hp.1.1 hp.1.2
  | node kind body ih =>
    intro ts rest h hl hr
    obtain ⟨trees, ht⟩ := ih hp hq ts rest h hl hr
    exact ⟨_, .node ht⟩
  | nodeBy opening test yes no closing ih1 ih2 =>
    intro ts rest h hl hr
    obtain ⟨h1, h2⟩ := Bool.and_eq_true_iff.mp hp
    obtain ⟨trees, ht⟩ := Covers.seq (ih1 h1 fun x hx => hq x (List.mem_append_left _ hx))
        (ih2 h2 fun x hx => hq x (List.mem_append_right _ hx)) ts rest h hl hr
    cases ht with
    | seq ho hc => exact ⟨_, .nodeBy ho hc⟩
  | chain => simp [predictive] at hp
  | call x =>
    intro ts rest h hl hr
    simp only [predictive, Bool.and_eq_true, decide_eq_true_eq] at hp
    obtain ⟨⟨rfl, hx⟩, hf⟩ := hp
    obtain ⟨trees, ht⟩ := hn x hx ts rest (derives_name.mp h) hl (hf hr)
    have hs := mem_leads h hr
    exact ⟨trees, .call (by rcases hx with rfl | rfl; exacts [trivial, List.suffix_rfl])
      (by simpa [leads, phrase, Phrase.first, nullable] using hs) ht⟩

theorem covers_of_check (hn : NamesCover n) (a : Ahead) (moved : Bool)
    (h : r.phrase a = p ∧ r.predictive a moved follow = true ∧ r.questions a = []) :
    r.Covers p follow (room moved n) := by
  obtain ⟨rfl, hp, hq⟩ := h
  exact covers hn r hp (by simp [hq])

end Rule

end PvsIndex
