import PvsIndex.Proofs.Grammar.Correctness
import PvsIndex.Proofs.Grammar.Failing

/-! What was read before the first error can be continued to a text without errors. A check sees to
it that something else could have come wherever a rule reports. -/

namespace PvsIndex

namespace Phrase

variable {ν τ : Type} {production : ν → Phrase ν τ} {p q : Phrase ν τ} {u v : List τ}

/-- Something that the phrase derives begins with the words. -/
def Begins (production : ν → Phrase ν τ) (p : Phrase ν τ) (u : List τ) : Prop :=
  ∃ w, Derives production p (u ++ w)

namespace Begins

theorem join_left (h : Begins production p u) (hq : Begins production q []) :
    Begins production (p.join q) u := by
  obtain ⟨w, hw⟩ := h
  obtain ⟨w', hw'⟩ := hq
  exact ⟨w ++ w', derives_join.mpr ⟨_, _, (List.append_assoc ..).symm, hw, hw'⟩⟩

theorem join_right (hu : Derives production p u) (h : Begins production q v) :
    Begins production (p.join q) (u ++ v) := by
  obtain ⟨w, hw⟩ := h
  exact ⟨w, derives_join.mpr ⟨_, _, List.append_assoc .., hu, hw⟩⟩

theorem star (h : Begins production p u) : Begins production (.star p) u := by
  obtain ⟨w, hw⟩ := h
  have hstar := hw.more .stop
  rw [List.append_nil] at hstar
  exact ⟨w, hstar⟩

theorem more (hu : Derives production p u) (h : Begins production (.star p) v) :
    Begins production (.star p) (u ++ v) := by
  obtain ⟨w, hw⟩ := h
  have hmore := hu.more hw
  rw [← List.append_assoc] at hmore
  exact ⟨w, hmore⟩

theorem star_append (hu : Derives production (.star p) u) (h : Begins production (.star p) v) :
    Begins production (.star p) (u ++ v) := by
  obtain ⟨w, hw⟩ := h
  have hstar := hu.star_append hw
  rw [← List.append_assoc] at hstar
  exact ⟨w, hstar⟩

theorem either_left (h : Begins production p u) : Begins production (p.either q) u := by
  obtain ⟨w, hw⟩ := h
  exact ⟨w, derives_either.mpr (Or.inl hw)⟩

theorem either_right (h : Begins production q u) : Begins production (p.either q) u := by
  obtain ⟨w, hw⟩ := h
  exact ⟨w, derives_either.mpr (Or.inr hw)⟩

end Begins

def productive (names : ν → Bool) : Phrase ν τ → Bool
  | fail => false
  | empty => true
  | word words => !words.isEmpty
  | seq p q => p.productive names && q.productive names
  | alt p q => p.productive names || q.productive names
  | star _ => true
  | name x => names x

theorem begins_nil {names : ν → Bool}
    (hn : ∀ x, names x = true → ∃ w, Derives production (production x) w)
    (hp : p.productive names = true) : Begins production p [] := by
  induction p with
  | fail => cases hp
  | empty => exact ⟨[], .empty⟩
  | word words =>
    cases words with
    | nil => cases hp
    | cons x words => exact ⟨[x], .word List.mem_cons_self⟩
  | seq p q ih1 ih2 =>
    obtain ⟨hp1, hp2⟩ := Bool.and_eq_true_iff.mp hp
    obtain ⟨u, hu⟩ := ih1 hp1
    obtain ⟨v, hv⟩ := ih2 hp2
    have h : Derives production (.seq p q) (u ++ v) := .seq hu hv
    exact ⟨u ++ v, h⟩
  | alt p q ih1 ih2 =>
    rcases Bool.or_eq_true_iff.mp hp with hp | hp
    · obtain ⟨w, hw⟩ := ih1 hp
      exact ⟨w, .left hw⟩
    · obtain ⟨w, hw⟩ := ih2 hp
      exact ⟨w, .right hw⟩
  | star => exact ⟨[], .stop⟩
  | name x =>
    obtain ⟨w, hw⟩ := hn x hp
    exact ⟨w, .name hw⟩

end Phrase

open Phrase PvsIndex.Language

theorem derives_number (layers : List Layer) :
    Phrase.Derives production (layered layers) [.number] := by
  induction layers with
  | nil => exact .seq (v := []) (.left (.word List.mem_cons_self)) .stop
  | cons layer layers ih =>
    cases layer with
    | binary operators => exact .seq (v := []) ih .stop
    | unary operators => exact .right ih

theorem Nonterminal.exists_derives {x : Nonterminal} (h : x.Known) :
    ∃ w, Phrase.Derives production (production x) w := by
  cases x with
  | text => exact h.elim
  | type =>
    refine ⟨[.identifier], .left (.seq (v := []) (.word List.mem_cons_self) (.right .empty))⟩
  | expression layers => exact ⟨_, derives_number layers⟩

namespace Rule

/-- Something is accepted, given what is known where the rule begins. -/
def offers (r : Rule) (a : Ahead) : Bool :=
  (r.phrase a).productive fun x => decide x.Known

theorem begins_nil {r : Rule} {a : Ahead} (h : r.offers a = true) :
    Phrase.Begins production (r.phrase a) [] :=
  Phrase.begins_nil (fun _ hx => Nonterminal.exists_derives (of_decide_eq_true hx)) h

/-- The rule takes what begins another turn of the loop, and refuses to go on. -/
def interrupts : Rule → Rule → Bool
  | branch (.next kinds) (seq take more) empty, loop test (seq take item) =>
    kinds ⊆ (Ahead.anything.yes test).next && more.refuses && item.offers .anything
  | _, _ => false

/-- Wherever the rule reports, something is accepted instead. -/
def completes : Rule → Ahead → Bool
  | report _, _ => false
  | seq first second, a => first.completes a && second.offers .anything &&
      (second.completes .anything || second.interrupts first)
  | branch test yes no, a =>
    let offered := (branch test yes no).offers a
    (yes.completes (a.yes test) || yes.refuses && offered) &&
      (no.completes (a.no test) || no.refuses && offered)
  | loop test body, _ => body.completes (Ahead.anything.yes test)
  | node _ body, a => body.completes a
  | nodeBy opening _ _ _ closing, a =>
    opening.completes a && closing.offers .anything && closing.completes .anything
  | chain _ head test tail, a =>
    head.completes a && tail.completes (Ahead.anything.yes test)
  | empty, _ | take, _ | skip, _ | .call _, _ => true

end Rule

theorem Grammar.theories_completes : theories.completes .anything = true := by
  decide +kernel

theorem Nonterminal.completes {name : Nonterminal} (h : name.Known) :
    name.rule.completes (.ofNext name.starts) = true := by
  have layered : ∀ layers ∈ Grammar.layers.tails, (Grammar.layered layers).completes
      (.ofNext (Grammar.expressionStarts layers)) = true := by decide +kernel
  have type : Grammar.typeExpression.completes (.ofNext Grammar.typeStarts) = true := by
    decide +kernel
  cases name with
  | text => exact h.elim
  | type => exact type
  | expression layers => exact layered layers ((List.mem_tails _ _).mpr h)

variable {rest ts : List Token} {trees : List Tree}

/-- What a rule took of another turn of a loop can be continued to a whole turn. -/
theorem Rule.interrupts_begins {r first : Rule} {a : Ahead} {u : List TokenKind}
    (hr : r.interrupts first = true) (hu : Phrase.Derives production (first.phrase a) u)
    (h : Fails (.rule r) (ts ++ rest) trees rest) :
    Phrase.Begins production (first.phrase a) (u ++ kindsOf ts) := by
  unfold interrupts at hr
  split at hr
  case h_2 => cases hr
  case h_1 kinds more test item =>
    simp only [Bool.and_eq_true, decide_eq_true_eq] at hr
    obtain ⟨⟨hkinds, hmore⟩, hitem⟩ := hr
    generalize hinput : ts ++ rest = input at h
    cases h with
    | no _ _ h => cases h
    | yes _ ht h =>
      cases h with
      | first h => cases h
      | second head next =>
        cases head with
        | @take t =>
          obtain rfl := rest_eq_of_refuses hmore next
          obtain rfl : ts = [t] := List.append_cancel_right hinput
          have hk : t.kind ∈ kinds := by simpa [Lookahead.holds] using ht
          have hturn : Phrase.Begins production (turn test (.seq .take item)) [t.kind] :=
            .join_right (.word (hkinds hk)) (begins_nil hitem)
          exact .star_append hu hturn.star

/-- What the piece accepts begins with the words. -/
def Piece.Viable (words : List TokenKind) (input : List Token) : Piece → Prop
  | rule r => ∀ a : Ahead, a.Holds input → r.completes a = true →
      Phrase.Begins production (r.phrase a) words
  | chain _ test tail _ => tail.completes (Ahead.anything.yes test) = true →
      Phrase.Begins production (.star (tail.phrase (Ahead.anything.yes test))) words

/-- What is read up to the first error can be continued to something that is accepted. -/
theorem Fails.viable {piece : Piece} {input : List Token} (h : Fails piece input trees rest) :
    ∃ ts, input = ts ++ rest ∧ piece.Viable (kindsOf ts) input := by
  induction h with
  | report => exact ⟨[], rfl, fun _ _ hc => absurd hc Bool.false_ne_true⟩
  | first _ ih =>
    obtain ⟨ts, rfl, h⟩ := ih
    refine ⟨ts, rfl, fun a ha hc => ?_⟩
    simp only [Rule.completes, Bool.and_eq_true] at hc
    exact (h a ha hc.1.1).join_left (Rule.begins_nil hc.1.2)
  | second head next ih =>
    obtain ⟨ts, rfl, h1⟩ := head.accepts
    obtain ⟨us, rfl, h2⟩ := ih
    refine ⟨ts ++ us, (List.append_assoc ..).symm, fun a ha hc => ?_⟩
    simp only [Rule.completes, Bool.and_eq_true, Bool.or_eq_true] at hc
    rw [kindsOf_append]
    rcases hc.2 with hsecond | hsecond
    · exact .join_right (h1 a ha) (h2 _ (Ahead.holds_anything _) hsecond)
    · exact (Rule.interrupts_begins hsecond (h1 a ha) next).join_left (Rule.begins_nil hc.1.2)
  | yes _ ht hf ih =>
    obtain ⟨ts, rfl, h⟩ := ih
    refine ⟨ts, rfl, fun a ha hc => ?_⟩
    simp only [Rule.completes, Bool.and_eq_true, Bool.or_eq_true] at hc
    rcases hc.1 with hc | ⟨hr, ho⟩
    · refine Phrase.Begins.either_left ?_
      rw [(ha.yes ht).allow]
      exact h _ (ha.yes ht) hc
    · obtain rfl := List.self_eq_append_left.mp (Rule.rest_eq_of_refuses hr hf)
      exact Rule.begins_nil ho
  | no _ ht hf ih =>
    obtain ⟨ts, rfl, h⟩ := ih
    refine ⟨ts, rfl, fun a ha hc => ?_⟩
    simp only [Rule.completes, Bool.and_eq_true, Bool.or_eq_true] at hc
    rcases hc.2 with hc | ⟨hr, ho⟩
    · refine Phrase.Begins.either_right ?_
      rw [(ha.no ht).allow]
      exact h _ (ha.no ht) hc
    · obtain rfl := List.self_eq_append_left.mp (Rule.rest_eq_of_refuses hr hf)
      exact Rule.begins_nil ho
  | turn ht _ ih =>
    obtain ⟨ts, rfl, h⟩ := ih
    exact ⟨ts, rfl, fun _ _ hc => (h _ ((Ahead.holds_anything _).yes ht) hc).star⟩
  | again ht _ once _ ih =>
    obtain ⟨ts, rfl, h1⟩ := once.accepts
    obtain ⟨us, rfl, h2⟩ := ih
    refine ⟨ts ++ us, (List.append_assoc ..).symm, fun _ _ hc => ?_⟩
    rw [kindsOf_append]
    exact .more (h1 _ ((Ahead.holds_anything _).yes ht)) (h2 _ (Ahead.holds_anything _) hc)
  | node _ ih => exact ih
  | opening _ ih =>
    obtain ⟨ts, rfl, h⟩ := ih
    refine ⟨ts, rfl, fun a ha hc => ?_⟩
    simp only [Rule.completes, Bool.and_eq_true] at hc
    exact (h a ha hc.1.1).join_left (Rule.begins_nil hc.1.2)
  | closing opened _ ih =>
    obtain ⟨ts, rfl, h1⟩ := opened.accepts
    obtain ⟨us, rfl, h2⟩ := ih
    refine ⟨ts ++ us, (List.append_assoc ..).symm, fun a ha hc => ?_⟩
    simp only [Rule.completes, Bool.and_eq_true] at hc
    rw [kindsOf_append]
    exact .join_right (h1 a ha) (h2 _ (Ahead.holds_anything _) hc.2)
  | head _ ih =>
    obtain ⟨ts, rfl, h⟩ := ih
    refine ⟨ts, rfl, fun a ha hc => ?_⟩
    exact (h a ha (Bool.and_eq_true_iff.mp hc).1).join_left ⟨[], .stop⟩
  | links first _ _ ih =>
    obtain ⟨ts, rfl, h1⟩ := first.accepts
    obtain ⟨us, rfl, h2⟩ := ih
    refine ⟨ts ++ us, (List.append_assoc ..).symm, fun a ha hc => ?_⟩
    rw [kindsOf_append]
    exact .join_right (h1 a ha) (h2 (Bool.and_eq_true_iff.mp hc).2)
  | link ht _ ih =>
    obtain ⟨ts, rfl, h⟩ := ih
    exact ⟨ts, rfl, fun hc => (h _ ((Ahead.holds_anything _).yes ht) hc).star⟩
  | relink ht _ once _ ih =>
    obtain ⟨ts, rfl, h1⟩ := once.accepts
    obtain ⟨us, rfl, h2⟩ := ih
    refine ⟨ts ++ us, (List.append_assoc ..).symm, fun hc => ?_⟩
    rw [kindsOf_append]
    exact .more (h1 _ ((Ahead.holds_anything _).yes ht)) (h2 hc)
  | call hk hs _ ih =>
    obtain ⟨ts, rfl, h⟩ := ih
    refine ⟨ts, rfl, fun _ _ _ => ?_⟩
    obtain ⟨w, hw⟩ := h _ (Ahead.holds_ofNext.mpr hs) (Nonterminal.completes hk)
    rw [Nonterminal.phrase_rule hk] at hw
    exact ⟨w, .name hw⟩

/-- Some sequence that the named phrase derives begins with these kinds. -/
def Nonterminal.Begins (name : Nonterminal) (kinds : List TokenKind) : Prop :=
  Phrase.Begins production (.name name) kinds

/-- What is read up to the first error is the beginning of a text without errors. -/
theorem Fails.begins {read : List Token}
    (h : Fails (.rule Grammar.theories) (read ++ rest) trees rest) :
    Nonterminal.text.Begins (kindsOf read) := by
  obtain ⟨ts, hts, hv⟩ := h.viable
  obtain rfl := List.append_cancel_right hts
  have hbegins := hv .anything (Ahead.holds_anything _) Grammar.theories_completes
  rw [phrase_theories] at hbegins
  obtain ⟨w, hw⟩ := hbegins
  obtain ⟨v, hv⟩ := Phrase.begins_nil (fun _ hx => Nonterminal.exists_derives
    (of_decide_eq_true hx)) (p := theory) (by decide)
  have hne : v ≠ [] := hv.ne_nil startsRight (by decide)
  have hmore := hw.star_append (.more hv .stop)
  refine ⟨w ++ v ++ [.eof], derives_text.mpr ⟨_, ?_, ?_, hmore⟩⟩
  · simp
  · simp [hne]

end PvsIndex
