import PvsIndex.Proofs.Checked.Discipline
import PvsIndex.Proofs.Grammar.Parts

/-! Types and expressions leave the parser as it is or become one new element, and every loop of the
grammar passes a token each time round. -/

namespace PvsIndex

namespace Checked.Parser

open PvsIndex.Tree

/-- A turn of a loop: the test holds, and the body is followed. -/
def Turn (test : Lookahead) (body : Rule) (p q : Parser) : Prop :=
  p.asks test = pure true ∧ ∃ e, p.follow body = pure (e, q)

/-- A link of a chain: the test holds, the element on the left may become a first child, and with
what follows it becomes part of a new element. -/
def Link (kind : ElementKind) (test : Lookahead) (tail : Rule) (left : Completed) (p : Parser)
    (done : Completed) (q : Parser) : Prop :=
  p.asks test = pure true ∧ p.startParent left = pure left.depth ∧
    ∃ e r, p.follow tail = pure (e, r) ∧ r.endElement kind left.depth = pure (done, q)

variable {text : String} {forest children : List Tree} {c d : Cursor}
  {errors more : List SyntaxError} {p : Parser}

section

variable (hc : c.input <:+ (Tokens.ofText text).significant)

include hc

theorem current_lt_after {trees : List Tree} (h : d.input.length < c.input.length) :
    (after text forest c errors).current < (after text trees d more).current := by
  have hle := hc.length_le
  simp only [after]
  omega

theorem yields_after (kind : ElementKind) (hd : d.input <:+ c.input)
    (h : d.input.length < c.input.length) :
    (after text forest c errors).Yields (.built forest children)
      (after text (forest ++ [.node kind children]) d (errors ++ more)) where
  toKeeps := keeps_after hd
  progress := current_lt_after hc h
  top := tops_after kind
  last := by simp [after, length_cellsOf, Nat.add_assoc]

/-- Where a type or an expression does not begin, the parser stays as it is. -/
theorem phrase_none {phrase : List TokenKind × Rule} (hp : phrase ∈ Grammar.phrases)
    (h : nextKind c.input ∉ phrase.1) :
    (after text forest c errors).follow phrase.2 = pure (none, after text forest c errors) := by
  obtain ⟨-, ho, hs⟩ := Grammar.phrases_advance phrase hp
  obtain ⟨e, hfollow, hm⟩ := follows_of_reads (Reads.phrase_stay hp h) ho hc forest errors
  rw [Step.stay_trees, Step.stay_errors, Step.stay_cursor, List.append_nil, List.append_nil]
    at hfollow
  cases e with
  | none => exact hfollow
  | some e =>
    obtain ⟨kind, children, hnil, -⟩ := hm hs
    cases hnil

/-- Where a type or an expression begins, it becomes one element, whether it is complete or not. -/
theorem phrase_some {phrase : List TokenKind × Rule} (hp : phrase ∈ Grammar.phrases)
    (h : nextKind c.input ∈ phrase.1) : ∃ done q,
      (after text forest c errors).follow phrase.2 = pure (some done, q) ∧
        (after text forest c errors).Yields done q ∧ q.OfText text := by
  obtain ⟨hturns, ho, hs⟩ := Grammar.phrases_advance phrase hp
  have ht : (Lookahead.next phrase.1).holds c.input = true := by
    simpa [Lookahead.holds] using h
  obtain ⟨s, hr, hlt⟩ := Reads.exists_turn hturns ht
  obtain ⟨e, hfollow, hm⟩ := follows_of_reads hr ho hc forest errors
  cases e with
  | none => exact absurd (hm hs) (hr.trees_ne_nil hlt)
  | some done =>
    obtain ⟨kind, children, htrees, rfl⟩ := hm hs
    rw [htrees] at hfollow
    exact ⟨_, _, hfollow, yields_after hc kind hr.input_suffix hlt,
      ofText_after (hr.input_suffix.trans hc)⟩

theorem entry_after {entry : List TokenKind × Rule} (he : entry ∈ Grammar.entries)
    (h : nextKind c.input ∈ entry.1) : ∃ e q,
      (after text forest c errors).follow entry.2 = pure (e, q) ∧
        (after text forest c errors).Keeps q ∧ q.OfText text := by
  obtain ⟨hflow, ho⟩ := Grammar.entries_flow entry he
  obtain ⟨s, hr⟩ := Reads.exists_of_flow hflow h
  obtain ⟨e, hfollow, -⟩ := follows_of_reads hr ho hc forest errors
  exact ⟨e, _, hfollow, keeps_after hr.input_suffix, ofText_after (hr.input_suffix.trans hc)⟩

theorem turn_after {test : Lookahead} {body : Rule} (h : Flow.Turns test body.flow)
    (ho : body.orderly = true) (ht : test.holds c.input = true) : ∃ e trees more d,
      d.input <:+ c.input ∧ d.input.length < c.input.length ∧
        (after text forest c errors).follow body =
          pure (e, after text (forest ++ trees) d (errors ++ more)) := by
  obtain ⟨s, hr, hlt⟩ := Reads.exists_turn h ht
  obtain ⟨e, hfollow, -⟩ := follows_of_reads hr ho hc forest errors
  exact ⟨e, _, _, _, hr.input_suffix, hlt, hfollow⟩

theorem passNames_turn (i : Nat) :
    (after text forest c errors).passNames i = pure i ∨
      (after text forest c errors).passNames i = (after text forest c errors).passNames (i + 2) ∧
        i + 2 ≤ c.input.length := by
  have hturn : (after text forest c errors).passNames i =
      if nextKind (c.input.drop i) = .comma ∧ nextKind (c.input.drop (i + 1)) = .identifier then
        (after text forest c errors).passNames (i + 2)
      else pure i := by
    rw [passNames, nth_after hc, pure_bind, nth_after hc, pure_bind]
  rw [hturn]
  split_ifs with h
  · refine Or.inr ⟨rfl, ?_⟩
    by_contra hlt
    have hnil : c.input.drop (i + 1) = [] := List.drop_eq_nil_of_le (by omega)
    rw [hnil] at h
    exact absurd h.2 (by decide)
  · exact Or.inl rfl

end

/-- Either the end of the text is taken or a declaration is told apart where no name begins, or the
work is done and extends what was there. No other check fails. -/
def Settles (text : String) (forest : List Tree) (c : Cursor) (errors : List SyntaxError)
    (work : Checked (Option Completed × Parser)) : Prop :=
  (∃ breach ∈ [Breach.takesEnd, .notAtName], work = throw breach) ∨
    ∃ e q, work = pure (e, q) ∧ Extends text forest c errors e q

theorem settles_of_extends {q : Parser} {e : Option Completed}
    (h : Extends text forest c errors e q) : Settles text forest c errors (pure (e, q)) :=
  Or.inr ⟨e, q, rfl, h⟩

theorem Settles.bind {work : Checked (Option Completed × Parser)}
    {rest : Option Completed × Parser → Checked (Option Completed × Parser)}
    {forest' : List Tree} {c' : Cursor} {errors' : List SyntaxError}
    (h : Settles text forest' c' errors' work)
    (hrest : ∀ (e : Option Completed) (trees : List Tree) (more : List SyntaxError) (d : Cursor),
      d.input <:+ c'.input → (∀ done, e = some done → Marks forest' trees (some done)) →
      Settles text forest c errors (rest (e, after text (forest' ++ trees) d (errors' ++ more)))) :
    Settles text forest c errors (work >>= rest) := by
  obtain ⟨breach, hbreach, rfl⟩ | ⟨e, q, rfl, trees, d, more, hd, rfl, hm⟩ := h
  · exact Or.inl ⟨breach, hbreach, rfl⟩
  · exact hrest e trees more d hd hm

theorem asks_settles (hc : c.input <:+ (Tokens.ofText text).significant) (test : Lookahead) :
    (after text forest c errors).asks test = throw .notAtName ∨
      (after text forest c errors).asks test = pure (test.holds c.input) := by
  by_cases h : test.Proper c.input
  · exact Or.inr (asks_after hc h)
  · cases test with
    | declares kind =>
      have hname : ¬ nextKind c.input = .identifier := h
      have hahead : (after text forest c errors).declarationAhead = throw .notAtName := by
        rw [declarationAhead, next_after hc, pure_bind, require, if_neg hname]
        rfl
      refine Or.inl ?_
      rw [asks, hahead]
      rfl
    | _ => exact absurd trivial h

section Turns

variable {kind : ElementKind} {test : Lookahead} {head body tail : Rule}

/-- A loop is over, or goes on behind a turn of it, which passes a token. -/
theorem loop_after (h : .loop test body ∈ Grammar.rules)
    (hc : c.input <:+ (Tokens.ofText text).significant) :
    (after text forest c errors).asks test = pure false ∧
        (after text forest c errors).follow (.loop test body) =
          pure (none, after text forest c errors) ∨
      ∃ trees more d, d.input <:+ c.input ∧ d.input.length < c.input.length ∧
        Turn test body (after text forest c errors)
          (after text (forest ++ trees) d (errors ++ more)) ∧
        (after text forest c errors).follow (.loop test body) =
          (after text (forest ++ trees) d (errors ++ more)).follow (.loop test body) := by
  obtain ⟨hnear, ho⟩ := Bool.and_eq_true_iff.mp (Grammar.rules_orderly _ h)
  have hasks : (after text forest c errors).asks test = pure (test.holds c.input) :=
    asks_after hc (Lookahead.proper_of_near hnear _)
  cases ht : test.holds c.input with
  | false =>
    rw [ht] at hasks
    refine Or.inl ⟨hasks, ?_⟩
    rw [follow, hasks, pure_bind, if_neg Bool.false_ne_true]
  | true =>
    rw [ht] at hasks
    obtain ⟨e, trees, more, d, hd, hlt, hfollow⟩ := @turn_after text forest c errors hc test body
      (Grammar.rules_advance _ h) ho ht
    refine Or.inr ⟨trees, more, d, hd, hlt, ⟨hasks, e, hfollow⟩, ?_⟩
    rw [follow, hasks, pure_bind, if_pos rfl, hfollow, pure_bind]

/-- A chain is over, or goes on behind a link of it, which passes a token and puts one new element
in place of the left side. -/
theorem chain_after {k : ElementKind} (h : .chain kind head test tail ∈ Grammar.rules)
    (hc : c.input <:+ (Tokens.ofText text).significant) :
    (after text (forest ++ [.node k children]) c errors).asks test = pure false ∧
        (after text (forest ++ [.node k children]) c errors).grow kind test tail
            (.built forest children) =
          pure (some (.built forest children), after text (forest ++ [.node k children]) c errors) ∨
      ∃ trees more d, d.input <:+ c.input ∧ d.input.length < c.input.length ∧
        Link kind test tail (.built forest children)
          (after text (forest ++ [.node k children]) c errors) (.built forest trees)
          (after text (forest ++ [.node kind trees]) d (errors ++ more)) ∧
        (after text (forest ++ [.node k children]) c errors).grow kind test tail
            (.built forest children) =
          (after text (forest ++ [.node kind trees]) d (errors ++ more)).grow kind test tail
            (.built forest trees) := by
  obtain ⟨hnear, ho⟩ := Bool.and_eq_true_iff.mp (Grammar.rules_orderly _ h)
  obtain ⟨-, hnear⟩ := Bool.and_eq_true_iff.mp hnear
  obtain ⟨-, ho⟩ := Bool.and_eq_true_iff.mp ho
  have hasks : (after text (forest ++ [.node k children]) c errors).asks test =
      pure (test.holds c.input) :=
    asks_after hc (Lookahead.proper_of_near hnear _)
  cases ht : test.holds c.input with
  | false =>
    rw [ht] at hasks
    refine Or.inl ⟨hasks, ?_⟩
    rw [grow, hasks, pure_bind, if_neg Bool.false_ne_true]
  | true =>
    rw [ht] at hasks
    obtain ⟨e, trees, more, d, hd, hlt, hfollow⟩ := @turn_after text
      (forest ++ [.node k children]) c errors hc test tail (Grammar.rules_advance _ h) ho ht
    rw [List.append_assoc] at hfollow
    have hend := @endElement_after text forest ([.node k children] ++ trees) d (errors ++ more) kind
    refine Or.inr ⟨[.node k children] ++ trees, more, d, hd, hlt,
      ⟨hasks, startParent_after, e, _, hfollow, hend⟩, ?_⟩
    rw [grow, hasks, pure_bind, if_pos rfl, startParent_after, pure_bind, hfollow, pure_bind]
    dsimp only
    rw [hend, pure_bind]

theorem loop_extends (h : .loop test body ∈ Grammar.rules)
    (hc : c.input <:+ (Tokens.ofText text).significant) : ∃ q,
      (after text forest c errors).follow (.loop test body) = pure (none, q) ∧
        Extends text forest c errors none q := by
  induction hn : c.input.length using Nat.strong_induction_on generalizing forest c errors with
  | _ n ih =>
    obtain ⟨-, hover⟩ | ⟨trees, more, d, hd, hlt, -, hagain⟩ :=
      @loop_after text forest c errors test body h hc
    · exact ⟨_, hover, extends_rfl⟩
    · obtain ⟨q, hq, hx⟩ := ih _ (hn ▸ hlt) (hd.trans hc) rfl
      exact ⟨q, hagain.trans hq, hx.trans hd⟩

theorem chain_extends {k : ElementKind} (h : .chain kind head test tail ∈ Grammar.rules)
    (hc : c.input <:+ (Tokens.ofText text).significant) : ∃ e q,
      (after text (forest ++ [.node k children]) c errors).grow kind test tail
          (.built forest children) = pure (e, q) ∧
        Extends text forest c errors e q := by
  induction hn : c.input.length using Nat.strong_induction_on
    generalizing k children c errors with
  | _ n ih =>
    obtain ⟨-, hover⟩ | ⟨trees, more, d, hd, hlt, -, hagain⟩ :=
      @chain_after text forest children c errors kind test head tail k h hc
    · have hx := @extends_node text forest children c c errors [] k List.suffix_rfl
      rw [List.append_nil] at hx
      exact ⟨_, _, hover, hx⟩
    · obtain ⟨e, q, hq, hx⟩ := ih _ (hn ▸ hlt) (hd.trans hc) rfl
      exact ⟨e, q, hagain.trans hq, hx.later hd⟩

end Turns

/-- A named rule is a phrase, and so comes to an end wherever it is entered. -/
theorem call_extends {name : Nonterminal} (h : name.Known)
    (hc : c.input <:+ (Tokens.ofText text).significant) :
    ∃ e q, (after text forest c errors).follow name.rule = pure (e, q) ∧
      Extends text forest c errors e q := by
  have hphrase := Grammar.mem_phrases h
  obtain ⟨-, ho, hs⟩ := Grammar.phrases_advance _ hphrase
  obtain ⟨s, hr⟩ := @Reads.exists_of_phrase (Tokens.ofText text).endOfText c _ hphrase
  obtain ⟨e, hfollow, hm⟩ := follows_of_reads hr ho hc forest errors
  exact ⟨e, _, hfollow, s.trees, s.cursor, s.errors, hr.input_suffix, rfl, fun _ he => he ▸ hm hs⟩

/-- Whatever rule of the grammar is followed, wherever: either a check fails, or it comes to an end
and has only built on top of what was there. -/
theorem follow_settles {r : Rule} (h : r ∈ Grammar.rules)
    (hc : c.input <:+ (Tokens.ofText text).significant) :
    Settles text forest c errors ((after text forest c errors).follow r) := by
  -- By induction on the rule. Named rules are phrases, and loops and chains have ends of their own,
  -- so what they lead back to is not met again.
  induction r generalizing forest c errors with
  | empty =>
    rw [follow]
    exact settles_of_extends extends_rfl
  | take =>
    rw [follow]
    by_cases hend : nextKind c.input = .eof
    · rw [bump_eof hc hend]
      exact Or.inl ⟨.takesEnd, by decide, rfl⟩
    · obtain ⟨q, hq, hx⟩ := @bump_extends text forest c errors hc hend
      rw [hq, pure_bind]
      exact settles_of_extends hx
  | skip =>
    obtain ⟨q, hq, hx⟩ := @skip_extends text forest c errors hc
    rw [follow, hq, pure_bind]
    exact settles_of_extends hx
  | report complaint =>
    obtain ⟨q, hq, hx⟩ := @report_extends text forest c errors hc complaint
    rw [follow, hq, pure_bind]
    exact settles_of_extends hx
  | seq first second ih1 ih2 =>
    have h1 : first ∈ Grammar.rules := Grammar.rules_parts h (by simp [Rule.parts])
    have h2 : second ∈ Grammar.rules := Grammar.rules_parts h (by simp [Rule.parts])
    rw [follow]
    refine (ih1 h1 hc).bind fun e trees more d hd _ => ?_
    refine (ih2 h2 (hd.trans hc)).bind fun e trees' more' d' hd' _ => ?_
    rw [List.append_assoc, List.append_assoc]
    exact settles_of_extends (extends_none (hd'.trans hd))
  | branch test yes no ih1 ih2 =>
    have h1 : yes ∈ Grammar.rules := Grammar.rules_parts h (by simp [Rule.parts])
    have h2 : no ∈ Grammar.rules := Grammar.rules_parts h (by simp [Rule.parts])
    rw [follow]
    obtain hasks | hasks := @asks_settles text forest c errors hc test
    · rw [hasks]
      exact Or.inl ⟨.notAtName, by decide, rfl⟩
    · rw [hasks, pure_bind]
      split
      · exact ih1 h1 hc
      · exact ih2 h2 hc
  | loop test body =>
    obtain ⟨q, hq, hx⟩ := @loop_extends text forest c errors test body h hc
    rw [hq]
    exact settles_of_extends hx
  | node kind body ih =>
    have h1 : body ∈ Grammar.rules := Grammar.rules_parts h (by simp [Rule.parts])
    rw [follow]
    dsimp only
    refine (ih h1 hc).bind fun e trees more d hd _ => ?_
    dsimp only
    rw [depth_after, endElement_after, pure_bind]
    exact settles_of_extends (extends_node kind hd)
  | nodeBy opening test yes no closing ih1 ih2 =>
    have h1 : opening ∈ Grammar.rules := Grammar.rules_parts h (by simp [Rule.parts])
    have h2 : closing ∈ Grammar.rules := Grammar.rules_parts h (by simp [Rule.parts])
    rw [follow]
    dsimp only
    refine (ih1 h1 hc).bind fun e trees more d hd _ => ?_
    dsimp only
    obtain hasks | hasks :=
      @asks_settles text (forest ++ trees) d (errors ++ more) (hd.trans hc) test
    · rw [hasks]
      exact Or.inl ⟨.notAtName, by decide, rfl⟩
    · rw [hasks, pure_bind]
      refine (ih2 h2 (hd.trans hc)).bind fun e trees' more' d' hd' _ => ?_
      dsimp only
      rw [depth_after, List.append_assoc, List.append_assoc, endElement_after, pure_bind]
      exact settles_of_extends (extends_node _ (hd'.trans hd))
  | chain kind head test tail ih1 _ =>
    have h1 : head ∈ Grammar.rules := Grammar.rules_parts h (by simp [Rule.parts])
    rw [follow]
    refine (ih1 h1 hc).bind fun e trees more d hd hm => ?_
    cases e with
    | none => exact settles_of_extends (extends_none hd)
    | some left =>
      obtain ⟨k, children, rfl, rfl⟩ := hm left rfl
      obtain ⟨e, q, hgrow, hx⟩ := @chain_extends text forest children d (errors ++ more) kind test
        head tail k h (hd.trans hc)
      dsimp only
      rw [hgrow]
      exact settles_of_extends (hx.later hd)
  | call name =>
    obtain ⟨e, q, hq, hx⟩ := @call_extends text forest c errors name
      (Grammar.rules_advance _ h) hc
    rw [follow, hq]
    exact settles_of_extends hx

theorem OfText.exists_top {below : List Node} {left : Completed} (hp : p.OfText text)
    (h : p.Tops below left) : ∃ forest kind children c errors,
      c.input <:+ (Tokens.ofText text).significant ∧
        below = nodesAt (Tokens.ofText text).id 0 forest ∧
          left = .built forest children ∧
            p = after text (forest ++ [.node kind children]) c errors := by
  obtain ⟨all, c, errors, hc, rfl⟩ := hp
  obtain ⟨depth, element⟩ := left
  obtain ⟨hstack, rfl⟩ := h
  have hnodes : nodesAt (Tokens.ofText text).id 0 all = below ++ [.element element] := hstack
  rcases List.eq_nil_or_concat all with rfl | ⟨forest, t, rfl⟩
  · rw [nodesAt_nil] at hnodes
    exact absurd hnodes.symm (by simp)
  · rw [List.concat_eq_append, nodesAt_append] at hnodes
    obtain ⟨hbelow, hlast⟩ := List.append_inj' hnodes rfl
    cases t with
    | leaf t => cases hlast
    | node kind children =>
      have helement : countOf forest + countOf children = element := by
        simpa [nodeAt] using hlast
      refine ⟨forest, kind, children, c, errors, hc, hbelow.symm, ?_, by
        rw [List.concat_eq_append]⟩
      rw [← hbelow, length_nodesAt, ← helement]

/-- In every state of a parser of a text:
- a type, and an expression from any layer on, leaves the parser as it is if it does not begin with
  the next token; otherwise it passes tokens and becomes the one new node, which is named;
- every other rule comes to an end wherever it may be entered, and builds on top of what was there;
- so does every rule that these are made of, wherever it is followed, unless it takes the end of the
  text or tells a declaration apart where no name begins: no check of the stack or of the elements
  ever fails;
- a loop is over, or its next turn passes a token; a chain is over, or its next link passes a token
  and leaves one element in place of the left side; and the look ahead over names is over, or goes
  on behind two tokens of the text. -/
theorem stack_discipline (text : String) :
    (∀ phrase ∈ Grammar.phrases, ∀ p : Parser, p.OfText text → ∃ kind, p.next = pure kind ∧
      (kind ∉ phrase.1 ∧ p.follow phrase.2 = pure (none, p) ∨
        kind ∈ phrase.1 ∧ ∃ done q, p.follow phrase.2 = pure (some done, q) ∧ p.Yields done q ∧
          q.OfText text)) ∧
    (∀ entry ∈ Grammar.entries, ∀ (p : Parser) (kind : TokenKind), p.OfText text →
      p.next = pure kind → kind ∈ entry.1 → ∃ e q, p.follow entry.2 = pure (e, q) ∧ p.Keeps q ∧
        q.OfText text) ∧
    (∀ r ∈ Grammar.rules, ∀ p : Parser, p.OfText text →
      (∃ breach ∈ [Breach.takesEnd, .notAtName], p.follow r = throw breach) ∨
      ∃ e q, p.follow r = pure (e, q) ∧ p.Keeps q ∧ q.OfText text ∧
        ∀ done, e = some done → q.Tops p.stack done) ∧
    (∀ (test : Lookahead) (body : Rule), .loop test body ∈ Grammar.rules →
      ∀ p : Parser, p.OfText text →
        p.asks test = pure false ∧ p.follow (.loop test body) = pure (none, p) ∨
        ∃ q, Turn test body p q ∧ p.current < q.current ∧ p.Keeps q ∧ q.OfText text ∧
          p.follow (.loop test body) = q.follow (.loop test body)) ∧
    (∀ (kind : ElementKind) (head : Rule) (test : Lookahead) (tail : Rule),
      .chain kind head test tail ∈ Grammar.rules →
      ∀ (p : Parser) (below : List Node) (left : Completed), p.OfText text → p.Tops below left →
        p.asks test = pure false ∧ p.grow kind test tail left = pure (some left, p) ∨
        ∃ done q, Link kind test tail left p done q ∧ p.current < q.current ∧ q.Tops below done ∧
          q.OfText text ∧ p.grow kind test tail left = q.grow kind test tail done) ∧
    (∀ (p : Parser) (i : Nat), p.OfText text → p.passNames i = pure i ∨
      p.passNames i = p.passNames (i + 2) ∧ p.current + (i + 2) < p.significant.length) := by
  refine ⟨?phrases, ?entries, ?rules, ?loops, ?chains, ?names⟩
  case phrases =>
    rintro phrase hphrase _ ⟨forest, c, errors, hc, rfl⟩
    refine ⟨nextKind c.input, next_after hc, ?_⟩
    by_cases h : nextKind c.input ∈ phrase.1
    · exact Or.inr ⟨h, phrase_some hc hphrase h⟩
    · exact Or.inl ⟨h, phrase_none hc hphrase h⟩
  case entries =>
    rintro entry hentry _ kind ⟨forest, c, errors, hc, rfl⟩ hnext hkind
    obtain rfl := pure_inj ((next_after hc).symm.trans hnext)
    exact entry_after hc hentry hkind
  case rules =>
    rintro r hr _ ⟨forest, c, errors, hc, rfl⟩
    obtain hbreach | ⟨e, q, hfollow, hx⟩ := @follow_settles text forest c errors r hr hc
    · exact Or.inl hbreach
    · exact Or.inr ⟨e, q, hfollow, hx.keeps, hx.ofText hc, fun done he => (he ▸ hx).tops⟩
  case loops =>
    rintro test body hr _ ⟨forest, c, errors, hc, rfl⟩
    obtain hover | ⟨trees, more, d, hd, hlt, hturn, hagain⟩ :=
      @loop_after text forest c errors test body hr hc
    · exact Or.inl hover
    · exact Or.inr ⟨_, hturn, current_lt_after hc hlt, keeps_after hd, ofText_after (hd.trans hc),
        hagain⟩
  case chains =>
    intro kind head test tail hr p below left hp htop
    obtain ⟨forest, k, children, c, errors, hc, rfl, rfl, rfl⟩ := hp.exists_top htop
    obtain hover | ⟨trees, more, d, hd, hlt, hlink, hagain⟩ :=
      @chain_after text forest children c errors kind test head tail k hr hc
    · exact Or.inl hover
    · exact Or.inr ⟨_, _, hlink, current_lt_after hc hlt, tops_after kind,
        ofText_after (hd.trans hc), hagain⟩
  case names =>
    rintro _ i ⟨forest, c, errors, hc, rfl⟩
    obtain h | ⟨h, hle⟩ := @passNames_turn text forest c errors hc i
    · exact Or.inl h
    · refine Or.inr ⟨h, ?_⟩
      have hlength := hc.length_le
      simp only [after, List.length_map, List.length_append, List.length_singleton]
      omega

theorem stack_discipline_sum : ∃ (p q : Parser) (done : Completed), p.OfText "1 + 2" ∧
    p.follow (Grammar.layered Grammar.layers) = pure (some done, q) ∧ p.Yields done q ∧
    (q.grow .callExpr (.next [.openParen]) Grammar.arguments done = pure (some done, q) ∨
      ∃ next r, Link .callExpr (.next [.openParen]) Grammar.arguments done q next r) := by
  have hp := @ofText_after "1 + 2" [] ⟨(Tokens.ofText "1 + 2").significant, false⟩ []
    List.suffix_rfl
  have hnumber : nextKind (Tokens.ofText "1 + 2").significant = .number := by decide +kernel
  obtain ⟨phrases, -, -, -, chains, -⟩ := stack_discipline "1 + 2"
  obtain ⟨kind, hnext, hphrase⟩ := phrases
    (Grammar.expressionStarts Grammar.layers, Grammar.layered Grammar.layers)
    (List.mem_cons_of_mem _ (List.mem_cons_of_mem _ List.mem_cons_self)) _ hp
  obtain rfl : kind = .number :=
    (pure_inj ((next_after List.suffix_rfl).symm.trans hnext)).symm.trans hnumber
  obtain ⟨hnot, -⟩ | ⟨-, done, q, hfollow, hyields, hq⟩ := hphrase
  · exact absurd (by decide) hnot
  · have hcall : Rule.chain .callExpr Grammar.atom (.next [.openParen]) Grammar.arguments ∈
        Grammar.rules :=
      List.mem_append_right _ (List.mem_flatMap.mpr ⟨[], by decide, List.mem_cons_self⟩)
    refine ⟨_, q, done, hp, hfollow, hyields, ?_⟩
    obtain ⟨-, hover⟩ | ⟨next, r, hlink, -⟩ := chains _ _ _ _ hcall q _ done hq hyields.top
    · exact Or.inl hover
    · exact Or.inr ⟨next, r, hlink⟩

end Checked.Parser

end PvsIndex
