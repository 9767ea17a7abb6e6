import PvsIndex.Proofs.Grammar.Declares
import PvsIndex.Proofs.Grammar.Greedy
import PvsIndex.Proofs.Grammar.Termination
import PvsIndex.Proofs.Token.Scan

/-! A text has no errors if and only if the grammar derives its tokens. -/

namespace PvsIndex

open Phrase PvsIndex.Language

namespace Grammar

/-- What `theories` does where the text has not ended. -/
def theoryList : Rule :=
  .loop (.past [.eof]) <|
    .branch (.next [.identifier]) theory (.report (.extraneous [.eof, .identifier]) >> .skip)

theorem theories_eq : theories =
    .branch (.next [.eof]) (.report (.mismatched [.identifier])) theoryList :=
  rfl

end Grammar

theorem derives_theories {w : List TokenKind} : Phrase.Derives production (plus theory) w ↔
    w ≠ [] ∧ Phrase.Derives production (.star theory) w := by
  constructor
  · intro h
    obtain ⟨u, v, rfl, hu, hv⟩ := derives_seq.mp h
    refine ⟨fun he => ?_, .more hu hv⟩
    exact hu.ne_nil startsRight (by decide) (List.append_eq_nil_iff.mp he).1
  · rintro ⟨hne, h⟩
    cases h with
    | stop => exact absurd rfl hne
    | more hu hv => exact .seq hu hv

theorem derives_text {w : List TokenKind} : Nonterminal.text.Derives w ↔
    ∃ u, w = u ++ [.eof] ∧ u ≠ [] ∧ Phrase.Derives production (.star theory) u := by
  unfold Nonterminal.Derives
  rw [derives_name]
  constructor
  · intro h
    obtain ⟨u, v, rfl, hu, hv⟩ := derives_seq.mp h
    obtain ⟨k, hk, rfl⟩ := derives_word.mp hv
    obtain rfl := List.mem_singleton.mp hk
    exact ⟨u, rfl, derives_theories.mp hu⟩
  · rintro ⟨u, rfl, hu⟩
    exact .seq (derives_theories.mpr hu) (.word List.mem_cons_self)

namespace Parses

variable {input rest : List Token} {trees : List Tree}

theorem loop_done {test : Lookahead} {body : Rule}
    (h : Parses (.rule (.loop test body)) input trees rest) : test.holds rest = false := by
  generalize hp : Piece.rule (.loop test body) = piece at h
  induction h with
  | finish h =>
    obtain ⟨rfl, rfl⟩ := Rule.loop.inj (Piece.rule.inj hp)
    exact h
  | turn _ _ _ _ _ ih => exact ih hp
  | _ => cases hp

theorem theories_done (h : Parses (.rule Grammar.theories) input trees rest) :
    nextKind rest = .eof ∧ nextKind input ≠ .eof := by
  rw [Grammar.theories_eq] at h
  cases h with
  | yes _ _ h => cases h
  | no _ ht h =>
    have hr := h.loop_done
    exact ⟨by simpa [Lookahead.holds] using hr, by simpa [Lookahead.holds] using ht⟩

end Parses

theorem nextKind_eq_eof {input : List Token} (h : ∀ t ∈ input, t.kind ≠ .eof) :
    nextKind input = .eof ↔ input = [] := by
  cases input with
  | nil => exact ⟨fun _ => rfl, fun _ => rfl⟩
  | cons t input => exact ⟨fun he => absurd he (h t List.mem_cons_self), nofun⟩

theorem theoryList_questions {x : ElementKind × Words × Words}
    (h : x ∈ Grammar.theoryList.questions .anything) :
    x ∈ Grammar.theories.questions .anything := by
  have hsame : Grammar.theories.questions .anything = Grammar.theoryList.questions .anything := by
    decide +kernel
  rwa [hsame]

theorem parses_theories {input : List Token} (hne : input ≠ [])
    (h : Phrase.Derives production (.star theory) (kindsOf input)) :
    ∃ trees, Parses (.rule Grammar.theories) input trees [] := by
  have hc : Grammar.theoryList.Covers (Grammar.theoryList.phrase .anything) [.eof]
      (Rule.room false input.length) :=
    Rule.covers (Rule.namesCover _) _ (by decide +kernel) fun x hx =>
      theories_answersRight (theoryList_questions hx)
  have hp : Grammar.theoryList.phrase .anything = .star theory := by decide +kernel
  have hfirst : (star theory).first Nonterminal.starts = [.identifier] := by decide
  rw [hp] at hc
  obtain ⟨trees, ht⟩ := hc input [] h (Nat.lt_succ_self _) List.mem_cons_self
  rw [List.append_nil] at ht
  obtain ⟨t, input, rfl⟩ := List.exists_cons_of_ne_nil hne
  have hk : t.kind = .identifier := List.mem_singleton.mp (hfirst ▸ h.mem_first startsRight)
  exact ⟨trees, .no trivial (by simp [Lookahead.holds, hk]) ht⟩

/-- Theories parse if and only if the grammar derives them. -/
theorem parses_theories_iff {input : List Token} (h : ∀ t ∈ input, t.kind ≠ .eof) :
    (∃ trees, Parses (.rule Grammar.theories) input trees []) ↔
      input ≠ [] ∧ Phrase.Derives production (.star theory) (kindsOf input) := by
  constructor
  · rintro ⟨trees, hp⟩
    obtain ⟨ts, hts, ha⟩ := hp.accepts
    rw [List.append_nil] at hts
    subst hts
    refine ⟨fun he => hp.theories_done.2 ((nextKind_eq_eof h).mpr he), ?_⟩
    rw [← phrase_theories]
    exact ha .anything (Ahead.holds_anything _)
  · rintro ⟨hne, hd⟩
    exact parses_theories hne hd

namespace Parse

theorem kind_ne_eof_of_mem_significant {text : String} {t : Token}
    (h : t ∈ (Tokens.ofText text).significant) : t.kind ≠ .eof :=
  (Tokens.fits_of_mem_significant h).kind_ne

/-- The text is read as the grammar says, within the bounds. -/
theorem reads (text : String) : ∃ s, (ofText text).errors = s.errors ∧
    (ofText text).root = ⟨.root, s.trees ++ [.leaf (Tokens.ofText text).endOfText]⟩ ∧
    Reads (Tokens.ofText text).endOfText
      (.read Grammar.theories ⟨(Tokens.ofText text).significant, false⟩) s :=
  ⟨_, rfl, rfl, Nonterminal.reads_text _ (Nat.lt_succ_self _)⟩

theorem exists_parses {text : String} (h : (ofText text).errors = []) :
    ∃ trees, (ofText text).root = ⟨.root, trees ++ [.leaf (ofText text).tokens.endOfText]⟩ ∧
      Parses (.rule Grammar.theories) (ofText text).tokens.significant trees [] := by
  obtain ⟨s, he, hroot, hr⟩ := reads text
  rw [he] at h
  obtain ⟨hp, -⟩ := hr.parses rfl h
  have hrest : s.cursor.input = [] := by
    refine (nextKind_eq_eof fun t ht => ?_).mp hp.theories_done.1
    have hl := hp.leaves
    exact kind_ne_eof_of_mem_significant (hl ▸ List.mem_append_right _ ht)
  exact ⟨s.trees, hroot, hrest ▸ hp⟩

theorem errors_eq_nil_iff_parses (text : String) : (ofText text).errors = [] ↔
    ∃ trees, Parses (.rule Grammar.theories) (Tokens.ofText text).significant trees [] := by
  constructor
  · intro h
    obtain ⟨trees, -, hp⟩ := exists_parses h
    exact ⟨trees, hp⟩
  · rintro ⟨trees, hp⟩
    obtain ⟨s, he, -, hr⟩ := reads text
    rw [he, hr.unique (hp.reads _)]

/-- A text parses without errors if and only if the grammar derives the kinds of its significant
tokens, the end of the text included. -/
theorem errors_eq_nil_iff (text : String) : (ofText text).errors = [] ↔
    Nonterminal.text.Derives
      (((ofText text).tokens.significant ++ [(ofText text).tokens.endOfText]).map (·.kind)) := by
  have hend : (Tokens.ofText text).endOfText.kind = .eof := by
    rw [(Tokens.ofText_spec text).2.2]
    rfl
  have hkinds : ((ofText text).tokens.significant ++
      [(ofText text).tokens.endOfText]).map (·.kind) =
      kindsOf (Tokens.ofText text).significant ++ [.eof] := by
    rw [List.map_append, List.map_singleton, ← hend]
    rfl
  rw [hkinds, errors_eq_nil_iff_parses, derives_text,
    parses_theories_iff fun t ht => kind_ne_eof_of_mem_significant ht]
  constructor
  · rintro ⟨hne, hd⟩
    exact ⟨_, rfl, fun he => hne (List.map_eq_nil_iff.mp he), hd⟩
  · rintro ⟨u, he, hne, hd⟩
    obtain rfl := List.append_cancel_right he
    exact ⟨fun he => hne (by rw [he, kindsOf_nil]), hd⟩

end Parse

end PvsIndex
