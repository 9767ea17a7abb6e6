import PvsIndex.Proofs.Checked.Parsing
import PvsIndex.Proofs.Grammar.Announced
import PvsIndex.Proofs.Grammar.Viable

/-! The first syntax error blames the first token that no text without errors has in its place, save
for a comma at the end of a list of names. -/

namespace PvsIndex

open Phrase PvsIndex.Language

variable {read v w : List Token} {trees : List Tree} {k k' : TokenKind} {kinds : List TokenKind}

theorem nextKind_of_kindsOf (h : kindsOf w ++ [.eof] = k :: kinds) : nextKind w = k := by
  cases w with
  | nil => exact (List.cons.inj h).1
  | cons t w => exact (List.cons.inj h).1

theorem secondKind_of_kindsOf (h : kindsOf w ++ [.eof] = k :: k' :: kinds) : secondKind w = k' := by
  cases w with
  | nil => cases h
  | cons t w => exact nextKind_of_kindsOf (List.cons.inj h).2

theorem exists_kindsOf (kinds : List TokenKind) : ∃ ts, kindsOf ts = kinds :=
  ⟨kinds.map fun kind => { (default : Token) with kind }, by simp [kindsOf, Function.comp_def]⟩

/-- If a text without errors goes on like this one up to the token that is blamed, there is a comma
at the end of a list of names. -/
theorem Fails.of_begins (h : Fails (.rule Grammar.theories) (read ++ v) trees v)
    (hb : Nonterminal.text.Begins (kindsOf read ++ nextKind v :: kinds)) : ∃ w more,
      kindsOf w ++ [.eof] = nextKind v :: (kinds ++ more) ∧ TrailingComma read trees v w := by
  obtain ⟨more, hd⟩ := hb
  rw [List.append_assoc, List.cons_append] at hd
  obtain ⟨u, hu, hne, hd⟩ := derives_text.mp hd
  obtain ⟨tail, k, htail⟩ := List.eq_nil_or_concat (nextKind v :: (kinds ++ more)) |>.resolve_left
    (List.cons_ne_nil _ _)
  rw [List.concat_eq_append] at htail
  rw [htail, ← List.append_assoc] at hu
  obtain ⟨rfl, hk⟩ := List.append_inj' hu rfl
  obtain rfl := List.singleton_inj.mp hk
  obtain ⟨w, rfl⟩ := exists_kindsOf tail
  rw [← kindsOf_append] at hd hne
  obtain ⟨us, hp⟩ := parses_theories (fun he => hne (by rw [he, kindsOf_nil])) hd
  exact ⟨w, more, htail.symm, h.trailingComma (nextKind_of_kindsOf htail.symm).symm hp⟩

namespace Parse

variable {text : String} {e : SyntaxError}

theorem exists_fails (h : (ofText text).errors.head? = some e) : ∃ read v trees,
    (Tokens.ofText text).significant = read ++ v ∧
      e.token = v.headD (Tokens.ofText text).endOfText ∧
      (ofText text).root = ⟨.root, trees ++ [.leaf (Tokens.ofText text).endOfText]⟩ ∧
      Fails (.rule Grammar.theories) (read ++ v) trees v := by
  obtain ⟨s, herrors, hroot, hr⟩ := reads text
  obtain ⟨v, hf, he⟩ := hr.fails rfl rfl (herrors ▸ h)
  obtain ⟨read, hread⟩ := hf.suffix
  exact ⟨read, v, s.trees, hread.symm, he, hroot, hread ▸ hf⟩

theorem mem_preorder_of_endsNames {endOfText : Token} (h : EndsNames read trees)
    (hroot : (ofText text).root = ⟨.root, trees ++ [.leaf endOfText]⟩) :
    ∃ name, read.getLast? = some name ∧
      ∃ o ∈ (ofText text).tree.preorder, o.element.Lists name := by
  obtain ⟨name, hlast, hnames⟩ := (h.append_right [.leaf endOfText]).node .root
  obtain ⟨o, ho, hk⟩ := hnames []
  refine ⟨name, hlast, o, ?_, hk⟩
  rw [tree, hroot, Element.tree, Tree.preorder_eq]
  simpa using ho

/-- The first error blames the token at which the text parts from all texts without errors. What
comes before it begins such a text; followed by it and the next token, it begins none; followed by
it alone, only where it is a comma after a name in the list of a declaration. -/
theorem first_error (h : (ofText text).errors.head? = some e) : ∃ read rest,
    (ofText text).tokens.significant ++ [(ofText text).tokens.endOfText] = read ++ e.token :: rest ∧
      e.token ∉ read ∧
      Nonterminal.text.Begins (kindsOf read) ∧
      ¬ Nonterminal.text.Begins (kindsOf (read ++ (e.token :: rest).take 2)) ∧
      (Nonterminal.text.Begins (kindsOf (read ++ [e.token])) → e.token.kind = .comma ∧
        ∃ name, read.getLast? = some name ∧
          ∃ o ∈ (ofText text).tree.preorder, o.element.Lists name) := by
  obtain ⟨read, v, trees, hread, he, hroot, hf⟩ := exists_fails h
  have hend := Tokens.endOfText_kind text
  obtain ⟨rest, hrest⟩ : ∃ rest, v ++ [(Tokens.ofText text).endOfText] = e.token :: rest := by
    rw [he]
    cases v with
    | nil => exact ⟨_, rfl⟩
    | cons t v => exact ⟨_, rfl⟩
  have hkinds : kindsOf v ++ [.eof] = e.token.kind :: kindsOf rest := by
    rw [← kindsOf_cons, ← hrest, kindsOf_append, kindsOf_cons, hend, kindsOf_nil]
  have hnext := nextKind_of_kindsOf hkinds
  have hsplit : (Tokens.ofText text).significant ++ [(Tokens.ofText text).endOfText] =
      read ++ e.token :: rest := by
    rw [hread, List.append_assoc, hrest]
  have hnodup := (Tokens.nodup_toList text).sublist (Tokens.significant_sublist text)
  rw [hsplit, List.nodup_append] at hnodup
  refine ⟨read, rest, hsplit, fun hmem => ?_, hf.begins, fun hb => ?_, fun hb => ?_⟩
  · exact hnodup.2.2 _ hmem _ List.mem_cons_self rfl
  · rw [kindsOf_append, List.take_succ_cons, kindsOf_cons, ← hnext] at hb
    obtain ⟨w, more, hw, hcomma⟩ := hf.of_begins hb
    cases rest with
    | nil =>
      cases v with
      | nil => cases hcomma.comma
      | cons t v => simp at hkinds
    | cons t rest =>
      have hv := secondKind_of_kindsOf hkinds
      have hw := secondKind_of_kindsOf hw
      exact hcomma.alone (hv.trans (hw.symm.trans hcomma.followed))
  · rw [kindsOf_append, kindsOf_cons, ← hnext] at hb
    obtain ⟨w, more, -, hcomma⟩ := hf.of_begins hb
    exact ⟨hnext.symm.trans hcomma.comma, mem_preorder_of_endsNames hcomma.names hroot⟩

theorem begins_take (h : (ofText text).errors = []) (n : Nat) :
    Nonterminal.text.Begins ((kindsOf (Tokens.ofText text).significant).take n) := by
  have hp := (errors_eq_nil_iff_parses text).mp h
  obtain ⟨hne, hd⟩ := (parses_theories_iff fun t ht => kind_ne_eof_of_mem_significant ht).mp hp
  have hne : kindsOf (Tokens.ofText text).significant ≠ [] :=
    fun he => hne (List.map_eq_nil_iff.mp he)
  refine ⟨(kindsOf (Tokens.ofText text).significant).drop n ++ [.eof], derives_text.mpr
    ⟨_, ?_, hne, hd⟩⟩
  rw [← List.append_assoc, List.take_append_drop]

/-- A number in the place of a second name: the comma before it is blamed. -/
theorem first_error_comma :
    let text := "t: THEORY BEGIN a, 5: TYPE END t"
    ∃ e read rest, (ofText text).errors.head? = some e ∧
      (ofText text).tokens.significant ++ [(ofText text).tokens.endOfText] =
        read ++ e.token :: rest ∧
      kindsOf read = [.identifier, .colon, .theoryKw, .beginKw, .identifier] ∧
      e.token.kind = .comma ∧
      Nonterminal.text.Begins (kindsOf (read ++ [e.token])) ∧
      ¬ Nonterminal.text.Begins (kindsOf (read ++ (e.token :: rest).take 2)) := by
  intro text
  have hfirst : ∃ e, (ofText text).errors.head? = some e ∧ e.token.kind = .comma := by
    decide +kernel
  let kinds : List TokenKind := [.identifier, .colon, .theoryKw, .beginKw, .identifier, .comma,
    .number, .colon, .typeKw, .endKw, .identifier, .eof]
  have hkinds : kindsOf ((ofText text).tokens.significant ++ [(ofText text).tokens.endOfText]) =
      kinds := by decide +kernel
  have hother : (ofText "t: THEORY BEGIN a, b: TYPE END t").errors = [] := by decide +kernel
  have hbegin : (kindsOf (Tokens.ofText "t: THEORY BEGIN a, b: TYPE END t").significant).take 6 =
      kinds.take 5 ++ [.comma] := by decide +kernel
  have hbegins := begins_take hother 6
  rw [hbegin] at hbegins
  clear_value text
  obtain ⟨e, he, hcomma⟩ := hfirst
  obtain ⟨read, rest, hsplit, -, -, hno, -⟩ := first_error he
  rw [hsplit, kindsOf_append, kindsOf_cons, hcomma] at hkinds
  have hlength : (kindsOf read).length = 5 := by
    have only : ∀ i < kinds.length, kinds[i]? = some .comma → i = 5 := by decide
    refine only _ ?_ ?_
    · rw [← hkinds]
      simp
    · rw [← hkinds]
      simp
  have hread : kindsOf read = kinds.take 5 := by
    rw [← hkinds, ← hlength, List.take_left]
  refine ⟨e, read, rest, he, hsplit, hread, hcomma, ?_, hno⟩
  rw [kindsOf_append, hread, kindsOf_cons, hcomma]
  exact hbegins

end Parse

end PvsIndex
