import PvsIndex.Proofs.Grammar.Prediction

/-! The look ahead at a declaration: however many names come first, the word that decides belongs to
the declaration. -/

namespace PvsIndex

open Phrase PvsIndex.Language

variable {ts us vs rest input : List Token} {p q : Words}

theorem mem_first_of_derives (h : Phrase.Derives production p (kindsOf ts))
    (hp : p.nullable = false) (rest : List Token) :
    nextKind (ts ++ rest) ∈ p.first Nonterminal.starts := by
  cases ts with
  | nil => exact absurd rfl (h.ne_nil startsRight hp)
  | cons t ts => exact h.mem_first startsRight

theorem derives_one {kind : TokenKind} (h : Phrase.Derives production (one kind) (kindsOf ts)) :
    ∃ t, ts = [t] ∧ t.kind = kind := by
  obtain ⟨k, hk, hts⟩ := derives_word.mp h
  obtain ⟨t, rfl, ht⟩ := List.map_eq_singleton_iff.mp hts
  exact ⟨t, rfl, ht.trans (List.mem_singleton.mp hk)⟩

theorem exists_append_of_derives (h : Phrase.Derives production (.seq p q) (kindsOf ts)) :
    ∃ us vs, ts = us ++ vs ∧ Phrase.Derives production p (kindsOf us) ∧
      Phrase.Derives production q (kindsOf vs) := by
  obtain ⟨u, v, he, hu, hv⟩ := derives_seq.mp h
  obtain ⟨us, vs, rfl, rfl, rfl⟩ := exists_append_of_kindsOf he
  exact ⟨us, vs, rfl, hu, hv⟩

theorem afterNames_of_ne_comma (h : nextKind input ≠ .comma) : afterNames input = input := by
  unfold afterNames
  split
  · rename_i c n rest
    rw [if_neg fun hc => h hc.1]
  · rfl

theorem afterNames_names
    (h : Phrase.Derives production (.star (.seq (one .comma) (one .identifier))) (kindsOf ts))
    (hr : nextKind rest ≠ .comma) : afterNames (ts ++ rest) = rest := by
  obtain ⟨tss, rfl, hts⟩ := derives_star_kindsOf.mp h
  clear h
  induction tss with
  | nil => exact afterNames_of_ne_comma hr
  | cons us tss ih =>
    obtain ⟨hu, hrest⟩ := List.forall_mem_cons.mp hts
    obtain ⟨xs, ys, rfl, hx, hy⟩ := exists_append_of_derives hu
    obtain ⟨c, rfl, hc⟩ := derives_one hx
    obtain ⟨n, rfl, hn⟩ := derives_one hy
    simpa [afterNames, hc, hn] using ih hrest

theorem afterNames_drop (h : Phrase.Derives production names (kindsOf us))
    (hv : nextKind input ≠ .comma) : afterNames ((us ++ input).drop 1) = input := by
  obtain ⟨xs, ys, rfl, hx, hy⟩ := exists_append_of_derives h
  obtain ⟨t, rfl, -⟩ := derives_one hx
  exact afterNames_names hy hv

theorem declarationAhead_typeDeclaration
    (h : Phrase.Derives production typeDeclaration (kindsOf ts)) :
    declarationAhead (ts ++ rest) = .typeDecl := by
  obtain ⟨us, vs, rfl, hu, hv⟩ := exists_append_of_derives h
  obtain ⟨xs, ys, rfl, hx, hy⟩ := exists_append_of_derives hv
  obtain ⟨c, rfl, hc⟩ := derives_one hx
  have hk := mem_first_of_derives hy (by decide) rest
  have hcases : nextKind (ys ++ rest) = .typeKw ∨ nextKind (ys ++ rest) = .nonemptyTypeKw := by
    simpa [HOrElse.hOrElse, OrElse.orElse, HAndThen.hAndThen, AndThen.andThen, one, first,
      nullable] using hk
  rw [List.append_assoc, declarationAhead, afterNames_drop hu (by simp [hc])]
  rcases hcases with hk | hk <;> simp [secondKind, hc, hk]

theorem declarationAhead_formulaDeclaration
    (h : Phrase.Derives production formulaDeclaration (kindsOf ts)) :
    declarationAhead (ts ++ rest) = .formulaDecl := by
  obtain ⟨us, vs, rfl, hu, hv⟩ := exists_append_of_derives h
  obtain ⟨xs, ys, rfl, hx, hy⟩ := exists_append_of_derives hv
  obtain ⟨zs, ws, rfl, hz, -⟩ := exists_append_of_derives hy
  obtain ⟨n, rfl, hn⟩ := derives_one hu
  obtain ⟨c, rfl, hc⟩ := derives_one hx
  obtain ⟨k, rfl, hk⟩ := derives_one hz
  have hnames : Phrase.Derives production names (kindsOf [n]) := .seq hu .stop
  rw [List.append_assoc, declarationAhead, afterNames_drop hnames (by simp [hc])]
  simp [secondKind, hc, hk]

theorem declarationAhead_variableDeclaration
    (h : Phrase.Derives production variableDeclaration (kindsOf ts)) :
    declarationAhead (ts ++ rest) = .varDecl := by
  obtain ⟨us, vs, rfl, hu, hv⟩ := exists_append_of_derives h
  obtain ⟨xs, ys, rfl, hx, hy⟩ := exists_append_of_derives hv
  obtain ⟨zs, ws, rfl, hz, -⟩ := exists_append_of_derives hy
  obtain ⟨c, rfl, hc⟩ := derives_one hx
  obtain ⟨k, rfl, hk⟩ := derives_one hz
  rw [List.append_assoc, declarationAhead, afterNames_drop hu (by simp [hc])]
  simp [secondKind, hc, hk]

theorem declarationAhead_constants (hu : Phrase.Derives production names (kindsOf us))
    {q : Words} (h : Phrase.Derives production (.seq (one .colon) (.seq type q)) (kindsOf vs)) :
    declarationAhead (us ++ vs ++ rest) = .functionDecl := by
  obtain ⟨xs, ys, rfl, hx, hy⟩ := exists_append_of_derives h
  obtain ⟨c, rfl, hc⟩ := derives_one hx
  have hk := mem_first_of_derives hy rfl rest
  have hcases : nextKind (ys ++ rest) ∈ Grammar.typeStarts := by
    simpa [type, first, nullable, Nonterminal.starts] using hk
  simp only [Grammar.typeStarts, List.mem_cons, List.not_mem_nil, or_false] at hcases
  rw [List.append_assoc, declarationAhead, afterNames_drop hu (by simp [hc])]
  rcases hcases with hk | hk | hk | hk <;> simp [secondKind, hc, hk]

theorem declarationAhead_functionDeclaration
    (h : Phrase.Derives production functionDeclaration (kindsOf ts)) :
    declarationAhead (ts ++ rest) = .functionDecl := by
  obtain ⟨us, vs, rfl, hu, hv⟩ := exists_append_of_derives h
  obtain ⟨xs, ys, rfl, hx, hy⟩ := exists_append_of_derives hv
  cases xs with
  | nil => exact declarationAhead_constants hu hy
  | cons t xs =>
    have ht : t.kind = .openParen := List.mem_singleton.mp (hx.mem_first startsRight)
    rw [List.append_assoc, declarationAhead, afterNames_drop hu (by simp [ht])]
    simp [ht]

theorem declarationAhead_constant
    (h : Phrase.Derives production (names >> one .colon >> type) (kindsOf ts)) :
    declarationAhead (ts ++ rest) = .functionDecl := by
  obtain ⟨us, vs, rfl, hu, hv⟩ := exists_append_of_derives h
  obtain ⟨xs, ys, rfl, hx, hy⟩ := exists_append_of_derives hv
  refine declarationAhead_constants hu (q := .empty) ?_
  have hy : Phrase.Derives production (.seq type .empty) (kindsOf ys ++ []) := .seq hy .empty
  rw [List.append_nil] at hy
  rw [kindsOf_append]
  exact .seq hx hy

/-- The kinds of declarations are told apart. -/
theorem theories_answersRight {x : ElementKind × Words × Words}
    (h : x ∈ Grammar.theories.questions .anything) : AnswersRight x.1 x.2.1 x.2.2 := by
  have questions : Grammar.theories.questions .anything ⊆
      [ (.typeDecl, typeDeclaration, names >> one .colon >> type),
        (.typeDecl, typeDeclaration,
          formulaDeclaration <|> variableDeclaration <|> functionDeclaration),
        (.formulaDecl, formulaDeclaration, variableDeclaration <|> functionDeclaration),
        (.varDecl, variableDeclaration, functionDeclaration) ] := by decide +kernel
  have hx := questions h
  simp only [List.mem_cons, List.not_mem_nil, or_false] at hx
  intro ts rest
  rcases hx with rfl | rfl | rfl | rfl
  · refine ⟨declarationAhead_typeDeclaration, fun h => ?_⟩
    simp [declarationAhead_constant h]
  · refine ⟨declarationAhead_typeDeclaration, fun h => ?_⟩
    rcases derives_alt.mp h with h | h
    · simp [declarationAhead_formulaDeclaration h]
    · rcases derives_alt.mp h with h | h
      · simp [declarationAhead_variableDeclaration h]
      · simp [declarationAhead_functionDeclaration h]
  · refine ⟨declarationAhead_formulaDeclaration, fun h => ?_⟩
    rcases derives_alt.mp h with h | h
    · simp [declarationAhead_variableDeclaration h]
    · simp [declarationAhead_functionDeclaration h]
  · refine ⟨declarationAhead_variableDeclaration, fun h => ?_⟩
    simp [declarationAhead_functionDeclaration h]

end PvsIndex
