import PvsIndex.Proofs.Grammar.Extension
import PvsIndex.Proofs.Grammar.Prompt

/-! Declarations find errors promptly. However far the look ahead goes to tell which one begins, it
passes over names that all of them begin with. -/

namespace PvsIndex

variable {a : Token} {input rest mid x y z v w : List Token} {trees ts : List Tree}

namespace Grammar

/-- The rest of a list of names. -/
def moreNames : Rule :=
  .loop (.pair .comma .identifier) (.seq .take name)

theorem names_eq : names = .seq name moreNames :=
  rfl

end Grammar

theorem parses_moreNames (input : List Token) : ∃ ts,
    Parses (.rule Grammar.moreNames) input ts (afterNames input) ∧
      (afterNames input = input ∨ ∃ p last, input = p ++ last :: afterNames input ∧
        .node .identifier [.leaf last] ∈ ts) := by
  induction input using afterNames.induct with
  | case1 comma name rest hpair ih =>
    obtain ⟨ts, hp, hlast⟩ := ih
    have hturn : Parses (.rule (.seq .take Grammar.name)) (comma :: name :: rest)
        ([.leaf comma] ++ [.node .identifier [.leaf name]]) rest :=
      .seq (.take (by simp [hpair.1])) (.identifier hpair.2 rest)
    rw [afterNames, if_pos hpair]
    refine ⟨_, .turn (by simp [Lookahead.holds, secondKind, hpair])
      (by simp only [List.length_cons]; omega) hturn hp, Or.inr ?_⟩
    rcases hlast with he | ⟨p, last, he, hmem⟩
    · rw [he]
      exact ⟨[comma], name, rfl, by simp⟩
    · refine ⟨comma :: name :: p, last, ?_, by simp [hmem]⟩
      rw [List.cons_append, List.cons_append, ← he]
  | case2 comma name rest hpair =>
    rw [afterNames, if_neg hpair]
    refine ⟨[], .finish (Bool.eq_false_iff.mpr fun ht => hpair ?_), Or.inl rfl⟩
    simp only [Lookahead.holds, Bool.and_eq_true, decide_eq_true_eq] at ht
    exact ht
  | case3 rest hshort =>
    rw [afterNames]
    · refine ⟨[], .finish ?_, Or.inl rfl⟩
      rcases rest with _ | ⟨t, _ | ⟨u, rest⟩⟩
      · rfl
      · simp [Lookahead.holds, secondKind, nextKind]
      · exact (hshort t u rest rfl).elim
    · exact hshort

theorem parses_names (ha : a.kind = .identifier) (rest : List Token) : ∃ ts p last,
    Parses (.rule Grammar.names) (a :: rest) ts (afterNames rest) ∧
      a :: rest = p ++ last :: afterNames rest ∧ .node .identifier [.leaf last] ∈ ts := by
  obtain ⟨ts, hp, hlast⟩ := parses_moreNames rest
  have hnames : Parses (.rule Grammar.names) (a :: rest)
      ([.node .identifier [.leaf a]] ++ ts) (afterNames rest) := .seq (.identifier ha rest) hp
  rcases hlast with he | ⟨p, last, he, hmem⟩
  · exact ⟨_, [], a, hnames, by rw [he]; rfl, List.mem_cons_self⟩
  · refine ⟨_, a :: p, last, hnames, ?_, List.mem_append_right _ hmem⟩
    rw [List.cons_append, ← he]

namespace Parses

/-- A list of names ends where the look ahead finds its end, after a name. -/
theorem of_names (h : Parses (.rule Grammar.names) input ts mid) : ∃ a rest p last,
    input = a :: rest ∧ mid = afterNames rest ∧ input = p ++ last :: mid ∧
      .node .identifier [.leaf last] ∈ ts := by
  have hname : nextKind input = .identifier := by
    rw [Grammar.names_eq] at h
    cases h with
    | seq head _ =>
      cases head with
      | yes _ ht _ => simpa [Lookahead.holds] using ht
      | no _ _ head => cases head
  cases input with
  | nil => cases hname
  | cons a rest =>
    obtain ⟨us, p, last, hp, he, hmem⟩ := parses_names hname rest
    obtain ⟨rfl, rfl⟩ := h.unique hp
    exact ⟨a, rest, p, last, rfl, rfl, he, hmem⟩

theorem names_split (h : Parses (.rule Grammar.names) (x ++ v) ts (y ++ v)) : ∃ a xs p last,
    x = a :: xs ∧ afterNames (xs ++ v) = y ++ v ∧ x = p ++ last :: y ∧
      .node .identifier [.leaf last] ∈ ts := by
  obtain ⟨a, rest, p, last, hx, hmid, he, hmem⟩ := h.of_names
  rw [← List.cons_append, ← List.append_assoc] at he
  obtain rfl := List.append_cancel_right he
  cases hcons : p ++ last :: y with
  | nil => simp at hcons
  | cons b xs =>
    rw [hcons] at hx
    obtain ⟨rfl, rfl⟩ := List.cons.inj hx
    exact ⟨b, xs, p, last, rfl, hmid.symm, hcons.symm, hmem⟩

theorem names_done (h : Parses (.rule Grammar.names) input ts mid) :
    (Lookahead.pair .comma .identifier).holds mid = false := by
  rw [Grammar.names_eq] at h
  cases h with
  | seq _ next => exact next.loop_done

/-- A list of names is the same one, unless it ends before a comma that has a name after it in the
other case. -/
theorem names_steady (h : Parses (.rule Grammar.names) (x ++ v) ts (z ++ v))
    (hvw : nextKind v = nextKind w)
    (hend : z = [] → nextKind v = .comma → secondKind w ≠ .identifier) :
    Parses (.rule Grammar.names) (x ++ w) ts (z ++ w) := by
  have hdone := h.names_done
  rw [Grammar.names_eq] at h ⊢
  cases h with
  | seq head next =>
    obtain ⟨y, rfl⟩ := exists_eq_append_of_suffix next.suffix
    refine .seq (head.steady (by decide) rfl rfl hvw) (Rule.Prompt.loop_parses
      (.of_immediate (by decide)) rfl hvw ?_ next)
    rintro rfl
    refine Eq.trans hdone (Eq.symm ?_)
    simpa [Lookahead.holds, ← hvw] using hend rfl

end Parses

/-- The look ahead at a declaration depends on what follows the next token only where that is the
colon after the names. -/
theorem declarationAhead_congr (hv : afterNames (x ++ v) = y ++ v)
    (hw : afterNames (x ++ w) = y ++ w) (hvw : nextKind v = nextKind w)
    (hy : y = [] → nextKind v ≠ .colon) :
    declarationAhead (a :: (x ++ w)) = declarationAhead (a :: (x ++ v)) := by
  unfold declarationAhead
  dsimp only
  rw [List.drop_succ_cons, List.drop_succ_cons, List.drop_zero, List.drop_zero, hv, hw,
    nextKind_append_congr hvw, nextKind_append_congr hvw]
  by_cases he : y = []
  · subst he
    have hne := hy rfl
    rw [hvw] at hne
    rw [List.nil_append, if_pos hne, if_pos hne]
  · rw [secondKind_append_congr hvw he]

theorem nextKind_of_formula (h : declarationAhead (a :: rest) = .formulaDecl) :
    nextKind rest = .colon := by
  by_contra hne
  unfold declarationAhead at h
  dsimp only at h
  rw [List.drop_succ_cons, List.drop_zero, if_neg hne] at h
  split_ifs at h
  split at h <;> cases h

theorem declarationAhead_formula (hk : declarationAhead (x ++ v) = .formulaDecl)
    (h : Parses (.rule Grammar.name) (x ++ v) ts (y ++ v)) (hvw : nextKind v = nextKind w) :
    nextKind (y ++ v) = .colon ∧
      (y ≠ [] → declarationAhead (x ++ w) = declarationAhead (x ++ v)) := by
  have hname : nextKind (x ++ v) = .identifier := by
    cases h with
    | yes _ ht _ => simpa [Lookahead.holds] using ht
    | no _ _ h => cases h
  generalize hx : x ++ v = input at h hk hname
  cases input with
  | nil => cases hname
  | cons a rest =>
    obtain ⟨-, rfl⟩ := h.unique (.identifier hname rest)
    have hcolon := nextKind_of_formula hk
    obtain rfl : x = a :: y := List.append_cancel_right hx
    refine ⟨hcolon, fun hy => ?_⟩
    have hsame := nextKind_append_congr hvw y
    refine declarationAhead_congr (afterNames_of_ne_comma ?_) (afterNames_of_ne_comma ?_) hvw
      fun he => absurd he hy
    · simp [hcolon]
    · simp [← hsame, hcolon]

namespace Rule

/-- What comes after the names of a declaration: it reads something, and a colon is right. -/
structure Continues (tail : Rule) : Prop where
  immediate : tail.immediate = true
  reads {v : List Token} {us : List Tree} : ¬ Parses (.rule tail) v us v
  colon {v : List Token} {us : List Tree} (h : Fails (.rule tail) v us v) : nextKind v ≠ .colon

theorem Continues.expect {r : Rule} (hr : r.immediate = true) :
    (Rule.seq (.expect .colon) r).Continues where
  immediate := Bool.and_eq_true_iff.mpr ⟨rfl, hr⟩
  reads h := by
    cases h with
    | seq head next =>
      obtain ⟨t, -, -, rfl, -⟩ := head.of_expect
      exact absurd next.suffix.length_le (Nat.not_succ_le_self _)
  colon h := by
    cases h with
    | first head =>
      cases head with
      | yes _ _ head => cases head
      | no _ ht _ => simpa [Lookahead.holds] using ht
    | second head next =>
      obtain ⟨t, -, -, rfl, -⟩ := head.of_expect
      exact absurd next.suffix.length_le (Nat.not_succ_le_self _)

theorem Continues.seq {first tail : Rule} (h : tail.Continues) (hf : first.immediate = true)
    (hcolon : ∀ {v : List Token} {us : List Tree}, Fails (.rule first) v us v →
      nextKind v ≠ .colon) : (Rule.seq first tail).Continues where
  immediate := Bool.and_eq_true_iff.mpr ⟨hf, Bool.or_eq_true_iff.mpr (Or.inr h.immediate)⟩
  reads k := by
    cases k with
    | seq head next =>
      obtain rfl := head.suffix.eq_of_length_le next.suffix.length_le
      exact h.reads next
  colon k := by
    cases k with
    | first head => exact hcolon head
    | second head next =>
      obtain rfl := head.suffix.eq_of_length_le next.suffix.length_le
      exact h.colon next

theorem not_colon_of_fails_loop {k : TokenKind} {body : Rule} (hk : k ≠ .colon)
    {us : List Tree} (h : Fails (.rule (.loop (.next [k]) body)) v us rest) :
    nextKind v ≠ .colon := by
  cases h with
  | turn hh _ =>
    have hv : nextKind v = k := by simpa [Lookahead.holds] using hh
    rwa [hv]
  | again hh _ _ _ =>
    have hv : nextKind v = k := by simpa [Lookahead.holds] using hh
    rwa [hv]

/-- What the rule reads of a declaration of such a kind, what it reports, and the kind itself do not
depend on what follows the next token, except for a comma after a name. -/
structure Announced (kinds : ElementKind → Prop) (r : Rule) : Prop where
  parses {x z v w : List Token} {trees : List Tree} (hvw : nextKind v = nextKind w)
    (hk : kinds (declarationAhead (x ++ v))) (hname : nextKind (x ++ v) = .identifier)
    (h : Parses (.rule r) (x ++ v) trees (z ++ v)) :
    declarationAhead (x ++ w) = declarationAhead (x ++ v) ∧
      Parses (.rule r) (x ++ w) trees (z ++ w)
  fails {x v w : List Token} {trees : List Tree} (hvw : nextKind v = nextKind w)
    (hk : kinds (declarationAhead (x ++ v))) (hname : nextKind (x ++ v) = .identifier)
    (h : Fails (.rule r) (x ++ v) trees v) :
    (declarationAhead (x ++ w) = declarationAhead (x ++ v) ∧
      ∃ us, Fails (.rule r) (x ++ w) us w) ∨ TrailingComma x trees v w

variable {yes no tail : Rule} {kind : ElementKind} {kinds : ElementKind → Prop}

theorem Announced.names (hkind : kind ∈ [.typeDecl, .varDecl, .functionDecl])
    (ht : tail.Continues) : (Rule.node kind (.seq Grammar.names tail)).Announced kinds where
  parses {x z v w trees} hvw _ _ h := by
    cases h with
    | node h =>
    cases h with
    | seq head next =>
      obtain ⟨y, rfl⟩ := exists_eq_append_of_suffix next.suffix
      obtain ⟨a, xs, -, -, rfl, hv, -, -⟩ := head.names_split
      have hy : y ≠ [] := by
        rintro rfl
        obtain rfl := eq_nil_of_suffix next.suffix
        exact ht.reads next
      have head := head.names_steady hvw fun he => absurd he hy
      obtain ⟨_, _, -, -, hx, hw, -, -⟩ := head.names_split
      obtain ⟨rfl, rfl⟩ := List.cons.inj hx
      exact ⟨declarationAhead_congr hv hw hvw fun he => absurd he hy,
        .node (.seq head (next.steady ht.immediate rfl rfl hvw))⟩
  fails {x v w trees} hvw _ hname h := by
    generalize hx : x ++ v = input at h hname
    generalize hrest : v = rest at h
    cases h with
    | node h =>
    cases h with
    | first head =>
      cases input with
      | nil => cases hname
      | cons a input =>
        obtain ⟨_, _, _, hp, -, -⟩ := parses_names hname input
        exact absurd hp head.not_parses
    | @second _ _ _ mid ts us _ head next =>
      subst hx hrest
      obtain ⟨y, rfl⟩ := exists_eq_append_of_suffix (z := []) next.suffix
      obtain ⟨a, xs, p, last, rfl, hv, hsplit, hmem⟩ := head.names_split
      by_cases hcomma : y = [] ∧ nextKind v = .comma ∧ secondKind w = .identifier
      · obtain ⟨rfl, hcomma, hw⟩ := hcomma
        refine Or.inr ⟨hcomma, fun hs => ?_, hw, last, ?_, fun ancestors => ?_⟩
        · simpa [Lookahead.holds, hcomma, hs] using head.names_done
        · rw [hsplit, List.getLast?_concat]
        · refine ⟨⟨⟨kind, ts ++ us⟩, ancestors⟩, ?_, hkind, List.mem_append_left _ hmem⟩
          simp
      · have head := head.names_steady hvw fun hy hc hw => hcomma ⟨hy, hc, hw⟩
        obtain ⟨_, _, -, -, hx, hw, -, -⟩ := head.names_split
        obtain ⟨rfl, rfl⟩ := List.cons.inj hx
        obtain ⟨vs, hf⟩ := next.steady ht.immediate rfl hvw
        refine Or.inl ⟨declarationAhead_congr hv hw hvw ?_, _, .node (.second head hf)⟩
        rintro rfl
        exact ht.colon next

theorem Announced.formula : Grammar.formulaDeclaration.Announced (· = .formulaDecl) := by
  have ht : (Rule.seq (expect .colon) (expect .formulaKw >> Grammar.expression)).Continues :=
    .expect (by decide)
  have himmediate : Grammar.formulaDeclaration.immediate = true := by decide
  constructor
  · intro x z v w trees hvw hk _ h
    refine ⟨?_, h.steady himmediate rfl rfl hvw⟩
    cases h with
    | node h =>
    cases h with
    | seq head next =>
      obtain ⟨y, rfl⟩ := exists_eq_append_of_suffix next.suffix
      refine (declarationAhead_formula hk head hvw).2 ?_
      rintro rfl
      obtain rfl := eq_nil_of_suffix next.suffix
      exact ht.reads next
  · intro x v w trees hvw hk hname h
    refine Or.inl ⟨?_, h.steady himmediate rfl hvw⟩
    generalize hx : x ++ v = input at h hname
    generalize hrest : v = rest at h
    cases h with
    | node h =>
    cases h with
    | first head =>
      cases input with
      | nil => cases hname
      | cons a input => exact absurd (.identifier hname input) head.not_parses
    | second head next =>
      subst hx hrest
      obtain ⟨y, rfl⟩ := exists_eq_append_of_suffix (z := []) next.suffix
      obtain ⟨hcolon, hsame⟩ := declarationAhead_formula hk head hvw
      refine hsame ?_
      rintro rfl
      exact ht.colon next hcolon

/-- Which of two declarations comes is settled by the time either of them fails. -/
theorem Announced.branch (h1 : yes.Announced (· = kind)) (h2 : no.Announced fun _ => True) :
    (Rule.branch (.declares kind) yes no).Announced fun _ => True where
  parses {x z v w trees} hvw _ hname h := by
    have proper : nextKind (x ++ w) = .identifier := nextKind_append_congr hvw x ▸ hname
    cases h with
    | yes _ ht body =>
      have hk : declarationAhead (x ++ v) = kind := of_decide_eq_true ht
      obtain ⟨hsame, hp⟩ := h1.parses hvw hk hname body
      exact ⟨hsame, .yes proper (decide_eq_true (hsame.trans hk)) hp⟩
    | no _ ht body =>
      have hk : declarationAhead (x ++ v) ≠ kind := of_decide_eq_false ht
      obtain ⟨hsame, hp⟩ := h2.parses hvw trivial hname body
      exact ⟨hsame, .no proper (decide_eq_false fun he => hk (hsame.symm.trans he)) hp⟩
  fails {x v w trees} hvw _ hname h := by
    have proper : nextKind (x ++ w) = .identifier := nextKind_append_congr hvw x ▸ hname
    cases h with
    | yes _ ht body =>
      have hk : declarationAhead (x ++ v) = kind := of_decide_eq_true ht
      refine (h1.fails hvw hk hname body).imp_left ?_
      rintro ⟨hsame, us, hf⟩
      exact ⟨hsame, us, .yes proper (decide_eq_true (hsame.trans hk)) hf⟩
    | no _ ht body =>
      have hk : declarationAhead (x ++ v) ≠ kind := of_decide_eq_false ht
      refine (h2.fails hvw trivial hname body).imp_left ?_
      rintro ⟨hsame, us, hf⟩
      exact ⟨hsame, us, .no proper (decide_eq_false fun he => hk (hsame.symm.trans he)) hf⟩

namespace Prompt

theorem declares (h1 : yes.Announced (· = kind)) (h2 : no.Announced fun _ => True) :
    (Rule.branch (.declares kind) yes no).Prompt where
  parses {x z v w trees} hvw h := by
    have hname : nextKind (x ++ v) = .identifier := by
      cases h with
      | yes proper _ _ => exact proper
      | no proper _ _ => exact proper
    exact ((Announced.branch h1 h2).parses hvw trivial hname h).2
  fails {x v w trees} hvw h := by
    have hname : nextKind (x ++ v) = .identifier := by
      cases h with
      | yes proper _ _ => exact proper
      | no proper _ _ => exact proper
    exact ((Announced.branch h1 h2).fails hvw trivial hname h).imp_left And.right

/-- A list that goes on only before a name. Another comma is taken, and what is missing after it is
reported there. -/
theorem list {item more : Rule} (hi : item.Prompt) (hm : more.refuses = true) :
    (Rule.seq (.loop (.pair .comma .identifier) (.seq .take item))
      (.option [.comma] (.seq .take more))).Prompt where
  parses {x z v w trees} hvw h := by
    have hbody : (Rule.seq .take item).Prompt := .seq (.of_immediate rfl) hi
    cases h with
    | seq head next =>
      cases next with
      | yes _ _ next =>
        cases next with
        | seq _ next => exact absurd next (not_parses_of_refuses hm)
      | no _ ht next =>
        cases next
        have hend : z = [] → (Lookahead.pair .comma .identifier).holds v =
            (Lookahead.pair .comma .identifier).holds w := by
          rintro rfl
          have hne : nextKind v ≠ .comma := by simpa [Lookahead.holds] using ht
          simp [Lookahead.holds, ← hvw, hne]
        rw [Lookahead.holds_append_of_immediate rfl hvw] at ht
        exact .seq (loop_parses hbody rfl hvw hend head) (.no trivial ht .empty)
  fails {x v w trees} hvw h := by
    have hbody : (Rule.seq .take item).Prompt := .seq (.of_immediate rfl) hi
    generalize hx : x ++ v = input at h
    generalize hrest : v = rest at h
    cases h with
    | @first _ _ _ _ us _ head =>
      subst hx hrest
      rcases loop_fails hbody rfl hvw (fun _ hf => absurd hf not_fails_take) head with
        ⟨vs, hf⟩ | hcomma
      · exact Or.inl ⟨vs ++ [], .first hf⟩
      · exact Or.inr (hcomma.append_right us)
    | second head next =>
      subst hx hrest
      cases next with
      | no _ _ next => cases next
      | yes _ ht next =>
        cases next with
        | first next => cases next
        | second taken next =>
          cases taken with
          | @take t _ hk =>
            obtain rfl := rest_eq_of_refuses hm next
            obtain ⟨us, hf⟩ := fails_of_refuses hm w
            have head := loop_parses (z := [t]) hbody rfl hvw (fun he => by cases he) head
            exact Or.inl ⟨_, .second head (.yes trivial ht (.second (.take hk) hf))⟩

end Prompt

end Rule

namespace Grammar

theorem formal_prompt : formal.Prompt :=
  .declares (.names (by decide) (.expect (by decide))) (.names (by decide) (.expect (by decide)))

theorem declaration_prompt : declaration.Prompt :=
  .declares (.names (by decide) (.expect (by decide))) <|
    .branch .formula <| .branch (.names (by decide) (.expect (by decide))) <|
      .names (by decide) <| .seq (.expect (by decide)) (by decide)
        (Rule.not_colon_of_fails_loop (by decide))

theorem formals_prompt : formals.Prompt :=
  have list : formalList.Prompt :=
    .branch rfl (.seq formal_prompt (.list formal_prompt rfl)) (.of_immediate rfl)
  .node (.seq (.of_immediate rfl) (.seq list (.of_immediate rfl))) _

theorem part_prompt : part.Prompt :=
  .branch rfl (.of_immediate (by decide)) (.branch rfl declaration_prompt (.of_immediate rfl))

theorem theories_prompt : theories.Prompt :=
  have closing : (Rule.expect .endKw >> Rule.expect .identifier).Prompt := .of_immediate rfl
  have body : (Rule.loop (.past [.endKw, .eof]) part).Prompt := .loop part_prompt rfl
  have heading : (Rule.option [.openBracket] formals).Prompt :=
    .branch rfl formals_prompt (.of_immediate rfl)
  have theory : theory.Prompt :=
    .node (.seq (.of_immediate rfl) <| .seq heading <| .seq (.of_immediate rfl) <|
      .seq (.of_immediate rfl) <| .seq (.of_immediate (by decide)) <| .seq (.of_immediate rfl) <|
      .seq body closing) _
  .branch rfl (.of_immediate rfl) (.loop (.branch rfl theory (.of_immediate rfl)) rfl)

end Grammar

/-- Where theories fail and other tokens after the next one would help, a list of names ends with a
comma. -/
theorem Fails.trailingComma {us : List Tree} (h : Fails (.rule Grammar.theories) (x ++ v) trees v)
    (hvw : nextKind v = nextKind w) (hw : Parses (.rule Grammar.theories) (x ++ w) us rest) :
    TrailingComma x trees v w :=
  (Grammar.theories_prompt.fails hvw h).resolve_left fun ⟨_, hf⟩ => hf.not_parses hw

end PvsIndex
