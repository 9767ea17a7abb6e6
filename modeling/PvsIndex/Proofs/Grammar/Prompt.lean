import PvsIndex.Proofs.Grammar.Lockstep
import PvsIndex.Proofs.Tree.Walk

/-! Rules that find errors promptly: where one reports a token, no other tokens after it would have
helped, unless the token is a comma after a name. -/

namespace PvsIndex

/-- A declaration, or a formal parameter, with the name in its list of names. -/
def Element.Lists (e : Element) (name : Token) : Prop :=
  e.kind ∈ [.typeDecl, .varDecl, .functionDecl] ∧ .node .identifier [.leaf name] ∈ e.children

/-- The last of the tokens is a name in the list of a declaration. -/
def EndsNames (read : List Token) (trees : List Tree) : Prop :=
  ∃ name, read.getLast? = some name ∧
    ∀ ancestors, ∃ o ∈ Tree.preorderOf ancestors trees, o.element.Lists name

/-- What was read is a list of names; then comes a comma, with no name after it in the one case and
with a name in the other. -/
structure TrailingComma (read : List Token) (trees : List Tree) (v w : List Token) : Prop where
  comma : nextKind v = .comma
  alone : secondKind v ≠ .identifier
  followed : secondKind w = .identifier
  names : EndsNames read trees

namespace EndsNames

variable {x y : List Token} {ts us : List Tree}

theorem append_right (h : EndsNames x ts) (us : List Tree) : EndsNames x (ts ++ us) := by
  obtain ⟨name, hlast, hnames⟩ := h
  refine ⟨name, hlast, fun ancestors => ?_⟩
  obtain ⟨o, ho, hk⟩ := hnames ancestors
  rw [Tree.preorderOf_eq_flatMap, List.flatMap_append]
  exact ⟨o, List.mem_append_left _ (Tree.preorderOf_eq_flatMap .. ▸ ho), hk⟩

theorem append_left (h : EndsNames y us) (x : List Token) (ts : List Tree) :
    EndsNames (x ++ y) (ts ++ us) := by
  obtain ⟨name, hlast, hnames⟩ := h
  refine ⟨name, by rw [List.getLast?_append, hlast, Option.some_or], fun ancestors => ?_⟩
  obtain ⟨o, ho, hk⟩ := hnames ancestors
  rw [Tree.preorderOf_eq_flatMap, List.flatMap_append]
  exact ⟨o, List.mem_append_right _ (Tree.preorderOf_eq_flatMap .. ▸ ho), hk⟩

theorem node (h : EndsNames x ts) (kind : ElementKind) : EndsNames x [.node kind ts] := by
  obtain ⟨name, hlast, hnames⟩ := h
  refine ⟨name, hlast, fun ancestors => ?_⟩
  obtain ⟨o, ho, hk⟩ := hnames (⟨kind, ts⟩ :: ancestors)
  refine ⟨o, ?_, hk⟩
  rw [Tree.preorderOf_cons, Tree.preorderBelow_node]
  exact List.mem_append_left _ (List.mem_cons_of_mem _ ho)

end EndsNames

namespace TrailingComma

variable {x y v w : List Token} {ts us : List Tree}

theorem append_right (h : TrailingComma x ts v w) (us : List Tree) :
    TrailingComma x (ts ++ us) v w :=
  { h with names := h.names.append_right us }

theorem append_left (h : TrailingComma y us v w) (x : List Token) (ts : List Tree) :
    TrailingComma (x ++ y) (ts ++ us) v w :=
  { h with names := h.names.append_left x ts }

theorem node (h : TrailingComma x ts v w) (kind : ElementKind) :
    TrailingComma x [.node kind ts] v w :=
  { h with names := h.names.node kind }

end TrailingComma

/-- What the rule reads up to a token, and what it reports there, does not depend on what follows
the token, except for a comma after a name. -/
structure Rule.Prompt (r : Rule) : Prop where
  parses {x z v w : List Token} {trees : List Tree} (hvw : nextKind v = nextKind w)
    (h : Parses (.rule r) (x ++ v) trees (z ++ v)) : Parses (.rule r) (x ++ w) trees (z ++ w)
  fails {x v w : List Token} {trees : List Tree} (hvw : nextKind v = nextKind w)
    (h : Fails (.rule r) (x ++ v) trees v) :
    (∃ us, Fails (.rule r) (x ++ w) us w) ∨ TrailingComma x trees v w

namespace Rule.Prompt

variable {r first second yes no body : Rule} {test : Lookahead} {x z v w : List Token}
  {trees : List Tree}

theorem of_immediate (hr : r.immediate = true) : r.Prompt where
  parses hvw h := h.steady hr rfl rfl hvw
  fails hvw h := Or.inl (h.steady hr rfl hvw)

theorem seq (h1 : first.Prompt) (h2 : second.Prompt) : (Rule.seq first second).Prompt where
  parses hvw h := by
    cases h with
    | seq head next =>
      obtain ⟨y, rfl⟩ := exists_eq_append_of_suffix next.suffix
      exact .seq (h1.parses hvw head) (h2.parses hvw next)
  fails {x v w trees} hvw h := by
    generalize hinput : x ++ v = input at h
    generalize hrest : v = rest at h
    cases h with
    | @first _ _ _ ts us _ head =>
      subst hinput hrest
      rcases h1.fails hvw head with ⟨vs, hf⟩ | hcomma
      · exact Or.inl ⟨vs ++ [], .first hf⟩
      · exact Or.inr (hcomma.append_right us)
    | @second _ _ _ mid ts us _ head next =>
      subst hinput hrest
      obtain ⟨y, rfl⟩ := exists_eq_append_of_suffix (z := []) next.suffix
      obtain ⟨p, hp⟩ := head.suffix
      rw [← List.append_assoc] at hp
      obtain rfl := List.append_cancel_right hp
      rcases h2.fails hvw next with ⟨vs, hf⟩ | hcomma
      · exact Or.inl ⟨ts ++ vs, .second (h1.parses hvw head) hf⟩
      · exact Or.inr (hcomma.append_left p ts)

theorem branch (ht : test.immediate = true) (h1 : yes.Prompt) (h2 : no.Prompt) :
    (Rule.branch test yes no).Prompt where
  parses hvw h := by
    have proper := Lookahead.proper_of_near (Lookahead.near_of_immediate ht)
    cases h with
    | yes _ hy body =>
      rw [Lookahead.holds_append_of_immediate ht hvw] at hy
      exact .yes (proper _) hy (h1.parses hvw body)
    | no _ hn body =>
      rw [Lookahead.holds_append_of_immediate ht hvw] at hn
      exact .no (proper _) hn (h2.parses hvw body)
  fails hvw h := by
    have proper := Lookahead.proper_of_near (Lookahead.near_of_immediate ht)
    cases h with
    | yes _ hy body =>
      rw [Lookahead.holds_append_of_immediate ht hvw] at hy
      exact (h1.fails hvw body).imp_left fun ⟨us, hf⟩ => ⟨us, .yes (proper _) hy hf⟩
    | no _ hn body =>
      rw [Lookahead.holds_append_of_immediate ht hvw] at hn
      exact (h2.fails hvw body).imp_left fun ⟨us, hf⟩ => ⟨us, .no (proper _) hn hf⟩

theorem node (h : body.Prompt) (kind : ElementKind) : (Rule.node kind body).Prompt where
  parses hvw hp := by
    cases hp with
    | node inner => exact .node (h.parses hvw inner)
  fails hvw hf := by
    cases hf with
    | node inner =>
      rcases h.fails hvw inner with ⟨us, hf⟩ | hcomma
      · exact Or.inl ⟨_, .node hf⟩
      · exact Or.inr (hcomma.node kind)

/-- The turns of a loop are the same ones, if its test says the same at the end. -/
theorem loop_parses (hb : body.Prompt) (ht : test.near = true) (hvw : nextKind v = nextKind w)
    (hend : z = [] → test.holds v = test.holds w)
    (h : Parses (.rule (.loop test body)) (x ++ v) trees (z ++ v)) :
    Parses (.rule (.loop test body)) (x ++ w) trees (z ++ w) := by
  generalize hp : Piece.rule (.loop test body) = piece at h
  generalize hinput : x ++ v = input at h
  generalize hrest : z ++ v = rest at h
  induction h generalizing x with
  | finish hf =>
    obtain ⟨rfl, rfl⟩ := Rule.loop.inj (Piece.rule.inj hp)
    obtain rfl : x = z := List.append_cancel_right (hinput.trans hrest.symm)
    refine .finish ?_
    rw [← hinput] at hf
    by_cases hx : x = []
    · subst hx
      exact (hend rfl).symm.trans hf
    · rwa [← Lookahead.holds_append_of_near ht hvw hx]
  | turn hh hl once again _ ih =>
    obtain ⟨rfl, rfl⟩ := Rule.loop.inj (Piece.rule.inj hp)
    subst hinput hrest
    obtain ⟨y, rfl⟩ := exists_eq_append_of_suffix again.suffix
    have hxy : y.length < x.length := by simpa using hl
    have hx : x ≠ [] := List.ne_nil_of_length_pos (by omega)
    rw [Lookahead.holds_append_of_near ht hvw hx] at hh
    exact .turn hh (by simpa using hxy) (hb.parses hvw once) (ih hp rfl rfl)
  | _ => cases hp

theorem loop_fails (hb : body.Prompt) (ht : test.near = true) (hvw : nextKind v = nextKind w)
    (hbegin : ∀ us, Fails (.rule body) v us v → test.holds v = test.holds w)
    (h : Fails (.rule (.loop test body)) (x ++ v) trees v) :
    (∃ us, Fails (.rule (.loop test body)) (x ++ w) us w) ∨ TrailingComma x trees v w := by
  generalize hp : Piece.rule (.loop test body) = piece at h
  generalize hinput : x ++ v = input at h
  generalize hrest : v = rest at h
  induction h generalizing x with
  | @turn _ _ _ ts us _ hh once =>
    obtain ⟨rfl, rfl⟩ := Rule.loop.inj (Piece.rule.inj hp)
    subst hinput hrest
    have hsame : test.holds (x ++ v) = test.holds (x ++ w) := by
      by_cases hx : x = []
      · subst hx
        exact hbegin _ once
      · exact Lookahead.holds_append_of_near ht hvw hx
    rcases hb.fails hvw once with ⟨vs, hf⟩ | hcomma
    · exact Or.inl ⟨vs ++ [], .turn (hsame ▸ hh) hf⟩
    · exact Or.inr (hcomma.append_right us)
  | @again _ _ _ mid ts us _ hh hl once again ih =>
    obtain ⟨rfl, rfl⟩ := Rule.loop.inj (Piece.rule.inj hp)
    subst hinput hrest
    obtain ⟨y, rfl⟩ := exists_eq_append_of_suffix (z := []) again.suffix
    obtain ⟨p, hxy⟩ := once.suffix
    rw [← List.append_assoc] at hxy
    obtain rfl := List.append_cancel_right hxy
    have hx : p ++ y ≠ [] := by
      rintro he
      simp [List.append_eq_nil_iff.mp he] at hl
    rw [Lookahead.holds_append_of_near ht hvw hx] at hh
    rcases ih hp rfl rfl with ⟨vs, hf⟩ | hcomma
    · exact Or.inl ⟨ts ++ vs, .again hh (by simpa using hl) (hb.parses hvw once) hf⟩
    · exact Or.inr (hcomma.append_left p ts)
  | _ => cases hp

theorem loop (hb : body.Prompt) (ht : test.immediate = true) : (Rule.loop test body).Prompt where
  parses hvw := loop_parses hb (Lookahead.near_of_immediate ht) hvw
    fun _ => Lookahead.holds_append_of_immediate ht hvw []
  fails hvw := loop_fails hb (Lookahead.near_of_immediate ht) hvw
    fun _ _ => Lookahead.holds_append_of_immediate ht hvw []

theorem not_fails_take {item : Rule} {us : List Tree} :
    ¬ Fails (.rule (.seq .take item)) v us v := by
  intro h
  cases h with
  | first head => cases head
  | second head next =>
    cases head with
    | take => exact absurd next.suffix.length_le (Nat.not_succ_le_self _)

end Rule.Prompt

end PvsIndex
