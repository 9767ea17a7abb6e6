import PvsIndex.Proofs.Grammar.Failing

/-! Reading sees one token ahead: what has been read up to some token is read in the same way
whatever comes after that token. Only lists of names look further. -/

namespace PvsIndex

section

variable {v w : List Token} (hvw : nextKind v = nextKind w)

include hvw

theorem nextKind_append_congr (x : List Token) : nextKind (x ++ v) = nextKind (x ++ w) := by
  cases x with
  | nil => exact hvw
  | cons t x => rfl

theorem secondKind_append_congr {x : List Token} (hx : x ≠ []) :
    secondKind (x ++ v) = secondKind (x ++ w) := by
  obtain ⟨t, x, rfl⟩ := List.exists_cons_of_ne_nil hx
  exact nextKind_append_congr hvw x

end

namespace Lookahead

/-- The test asks for the next token only. -/
def immediate : Lookahead → Bool
  | next _ | past _ => true
  | _ => false

variable {test : Lookahead} {v w : List Token}

theorem near_of_immediate (h : test.immediate = true) : test.near = true := by
  cases test with
  | next => rfl
  | past => rfl
  | _ => cases h

theorem holds_append_of_immediate (h : test.immediate = true) (hvw : nextKind v = nextKind w)
    (x : List Token) : test.holds (x ++ v) = test.holds (x ++ w) := by
  cases test with
  | next kinds => simp only [holds, nextKind_append_congr hvw x]
  | past kinds => simp only [holds, nextKind_append_congr hvw x]
  | _ => cases h

theorem holds_append_of_near (h : test.near = true) (hvw : nextKind v = nextKind w)
    {x : List Token} (hx : x ≠ []) : test.holds (x ++ v) = test.holds (x ++ w) := by
  cases test with
  | declares => cases h
  | _ => simp only [holds, nextKind_append_congr hvw x, secondKind_append_congr hvw hx]

end Lookahead

/-- What the rule reads up to some token does not depend on what comes after the token. -/
def Rule.immediate : Rule → Bool
  | empty | take | report _ | .call _ => true
  | skip => false
  | seq first second => first.immediate && (first.refuses || second.immediate)
  | branch test yes no => test.immediate && yes.immediate && no.immediate ||
      test.near && yes.refuses && no.refuses
  | loop test body => test.immediate && body.immediate
  | node _ body => body.immediate
  | nodeBy opening test _ _ closing => test.immediate && opening.immediate && closing.immediate
  | chain _ head test tail => test.immediate && head.immediate && tail.immediate

theorem Nonterminal.immediate {name : Nonterminal} (h : name.Known) :
    name.rule.immediate = true := by
  have layered : ∀ layers ∈ Grammar.layers.tails, (Grammar.layered layers).immediate = true := by
    decide
  have type : Grammar.typeExpression.immediate = true := by decide
  cases name with
  | text => exact h.elim
  | type => exact type
  | expression layers => exact layered layers ((List.mem_tails _ _).mpr h)

def Piece.immediate : Piece → Bool
  | rule r => r.immediate
  | chain _ test tail _ => test.immediate && tail.immediate

theorem exists_eq_append_of_suffix {z v mid : List Token} (h : z ++ v <:+ mid) :
    ∃ y, mid = y ++ v := by
  obtain ⟨p, rfl⟩ := h
  exact ⟨p ++ z, (List.append_assoc ..).symm⟩

theorem eq_nil_of_suffix {z v : List Token} (h : z ++ v <:+ v) : z = [] :=
  List.append_left_eq_self.mp (h.eq_of_length_le (by simp))

variable {piece : Piece} {input rest x z v w : List Token} {trees : List Tree}

theorem Parses.steady (h : Parses piece input trees rest) (hp : piece.immediate = true)
    (hx : input = x ++ v) (hz : rest = z ++ v) (hvw : nextKind v = nextKind w) :
    Parses piece (x ++ w) trees (z ++ w) := by
  induction h generalizing x z with
  | empty =>
    obtain rfl := List.append_cancel_right (hx.symm.trans hz)
    exact .empty
  | @take t _ ht =>
    subst hz
    obtain rfl : t :: z = x := List.append_cancel_right hx
    exact .take ht
  | skip | skipNone => cases hp
  | seq head next ih1 ih2 =>
    obtain ⟨hp1, hp2⟩ := Bool.and_eq_true_iff.mp hp
    obtain ⟨y, hy⟩ := exists_eq_append_of_suffix (hz ▸ next.suffix)
    rcases Bool.or_eq_true_iff.mp hp2 with hr | hp2
    · exact absurd head (Rule.not_parses_of_refuses hr)
    · exact .seq (ih1 hp1 hx hy) (ih2 hp2 hy hz)
  | yes proper ht body ih =>
    rcases Bool.or_eq_true_iff.mp hp with hp | hr
    · simp only [Bool.and_eq_true] at hp
      rw [hx, Lookahead.holds_append_of_immediate hp.1.1 hvw] at ht
      exact .yes (Lookahead.proper_of_near (Lookahead.near_of_immediate hp.1.1) _) ht
        (ih hp.1.2 hx hz)
    · simp only [Bool.and_eq_true] at hr
      exact absurd body (Rule.not_parses_of_refuses hr.1.2)
  | no proper ht body ih =>
    rcases Bool.or_eq_true_iff.mp hp with hp | hr
    · simp only [Bool.and_eq_true] at hp
      rw [hx, Lookahead.holds_append_of_immediate hp.1.1 hvw] at ht
      exact .no (Lookahead.proper_of_near (Lookahead.near_of_immediate hp.1.1) _) ht
        (ih hp.2 hx hz)
    · simp only [Bool.and_eq_true] at hr
      exact absurd body (Rule.not_parses_of_refuses hr.2)
  | finish ht =>
    obtain rfl := List.append_cancel_right (hx.symm.trans hz)
    rw [hx, Lookahead.holds_append_of_immediate (Bool.and_eq_true_iff.mp hp).1 hvw] at ht
    exact .finish ht
  | turn ht hl once again ih1 ih2 =>
    obtain ⟨hp1, hp2⟩ := Bool.and_eq_true_iff.mp hp
    obtain ⟨y, hy⟩ := exists_eq_append_of_suffix (hz ▸ again.suffix)
    rw [hx, Lookahead.holds_append_of_immediate hp1 hvw] at ht
    rw [hx, hy] at hl
    exact .turn ht (by simpa using hl) (ih1 hp2 hx hy) (ih2 hp hy hz)
  | node _ ih => exact .node (ih hp hx hz)
  | nodeBy opened closed ih1 ih2 =>
    simp only [Piece.immediate, Rule.immediate, Bool.and_eq_true] at hp
    obtain ⟨y, hy⟩ := exists_eq_append_of_suffix (hz ▸ closed.suffix)
    rw [hy, Lookahead.holds_append_of_immediate hp.1.1 hvw]
    exact .nodeBy (ih1 hp.1.2 hx hy) (ih2 hp.2 hy hz)
  | headless _ ih =>
    simp only [Piece.immediate, Rule.immediate, Bool.and_eq_true] at hp
    exact .headless (ih hp.1.2 hx hz)
  | chain first hne links ih1 ih2 =>
    simp only [Piece.immediate, Rule.immediate, Bool.and_eq_true] at hp
    obtain ⟨y, hy⟩ := exists_eq_append_of_suffix (hz ▸ links.suffix)
    exact .chain (ih1 hp.1.2 hx hy) hne (ih2 (Bool.and_eq_true_iff.mpr ⟨hp.1.1, hp.2⟩) hy hz)
  | grown ht =>
    obtain rfl := List.append_cancel_right (hx.symm.trans hz)
    rw [hx, Lookahead.holds_append_of_immediate (Bool.and_eq_true_iff.mp hp).1 hvw] at ht
    exact .grown ht
  | link ht hl once again ih1 ih2 =>
    obtain ⟨hp1, hp2⟩ := Bool.and_eq_true_iff.mp hp
    obtain ⟨y, hy⟩ := exists_eq_append_of_suffix (hz ▸ again.suffix)
    rw [hx, Lookahead.holds_append_of_immediate hp1 hvw] at ht
    rw [hx, hy] at hl
    exact .link ht (by simpa using hl) (ih1 hp2 hx hy) (ih2 hp hy hz)
  | call hk hs _ ih =>
    rw [hx, nextKind_append_congr hvw] at hs
    exact .call hk hs (ih (Nonterminal.immediate hk) hx hz)

/-- A branch both sides of which refuse fails everywhere. -/
theorem Fails.steady_refusing {test : Lookahead} {yes no body : Rule}
    (hr : (test.near && yes.refuses && no.refuses) = true) (h : Fails (.rule body) input trees rest)
    (hbody : body = yes ∨ body = no) (hx : input = x ++ rest) :
    ∃ us, Fails (.rule (.branch test yes no)) (x ++ w) us w := by
  rw [Bool.and_assoc] at hr
  have hrefuses : body.refuses = true := by
    simp only [Bool.and_eq_true] at hr
    rcases hbody with rfl | rfl
    · exact hr.2.1
    · exact hr.2.2
  obtain rfl := List.self_eq_append_left.mp ((Rule.rest_eq_of_refuses hrefuses h).trans hx)
  exact Rule.fails_of_refuses (r := .branch test yes no) hr w

/-- Where an error is found, it is found whatever comes after the next token. -/
theorem Fails.steady (h : Fails piece input trees rest) (hp : piece.immediate = true)
    (hx : input = x ++ rest) (hw : nextKind rest = nextKind w) :
    ∃ us, Fails piece (x ++ w) us w := by
  induction h generalizing x with
  | report =>
    obtain rfl := List.self_eq_append_left.mp hx
    exact ⟨[], .report⟩
  | first _ ih =>
    obtain ⟨us, h⟩ := ih (Bool.and_eq_true_iff.mp hp).1 hx hw
    exact ⟨us ++ [], .first h⟩
  | second head next ih =>
    obtain ⟨hp1, hp2⟩ := Bool.and_eq_true_iff.mp hp
    obtain ⟨y, hy⟩ := exists_eq_append_of_suffix (z := []) next.suffix
    rcases Bool.or_eq_true_iff.mp hp2 with hr | hp2
    · exact absurd head (Rule.not_parses_of_refuses hr)
    · obtain ⟨us, h⟩ := ih hp2 hy hw
      exact ⟨_, .second (head.steady hp1 hx hy hw) h⟩
  | yes proper ht body ih =>
    rcases Bool.or_eq_true_iff.mp hp with hp | hr
    · simp only [Bool.and_eq_true] at hp
      rw [hx, Lookahead.holds_append_of_immediate hp.1.1 hw] at ht
      obtain ⟨us, h⟩ := ih hp.1.2 hx hw
      exact ⟨us, .yes (Lookahead.proper_of_near (Lookahead.near_of_immediate hp.1.1) _) ht h⟩
    · exact steady_refusing hr body (Or.inl rfl) hx
  | no proper ht body ih =>
    rcases Bool.or_eq_true_iff.mp hp with hp | hr
    · simp only [Bool.and_eq_true] at hp
      rw [hx, Lookahead.holds_append_of_immediate hp.1.1 hw] at ht
      obtain ⟨us, h⟩ := ih hp.2 hx hw
      exact ⟨us, .no (Lookahead.proper_of_near (Lookahead.near_of_immediate hp.1.1) _) ht h⟩
    · exact steady_refusing hr body (Or.inr rfl) hx
  | turn ht once ih =>
    obtain ⟨hp1, hp2⟩ := Bool.and_eq_true_iff.mp hp
    rw [hx, Lookahead.holds_append_of_immediate hp1 hw] at ht
    obtain ⟨us, h⟩ := ih hp2 hx hw
    exact ⟨us ++ [], .turn ht h⟩
  | again ht hl once again ih =>
    obtain ⟨hp1, hp2⟩ := Bool.and_eq_true_iff.mp hp
    obtain ⟨y, hy⟩ := exists_eq_append_of_suffix (z := []) again.suffix
    rw [hx, Lookahead.holds_append_of_immediate hp1 hw] at ht
    obtain ⟨us, h⟩ := ih hp hy hw
    have hl : (y ++ w).length < (x ++ w).length := by simpa [hx, hy] using hl
    exact ⟨_, .again ht hl (once.steady hp2 hx hy hw) h⟩
  | node _ ih =>
    obtain ⟨us, h⟩ := ih hp hx hw
    exact ⟨_, .node h⟩
  | @opening _ _ _ _ _ kind _ _ _ _ _ ih =>
    simp only [Piece.immediate, Rule.immediate, Bool.and_eq_true] at hp
    obtain ⟨us, h⟩ := ih hp.1.2 hx hw
    exact ⟨[.node kind (us ++ [])], .opening h⟩
  | @closing _ _ _ _ _ kind _ _ _ _ _ opened closed ih =>
    simp only [Piece.immediate, Rule.immediate, Bool.and_eq_true] at hp
    obtain ⟨y, hy⟩ := exists_eq_append_of_suffix (z := []) closed.suffix
    obtain ⟨us, h⟩ := ih hp.2 hy hw
    exact ⟨[.node kind (_ ++ us)], .closing (opened.steady hp.1.2 hx hy hw) h⟩
  | head _ ih =>
    simp only [Piece.immediate, Rule.immediate, Bool.and_eq_true] at hp
    obtain ⟨us, h⟩ := ih hp.1.2 hx hw
    exact ⟨us, .head h⟩
  | links first hne links ih =>
    simp only [Piece.immediate, Rule.immediate, Bool.and_eq_true] at hp
    obtain ⟨y, hy⟩ := exists_eq_append_of_suffix (z := []) links.suffix
    obtain ⟨us, h⟩ := ih (Bool.and_eq_true_iff.mpr ⟨hp.1.1, hp.2⟩) hy hw
    exact ⟨us, .links (first.steady hp.1.2 hx hy hw) hne h⟩
  | link ht _ ih =>
    obtain ⟨hp1, hp2⟩ := Bool.and_eq_true_iff.mp hp
    rw [hx, Lookahead.holds_append_of_immediate hp1 hw] at ht
    obtain ⟨us, h⟩ := ih hp2 hx hw
    exact ⟨us, .link ht h⟩
  | relink ht hl once again ih =>
    obtain ⟨hp1, hp2⟩ := Bool.and_eq_true_iff.mp hp
    obtain ⟨y, hy⟩ := exists_eq_append_of_suffix (z := []) again.suffix
    rw [hx, Lookahead.holds_append_of_immediate hp1 hw] at ht
    obtain ⟨us, h⟩ := ih hp hy hw
    have hl : (y ++ w).length < (x ++ w).length := by simpa [hx, hy] using hl
    exact ⟨us, .relink ht hl (once.steady hp2 hx hy hw) h⟩
  | call hk hs _ ih =>
    rw [hx, nextKind_append_congr hw] at hs
    obtain ⟨us, h⟩ := ih (Nonterminal.immediate hk) hx hw
    exact ⟨us, .call hk hs h⟩

end PvsIndex
