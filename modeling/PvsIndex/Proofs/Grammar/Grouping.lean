import PvsIndex.Proofs.Grammar.Correctness
import PvsIndex.Proofs.Grammar.Precedence

/-! Operands are bound as tightly as their operators ask for: the tree of a text without errors is
grouped. -/

namespace PvsIndex

def ElementKind.operates : ElementKind → Bool
  | unaryExpr | binaryExpr | callExpr => true
  | _ => false

theorem Element.grouped_of_not_operates {e : Element} (h : e.kind.operates = false) :
    e.Grouped := by
  obtain ⟨kind, children⟩ := e
  cases kind <;> first | exact trivial | cases h

/-- The rule makes elements with operands by named rules only. -/
def Rule.plain : Rule → Bool
  | node kind body => !kind.operates && body.plain
  | nodeBy opening _ yes no closing =>
    !yes.operates && !no.operates && (opening.plain && closing.plain)
  | seq first second => first.plain && second.plain
  | branch _ yes no => yes.plain && no.plain
  | loop _ body => body.plain
  | chain _ _ _ _ => false
  | _ => true

theorem Parses.length_lt {r : Rule} {starts : List TokenKind} {input rest : List Token}
    {trees : List Tree} (h : Parses (.rule r) input trees rest) (hs : nextKind input ∈ starts)
    (hr : (r.phrase (.ofNext starts)).nullable = false) : rest.length < input.length := by
  obtain ⟨ts, rfl, ha⟩ := h.accepts
  have hne := (ha _ (Ahead.holds_ofNext.mpr hs)).ne_nil startsRight hr
  have hpos := List.length_pos_of_ne_nil hne
  rw [length_kindsOf] at hpos
  rw [List.length_append]
  omega

theorem Parses.layered_lt {ls : List Layer} {input rest : List Token} {trees : List Tree}
    (h : Parses (.rule (Grammar.layered ls)) input trees rest) (hls : ls <:+ Grammar.layers)
    (hs : nextKind input ∈ Grammar.expressionStarts ls) : rest.length < input.length := by
  have check : ∀ ls ∈ Grammar.layers.tails,
      ((Grammar.layered ls).phrase (.ofNext (Grammar.expressionStarts ls))).nullable = false := by
    decide +kernel
  exact h.length_lt hs (check ls ((List.mem_tails _ _).mpr hls))

/-- An expression that has been read: of operators of the layers, no more are left. -/
structure Grouping (level : Nat) (ls : List Layer) (t : Tree) (rest : List Token) : Prop where
  element : t.element?.isSome = true
  grouped : t.Grouped
  level_le : level ≤ t.level
  done : nextKind rest ∉ t.ending.continues ls

/-- Expressions of so many tokens at most are grouped. -/
def Groups (n : Nat) : Prop :=
  ∀ ⦃ls input trees rest⦄, ls <:+ Grammar.layers → input.length ≤ n →
    nextKind input ∈ Grammar.expressionStarts ls →
    Parses (.rule (Grammar.layered ls)) input trees rest →
      ∃ t, trees = [t] ∧ Grouping (Grammar.floor ls) ls t rest

theorem Ending.not_continues {operators : List TokenKind} {ls : List Layer} {e : Ending}
    {kind : TokenKind} (hop : kind ∉ operators) (h : kind ∉ e.continues ls) :
    kind ∉ e.continues (.binary operators :: ls) := by
  cases e with
  | opened => exact h
  | closed =>
    simp only [continues, Grammar.binaryOperators, List.mem_cons, List.mem_append, not_or] at h ⊢
    exact ⟨h.1, hop, h.2⟩

namespace Groups

variable {n : Nat} {input rest : List Token} {trees : List Tree} {r : Rule}

/-- What has no operands of its own is grouped if the expressions in it are. -/
theorem plain (hn : Groups n) (h : Parses (.rule r) input trees rest) (hr : r.plain = true)
    (hl : input.length ≤ n) : ∀ t ∈ trees, t.Grouped := by
  have single (kind : ElementKind) {ts : List Tree} (hk : kind.operates = false)
      (ht : ∀ t ∈ ts, t.Grouped) : ∀ t ∈ [Tree.node kind ts], t.Grouped :=
    List.forall_mem_singleton.mpr (.node (Element.grouped_of_not_operates hk) ht)
  generalize hp : Piece.rule r = piece at h
  induction h generalizing r with
  | empty => exact List.forall_mem_nil _
  | take => exact List.forall_mem_singleton.mpr .leaf
  | skip => exact List.forall_mem_singleton.mpr .leaf
  | skipNone => exact List.forall_mem_nil _
  | seq head _ ih1 ih2 =>
    obtain rfl := Piece.rule.inj hp
    obtain ⟨h1, h2⟩ := (Bool.and_eq_true _ _).mp hr
    exact List.forall_mem_append.mpr ⟨ih1 h1 hl rfl, ih2 h2 (head.length_le.trans hl) rfl⟩
  | yes _ _ _ ih =>
    obtain rfl := Piece.rule.inj hp
    exact ih ((Bool.and_eq_true _ _).mp hr).1 hl rfl
  | no _ _ _ ih =>
    obtain rfl := Piece.rule.inj hp
    exact ih ((Bool.and_eq_true _ _).mp hr).2 hl rfl
  | finish => exact List.forall_mem_nil _
  | @turn _ body _ _ _ _ _ _ _ once _ ih1 ih2 =>
    obtain rfl := Piece.rule.inj hp
    have hb : body.plain = true := hr
    exact List.forall_mem_append.mpr ⟨ih1 hb hl rfl, ih2 hr (once.length_le.trans hl) rfl⟩
  | @node kind _ _ _ _ _ ih =>
    obtain rfl := Piece.rule.inj hp
    obtain ⟨hk, hb⟩ := (Bool.and_eq_true _ _).mp hr
    exact single kind (by simpa using hk) (ih hb hl rfl)
  | @nodeBy opening test yes no closing input mid rest ts us opened _ ih1 ih2 =>
    obtain rfl := Piece.rule.inj hp
    obtain ⟨hk, hb⟩ := (Bool.and_eq_true _ _).mp hr
    obtain ⟨hy, hno⟩ := (Bool.and_eq_true _ _).mp hk
    obtain ⟨h1, h2⟩ := (Bool.and_eq_true _ _).mp hb
    have hall := List.forall_mem_append.mpr
      ⟨ih1 h1 hl rfl, ih2 h2 (opened.length_le.trans hl) rfl⟩
    split_ifs
    · exact single yes (by simpa using hy) hall
    · exact single no (by simpa using hno) hall
  | headless =>
    obtain rfl := Piece.rule.inj hp
    cases hr
  | chain =>
    obtain rfl := Piece.rule.inj hp
    cases hr
  | grown => cases hp
  | link => cases hp
  | @call name input ts rest known hs body ih =>
    cases name with
    | text => exact known.elim
    | type =>
      have htype : Grammar.typeExpression.plain = true := by decide
      exact ih htype hl rfl
    | expression ls =>
      obtain ⟨t, rfl, ht⟩ := hn known hl hs body
      exact List.forall_mem_singleton.mpr ht.grouped

theorem expression_done (hn : Groups n) (h : Parses (.rule Grammar.expression) input trees rest)
    (hl : input.length ≤ n) : nextKind rest ∉ Ending.opened.continues Grammar.layers := by
  cases h with
  | no _ _ h => cases h
  | yes _ _ h =>
    cases h with
    | call known hs h =>
      obtain ⟨t, -, ht⟩ := hn known hl hs h
      have hdone := ht.done
      unfold Tree.ending at hdone
      split_ifs at hdone
      · exact hdone
      · exact hdone

theorem opening (hn : Groups n) (h : Parses (.rule (.seq .take r)) input trees rest)
    (hr : r.plain = true) (hl : input.length ≤ n + 1) : (∀ t ∈ trees, t.Grouped) ∧
      ∃ mid us, mid.length ≤ n ∧ Parses (.rule r) mid us rest := by
  cases h with
  | seq htake h =>
    cases htake with
    | take =>
      have hl := Nat.le_of_succ_le_succ hl
      exact ⟨List.forall_mem_append.mpr ⟨List.forall_mem_singleton.mpr .leaf, hn.plain h hr hl⟩,
        _, _, hl, h⟩

end Groups

/-- An expression to which more may be added. -/
structure Linkable (level : Nat) (t : Tree) (rest : List Token) : Prop where
  element : t.element?.isSome = true
  grouped : t.Grouped
  level_le : level ≤ t.level
  done : t.trails = true → nextKind rest ∉ Ending.opened.continues Grammar.layers

theorem Linkable.node {kind : ElementKind} {children : List Tree} {rest : List Token}
    (hk : kind.operates = false) (hc : ∀ c ∈ children, c.Grouped)
    (hd : kind = .binderExpr ∨ kind = .letExpr →
      nextKind rest ∉ Ending.opened.continues Grammar.layers) :
    Linkable 10 (.node kind children) rest where
  element := rfl
  grouped := .node (Element.grouped_of_not_operates hk) hc
  level_le := by cases kind <;> first | exact Nat.le_succ 10 | cases hk
  done ht := by
    cases kind with
    | binderExpr => exact hd (Or.inl rfl)
    | letExpr => exact hd (Or.inr rfl)
    | unaryExpr => cases hk
    | binaryExpr => cases hk
    | _ => cases ht

namespace Groups

variable {n : Nat} {input rest : List Token} {trees : List Tree} {kind : ElementKind}
  {first second r : Rule}

theorem take_linkable (hk : kind.operates = false ∧ kind ≠ .binderExpr ∧ kind ≠ .letExpr)
    (h : Parses (.rule (.node kind .take)) input trees rest) :
    ∃ t, trees = [t] ∧ Linkable 10 t rest := by
  cases h with
  | node h =>
    cases h with
    | take =>
      exact ⟨_, rfl, .node hk.1 (List.forall_mem_singleton.mpr .leaf) fun h =>
        absurd h (not_or.mpr hk.2)⟩

theorem closed_linkable (hn : Groups n) (hl : input.length ≤ n + 1)
    (hk : kind.operates = false ∧ kind ≠ .binderExpr ∧ kind ≠ .letExpr ∧ r.plain = true)
    (h : Parses (.rule (.node kind (.seq .take r))) input trees rest) :
    ∃ t, trees = [t] ∧ Linkable 10 t rest := by
  obtain ⟨hk, hb, hlet, hr⟩ := hk
  cases h with
  | node h =>
    obtain ⟨hgrouped, -⟩ := hn.opening h hr hl
    exact ⟨_, rfl, .node hk hgrouped fun h => absurd h (not_or.mpr ⟨hb, hlet⟩)⟩

theorem bound_linkable (hn : Groups n) (hl : input.length ≤ n + 1)
    (hk : kind.operates = false ∧ first.plain = true ∧ second.plain = true)
    (h : Parses (.rule (.node kind
      (.seq .take (.seq first (.seq second Grammar.expression))))) input trees rest) :
    ∃ t, trees = [t] ∧ Linkable 10 t rest := by
  obtain ⟨hk, hfirst, hsecond⟩ := hk
  have hplain : (Rule.seq first (.seq second Grammar.expression)).plain = true := by
    rw [Rule.plain, Rule.plain, hfirst, hsecond]
    decide
  cases h with
  | node h =>
    obtain ⟨hgrouped, mid, us, hmid, h⟩ := hn.opening h hplain hl
    refine ⟨_, rfl, .node hk hgrouped fun _ => ?_⟩
    cases h with
    | seq h1 h =>
      cases h with
      | seq h2 h => exact hn.expression_done h (h2.length_le.trans (h1.length_le.trans hmid))

theorem atom (hn : Groups n) (hs : nextKind input ∈ Grammar.atomStarts)
    (hl : input.length ≤ n + 1) (h : Parses (.rule Grammar.atom) input trees rest) :
    ∃ t, trees = [t] ∧ Linkable 10 t rest := by
  have h := Parses.switch_iff.mp h
  simp only [Grammar.atomStarts, List.mem_cons, List.not_mem_nil, or_false] at hs
  rcases hs with hs | hs | hs | hs | hs | hs | hs | hs | hs | hs | hs <;> rw [hs] at h
  · exact take_linkable (by decide) h
  · exact take_linkable (by decide) h
  · exact take_linkable (by decide) h
  · exact take_linkable (by decide) h
  · exact take_linkable (by decide) h
  · exact hn.closed_linkable hl (by decide) h
  · exact hn.closed_linkable hl (by decide) h
  · exact hn.bound_linkable hl (by decide) h
  · exact hn.bound_linkable hl (by decide) h
  · exact hn.bound_linkable hl (by decide) h
  · exact hn.bound_linkable hl (by decide) h

theorem calls (hn : Groups n) {t : Tree} (ht : Linkable 10 t input) (hl : input.length ≤ n)
    (h : Parses (.chain .callExpr (.next [.openParen]) Grammar.arguments [t]) input trees rest) :
    ∃ u, trees = [u] ∧ Linkable 10 u rest ∧ nextKind rest ≠ .openParen := by
  generalize hp : Piece.chain .callExpr (.next [.openParen]) Grammar.arguments [t] = piece at h
  induction h generalizing t with
  | grown htest =>
    obtain ⟨-, rfl, -, rfl⟩ := Piece.chain.inj hp
    exact ⟨t, rfl, ht, by simpa [Lookahead.holds] using htest⟩
  | @link _ _ _ _ input mid rest ts us htest progress once _ _ ih =>
    obtain ⟨rfl, rfl, rfl, rfl⟩ := Piece.chain.inj hp
    have hparen : nextKind input = .openParen := by simpa [Lookahead.holds] using htest
    have hclosed : t.trails = false := by
      refine Bool.eq_false_iff.mpr fun htrails => ht.done htrails ?_
      rw [hparen]
      exact List.mem_cons_self
    have hts := hn.plain once (by decide) hl
    have hcall : Linkable 10 (.node .callExpr ([t] ++ ts)) mid := {
      element := rfl
      grouped := .node ⟨t, ts, rfl, ht.element, ht.level_le, hclosed⟩
        (List.forall_mem_append.mpr ⟨List.forall_mem_singleton.mpr ht.grouped, hts⟩)
      level_le := Nat.le_refl 10
      done ht := absurd ht Bool.false_ne_true }
    exact ih hcall (by omega) rfl
  | _ => cases hp

theorem operations (hn : Groups n) {operators : List TokenKind} {ls : List Layer}
    (hls : .binary operators :: ls <:+ Grammar.layers) {t : Tree}
    (ht : Grouping (Grammar.floor (.binary operators :: ls)) ls t input) (hl : input.length ≤ n)
    (h : Parses (.chain .binaryExpr (.next operators)
      (.seq .take (.required (Grammar.expressionStarts ls) (Grammar.layered ls))) [t])
      input trees rest) :
    ∃ u, trees = [u] ∧
      Grouping (Grammar.floor (.binary operators :: ls)) (.binary operators :: ls) u rest := by
  generalize hp : Piece.chain .binaryExpr (.next operators)
    (.seq .take (.required (Grammar.expressionStarts ls) (Grammar.layered ls))) [t] = piece at h
  induction h generalizing t with
  | @grown _ _ _ _ input htest =>
    obtain ⟨-, rfl, -, rfl⟩ := Piece.chain.inj hp
    have hop : nextKind input ∉ operators := by simpa [Lookahead.holds] using htest
    exact ⟨t, rfl, ht.element, ht.grouped, ht.level_le, Ending.not_continues hop ht.done⟩
  | @link _ _ _ _ input mid rest ts us htest progress once _ _ ih =>
    obtain ⟨rfl, rfl, rfl, rfl⟩ := Piece.chain.inj hp
    have hop : nextKind input ∈ operators := by simpa [Lookahead.holds] using htest
    have hclosed : t.trails = false := by
      refine Bool.eq_false_iff.mpr fun htrails => ht.done ?_
      rw [Tree.ending, if_pos htrails]
      exact List.mem_cons_of_mem _
        (Grammar.binaryOperators_subset hls (List.mem_append_left _ hop))
    cases once with
    | seq htake hright =>
      cases htake with
      | @take op _ hne =>
        cases hright with
        | no _ _ hright => cases hright
        | yes _ hs hright =>
          have hl := Nat.le_of_succ_le hl
          obtain ⟨r, rfl, hr⟩ := hn ((List.suffix_cons _ _).trans hls) hl
            (by simpa [Lookahead.holds] using hs) hright
          have hlevel := (Grammar.mem_binary_iff hls).mp hop
          have htighter := hr.level_le
          rw [Grammar.floor_cons hls] at htighter
          have hgrouped := ht.grouped.binary hr.grouped ⟨ht.element, hr.element⟩ hlevel
            ht.level_le htighter hclosed
          exact ih ⟨rfl, hgrouped, (Tree.level_binary hlevel).ge, hr.done⟩
            (hright.length_le.trans hl) rfl
  | _ => cases hp

end Groups

namespace Groups

variable {n : Nat} {input rest : List Token} {trees : List Tree}

theorem prefixed (hn : Groups n) {operators : List TokenKind} {ls : List Layer}
    (hls : .unary operators :: ls <:+ Grammar.layers) (hl : input.length ≤ n + 1)
    (hop : nextKind input ∈ operators)
    (h : Parses (.rule (.node .unaryExpr (.seq .take
      (.required (Grammar.expressionStarts (.unary operators :: ls))
        (.call (.expression (.unary operators :: ls))))))) input trees rest) :
    ∃ t, trees = [t] ∧
      Grouping (Grammar.floor (.unary operators :: ls)) (.unary operators :: ls) t rest := by
  cases h with
  | node h =>
    cases h with
    | seq htake h =>
      cases htake with
      | @take op input hne =>
        cases h with
        | no _ _ h => cases h
        | yes _ _ h =>
          cases h with
          | call known hs h =>
            obtain ⟨t, rfl, ht⟩ := hn known (Nat.le_of_succ_le_succ hl) hs h
            have hlevel := (Grammar.mem_unary_iff hls).mp hop
            have here : Element.Grouped ⟨.unaryExpr, [.leaf op, t]⟩ :=
              ⟨op, t, _, rfl, ht.element, hlevel, ht.level_le⟩
            have inner : ∀ c ∈ [.leaf op, t], c.Grouped := by
              simp only [List.forall_mem_cons]
              exact ⟨.leaf, ht.grouped, List.forall_mem_nil _⟩
            exact ⟨_, rfl, rfl, .node here inner, (Tree.level_unary hlevel).ge, ht.done⟩

theorem application (hn : Groups n) (hs : nextKind input ∈ Grammar.atomStarts)
    (hl : input.length ≤ n + 1) (h : Parses (.rule (Grammar.layered [])) input trees rest) :
    ∃ t, trees = [t] ∧ Grouping (Grammar.floor []) [] t rest := by
  cases h with
  | headless h =>
    obtain ⟨t, ht, -⟩ := hn.atom hs hl h
    cases ht
  | chain h _ hlinks =>
    obtain ⟨t, rfl, ht⟩ := hn.atom hs hl h
    have hmid := h.length_lt hs (by decide +kernel)
    obtain ⟨u, rfl, hu, hdone⟩ := hn.calls ht (by omega) hlinks
    refine ⟨u, rfl, hu.element, hu.grouped, hu.level_le, ?_⟩
    unfold Tree.ending
    split_ifs with htrails
    · exact hu.done htrails
    · simpa [Ending.continues, Grammar.binaryOperators] using hdone

end Groups

/-- Expressions are grouped as they are read. -/
theorem groups (n : Nat) : Groups n := by
  have hstarts : ∀ ls ∈ Grammar.layers.tails, .eof ∉ Grammar.expressionStarts ls := by decide
  induction n with
  | zero =>
    intro ls input trees rest hls hl hs
    rw [List.length_eq_zero_iff.mp (Nat.le_zero.mp hl)] at hs
    exact absurd hs (hstarts ls ((List.mem_tails _ _).mpr hls))
  | succ n hn =>
    intro ls
    induction ls with
    | nil => exact fun _ _ _ _ hl hs h => hn.application hs hl h
    | cons layer ls ih =>
      intro input trees rest hls hl hs h
      have ht := (List.suffix_cons _ _).trans hls
      have hfloor := Grammar.floor_cons hls
      cases layer with
      | binary operators =>
        cases h with
        | headless h =>
          obtain ⟨t, ht, -⟩ := ih ht hl hs h
          cases ht
        | chain h _ hlinks =>
          have hmid := h.layered_lt ht hs
          obtain ⟨t, rfl, ht⟩ := ih ht hl hs h
          have hlevel := ht.level_le
          exact hn.operations hls ⟨ht.element, ht.grouped, by omega, ht.done⟩ (by omega) hlinks
      | unary operators =>
        cases h with
        | yes _ hop h => exact hn.prefixed hls hl (by simpa [Lookahead.holds] using hop) h
        | no _ hop h =>
          have hs := (List.mem_append.mp hs).resolve_left (by simpa [Lookahead.holds] using hop)
          obtain ⟨t, rfl, ht⟩ := ih ht hl hs h
          have hlevel := ht.level_le
          refine ⟨t, rfl, ht.element, ht.grouped, by omega, ?_⟩
          have hsame : t.ending.continues (.unary operators :: ls) = t.ending.continues ls := by
            unfold Tree.ending
            split_ifs <;> rfl
          rw [hsame]
          exact ht.done

namespace Parse

/-- The tree of a text without errors is grouped. -/
theorem grouped {text : String} (h : (ofText text).errors = []) : (ofText text).tree.Grouped := by
  obtain ⟨trees, hroot, hp⟩ := exists_parses h
  have hplain : Grammar.theories.plain = true := by decide
  have htrees := (groups _).plain hp hplain le_rfl
  rw [tree, hroot]
  exact .node trivial (List.forall_mem_append.mpr
    ⟨htrees, List.forall_mem_singleton.mpr .leaf⟩)

end Parse

end PvsIndex
