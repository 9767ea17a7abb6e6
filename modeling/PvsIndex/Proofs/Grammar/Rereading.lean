import PvsIndex.Proofs.Grammar.Construction
import PvsIndex.Proofs.Grammar.Extension

/-! The tokens of a grouped expression are read back as that expression, whatever follows that does
not go on with it. -/

namespace PvsIndex

namespace Grammar

theorem exists_binary {ls : List Layer} {op : TokenKind} (hls : ls <:+ layers)
    (h : op.binaryLevel? = some (floor ls)) :
    ∃ operators tighter, ls = .binary operators :: tighter ∧ op ∈ operators := by
  have hlevelled := levelled hls
  cases ls with
  | nil => exact absurd h (hlevelled op (TokenKind.mem_all op)).1
  | cons layer ls =>
    cases layer with
    | binary operators => exact ⟨operators, ls, rfl, (mem_binary_iff hls).mpr h⟩
    | unary operators => exact absurd h (hlevelled op (TokenKind.mem_all op)).2

theorem exists_unary {ls : List Layer} {op : TokenKind} (hls : ls <:+ layers)
    (h : op.unaryLevel? = some (floor ls)) :
    ∃ operators tighter, ls = .unary operators :: tighter ∧ op ∈ operators := by
  have hlevelled := levelled hls
  cases ls with
  | nil => exact absurd h (hlevelled op (TokenKind.mem_all op)).2
  | cons layer ls =>
    cases layer with
    | binary operators => exact absurd h (hlevelled op (TokenKind.mem_all op)).2
    | unary operators => exact ⟨operators, ls, rfl, (mem_unary_iff hls).mpr h⟩

/-- The operators that one more link of the layer begins with. -/
def links : List Layer → List TokenKind
  | [] => [.openParen]
  | .binary operators :: _ => operators
  | .unary _ :: _ => []

end Grammar

/-- The kinds that would make the expression part of a larger operand of the first layer. -/
def Ending.blocks (e : Ending) : List Layer → List TokenKind
  | [] => match e with
    | closed => []
    | opened => opened.continues []
  | _ :: ls => e.continues ls

/-- Neither is the expression part of a larger operand nor is it the first one of an operation. -/
theorem Ending.not_continues_iff {e : Ending} {ls : List Layer} (hls : ls <:+ Grammar.layers)
    {kind : TokenKind} (h : kind ∉ e.continues ls) :
    kind ∉ e.blocks ls ∧ kind ∉ Grammar.links ls := by
  cases e with
  | closed =>
    cases ls with
    | nil => exact ⟨List.not_mem_nil, h⟩
    | cons layer ls =>
      cases layer with
      | binary operators =>
        simp only [continues, Grammar.binaryOperators, List.mem_cons, List.mem_append,
          not_or] at h
        exact ⟨by simp only [blocks, continues, List.mem_cons, not_or]; exact ⟨h.1, h.2.2⟩, h.2.1⟩
      | unary operators => exact ⟨h, List.not_mem_nil⟩
  | opened =>
    refine ⟨by cases ls <;> exact h, fun hk => h ?_⟩
    cases ls with
    | nil => exact List.mem_singleton.mp hk ▸ List.mem_cons_self
    | cons layer ls =>
      cases layer with
      | binary operators =>
        exact List.mem_cons_of_mem _
          (Grammar.binaryOperators_subset hls (List.mem_append_left _ hk))
      | unary operators => cases hk

namespace Parses

theorem option_some {kinds : List TokenKind} {r : Rule} {input rest : List Token} {ts : List Tree}
    (h : nextKind input ∈ kinds) (body : Parses (.rule r) input ts rest) :
    Parses (.rule (.option kinds r)) input ts rest :=
  .yes trivial (by simpa [Lookahead.holds] using h) body

theorem option_none {kinds : List TokenKind} {r : Rule} {input : List Token}
    (h : nextKind input ∉ kinds) : Parses (.rule (.option kinds r)) input [] input :=
  .no trivial (by simpa [Lookahead.holds] using h) .empty

theorem nodeBy_of {opening closing : Rule} {test : Lookahead} {yes no kind : ElementKind}
    {input mid rest : List Token} {ts us : List Tree}
    (hkind : (if test.holds mid then yes else no) = kind)
    (opened : Parses (.rule opening) input ts mid) (closed : Parses (.rule closing) mid us rest) :
    Parses (.rule (.nodeBy opening test yes no closing)) input [.node kind (ts ++ us)] rest :=
  hkind ▸ .nodeBy opened closed

end Parses

/-- The reading of an expression has come to these trees: where the links of the first layer go on
from there, the expression ends with them. -/
def Grows (input : List Token) (trees : List Tree) (mid : List Token) : List Layer → Prop
  | [] => ∀ ⦃us rest⦄,
      Parses (.chain .callExpr (.next [.openParen]) Grammar.arguments trees) mid us rest →
        Parses (.rule (Grammar.layered [])) input us rest
  | .binary operators :: ls => ∀ ⦃us rest⦄,
      Parses (.chain .binaryExpr (.next operators)
        (.seq .take (.required (Grammar.expressionStarts ls) (Grammar.layered ls))) trees)
        mid us rest →
        Parses (.rule (Grammar.layered (.binary operators :: ls))) input us rest
  | ls => Parses (.rule (Grammar.layered ls)) input trees mid

theorem Grows.parses {input rest : List Token} {trees : List Tree} {ls : List Layer}
    (h : Grows input trees rest ls) (hr : nextKind rest ∉ Grammar.links ls) :
    Parses (.rule (Grammar.layered ls)) input trees rest := by
  cases ls with
  | nil => exact h (.grown (by simpa [Lookahead.holds, Grammar.links] using hr))
  | cons layer ls =>
    cases layer with
    | binary operators => exact h (.grown (by simpa [Lookahead.holds, Grammar.links] using hr))
    | unary operators => exact h

namespace Tree

/-- As an expression of the layers, the tree is read back from its tokens. -/
def Stands (e : Tree) (ls : List Layer) : Prop :=
  ∀ rest, nextKind rest ∉ e.ending.blocks ls →
    nextKind (e.leaves ++ rest) ∈ Grammar.expressionStarts ls ∧
      Grows (e.leaves ++ rest) [e] rest ls

/-- The tree is read back wherever its operator may stand. -/
structure Rereads (e : Tree) : Prop where
  level_pos : 0 < e.level
  stands {ls : List Layer} (hls : ls <:+ Grammar.layers) (hl : Grammar.floor ls ≤ e.level) :
    e.Stands ls

namespace Stands

variable {e : Tree} {ls : List Layer} {rest : List Token}

theorem parses (h : e.Stands ls) (hls : ls <:+ Grammar.layers)
    (hr : nextKind rest ∉ e.ending.continues ls) :
    nextKind (e.leaves ++ rest) ∈ Grammar.expressionStarts ls ∧
      Parses (.rule (Grammar.layered ls)) (e.leaves ++ rest) [e] rest := by
  obtain ⟨hblocks, hlinks⟩ := Ending.not_continues_iff hls hr
  obtain ⟨hs, hg⟩ := h rest hblocks
  exact ⟨hs, hg.parses hlinks⟩

theorem lift {layer : Layer} (h : e.Stands ls) (hls : layer :: ls <:+ Grammar.layers) :
    e.Stands (layer :: ls) := by
  intro rest hr
  obtain ⟨hs, hp⟩ := h.parses ((List.suffix_cons _ _).trans hls) hr
  cases layer with
  | binary operators => exact ⟨hs, fun _ _ hlinks => .chain hp (List.cons_ne_nil _ _) hlinks⟩
  | unary operators =>
    refine ⟨List.mem_append_right _ hs, .no trivial ?_ hp⟩
    simpa [Lookahead.holds] using fun hop => Grammar.apart hls _ hop hs

end Stands

namespace Rereads

variable {e : Tree} {rest : List Token}

theorem of_stands {k : Nat} (hk : 0 < k ∧ k ≤ 10) (hlevel : e.level = k ∨ k = 10 ∧ 10 ≤ e.level)
    (base : ∀ {ls}, ls <:+ Grammar.layers → Grammar.floor ls = k → e.Stands ls) : e.Rereads := by
  refine ⟨by omega, fun {ls} => ?_⟩
  induction ls with
  | nil =>
    intro hls hl
    have hfloor : Grammar.floor [] = 10 := rfl
    exact base hls (by omega)
  | cons layer ls ih =>
    intro hls hl
    have hfloor := Grammar.floor_cons hls
    have hle : Grammar.floor ls ≤ 10 := Nat.sub_le _ _
    by_cases he : Grammar.floor (layer :: ls) = k
    · exact base hls he
    · exact (ih ((List.suffix_cons _ _).trans hls) (by omega)).lift hls

theorem parses (h : e.Rereads) (hr : nextKind rest ∉ Ending.closed.continues Grammar.layers) :
    Parses (.rule Grammar.expression) (e.leaves ++ rest) [e] rest := by
  have hrest : nextKind rest ∉ e.ending.continues Grammar.layers := by
    cases e.ending <;> exact hr
  obtain ⟨hs, hp⟩ := (h.stands List.suffix_rfl h.level_pos).parses List.suffix_rfl hrest
  exact .yes trivial (by simpa [Lookahead.holds] using hs) (.call List.suffix_rfl hs hp)

theorem of_stands_nil (hlevel : 10 ≤ e.level) (h : e.Stands []) : e.Rereads := by
  refine of_stands (k := 10) (by decide) (Or.inr ⟨rfl, hlevel⟩) fun {ls} hls hfloor => ?_
  have hlength : ls.length ≤ 9 := hls.length_le
  obtain rfl : ls = [] :=
    List.eq_nil_of_length_eq_zero (by unfold Grammar.floor at hfloor; omega)
  exact h

theorem atom {kind : ElementKind} {t : Token} {ts : List Tree}
    (hlevel : 10 ≤ (node kind (.leaf t :: ts)).level) (ht : t.kind ∈ Grammar.atomStarts)
    (h : ∀ rest, nextKind rest ∉ (node kind (.leaf t :: ts)).ending.blocks [] →
      Parses (.rule Grammar.atom) (t :: (leavesOf ts ++ rest)) [node kind (.leaf t :: ts)] rest) :
    (node kind (.leaf t :: ts)).Rereads :=
  of_stands_nil hlevel fun rest hr =>
    ⟨ht, fun _ _ hlinks => .chain (h rest hr) (List.cons_ne_nil _ _) hlinks⟩

theorem call {f : Tree} {l : Token} {as : List Tree} (hf : f.Rereads) (hlevel : 10 ≤ f.level)
    (hclosed : f.trails = false) (hl : l.kind = .openParen)
    (ha : ∀ rest,
      Parses (.rule Grammar.arguments) (l :: (leavesOf as ++ rest)) (.leaf l :: as) rest) :
    (node .callExpr (f :: .leaf l :: as)).Rereads := by
  refine of_stands_nil le_rfl fun rest _ => ?_
  have hblocks : f.ending.blocks [] = [] := by
    rw [ending, hclosed]
    rfl
  have hleaves : (node .callExpr (f :: .leaf l :: as)).leaves ++ rest =
      f.leaves ++ l :: (leavesOf as ++ rest) := by
    simp [leaves, leavesOf]
  obtain ⟨hs, hg⟩ := hf.stands List.nil_suffix hlevel (l :: (leavesOf as ++ rest))
    (by simp [hblocks])
  rw [hleaves]
  refine ⟨hs, fun us rest' hlinks => hg (.link ?_ ?_ (ha rest) hlinks)⟩
  · simp [Lookahead.holds, hl]
  · rw [List.length_cons, List.length_append]
    exact Nat.lt_succ_of_le (Nat.le_add_left _ _)

theorem binary {l r : Tree} {op : Token} {k : Nat} (hl : l.Rereads) (hr : r.Rereads)
    (hop : op.kind.binaryLevel? = some k) (hle : k ≤ l.level) (hlt : k < r.level)
    (hclosed : l.trails = false) : (node .binaryExpr [l, .leaf op, r]).Rereads := by
  have hk : 0 < k ∧ k ≤ 10 := by
    have check : ∀ op ∈ TokenKind.all, ∀ k ∈ op.binaryLevel?, 0 < k ∧ k ≤ 10 := by decide
    exact check _ (TokenKind.mem_all _) _ hop
  refine of_stands hk (Or.inl (level_binary hop)) fun {ls} hls hfloor => ?_
  obtain ⟨operators, ls, rfl, hmem⟩ := Grammar.exists_binary hls (hfloor ▸ hop)
  have hls' := (List.suffix_cons _ _).trans hls
  have htighter := Grammar.floor_cons hls
  intro rest hrest
  have hblocks : nextKind (op :: (r.leaves ++ rest)) ∉
      l.ending.blocks (.binary operators :: ls) := by
    rw [ending, hclosed]
    exact Grammar.apart hls _ hmem
  obtain ⟨hs, hg⟩ := hl.stands hls (hfloor.trans_le hle) _ hblocks
  obtain ⟨hs', hp⟩ := (hr.stands hls' (by omega)).parses hls' hrest
  have hleaves : (node .binaryExpr [l, .leaf op, r]).leaves ++ rest =
      l.leaves ++ op :: (r.leaves ++ rest) := by
    simp [leaves, leavesOf]
  rw [hleaves]
  refine ⟨hs, fun us rest' hlinks => hg (.link ?_ ?_
    (.seq (.take (Grammar.ne_eof hls hmem)) (.yes trivial ?_ hp)) hlinks)⟩
  · simpa [Lookahead.holds] using hmem
  · exact Nat.lt_succ_of_le hp.length_le
  · simpa [Lookahead.holds] using hs'

theorem unary {e : Tree} {op : Token} {k : Nat} (he : e.Rereads)
    (hop : op.kind.unaryLevel? = some k) (hle : k ≤ e.level) :
    (node .unaryExpr [.leaf op, e]).Rereads := by
  have hk : 0 < k ∧ k ≤ 10 := by
    have check : ∀ op ∈ TokenKind.all, ∀ k ∈ op.unaryLevel?, 0 < k ∧ k ≤ 10 := by decide
    exact check _ (TokenKind.mem_all _) _ hop
  refine of_stands hk (Or.inl (level_unary hop)) fun {ls} hls hfloor => ?_
  obtain ⟨operators, ls, rfl, hmem⟩ := Grammar.exists_unary hls (hfloor ▸ hop)
  intro rest hrest
  obtain ⟨hs, hp⟩ := he.stands hls (hfloor.trans_le hle) rest hrest
  have hleaves : (node .unaryExpr [.leaf op, e]).leaves ++ rest = op :: (e.leaves ++ rest) := by
    simp [leaves, leavesOf]
  rw [hleaves]
  refine ⟨List.mem_append_left _ hmem, .yes trivial ?_
    (.node (.seq (.take (Grammar.ne_eof hls hmem)) (.yes trivial ?_ (.call hls hs hp))))⟩
  · simpa [Lookahead.holds] using hmem
  · simpa [Lookahead.holds] using hs

theorem before {t : Token} {kind : TokenKind} (h : e.Rereads) (ht : t.kind = kind)
    (hk : kind ∉ Ending.closed.continues Grammar.layers) (rest : List Token) :
    Parses (.rule Grammar.expression) (e.leaves ++ t :: rest) [e] (t :: rest) :=
  h.parses (by rw [nextKind_cons, ht]; exact hk)

end Rereads

end Tree

namespace Item

def rule : Item → Rule
  | expression => Grammar.expression
  | type => Grammar.type
  | binding => Grammar.binding
  | bindingGroup => Grammar.bindingGroup
  | letBinding => Grammar.letBinding

/-- The kinds that go on with an item. -/
def continues : Item → List TokenKind
  | expression | letBinding => Ending.closed.continues Grammar.layers
  | type => [.openBracket]
  | binding => [.colon, .openBracket]
  | bindingGroup => []

theorem comma_not_continues (item : Item) : .comma ∉ item.continues := by
  cases item <;> decide

end Item

namespace Part

def rule : Part → Rule
  | .item i => i.rule
  | .list i => .separated i.rule
  | cases => .loop (.next [.elsifKw])
      (.take >> Grammar.expression >> .expect .thenKw >> Grammar.expression)

def continues : Part → List TokenKind
  | .item i => i.continues
  | .list i => .comma :: i.continues
  | cases => .elsifKw :: Ending.closed.continues Grammar.layers

/-- The part is read back from its tokens. -/
def Rereads : Part → List Tree → Prop
  | item .expression, [e] => e.Rereads
  | item .expression, _ => False
  | p, ts => ∀ rest, nextKind rest ∉ p.continues →
      Parses (.rule p.rule) (Tree.leavesOf ts ++ rest) ts rest

namespace Rereads

variable {p : Part} {i : Item} {ts us : List Tree} {e : Tree} {t : Token} {kind : TokenKind}
  {rest : List Token}

theorem parses (h : p.Rereads ts) (hr : nextKind rest ∉ p.continues) :
    Parses (.rule p.rule) (Tree.leavesOf ts ++ rest) ts rest := by
  unfold Rereads at h
  split at h
  · rw [Tree.leavesOf, Tree.leavesOf, List.append_nil]
    exact Tree.Rereads.parses h hr
  · exact h.elim
  · exact h rest hr

theorem before (h : p.Rereads ts) (ht : t.kind = kind) (hk : kind ∉ p.continues)
    (rest : List Token) : Parses (.rule p.rule) (Tree.leavesOf ts ++ t :: rest) ts (t :: rest) :=
  h.parses (by rw [nextKind_cons, ht]; exact hk)

theorem one (h : (item i).Rereads ts) : (list i).Rereads ts := by
  intro rest hr
  simp only [continues, List.mem_cons, not_or] at hr
  obtain ⟨hcomma, hr⟩ := hr
  have hdone : (Lookahead.next [.comma]).holds rest = false := by
    simpa [Lookahead.holds] using hcomma
  have hp : Parses (.rule (list i).rule) (Tree.leavesOf ts ++ rest) (ts ++ []) rest :=
    .seq (h.parses hr) (.finish hdone)
  rwa [List.append_nil] at hp

theorem more (h : (item i).Rereads ts) (ht : t.kind = .comma) (hus : (list i).Rereads us) :
    (list i).Rereads (ts ++ .leaf t :: us) := by
  intro rest hr
  have hleaves : Tree.leavesOf (ts ++ .leaf t :: us) ++ rest =
      Tree.leavesOf ts ++ t :: (Tree.leavesOf us ++ rest) := by
    simp [Tree.leavesOf, Tree.leaves]
  rw [hleaves]
  have hfirst := h.before ht i.comma_not_continues (Tree.leavesOf us ++ rest)
  have htest (input : List Token) : (Lookahead.next [.comma]).holds (t :: input) = true := by
    simp [Lookahead.holds, ht]
  have hcomma : t.kind ≠ .eof := by simp [ht]
  cases hus.parses hr with
  | seq hitem hloop =>
    exact .seq hfirst (.turn (htest _) (Nat.lt_succ_of_le hitem.length_le)
      (.seq (.take hcomma) hitem) hloop)

end Rereads

end Part

namespace Part.Rereads

variable {es ts bs gs cs : List Tree} {c d e t : Tree} {f i l m n r w : Token} {rest : List Token}

theorem word {kind : ElementKind} (h : (w.kind, kind) ∈ ElementKind.ofWord) :
    (item .expression).Rereads [.node kind [.leaf w]] := by
  simp only [ElementKind.ofWord, List.mem_cons, List.not_mem_nil, Prod.mk.injEq, or_false] at h
  rcases h with ⟨hw, rfl⟩ | ⟨hw, rfl⟩ | ⟨hw, rfl⟩ | ⟨hw, rfl⟩ | ⟨hw, rfl⟩
  all_goals
    refine Tree.Rereads.atom (Nat.le_succ 10) (by rw [hw]; decide) fun rest _ =>
      Parses.switch_iff.mpr ?_
    rw [nextKind_cons, hw]
    exact .node (.take (by simp [hw]))

theorem enclosed {p : Part} {kind : TokenKind} (h : p.Rereads ts) (hl : l.kind ≠ .eof)
    (hr : r.kind = kind) (hk : kind ≠ .eof ∧ kind ∉ p.continues) (rest : List Token) :
    Parses (.rule (.seq .take (.seq p.rule (.expect kind))))
      (l :: (Tree.leavesOf (ts ++ [.leaf r]) ++ rest)) (.leaf l :: (ts ++ [.leaf r])) rest := by
  have hleaves : Tree.leavesOf (ts ++ [.leaf r]) ++ rest = Tree.leavesOf ts ++ r :: rest := by
    simp [Tree.leavesOf, Tree.leaves]
  rw [hleaves]
  exact .seq (.take hl) (.seq (h.before hr hk.2 rest) (.expect hr hk.1 rest))

theorem arguments (hl : l.kind = .openParen) (h : (list .expression).Rereads es)
    (hr : r.kind = .closeParen) (rest : List Token) :
    Parses (.rule Grammar.arguments) (l :: (Tree.leavesOf (es ++ [.leaf r]) ++ rest))
      (.leaf l :: (es ++ [.leaf r])) rest :=
  h.enclosed (by simp [hl]) hr (by decide) rest

theorem paren (hl : l.kind = .openParen) (h : (list .expression).Rereads es)
    (hr : r.kind = .closeParen) :
    (item .expression).Rereads [.node .parenExpr (.leaf l :: (es ++ [.leaf r]))] := by
  refine Tree.Rereads.atom (Nat.le_succ 10) (by rw [hl]; decide) fun rest _ =>
    Parses.switch_iff.mpr ?_
  rw [nextKind_cons, hl]
  exact .node (arguments hl h hr rest)

theorem scope {p : Part} {kind : TokenKind} (h : p.Rereads bs) (hw : w.kind ≠ .eof)
    (hm : m.kind = kind) (hk : kind ≠ .eof ∧ kind ∉ p.continues) (he : e.Rereads)
    (hr : nextKind rest ∉ Ending.closed.continues Grammar.layers) :
    Parses (.rule (.seq .take (.seq p.rule (.seq (.expect kind) Grammar.expression))))
      (w :: (Tree.leavesOf (bs ++ [.leaf m, e]) ++ rest)) (.leaf w :: (bs ++ [.leaf m, e]))
      rest := by
  have hleaves : Tree.leavesOf (bs ++ [.leaf m, e]) ++ rest =
      Tree.leavesOf bs ++ m :: (e.leaves ++ rest) := by
    simp [Tree.leavesOf, Tree.leaves]
  rw [hleaves]
  exact .seq (.take hw) (.seq (h.before hm hk.2 _) (.seq (.expect hm hk.1 _) (he.parses hr)))

theorem binder (hw : w.kind ∈ [.forallKw, .existsKw, .lambdaKw])
    (h : (list .bindingGroup).Rereads gs) (hm : m.kind = .colon) (he : e.Rereads) :
    (item .expression).Rereads [.node .binderExpr (.leaf w :: (gs ++ [.leaf m, e]))] := by
  simp only [List.mem_cons, List.not_mem_nil, or_false] at hw
  rcases hw with hw | hw | hw
  all_goals
    refine Tree.Rereads.atom (Nat.le_succ 10) (by rw [hw]; decide) fun rest hr =>
      Parses.switch_iff.mpr ?_
    rw [nextKind_cons, hw]
    exact .node (h.scope (by simp [hw]) hm (by decide) he hr)

theorem letIn (hw : w.kind = .letKw) (h : (list .letBinding).Rereads bs) (hm : m.kind = .inKw)
    (he : e.Rereads) :
    (item .expression).Rereads [.node .letExpr (.leaf w :: (bs ++ [.leaf m, e]))] := by
  refine Tree.Rereads.atom (Nat.le_succ 10) (by rw [hw]; decide) fun rest hr =>
    Parses.switch_iff.mpr ?_
  rw [nextKind_cons, hw]
  exact .node (h.scope (by simp [hw]) hm (by decide) he hr)

theorem noCase : cases.Rereads [] := by
  intro rest hr
  simp only [continues, List.mem_cons, not_or] at hr
  have hnone : (Lookahead.next [.elsifKw]).holds rest = false := by
    simpa [Lookahead.holds] using hr.1
  exact .finish hnone

theorem cases_next (h : cases.Rereads cs) (hr : nextKind rest ∉ cases.continues) :
    nextKind (Tree.leavesOf cs ++ rest) ∉ Ending.closed.continues Grammar.layers := by
  have hp := h.parses hr
  generalize Tree.leavesOf cs ++ rest = input at hp
  cases hp with
  | finish => exact fun hk => hr (List.mem_cons_of_mem _ hk)
  | turn ht =>
    have hk : nextKind input = .elsifKw := by simpa [Lookahead.holds] using ht
    rw [hk]
    decide

theorem case (hw : w.kind = .elsifKw) (hc : c.Rereads) (hm : m.kind = .thenKw) (hd : d.Rereads)
    (h : cases.Rereads cs) : cases.Rereads (.leaf w :: c :: .leaf m :: d :: cs) := by
  intro rest hr
  have hleaves : Tree.leavesOf (.leaf w :: c :: .leaf m :: d :: cs) ++ rest =
      w :: (c.leaves ++ m :: (d.leaves ++ (Tree.leavesOf cs ++ rest))) := by
    simp [Tree.leavesOf, Tree.leaves]
  rw [hleaves]
  have hvalue := hd.parses (h.cases_next hr)
  have hcase := hc.before hm (by decide) (d.leaves ++ (Tree.leavesOf cs ++ rest))
  exact .turn (by simp [Lookahead.holds, hw]) (by simp; omega)
    (.seq (.take (by simp [hw])) (.seq hcase (.seq (.expect hm (by decide) _) hvalue)))
    (h.parses hr)

theorem conditional (hi : i.kind = .ifKw) (hc : c.Rereads) (hm : m.kind = .thenKw)
    (hd : d.Rereads) (h : cases.Rereads cs) (hl : l.kind = .elseKw) (he : e.Rereads)
    (hf : f.kind = .endifKw) : (item .expression).Rereads
      [.node .ifExpr (.leaf i :: c :: .leaf m :: d :: (cs ++ [.leaf l, e, .leaf f]))] := by
  refine Tree.Rereads.atom (Nat.le_succ 10) (by rw [hi]; decide) fun rest _ =>
    Parses.switch_iff.mpr ?_
  have hleaves : Tree.leavesOf (c :: .leaf m :: d :: (cs ++ [.leaf l, e, .leaf f])) ++ rest =
      c.leaves ++ m :: (d.leaves ++ (Tree.leavesOf cs ++ l :: (e.leaves ++ f :: rest))) := by
    simp [Tree.leavesOf, Tree.leaves]
  rw [nextKind_cons, hi, hleaves]
  have helse : nextKind (l :: (e.leaves ++ f :: rest)) ∉ cases.continues := by
    rw [nextKind_cons, hl]
    decide
  have hcondition := hc.before hm (by decide)
    (d.leaves ++ (Tree.leavesOf cs ++ l :: (e.leaves ++ f :: rest)))
  have hvalue := hd.parses (h.cases_next helse)
  have hlast := he.before hf (by decide) rest
  exact .node (.seq (.take (by simp [hi])) (.seq hcondition (.seq (.expect hm (by decide) _)
    (.seq hvalue (.seq (h.parses helse) (.seq (.expect hl (by decide) _)
      (.seq hlast (.expect hf (by decide) _))))))))

theorem type {kind : ElementKind} (hn : n.kind ∈ Grammar.typeStarts)
    (h : ∀ rest, nextKind rest ≠ .openBracket → Parses (.rule Grammar.typeExpression)
      (n :: (Tree.leavesOf ts ++ rest)) [.node kind (.leaf n :: ts)] rest) :
    (item .type).Rereads [.node kind (.leaf n :: ts)] := by
  intro rest hr
  have hleaves : Tree.leavesOf [.node kind (.leaf n :: ts)] ++ rest =
      n :: (Tree.leavesOf ts ++ rest) := by
    simp [Tree.leavesOf, Tree.leaves]
  rw [hleaves]
  exact .yes trivial (by simpa [Lookahead.holds] using hn)
    (.call trivial hn (h rest fun hk => hr (List.mem_singleton.mpr hk)))

theorem nameType (hn : n.kind = .identifier) :
    (item .type).Rereads [.node .nameType [.leaf n]] := by
  refine type (by rw [hn]; decide) fun rest hr => Parses.switch_iff.mpr ?_
  rw [nextKind_cons, hn]
  exact .node (.seq (.take (by simp [hn])) (.option_none fun hk => hr (List.mem_singleton.mp hk)))

theorem nameTypeOf (hn : n.kind = .identifier) (hl : l.kind = .openBracket)
    (h : (list .type).Rereads ts) (hr : r.kind = .closeBracket) :
    (item .type).Rereads [.node .nameType (.leaf n :: .leaf l :: (ts ++ [.leaf r]))] := by
  refine type (by rw [hn]; decide) fun rest _ => Parses.switch_iff.mpr ?_
  rw [nextKind_cons, hn]
  have harguments := h.enclosed (l := l) (by simp [hl]) hr (by decide) rest
  exact .node (.seq (.take (by simp [hn]))
    (.option_some (List.mem_singleton.mpr hl) harguments))

theorem functionType (hl : l.kind = .openBracket) (h : (list .type).Rereads ts)
    (hm : m.kind = .arrow) (ht : (item .type).Rereads [t]) (hr : r.kind = .closeBracket) :
    (item .type).Rereads
      [.node .functionType (.leaf l :: (ts ++ [.leaf m, t, .leaf r]))] := by
  refine type (by rw [hl]; decide) fun rest _ => Parses.switch_iff.mpr ?_
  have hleaves : Tree.leavesOf (ts ++ [.leaf m, t, .leaf r]) ++ rest =
      Tree.leavesOf ts ++ m :: (Tree.leavesOf [t] ++ r :: rest) := by
    simp [Tree.leavesOf, Tree.leaves]
  rw [nextKind_cons, hl, hleaves]
  have harrow : (Lookahead.next [.arrow]).holds (m :: (Tree.leavesOf [t] ++ r :: rest)) = true := by
    simp [Lookahead.holds, hm]
  have hl : l.kind ≠ .eof := by simp [hl]
  have hm' : m.kind ≠ .eof := by simp [hm]
  have hsome : nextKind (m :: (Tree.leavesOf [t] ++ r :: rest)) ∈ [.arrow] :=
    List.mem_singleton.mpr hm
  have hrange := Parses.option_some hsome (.seq (.take hm') (ht.before hr (by decide) rest))
  exact .nodeBy_of (if_pos harrow) (.seq (.take hl) (h.before hm (by decide) _))
    (.seq hrange (.expect hr (by decide) rest))

theorem tupleType (hl : l.kind = .openBracket) (h : (list .type).Rereads ts)
    (hr : r.kind = .closeBracket) :
    (item .type).Rereads [.node .tupleType (.leaf l :: (ts ++ [.leaf r]))] := by
  refine type (by rw [hl]; decide) fun rest _ => Parses.switch_iff.mpr ?_
  have hleaves : Tree.leavesOf (ts ++ [.leaf r]) ++ rest = Tree.leavesOf ts ++ r :: rest := by
    simp [Tree.leavesOf, Tree.leaves]
  rw [nextKind_cons, hl, hleaves]
  have harrow : (Lookahead.next [.arrow]).holds (r :: rest) = false := by
    simp [Lookahead.holds, hr]
  have hl : l.kind ≠ .eof := by simp [hl]
  exact .nodeBy_of (if_neg (by simp [harrow])) (.seq (.take hl) (h.before hr (by decide) rest))
    (.seq (.option_none (by simp [hr])) (.expect hr (by decide) rest))

theorem setType (hl : l.kind = .openBrace) (h : (list .binding).Rereads bs) (hm : m.kind = .pipe)
    (he : e.Rereads) (hr : r.kind = .closeBrace) :
    (item .type).Rereads [.node .setType (.leaf l :: (bs ++ [.leaf m, e, .leaf r]))] := by
  refine type (by rw [hl]; decide) fun rest _ => Parses.switch_iff.mpr ?_
  have hleaves : Tree.leavesOf (bs ++ [.leaf m, e, .leaf r]) ++ rest =
      Tree.leavesOf bs ++ m :: (e.leaves ++ r :: rest) := by
    simp [Tree.leavesOf, Tree.leaves]
  rw [nextKind_cons, hl, hleaves]
  have hbindings := h.before hm (by decide) (e.leaves ++ r :: rest)
  exact .node (.seq (.take (by simp [hl])) (.seq hbindings (.seq (.expect hm (by decide) _)
    (.seq (he.before hr (by decide) rest) (.expect hr (by decide) rest)))))

theorem parenType (hl : l.kind = .openParen) (ht : (item .type).Rereads [t])
    (hr : r.kind = .closeParen) :
    (item .type).Rereads [.node .parenType [.leaf l, t, .leaf r]] := by
  refine type (by rw [hl]; decide) fun rest _ => Parses.switch_iff.mpr ?_
  rw [nextKind_cons, hl]
  exact .node (ht.enclosed (by simp [hl]) hr (by decide) rest)

theorem name (hn : n.kind = .identifier) :
    (item .binding).Rereads [.node .binding [.node .identifier [.leaf n]]] := by
  intro rest hr
  have hcolon : nextKind rest ∉ [.colon] := fun hk => hr (List.mem_cons.mpr
    (Or.inl (List.mem_singleton.mp hk)))
  exact .node (.seq (.identifier hn rest) (.option_none hcolon))

theorem nameOf (hn : n.kind = .identifier) (hm : m.kind = .colon)
    (ht : (item .type).Rereads [t]) :
    (item .binding).Rereads [.node .binding [.node .identifier [.leaf n], .leaf m, t]] := by
  intro rest hr
  have hleaves : Tree.leavesOf [.node .binding [.node .identifier [.leaf n], .leaf m, t]] ++ rest =
      n :: m :: (Tree.leavesOf [t] ++ rest) := by
    simp [Tree.leavesOf, Tree.leaves]
  rw [hleaves]
  have htype := ht.parses fun hk => hr (List.mem_cons_of_mem _ hk)
  exact .node (.seq (.identifier hn _)
    (.option_some (List.mem_singleton.mpr hm) (.seq (.take (by simp [hm])) htype)))

theorem bare (hn : n.kind = .identifier) :
    (item .bindingGroup).Rereads [.node .binding [.node .identifier [.leaf n]]] := fun rest _ =>
  .no trivial (by simp [Lookahead.holds, Tree.leaves, Tree.leavesOf, hn])
    (.node (.identifier hn rest))

theorem group (hl : l.kind = .openParen) (h : (list .binding).Rereads bs)
    (hr : r.kind = .closeParen) :
    (item .bindingGroup).Rereads (.leaf l :: (bs ++ [.leaf r])) := fun rest _ =>
  .yes trivial (by simp [Lookahead.holds, Tree.leaves, Tree.leavesOf, hl])
    (h.enclosed (by simp [hl]) hr (by decide) rest)

theorem letBinding (h : (item .binding).Rereads [t]) (hm : m.kind = .equal) (he : e.Rereads) :
    (item .letBinding).Rereads [.node .letBinding [t, .leaf m, e]] := by
  intro rest hr
  have hleaves : Tree.leavesOf [.node .letBinding [t, .leaf m, e]] ++ rest =
      Tree.leavesOf [t] ++ m :: (e.leaves ++ rest) := by
    simp [Tree.leavesOf, Tree.leaves]
  rw [hleaves]
  exact .node (.seq (h.before hm (by decide) _) (.seq (.expect hm (by decide) _) (he.parses hr)))

end Part.Rereads

theorem Tree.Grouped.children {kind : ElementKind} {children : List Tree}
    (h : ∀ t ∈ [Tree.node kind children], t.Grouped) :
    Element.Grouped ⟨kind, children⟩ ∧ ∀ c ∈ children, c.Grouped := by
  cases List.forall_mem_singleton.mp h with
  | node here inner => exact ⟨here, inner⟩

/-- The parts of grouped expressions are read back. -/
theorem Built.rereads {p : Part} {ts : List Tree} (h : Built p ts) (hg : ∀ t ∈ ts, t.Grouped) :
    p.Rereads ts := by
  induction h with
  | word h => exact .word h
  | paren hl _ hr ih =>
    obtain ⟨-, hg⟩ := Tree.Grouped.children hg
    simp only [List.forall_mem_cons, List.forall_mem_append] at hg
    obtain ⟨-, hes, -⟩ := hg
    exact .paren hl (ih hes) hr
  | call _ hl _ hr ih1 ih2 =>
    obtain ⟨here, hg⟩ := Tree.Grouped.children hg
    obtain ⟨hlevel, hclosed⟩ := here.call
    simp only [List.forall_mem_cons, List.forall_mem_append] at hg
    obtain ⟨hf, -, hes, -⟩ := hg
    exact Tree.Rereads.call (ih1 (List.forall_mem_singleton.mpr hf)) hlevel hclosed hl
      (Part.Rereads.arguments hl (ih2 hes) hr)
  | unary _ _ ih =>
    obtain ⟨here, hg⟩ := Tree.Grouped.children hg
    obtain ⟨k, hop, hle⟩ := here.unary
    exact Tree.Rereads.unary (ih (List.forall_mem_of_forall_mem_cons hg)) hop hle
  | binary _ _ _ ih1 ih2 =>
    obtain ⟨here, hg⟩ := Tree.Grouped.children hg
    obtain ⟨k, hop, hle, hlt, hclosed⟩ := here.binary
    simp only [List.forall_mem_cons] at hg
    obtain ⟨hl, -, hr⟩ := hg
    exact Tree.Rereads.binary (ih1 (List.forall_mem_singleton.mpr hl))
      (ih2 (List.forall_mem_cons.mpr hr)) hop hle hlt hclosed
  | conditional hi _ hm _ _ hu _ hf ih1 ih2 ih3 ih4 =>
    obtain ⟨-, hg⟩ := Tree.Grouped.children hg
    simp only [List.forall_mem_cons, List.forall_mem_append] at hg
    obtain ⟨-, hc, -, hd, hcs, -, he, -⟩ := hg
    exact .conditional hi (ih1 (List.forall_mem_singleton.mpr hc)) hm
      (ih2 (List.forall_mem_singleton.mpr hd)) (ih3 hcs) hu
      (ih4 (List.forall_mem_singleton.mpr he)) hf
  | binder hw _ hm _ ih1 ih2 =>
    obtain ⟨-, hg⟩ := Tree.Grouped.children hg
    simp only [List.forall_mem_cons, List.forall_mem_append] at hg
    obtain ⟨-, hgs, -, he⟩ := hg
    exact .binder hw (ih1 hgs) hm (ih2 (List.forall_mem_cons.mpr he))
  | letIn hw _ hm _ ih1 ih2 =>
    obtain ⟨-, hg⟩ := Tree.Grouped.children hg
    simp only [List.forall_mem_cons, List.forall_mem_append] at hg
    obtain ⟨-, hbs, -, he⟩ := hg
    exact .letIn hw (ih1 hbs) hm (ih2 (List.forall_mem_cons.mpr he))
  | nameType hn => exact .nameType hn
  | nameTypeOf hn hl _ hr ih =>
    obtain ⟨-, hg⟩ := Tree.Grouped.children hg
    simp only [List.forall_mem_cons, List.forall_mem_append] at hg
    obtain ⟨-, -, hts, -⟩ := hg
    exact .nameTypeOf hn hl (ih hts) hr
  | functionType hl _ hm _ hr ih1 ih2 =>
    obtain ⟨-, hg⟩ := Tree.Grouped.children hg
    simp only [List.forall_mem_cons, List.forall_mem_append] at hg
    obtain ⟨-, hts, -, ht, -⟩ := hg
    exact .functionType hl (ih1 hts) hm (ih2 (List.forall_mem_singleton.mpr ht)) hr
  | tupleType hl _ hr ih =>
    obtain ⟨-, hg⟩ := Tree.Grouped.children hg
    simp only [List.forall_mem_cons, List.forall_mem_append] at hg
    obtain ⟨-, hts, -⟩ := hg
    exact .tupleType hl (ih hts) hr
  | setType hl _ hm _ hr ih1 ih2 =>
    obtain ⟨-, hg⟩ := Tree.Grouped.children hg
    simp only [List.forall_mem_cons, List.forall_mem_append] at hg
    obtain ⟨-, hbs, -, he, -⟩ := hg
    exact .setType hl (ih1 hbs) hm (ih2 (List.forall_mem_singleton.mpr he)) hr
  | parenType hl _ hr ih =>
    obtain ⟨-, hg⟩ := Tree.Grouped.children hg
    simp only [List.forall_mem_cons] at hg
    obtain ⟨-, ht, -⟩ := hg
    exact .parenType hl (ih (List.forall_mem_singleton.mpr ht)) hr
  | name hn => exact .name hn
  | nameOf hn hm _ ih =>
    obtain ⟨-, hg⟩ := Tree.Grouped.children hg
    simp only [List.forall_mem_cons] at hg
    obtain ⟨-, -, ht⟩ := hg
    exact .nameOf hn hm (ih (List.forall_mem_cons.mpr ht))
  | bare hn => exact .bare hn
  | enclosed hl _ hr ih =>
    simp only [List.forall_mem_cons, List.forall_mem_append] at hg
    obtain ⟨-, hbs, -⟩ := hg
    exact .group hl (ih hbs) hr
  | letBinding _ hm _ ih1 ih2 =>
    obtain ⟨-, hg⟩ := Tree.Grouped.children hg
    simp only [List.forall_mem_cons] at hg
    obtain ⟨hb, -, he⟩ := hg
    exact .letBinding (ih1 (List.forall_mem_singleton.mpr hb)) hm
      (ih2 (List.forall_mem_cons.mpr he))
  | one _ ih => exact (ih hg).one
  | more _ hm _ ih1 ih2 =>
    simp only [List.forall_mem_cons, List.forall_mem_append] at hg
    obtain ⟨hts, -, hus⟩ := hg
    exact (ih1 hts).more hm (ih2 hus)
  | noCase => exact .noCase
  | case hw _ hm _ _ ih1 ih2 ih3 =>
    simp only [List.forall_mem_cons] at hg
    obtain ⟨-, hc, -, hd, hcs⟩ := hg
    exact .case hw (ih1 (List.forall_mem_singleton.mpr hc)) hm
      (ih2 (List.forall_mem_singleton.mpr hd)) (ih3 hcs)

end PvsIndex
