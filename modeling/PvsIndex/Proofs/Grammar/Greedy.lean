import PvsIndex.Proofs.Grammar.Prediction

/-! Expressions as they are read: what follows a binder belongs to its body, as far as it goes. -/

namespace PvsIndex

open Phrase PvsIndex.Language

namespace Language

def closedStarts : List TokenKind :=
  [.number, .string, .trueKw, .falseKw, .identifier, .openParen, .ifKw]

/-- The atoms that end with a word of their own. -/
def closedAtom : Words :=
  one .number <|> one .string <|> one .trueKw <|> one .falseKw <|> one .identifier <|> arguments <|>
    ifExpression

def openStarts : List TokenKind :=
  [.forallKw, .existsKw, .lambdaKw, .letKw]

/-- The atoms that end with their body. -/
def openAtom : Words :=
  binder <|> letExpression

/-- What comes before the body. -/
def opening : Words :=
  ((word [.forallKw, .existsKw, .lambdaKw] >> list bindingGroup) >> one .colon) <|>
    ((one .letKw >> list letBinding) >> one .inKw)

end Language

/-- Whether an expression ends with the body of a binder. -/
inductive Ending where
  | closed
  | opened

/-- The words of an expression, grouped as they are read: the operand on the left of an operator is
closed. -/
inductive Greedy : List Layer → Ending → List TokenKind → Prop where
  | operand {operators layers e w} (h : Greedy layers e w) :
      Greedy (.binary operators :: layers) e w
  | operation {operators layers e u op v} (left : Greedy layers .closed u) (h : op ∈ operators)
      (right : Greedy (.binary operators :: layers) e v) :
      Greedy (.binary operators :: layers) e (u ++ op :: v)
  | plain {operators layers e w} (h : Greedy layers e w) :
      Greedy (.unary operators :: layers) e w
  | prefixed {operators layers e op w} (h : op ∈ operators)
      (body : Greedy (.unary operators :: layers) e w) :
      Greedy (.unary operators :: layers) e (op :: w)
  | atom {u v} (h : Phrase.Derives production closedAtom u)
      (applied : Phrase.Derives production (.star arguments) v) : Greedy [] .closed (u ++ v)
  | bound {e u v} (h : Phrase.Derives production opening u) (body : Greedy Grammar.layers e v) :
      Greedy [] .opened (u ++ v)

theorem derives_assoc {p q r : Words} {w : List TokenKind} :
    Phrase.Derives production (.seq p (.seq q r)) w ↔
      Phrase.Derives production (.seq (.seq p q) r) w := by
  constructor
  · rintro (⟨⟩ | ⟨⟩ | ⟨h1, ⟨⟩ | ⟨⟩ | ⟨h2, h3⟩⟩)
    rw [← List.append_assoc]
    exact .seq (.seq h1 h2) h3
  · rintro (⟨⟩ | ⟨⟩ | ⟨⟨⟩ | ⟨⟩ | ⟨h1, h2⟩, h3⟩)
    rw [List.append_assoc]
    exact .seq h1 (.seq h2 h3)

theorem derives_openAtom {w : List TokenKind} : Phrase.Derives production openAtom w ↔
    ∃ u v, w = u ++ v ∧ Phrase.Derives production opening u ∧
      Phrase.Derives production (layered Grammar.layers) v := by
  constructor
  · intro h
    rcases derives_alt.mp h with h | h
    · obtain ⟨u, v, rfl, hu, hv⟩ := derives_seq.mp (derives_assoc.mp (derives_assoc.mp h))
      exact ⟨u, v, rfl, .left hu, derives_name.mp hv⟩
    · obtain ⟨u, v, rfl, hu, hv⟩ := derives_seq.mp (derives_assoc.mp (derives_assoc.mp h))
      exact ⟨u, v, rfl, .right hu, derives_name.mp hv⟩
  · rintro ⟨u, v, rfl, hu, hv⟩
    rcases derives_alt.mp hu with hu | hu
    · exact .left (derives_assoc.mpr (derives_assoc.mpr (.seq hu (derives_name.mpr hv))))
    · exact .right (derives_assoc.mpr (derives_assoc.mpr (.seq hu (derives_name.mpr hv))))

theorem derives_atom {w : List TokenKind} : Phrase.Derives production Language.atom w ↔
    Phrase.Derives production closedAtom w ∨ Phrase.Derives production openAtom w := by
  unfold Language.atom closedAtom openAtom
  simp only [HOrElse.hOrElse, OrElse.orElse, derives_alt, or_assoc]

namespace Greedy

variable {layers : List Layer} {e : Ending} {w : List TokenKind}

theorem derives (h : Greedy layers e w) : Phrase.Derives production (layered layers) w := by
  induction h with
  | @operand operators layers e w _ ih =>
    rw [← List.append_nil w]
    exact .seq ih .stop
  | @operation operators layers e u op v _ h _ ih1 ih2 =>
    obtain ⟨x, y, rfl, hx, hy⟩ := derives_seq.mp ih2
    rw [← List.cons_append]
    exact .seq ih1 (.more (.seq (.word h) hx) hy)
  | plain _ ih => exact .right ih
  | prefixed h _ ih => exact .left (.seq (.word h) (.name ih))
  | atom h applied => exact .seq (derives_atom.mpr (Or.inl h)) applied
  | bound h _ ih =>
    rw [← List.append_nil (_ ++ _)]
    exact .seq (derives_atom.mpr (Or.inr (derives_openAtom.mpr ⟨_, _, rfl, h, ih⟩))) .stop

theorem append_operation {operators : List TokenKind} {tighter : List Layer} {op : TokenKind}
    {e' : Ending} {v : List TokenKind} (hl : .binary operators :: tighter <:+ Grammar.layers)
    (hop : op ∈ operators) (hv : Greedy tighter e' v) (h : Greedy layers e w)
    (hs : e = .closed → .binary operators :: tighter <:+ layers) :
    ∃ e, Greedy layers e (w ++ op :: v) := by
  induction h with
  | @operand operators' layers e w hw ih =>
    cases e with
    | opened =>
      obtain ⟨e, h⟩ := ih nofun
      exact ⟨e, .operand h⟩
    | closed =>
      rcases List.suffix_cons_iff.mp (hs rfl) with heq | hs
      · obtain ⟨⟨rfl⟩, rfl⟩ := List.cons.inj heq
        exact ⟨e', .operation hw hop (.operand hv)⟩
      · obtain ⟨e, h⟩ := ih fun _ => hs
        exact ⟨e, .operand h⟩
  | @operation operators' layers e u op' v' hu hop' _ _ ih =>
    obtain ⟨e, h⟩ := ih hs
    rw [List.append_assoc, List.cons_append]
    exact ⟨e, .operation hu hop' h⟩
  | plain _ ih =>
    obtain ⟨e, h⟩ := ih fun he => (List.suffix_cons_iff.mp (hs he)).resolve_left nofun
    exact ⟨e, .plain h⟩
  | prefixed h _ ih =>
    obtain ⟨e, h'⟩ := ih hs
    exact ⟨e, .prefixed h h'⟩
  | atom => exact absurd (List.suffix_nil.mp (hs rfl)) nofun
  | bound h _ ih =>
    obtain ⟨e, h'⟩ := ih fun _ => hl
    rw [List.append_assoc]
    exact ⟨.opened, .bound h h'⟩

theorem append_arguments {v : List TokenKind} (hv : Phrase.Derives production (.star arguments) v)
    (h : Greedy layers e w) : Greedy layers e (w ++ v) := by
  induction h with
  | operand _ ih => exact .operand ih
  | operation hu hop _ _ ih =>
    rw [List.append_assoc, List.cons_append]
    exact .operation hu hop ih
  | plain _ ih => exact .plain ih
  | prefixed h _ ih => exact .prefixed h ih
  | atom h applied =>
    rw [List.append_assoc]
    exact .atom h (applied.star_append hv)
  | bound h _ ih =>
    rw [List.append_assoc]
    exact .bound h ih

theorem append_operations {operators : List TokenKind} {tighter : List Layer}
    (hl : .binary operators :: tighter <:+ Grammar.layers) {ws : List (List TokenKind)}
    (hws : ∀ v ∈ ws, ∃ op ∈ operators, ∃ e u, v = op :: u ∧ Greedy tighter e u)
    (h : Greedy (.binary operators :: tighter) e w) :
    ∃ e, Greedy (.binary operators :: tighter) e (w ++ ws.flatten) := by
  induction ws generalizing e w with
  | nil => exact ⟨e, by simpa using h⟩
  | cons v ws ih =>
    obtain ⟨hv, hrest⟩ := List.forall_mem_cons.mp hws
    obtain ⟨op, hop, e', u, rfl, hu⟩ := hv
    obtain ⟨e, h⟩ := append_operation hl hop hu h fun _ => List.suffix_rfl
    rw [List.flatten_cons, ← List.append_assoc]
    exact ih hrest h

/-- Whatever the grammar derives can be grouped as it is read. -/
theorem of_derives (hl : layers <:+ Grammar.layers)
    (h : Phrase.Derives production (layered layers) w) : ∃ e, Greedy layers e w := by
  induction hn : w.length using Nat.strong_induction_on generalizing layers w with
  | _ n outer =>
  subst hn
  induction layers generalizing w with
  | nil =>
    obtain ⟨u, v, rfl, hu, hv⟩ := derives_seq.mp h
    rcases derives_atom.mp hu with hu | hu
    · exact ⟨.closed, .atom hu hv⟩
    · obtain ⟨x, body, rfl, hx, hbody⟩ := derives_openAtom.mp hu
      have hne := List.length_pos_of_ne_nil (hx.ne_nil startsRight (by decide))
      obtain ⟨e, hbody⟩ := outer body.length (by simp; omega) List.suffix_rfl hbody rfl
      exact ⟨.opened, (bound hx hbody).append_arguments hv⟩
  | cons layer tighter ih =>
    have ht : tighter <:+ Grammar.layers := (List.suffix_cons _ _).trans hl
    cases layer with
    | binary operators =>
      obtain ⟨u, v, rfl, hu, hv⟩ := derives_seq.mp h
      obtain ⟨ws, rfl, hws⟩ := derives_star.mp hv
      have inner : ∀ {x}, x.length ≤ (u ++ ws.flatten).length →
          Phrase.Derives production (layered tighter) x → ∃ e, Greedy tighter e x :=
        fun {x} hx hd => ih ht hd fun m hm => outer m (by omega)
      obtain ⟨e, hu⟩ := inner (by simp) hu
      refine append_operations hl (fun x hx => ?_) (operand hu)
      obtain ⟨y, z, rfl, hy, hz⟩ := derives_seq.mp (hws x hx)
      obtain ⟨op, hop, rfl⟩ := derives_word.mp hy
      have hle := (List.sublist_flatten_of_mem hx).length_le
      obtain ⟨e, hz⟩ := inner (by simp at hle ⊢; omega) hz
      exact ⟨op, hop, e, z, rfl, hz⟩
    | unary operators =>
      rcases derives_alt.mp h with h | h
      · obtain ⟨x, y, rfl, hx, hy⟩ := derives_seq.mp h
        obtain ⟨op, hop, rfl⟩ := derives_word.mp hx
        obtain ⟨e, hy⟩ := outer y.length (by simp) hl (derives_name.mp hy) rfl
        exact ⟨e, .prefixed hop hy⟩
      · obtain ⟨e, h⟩ := ih ht h outer
        exact ⟨e, .plain h⟩

end Greedy

/-- The kinds that go on with an expression. -/
def Ending.continues (layers : List Layer) : Ending → List TokenKind
  | closed => .openParen :: Grammar.binaryOperators layers
  | opened => .openParen :: Grammar.binaryOperators Grammar.layers

def Layer.operators : Layer → List TokenKind
  | binary operators => operators
  | unary operators => operators

namespace Grammar

theorem binaryOperators_subset {layers tighter : List Layer} (h : tighter <:+ layers) :
    binaryOperators tighter ⊆ binaryOperators layers := by
  induction layers with
  | nil => rw [List.suffix_nil.mp h]; exact List.Subset.refl _
  | cons layer layers ih =>
    rcases List.suffix_cons_iff.mp h with rfl | hs
    · exact List.Subset.refl _
    · cases layer with
      | binary operators => exact List.Subset.trans (ih hs) (List.subset_append_right _ _)
      | unary operators => exact ih hs

/-- No operator of the first layer goes on with an operand of it or begins one. -/
def Apart : List Layer → Prop
  | [] => True
  | .binary operators :: ls => ∀ op ∈ operators, op ∉ .openParen :: binaryOperators ls
  | .unary operators :: ls => ∀ op ∈ operators, op ∉ expressionStarts ls

instance (layers : List Layer) : Decidable (Apart layers) :=
  match layers with
  | [] => inferInstanceAs (Decidable True)
  | .binary operators :: _ => inferInstanceAs (Decidable (∀ op ∈ operators, _))
  | .unary operators :: _ => inferInstanceAs (Decidable (∀ op ∈ operators, _))

theorem ne_eof {layer : Layer} {layers : List Layer} {op : TokenKind}
    (h : layer :: layers <:+ Grammar.layers) (hop : op ∈ layer.operators) : op ≠ .eof := by
  have check : ∀ l ∈ Grammar.layers, .eof ∉ l.operators := by decide
  rintro rfl
  exact check layer (h.subset List.mem_cons_self) hop

theorem apart {layers : List Layer} (h : layers <:+ Grammar.layers) : Apart layers := by
  have check : ∀ ls ∈ Grammar.layers.tails, Apart ls := by decide
  exact check layers ((List.mem_tails _ _).mpr h)

end Grammar

theorem Parses.length_le {r : Rule} {input rest : List Token} {trees : List Tree}
    (h : Parses (.rule r) input trees rest) : rest.length ≤ input.length := by
  rw [← h.leaves, List.length_append]
  omega

/-- The expression is read up to the rest: between binary operators, its first operand, and then as
many operations as there are, whatever trees they are added to. -/
def Spans (input rest : List Token) : List Layer → Prop
  | .binary operators :: ls => ∃ mid head, head ≠ [] ∧
      Parses (.rule (Grammar.layered ls)) input head mid ∧ ∀ trees, ∃ us,
        Parses (.chain .binaryExpr (.next operators)
          (.seq .take (.required (Grammar.expressionStarts ls) (Grammar.layered ls))) trees)
          mid us rest
  | ls => ∃ trees, Parses (.rule (Grammar.layered ls)) input trees rest

theorem Spans.parses {layers : List Layer} {input rest : List Token} (h : Spans input rest layers) :
    ∃ trees, Parses (.rule (Grammar.layered layers)) input trees rest := by
  cases layers with
  | nil => exact h
  | cons layer ls =>
    cases layer with
    | binary operators =>
      obtain ⟨mid, head, hne, hp, links⟩ := h
      obtain ⟨us, hu⟩ := links head
      exact ⟨us, .chain hp hne hu⟩
    | unary operators => exact h

namespace Rule

variable {n : Nat} {ts rest : List Token}

theorem NamesCover.closedAtom (hn : NamesCover n)
    (h : Phrase.Derives production closedAtom (kindsOf ts)) (hl : ts.length < n + 1) :
    ∃ trees, Parses (.rule Grammar.atom) (ts ++ rest) trees rest := by
  have hc : Grammar.atom.Covers Language.closedAtom TokenKind.all (room false n) :=
    covers_of_check hn (.ofNext closedStarts) _ (by decide +kernel)
  exact hc ts rest h hl (TokenKind.mem_all _)

theorem NamesCover.openAtom (hn : NamesCover n)
    (h : Phrase.Derives production openAtom (kindsOf ts)) (hl : ts.length < n + 1)
    (hr : nextKind rest ∉ Ending.opened.continues Grammar.layers) :
    ∃ trees, Parses (.rule Grammar.atom) (ts ++ rest) trees rest := by
  have hc : Grammar.atom.Covers Language.openAtom
      (Nonterminal.expression Grammar.layers).follow (room false n) :=
    covers_of_check hn (.ofNext openStarts) _ (by decide +kernel)
  exact hc ts rest h hl (Nonterminal.mem_follow_expression hr)

theorem NamesCover.arguments (hn : NamesCover n)
    (h : Phrase.Derives production (.star Language.arguments) (kindsOf ts))
    (hl : ts.length < n + 1) (hr : nextKind rest ≠ .openParen) (trees : List Tree) :
    ∃ us, Parses (.chain .callExpr (.next [.openParen]) Grammar.arguments trees)
      (ts ++ rest) us rest := by
  have hc : Grammar.arguments.Covers Language.arguments TokenKind.all (room false n) :=
    covers_of_check hn (.ofNext [.openParen]) _ (by decide +kernel)
  obtain ⟨tss, rfl, hts⟩ := derives_star_kindsOf.mp h
  clear h
  induction tss generalizing trees with
  | nil => exact ⟨trees, .grown (by simpa [Lookahead.holds] using hr)⟩
  | cons us tss ih =>
    obtain ⟨hu, hvs⟩ := List.forall_mem_cons.mp hts
    rw [List.flatten_cons, List.length_append] at hl
    rw [List.flatten_cons, List.append_assoc]
    obtain ⟨xs, hx⟩ := hc us (tss.flatten ++ rest) hu (by unfold room; simp; omega)
      (TokenKind.mem_all _)
    obtain ⟨ys, hy⟩ := ih [.node .callExpr (trees ++ xs)] hvs (by omega)
    obtain ⟨t, ts, rfl⟩ := List.exists_cons_of_ne_nil (l := us) (by
      rintro rfl
      exact hu.ne_nil startsRight (by decide) rfl)
    have hk : t.kind = .openParen := List.mem_singleton.mp (hu.mem_first startsRight)
    exact ⟨ys, .link (by simp [Lookahead.holds, nextKind, hk])
      (by simp only [List.length_append, List.length_cons]; omega) hx hy⟩

end Rule

namespace Greedy

variable {layers : List Layer} {e : Ending} {w : List TokenKind}

theorem ne_nil (h : Greedy layers e w) : w ≠ [] :=
  h.derives.ne_nil startsRight (first_layered layers).1

theorem mem_starts {ts : List Token} (h : Greedy layers e (kindsOf ts)) (rest : List Token) :
    nextKind (ts ++ rest) ∈ Grammar.expressionStarts layers := by
  cases ts with
  | nil => exact absurd rfl h.ne_nil
  | cons t ts => exact (first_layered layers).2 (h.derives.mem_first startsRight)

theorem not_continues {operators : List TokenKind} {kind : TokenKind}
    (hl : .binary operators :: layers <:+ Grammar.layers)
    (h : kind ∉ e.continues (.binary operators :: layers)) :
    kind ∉ operators ∧ kind ∉ e.continues layers := by
  cases e with
  | closed =>
    simp only [Ending.continues, Grammar.binaryOperators, List.mem_cons, List.mem_append,
      not_or] at h ⊢
    exact ⟨h.2.1, h.1, h.2.2⟩
  | opened =>
    refine ⟨fun hk => h (List.mem_cons_of_mem _ ?_), h⟩
    exact Grammar.binaryOperators_subset hl (List.mem_append_left _ hk)

theorem spans {n : Nat} (hn : Rule.NamesCover n) {ts rest : List Token} (h : Greedy layers e w)
    (hl : layers <:+ Grammar.layers) (hw : kindsOf ts = w) (hlen : ts.length < n + 1)
    (hr : nextKind rest ∉ e.continues layers) : Spans (ts ++ rest) rest layers := by
  induction h generalizing ts rest with
  | @operand operators layers e w h ih =>
    subst hw
    obtain ⟨hop, hr⟩ := not_continues hl hr
    obtain ⟨trees, hp⟩ := (ih ((List.suffix_cons _ _).trans hl) rfl hlen hr).parses
    have hne : ts ≠ [] := fun he => h.ne_nil (by rw [he, kindsOf_nil])
    exact ⟨rest, trees, hp.ne_nil hne, hp, fun us => ⟨us, .grown (by simpa [Lookahead.holds])⟩⟩
  | @operation operators layers e u op v hu hop hv ih1 ih2 =>
    have ht := (List.suffix_cons _ _).trans hl
    obtain ⟨us, vs, rfl, rfl, hvs⟩ := exists_append_of_kindsOf hw
    obtain ⟨t, vs, rfl, rfl, rfl⟩ := List.map_eq_cons_iff.mp hvs
    rw [List.length_append, List.length_cons] at hlen
    rw [List.append_assoc]
    have hr1 : nextKind (t :: vs ++ rest) ∉ Ending.closed.continues layers :=
      Grammar.apart hl _ hop
    obtain ⟨head, hp⟩ := (ih1 ht rfl (by omega) hr1).parses
    have hne : us ≠ [] := fun he => hu.ne_nil (by rw [he, kindsOf_nil])
    refine ⟨_, head, hp.ne_nil hne, hp, fun trees => ?_⟩
    obtain ⟨mid, operand, -, hoperand, links⟩ := ih2 hl rfl (by omega) hr
    obtain ⟨ys, hy⟩ := links [.node .binaryExpr (trees ++ ([.leaf t] ++ operand))]
    have hs := hv.mem_starts rest
    have hlink : Parses (.rule (.seq .take
        (.required (Grammar.expressionStarts layers) (Grammar.layered layers))))
        (t :: vs ++ rest) ([.leaf t] ++ operand) mid :=
      .seq (.take (Grammar.ne_eof hl hop))
        (.yes trivial (by simpa [Lookahead.holds, Grammar.expressionStarts] using hs) hoperand)
    have hle := hoperand.length_le
    exact ⟨ys, .link (by simpa [Lookahead.holds] using hop) (by simp at hle ⊢; omega) hlink hy⟩
  | @plain operators layers e w h ih =>
    subst hw
    obtain ⟨trees, hp⟩ := (ih ((List.suffix_cons _ _).trans hl) rfl hlen hr).parses
    refine ⟨trees, .no trivial ?_ hp⟩
    have hs := h.mem_starts rest
    simpa [Lookahead.holds] using fun hop => Grammar.apart hl _ hop hs
  | @prefixed operators layers e op w hop hbody ih =>
    obtain ⟨t, ts, rfl, rfl, rfl⟩ := List.map_eq_cons_iff.mp hw
    obtain ⟨trees, hp⟩ := (ih hl rfl (Nat.lt_of_succ_lt hlen) hr).parses
    have hs := hbody.mem_starts rest
    exact ⟨_, .yes trivial (by simpa [Lookahead.holds] using hop)
      (.node (.seq (.take (Grammar.ne_eof hl hop))
        (.yes trivial (by simpa [Lookahead.holds] using hs) (.call hl hs hp))))⟩
  | atom h applied =>
    obtain ⟨us, vs, rfl, rfl, rfl⟩ := exists_append_of_kindsOf hw
    rw [List.length_append] at hlen
    rw [List.append_assoc]
    obtain ⟨head, hp⟩ := hn.closedAtom h (by omega)
    have hne : us ≠ [] := by
      rintro rfl
      exact h.ne_nil startsRight (by decide) rfl
    obtain ⟨trees, hlinks⟩ := hn.arguments applied (by omega)
      (fun he => hr (he ▸ List.mem_cons_self)) head
    exact ⟨trees, .chain hp (hp.ne_nil hne) hlinks⟩
  | bound h hbody ih =>
    have hopen := derives_openAtom.mpr ⟨_, _, rfl, h, hbody.derives⟩
    rw [← hw] at hopen
    obtain ⟨trees, hp⟩ := hn.openAtom hopen hlen hr
    have hne : ts ≠ [] := by
      rintro rfl
      exact hopen.ne_nil startsRight (by decide) rfl
    have hnext : nextKind rest ≠ .openParen := fun he => hr (he ▸ List.mem_cons_self)
    exact ⟨trees, .chain hp (hp.ne_nil hne) (.grown (by simpa [Lookahead.holds] using hnext))⟩

end Greedy

namespace Rule

/-- Types and expressions are read as far as they go. -/
theorem namesCover (n : Nat) : NamesCover n := by
  induction n with
  | zero => exact fun _ _ _ _ _ hl => absurd hl (Nat.not_lt_zero _)
  | succ n ih =>
    rintro x (rfl | rfl)
    · exact covers_of_check ih (.ofNext Grammar.typeStarts) false (by decide +kernel)
    · intro ts rest h hl hr
      obtain ⟨e, hg⟩ := Greedy.of_derives List.suffix_rfl h
      refine (hg.spans ih List.suffix_rfl rfl hl ?_).parses
      rw [Nonterminal.follow, if_pos rfl] at hr
      have hnot := of_decide_eq_true (List.mem_filter.mp hr).2
      cases e with
      | closed => exact hnot
      | opened => exact hnot

end Rule

end PvsIndex
