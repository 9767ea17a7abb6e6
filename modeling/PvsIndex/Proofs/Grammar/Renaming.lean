import PvsIndex.Proofs.Grammar.Reading
import PvsIndex.Proofs.Tree.Map

/-! Rules ask for the kinds of tokens only: other tokens of the same kinds are read in the same
way. -/

namespace PvsIndex

variable {f : Token → Token}

theorem nextKind_map (hf : ∀ t, (f t).kind = t.kind) (input : List Token) :
    nextKind (input.map f) = nextKind input := by
  cases input with
  | nil => rfl
  | cons t input => exact hf t

theorem secondKind_map (hf : ∀ t, (f t).kind = t.kind) (input : List Token) :
    secondKind (input.map f) = secondKind input := by
  rw [secondKind, ← List.map_drop, nextKind_map hf]
  rfl

theorem afterNames_map (hf : ∀ t, (f t).kind = t.kind) (input : List Token) :
    afterNames (input.map f) = (afterNames input).map f := by
  induction input using afterNames.induct with
  | case1 comma name rest h ih =>
    rw [afterNames, if_pos h, List.map_cons, List.map_cons, afterNames, hf, hf, if_pos h, ih]
  | case2 comma name rest h =>
    rw [afterNames, if_neg h, List.map_cons, List.map_cons, afterNames, hf, hf, if_neg h]
  | case3 rest h =>
    rcases rest with _ | ⟨t, _ | ⟨u, rest⟩⟩
    · rfl
    · rfl
    · exact (h t u rest rfl).elim

theorem declarationAhead_map (hf : ∀ t, (f t).kind = t.kind) (input : List Token) :
    declarationAhead (input.map f) = declarationAhead input := by
  unfold declarationAhead
  dsimp only
  rw [← List.map_drop, afterNames_map hf, nextKind_map hf, nextKind_map hf, secondKind_map hf]

theorem Lookahead.holds_map (hf : ∀ t, (f t).kind = t.kind) (test : Lookahead)
    (input : List Token) : test.holds (input.map f) = test.holds input := by
  cases test with
  | next kinds => simp only [holds, nextKind_map hf]
  | past kinds => simp only [holds, nextKind_map hf]
  | pair first second => simp only [holds, nextKind_map hf, secondKind_map hf]
  | beyond kind => simp only [holds, nextKind_map hf, secondKind_map hf]
  | declares kind => simp only [holds, declarationAhead_map hf]

theorem Lookahead.Proper.map (hf : ∀ t, (f t).kind = t.kind) {test : Lookahead}
    {input : List Token} (h : test.Proper input) : test.Proper (input.map f) := by
  cases test with
  | declares kind => exact (nextKind_map hf input).trans h
  | _ => trivial

def SyntaxError.map (f : Token → Token) (e : SyntaxError) : SyntaxError :=
  { e with token := f e.token }

def Cursor.map (f : Token → Token) (c : Cursor) : Cursor :=
  { c with input := c.input.map f }

namespace Step

def map (f : Token → Token) (s : Step) : Step :=
  ⟨Tree.mapOf f s.trees, s.errors.map (·.map f), s.cursor.map f⟩

theorem join_map (s t : Step) : (s.join t).map f = (s.map f).join (t.map f) := by
  simp [join, map]

theorem wrap_map (kind : ElementKind) (s : Step) : (s.wrap kind).map f = (s.map f).wrap kind :=
  rfl

end Step

def Task.map (f : Token → Token) : Task → Task
  | read rule c => .read rule (c.map f)
  | grow kind test tail s => .grow kind test tail (s.map f)

/-- Other tokens of the same kinds are read in the same way. -/
theorem Reads.map (hf : ∀ t, (f t).kind = t.kind) {endOfText : Token} {task : Task} {s : Step}
    (h : Reads endOfText task s) : Reads (f endOfText) (task.map f) (s.map f) := by
  have next (input : List Token) := nextKind_map hf input
  have holds (test : Lookahead) (input : List Token) := test.holds_map hf input
  induction h with
  | empty => exact .empty
  | @take c h =>
    obtain ⟨input, recovering⟩ := c
    cases input with
    | nil => exact absurd rfl h
    | cons t input => exact .take ((next _).trans_ne h)
  | @skip c =>
    obtain ⟨input, recovering⟩ := c
    cases input with
    | nil => exact .skip
    | cons t input => exact .skip
  | @report c complaint =>
    obtain ⟨input, recovering⟩ := c
    cases recovering with
    | true => exact .report
    | false =>
      cases input with
      | nil => exact .report
      | cons t input => exact .report
  | seq _ _ ih1 ih2 => exact Step.join_map _ _ ▸ .seq ih1 ih2
  | yes hp h _ ih => exact .yes (hp.map hf) ((holds _ _).trans h) ih
  | no hp h _ ih => exact .no (hp.map hf) ((holds _ _).trans h) ih
  | finish h => exact .finish ((holds _ _).trans h)
  | turn h hl _ _ ih1 ih2 =>
    exact Step.join_map _ _ ▸ .turn ((holds _ _).trans h) (by simpa [Step.map, Cursor.map]) ih1 ih2
  | node _ ih => exact .node ih
  | @nodeBy opening test yes no closing c s t _ _ ih1 ih2 =>
    rw [Step.wrap_map, Step.join_map, ← holds]
    exact .nodeBy ih1 ih2
  | headless _ h ih => exact .headless ih (Tree.mapOf_eq_nil_iff.mpr h)
  | chain _ h _ ih1 ih2 => exact .chain ih1 (mt Tree.mapOf_eq_nil_iff.mp h) ih2
  | grown h => exact .grown ((holds _ _).trans h)
  | @link kind test tail s t u h hl _ _ ih1 ih2 =>
    refine .link ((holds _ _).trans h) (by simpa [Step.map, Cursor.map]) ih1 ?_
    rw [← Step.join_map, ← Step.wrap_map]
    exact ih2
  | call hk h _ ih => exact .call hk ((next _).symm ▸ h) ih

end PvsIndex
