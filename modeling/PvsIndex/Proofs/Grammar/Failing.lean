import PvsIndex.Proofs.Grammar.Acceptance
import PvsIndex.Proofs.Grammar.Orderly

/-! Reading up to the first error: what parses before it, and which parts are left open there. -/

namespace PvsIndex

/-- The piece reads the input up to the rest, where it reports the first error. The trees are those
it comes to in the end; nothing is said of what is read after the error, or of chains. -/
inductive Fails : Piece → List Token → List Tree → List Token → Prop where
  | report {complaint input} : Fails (.rule (.report complaint)) input [] input
  | first {first second input ts us rest} (head : Fails (.rule first) input ts rest) :
      Fails (.rule (.seq first second)) input (ts ++ us) rest
  | second {first second input mid ts us rest} (head : Parses (.rule first) input ts mid)
      (next : Fails (.rule second) mid us rest) :
      Fails (.rule (.seq first second)) input (ts ++ us) rest
  | yes {test yes no input ts rest} (proper : test.Proper input) (h : test.holds input = true)
      (body : Fails (.rule yes) input ts rest) : Fails (.rule (.branch test yes no)) input ts rest
  | no {test yes no input ts rest} (proper : test.Proper input) (h : test.holds input = false)
      (body : Fails (.rule no) input ts rest) : Fails (.rule (.branch test yes no)) input ts rest
  | turn {test body input ts us rest} (h : test.holds input = true)
      (once : Fails (.rule body) input ts rest) :
      Fails (.rule (.loop test body)) input (ts ++ us) rest
  | again {test body input mid ts us rest} (h : test.holds input = true)
      (progress : mid.length < input.length) (once : Parses (.rule body) input ts mid)
      (again : Fails (.rule (.loop test body)) mid us rest) :
      Fails (.rule (.loop test body)) input (ts ++ us) rest
  | node {kind body input ts rest} (inner : Fails (.rule body) input ts rest) :
      Fails (.rule (.node kind body)) input [.node kind ts] rest
  | opening {opening test yes no closing kind input ts us rest}
      (opened : Fails (.rule opening) input ts rest) :
      Fails (.rule (.nodeBy opening test yes no closing)) input [.node kind (ts ++ us)] rest
  | closing {opening test yes no closing kind input mid ts us rest}
      (opened : Parses (.rule opening) input ts mid) (closed : Fails (.rule closing) mid us rest) :
      Fails (.rule (.nodeBy opening test yes no closing)) input [.node kind (ts ++ us)] rest
  | head {kind head test tail input ts us rest} (first : Fails (.rule head) input ts rest) :
      Fails (.rule (.chain kind head test tail)) input us rest
  | links {kind head test tail input mid ts us rest} (first : Parses (.rule head) input ts mid)
      (h : ts ≠ []) (links : Fails (.chain kind test tail ts) mid us rest) :
      Fails (.rule (.chain kind head test tail)) input us rest
  | link {kind test tail trees input ts us rest} (h : test.holds input = true)
      (once : Fails (.rule tail) input ts rest) : Fails (.chain kind test tail trees) input us rest
  | relink {kind test tail trees input mid ts us rest} (h : test.holds input = true)
      (progress : mid.length < input.length) (once : Parses (.rule tail) input ts mid)
      (again : Fails (.chain kind test tail [.node kind (trees ++ ts)]) mid us rest) :
      Fails (.chain kind test tail trees) input us rest
  | call {name input ts rest} (known : name.Known) (h : nextKind input ∈ name.starts)
      (body : Fails (.rule name.rule) input ts rest) : Fails (.rule (.call name)) input ts rest

variable {piece : Piece} {input rest mid : List Token} {trees us : List Tree}

/-- What is read with errors parses up to the first one, which blames the token there. -/
theorem Reads.fails {endOfText : Token} {task : Task} {s : Step} {e : SyntaxError}
    (h : Reads endOfText task s) (hq : task.Quiet) (ht : task.errors = [])
    (hs : s.errors.head? = some e) : ∃ rest, Fails task.piece task.input s.trees rest ∧
      e.token = rest.headD endOfText := by
  have first {errors all : List SyntaxError} (hne : errors ≠ []) (hp : errors <+: all)
      (ha : all.head? = some e) : errors.head? = some e := by
    obtain ⟨more, rfl⟩ := hp
    rwa [List.head?_append_of_ne_nil _ hne] at ha
  induction h with
  | empty => cases hs
  | @take c hk =>
    obtain ⟨input, recovering⟩ := c
    cases input <;> cases hs
  | @skip c =>
    obtain ⟨input, recovering⟩ := c
    cases input <;> cases hs
  | @report c complaint =>
    obtain ⟨input, recovering⟩ := c
    obtain rfl : recovering = false := hq
    obtain rfl := Option.some.inj hs
    exact ⟨input, .report, rfl⟩
  | @seq _ _ c s t head _ ih1 ih2 =>
    by_cases hs1 : s.errors = []
    · obtain ⟨hp, hq1⟩ := head.parses hq hs1
      rw [Step.join_errors, hs1, List.nil_append] at hs
      obtain ⟨rest, hf, he⟩ := ih2 hq1 rfl hs
      exact ⟨rest, .second hp hf, he⟩
    · obtain ⟨rest, hf, he⟩ := ih1 hq rfl (first hs1 (List.prefix_append _ _) hs)
      exact ⟨rest, .first hf, he⟩
  | yes hp h _ ih =>
    obtain ⟨rest, hf, he⟩ := ih hq rfl hs
    exact ⟨rest, .yes hp h hf, he⟩
  | no hp h _ ih =>
    obtain ⟨rest, hf, he⟩ := ih hq rfl hs
    exact ⟨rest, .no hp h hf, he⟩
  | finish => cases hs
  | @turn _ _ c s t h hl once _ ih1 ih2 =>
    by_cases hs1 : s.errors = []
    · obtain ⟨hp, hq1⟩ := once.parses hq hs1
      rw [Step.join_errors, hs1, List.nil_append] at hs
      obtain ⟨rest, hf, he⟩ := ih2 hq1 rfl hs
      exact ⟨rest, .again h hl hp hf, he⟩
    · obtain ⟨rest, hf, he⟩ := ih1 hq rfl (first hs1 (List.prefix_append _ _) hs)
      exact ⟨rest, .turn h hf, he⟩
  | node _ ih =>
    obtain ⟨rest, hf, he⟩ := ih hq rfl hs
    exact ⟨rest, .node hf, he⟩
  | @nodeBy _ _ _ _ _ c s t opened _ ih1 ih2 =>
    by_cases hs1 : s.errors = []
    · obtain ⟨hp, hq1⟩ := opened.parses hq hs1
      rw [Step.wrap_errors, Step.join_errors, hs1, List.nil_append] at hs
      obtain ⟨rest, hf, he⟩ := ih2 hq1 rfl hs
      exact ⟨rest, .closing hp hf, he⟩
    · obtain ⟨rest, hf, he⟩ := ih1 hq rfl (first hs1 (List.prefix_append _ _) hs)
      exact ⟨rest, .opening hf, he⟩
  | headless _ _ ih =>
    obtain ⟨rest, hf, he⟩ := ih hq rfl hs
    exact ⟨rest, .head hf, he⟩
  | @chain _ _ _ _ c s t head h links ih1 ih2 =>
    by_cases hs1 : s.errors = []
    · obtain ⟨hp, hq1⟩ := head.parses hq hs1
      obtain ⟨rest, hf, he⟩ := ih2 hq1 hs1 hs
      exact ⟨rest, .links hp h hf, he⟩
    · obtain ⟨rest, hf, he⟩ := ih1 hq rfl (first hs1 links.errors_prefix hs)
      exact ⟨rest, .head hf, he⟩
  | @grown _ _ _ s =>
    rw [show s.errors = [] from ht] at hs
    cases hs
  | @link kind _ _ s t u h hl once again ih1 ih2 =>
    have hjoin : ((s.join t).wrap kind).errors = t.errors := by
      rw [Step.wrap_errors, Step.join_errors, show s.errors = [] from ht, List.nil_append]
    by_cases hs1 : t.errors = []
    · obtain ⟨hp, hq1⟩ := once.parses hq hs1
      obtain ⟨rest, hf, he⟩ := ih2 hq1 (hjoin.trans hs1) hs
      exact ⟨rest, .relink h hl hp hf, he⟩
    · obtain ⟨rest, hf, he⟩ := ih1 hq rfl (first hs1 (hjoin ▸ again.errors_prefix) hs)
      exact ⟨rest, .link h hf, he⟩
  | call hk h _ ih =>
    obtain ⟨rest, hf, he⟩ := ih hq rfl hs
    exact ⟨rest, .call hk h hf, he⟩

namespace Parses

theorem suffix (h : Parses piece input trees rest) : rest <:+ input := by
  obtain ⟨ts, rfl, -⟩ := h.accepts
  exact List.suffix_append _ _

theorem unique (h : Parses piece input trees rest) (k : Parses piece input us mid) :
    trees = us ∧ rest = mid := by
  have he := (h.reads default).unique (k.reads default)
  exact ⟨congrArg Step.trees he, congrArg (·.cursor.input) he⟩

end Parses

namespace Fails

theorem suffix (h : Fails piece input trees rest) : rest <:+ input := by
  induction h with
  | report => exact List.suffix_rfl
  | second head _ ih => exact ih.trans head.suffix
  | again _ _ once _ ih => exact ih.trans once.suffix
  | closing opened _ ih => exact ih.trans opened.suffix
  | links first _ _ ih => exact ih.trans first.suffix
  | relink _ _ once _ ih => exact ih.trans once.suffix
  | first _ ih | yes _ _ _ ih | no _ _ _ ih | turn _ _ ih | node _ ih | opening _ ih | head _ ih
  | link _ _ ih | call _ _ _ ih => exact ih

theorem not_parses (h : Fails piece input trees rest) : ¬ Parses piece input us mid := by
  intro k
  induction h generalizing us mid with
  | report => cases k
  | first _ ih =>
    cases k with
    | seq k _ => exact ih k
  | second head _ ih =>
    cases k with
    | seq k1 k2 =>
      obtain ⟨-, rfl⟩ := head.unique k1
      exact ih k2
  | yes _ h _ ih =>
    cases k with
    | yes _ _ k => exact ih k
    | no _ h' => simp [h] at h'
  | no _ h _ ih =>
    cases k with
    | yes _ h' => simp [h] at h'
    | no _ _ k => exact ih k
  | turn h _ ih =>
    cases k with
    | finish h' => simp [h] at h'
    | turn _ _ k => exact ih k
  | again h _ once _ ih =>
    cases k with
    | finish h' => simp [h] at h'
    | turn _ _ k1 k2 =>
      obtain ⟨-, rfl⟩ := once.unique k1
      exact ih k2
  | node _ ih =>
    cases k with
    | node k => exact ih k
  | opening _ ih =>
    cases k with
    | nodeBy k _ => exact ih k
  | closing opened _ ih =>
    cases k with
    | nodeBy k1 k2 =>
      obtain ⟨-, rfl⟩ := opened.unique k1
      exact ih k2
  | head _ ih =>
    cases k with
    | headless k => exact ih k
    | chain k _ _ => exact ih k
  | links first h _ ih =>
    cases k with
    | headless k => exact h (first.unique k).1
    | chain k1 _ k2 =>
      obtain ⟨rfl, rfl⟩ := first.unique k1
      exact ih k2
  | link h _ ih =>
    cases k with
    | grown h' => simp [h] at h'
    | link _ _ k => exact ih k
  | relink h _ once _ ih =>
    cases k with
    | grown h' => simp [h] at h'
    | link _ _ k1 k2 =>
      obtain ⟨rfl, rfl⟩ := once.unique k1
      exact ih k2
  | call _ _ _ ih =>
    cases k with
    | call _ _ k => exact ih k

end Fails

namespace Rule

variable {r : Rule}

/-- The rule reports before it reads a token. -/
def refuses : Rule → Bool
  | report _ => true
  | seq first _ => first.refuses
  | branch test yes no => test.near && (yes.refuses && no.refuses)
  | _ => false

theorem not_parses_of_refuses (hr : r.refuses = true) : ¬ Parses (.rule r) input trees rest := by
  intro h
  induction r generalizing input trees rest with
  | report => cases h
  | seq first second ih1 _ =>
    cases h with
    | seq head _ => exact ih1 hr head
  | branch test yes no ih1 ih2 =>
    obtain ⟨-, hr⟩ := Bool.and_eq_true_iff.mp hr
    obtain ⟨hr1, hr2⟩ := Bool.and_eq_true_iff.mp hr
    cases h with
    | yes _ _ body => exact ih1 hr1 body
    | no _ _ body => exact ih2 hr2 body
  | _ => cases hr

theorem rest_eq_of_refuses (hr : r.refuses = true) (h : Fails (.rule r) input trees rest) :
    rest = input := by
  induction r generalizing trees with
  | report => cases h; rfl
  | seq first second ih1 _ =>
    cases h with
    | first head => exact ih1 hr head
    | second head _ => exact absurd head (not_parses_of_refuses hr)
  | branch test yes no ih1 ih2 =>
    obtain ⟨-, hr⟩ := Bool.and_eq_true_iff.mp hr
    obtain ⟨hr1, hr2⟩ := Bool.and_eq_true_iff.mp hr
    cases h with
    | yes _ _ body => exact ih1 hr1 body
    | no _ _ body => exact ih2 hr2 body
  | _ => cases hr

theorem fails_of_refuses (hr : r.refuses = true) (input : List Token) :
    ∃ trees, Fails (.rule r) input trees input := by
  induction r with
  | report => exact ⟨_, .report⟩
  | seq first second ih1 _ =>
    obtain ⟨ts, h⟩ := ih1 hr
    exact ⟨ts ++ [], .first h⟩
  | branch test yes no ih1 ih2 =>
    obtain ⟨hn, hr⟩ := Bool.and_eq_true_iff.mp hr
    obtain ⟨hr1, hr2⟩ := Bool.and_eq_true_iff.mp hr
    have proper := Lookahead.proper_of_near hn input
    cases ht : test.holds input with
    | true =>
      obtain ⟨ts, h⟩ := ih1 hr1
      exact ⟨ts, .yes proper ht h⟩
    | false =>
      obtain ⟨ts, h⟩ := ih2 hr2
      exact ⟨ts, .no proper ht h⟩
  | _ => cases hr

end Rule

end PvsIndex
