import PvsIndex.Analysis
import PvsIndex.Proofs.Checked.Following

/-! Syntax errors blame tokens of the text, and their diagnostics extend over the token, on the line
where it begins. -/

namespace PvsIndex

/-- What is blamed was blamed before, is ahead, or is the end of the text. -/
theorem Reads.blamed {endOfText : Token} {task : Task} {s : Step} {P : Token → Prop}
    (h : Reads endOfText task s) (hend : P endOfText) (hinput : ∀ t ∈ task.input, P t)
    (herrors : ∀ e ∈ task.errors, P e.token) : ∀ e ∈ s.errors, P e.token := by
  have none : ∀ e ∈ ([] : List SyntaxError), P e.token := List.forall_mem_nil _
  induction h with
  | empty => exact none
  | @take c h =>
    obtain ⟨input, recovering⟩ := c
    cases input <;> exact none
  | @skip c =>
    obtain ⟨input, recovering⟩ := c
    cases input <;> exact none
  | @report c complaint =>
    obtain ⟨input, recovering⟩ := c
    cases recovering with
    | true => exact none
    | false =>
      refine List.forall_mem_singleton.mpr ?_
      cases input with
      | nil => exact hend
      | cons t input => exact hinput t List.mem_cons_self
  | seq head _ ih1 ih2 =>
    exact List.forall_mem_append.mpr ⟨ih1 hinput none,
      ih2 (fun t ht => hinput t (head.input_suffix.subset ht)) none⟩
  | yes _ _ _ ih => exact ih hinput none
  | no _ _ _ ih => exact ih hinput none
  | finish => exact none
  | turn _ _ once _ ih1 ih2 =>
    exact List.forall_mem_append.mpr ⟨ih1 hinput none,
      ih2 (fun t ht => hinput t (once.input_suffix.subset ht)) none⟩
  | node _ ih => exact ih hinput none
  | nodeBy opened _ ih1 ih2 =>
    exact List.forall_mem_append.mpr ⟨ih1 hinput none,
      ih2 (fun t ht => hinput t (opened.input_suffix.subset ht)) none⟩
  | headless _ _ ih => exact ih hinput none
  | chain first _ _ ih1 ih2 =>
    exact ih2 (fun t ht => hinput t (first.input_suffix.subset ht)) (ih1 hinput none)
  | grown => exact herrors
  | link _ _ once _ ih1 ih2 =>
    exact ih2 (fun t ht => hinput t (once.input_suffix.subset ht))
      (List.forall_mem_append.mpr ⟨herrors, ih1 hinput none⟩)
  | call _ _ _ ih => exact ih hinput none

namespace Parse

theorem token_mem {text : String} {e : SyntaxError} (h : e ∈ (ofText text).errors) :
    e.token ∈ (Tokens.ofText text).toList := by
  obtain ⟨s, herrors, -, -, hr⟩ := reads_all text
  exact hr.blamed (P := (· ∈ (Tokens.ofText text).toList)) Tokens.endOfText_mem
    (fun t ht => Tokens.significant_subset ht) nofun e (herrors ▸ h)

end Parse

namespace SyntaxError

theorem diagnostic_range (e : SyntaxError) : e.report.diagnostic.range =
    ⟨e.position, ⟨e.position.line, e.position.character + e.token.length⟩⟩ := by
  have hstop : e.report.stopCharacter = (e.position.character + e.token.length : Nat) := by
    simp only [report, Report.stopCharacter, Report.extent, Token.stopIndex]
    omega
  rw [Report.diagnostic, hstop]
  rfl

end SyntaxError

end PvsIndex
