import PvsIndex.Proofs.Declaration.History
import PvsIndex.Proofs.Grammar.Blame
import PvsIndex.Proofs.Token.Words

/-! The order of syntax errors: each blames a token after those that were blamed before it, and has
one diagnostic, where the token stands. -/

namespace PvsIndex

/-- The tokens that may still be blamed. While recovering, the next one has been, or it stands where
nothing is reported before a token is accepted. -/
def Cursor.blamable (endOfText : Token) (c : Cursor) : List Token :=
  if c.recovering then (c.input ++ [endOfText]).tail else c.input ++ [endOfText]

def Task.cursor : Task → Cursor
  | read _ c => c
  | grow _ _ _ s => s.cursor

/-- The tokens blamed so far, and those that may still be. -/
def Step.blame (endOfText : Token) (s : Step) : List Token :=
  s.errors.map (·.token) ++ s.cursor.blamable endOfText

def Task.blame (endOfText : Token) (task : Task) : List Token :=
  task.errors.map (·.token) ++ task.cursor.blamable endOfText

namespace Cursor

variable (endOfText : Token)

theorem tail_sublist (c : Cursor) :
    (c.input ++ [endOfText]).tail.Sublist (c.blamable endOfText) := by
  unfold blamable
  split
  · exact List.Sublist.refl _
  · exact List.tail_sublist _

theorem take_blame {c : Cursor} (h : nextKind c.input ≠ .eof) :
    (c.take.blame endOfText).Sublist (c.blamable endOfText) := by
  obtain ⟨input, recovering⟩ := c
  cases input with
  | nil => exact absurd rfl h
  | cons t input => exact tail_sublist endOfText ⟨t :: input, recovering⟩

theorem skip_blame (c : Cursor) : (c.skip.blame endOfText).Sublist (c.blamable endOfText) := by
  obtain ⟨input, recovering⟩ := c
  cases input with
  | nil => exact List.Sublist.refl _
  | cons t input =>
    cases recovering with
    | true => exact List.tail_sublist _
    | false => exact List.sublist_cons_self t _

theorem report_blame (c : Cursor) (complaint : Complaint) :
    ((c.report endOfText complaint).blame endOfText).Sublist (c.blamable endOfText) := by
  obtain ⟨input, recovering⟩ := c
  cases recovering with
  | true => exact List.Sublist.refl _
  | false => cases input <;> exact List.Sublist.refl _

end Cursor

/-- Nothing is blamed out of order or twice, whatever was passed over in between. -/
theorem Reads.blame_sublist {endOfText : Token} {task : Task} {s : Step}
    (h : Reads endOfText task s) : (s.blame endOfText).Sublist (task.blame endOfText) := by
  have join {s t : Step} {blamable : List Token}
      (hs : (s.blame endOfText).Sublist blamable)
      (ht : (t.blame endOfText).Sublist (s.cursor.blamable endOfText)) :
      ((s.join t).blame endOfText).Sublist blamable := by
    rw [Step.blame, Step.join_errors, List.map_append, List.append_assoc]
    exact (List.Sublist.append_left ht _).trans hs
  induction h with
  | empty => exact List.Sublist.refl _
  | take h => exact Cursor.take_blame endOfText h
  | skip => exact Cursor.skip_blame endOfText _
  | report => exact Cursor.report_blame endOfText _ _
  | seq _ _ ih1 ih2 => exact join ih1 ih2
  | yes _ _ _ ih => exact ih
  | no _ _ _ ih => exact ih
  | finish => exact List.Sublist.refl _
  | turn _ _ _ _ ih1 ih2 => exact join ih1 ih2
  | node _ ih => exact ih
  | nodeBy _ _ ih1 ih2 => exact join ih1 ih2
  | headless _ _ ih => exact ih
  | chain _ _ _ ih1 ih2 => exact ih2.trans ih1
  | grown => exact List.Sublist.refl _
  | link _ _ _ _ ih1 ih2 => exact ih2.trans (join (List.Sublist.refl _) ih1)
  | call _ _ _ ih => exact ih

namespace Parse

variable (text : String)

/-- The tokens that are blamed come in the order of the text, the end of the text last. -/
theorem blamed_sublist : ((ofText text).errors.map (·.token)).Sublist
    ((Tokens.ofText text).significant ++ [(Tokens.ofText text).endOfText]) := by
  obtain ⟨s, herrors, -, hr⟩ := reads text
  rw [herrors]
  exact (List.sublist_append_left _ _).trans hr.blame_sublist

theorem pairwise_errors :
    (ofText text).errors.Pairwise fun e f => e.token.startIndex < f.token.startIndex := by
  have hpairwise := (Tokens.pairwise_startIndex text).sublist
    ((blamed_sublist text).trans (Tokens.significant_sublist text))
  rwa [List.pairwise_map] at hpairwise

end Parse

namespace SyntaxError

/-- The report blames the token and says where it begins, and the diagnostic extends over as many
characters as the token has. Only a token that goes on in another line ends elsewhere. -/
structure Shown (e : SyntaxError) (d : Diagnostic) : Prop where
  token : e.report.token = some e.token
  position : e.report.position = e.token.range.start
  start : d.range.start = e.report.position
  stop : d.range.stop = ⟨d.range.start.line, d.range.start.character + e.token.text.toList.length⟩
  message : d.message = e.report.message
  severity : d.severity = .error
  forward : d.range.start ≤ d.range.stop
  empty : e.token.kind = .eof → d.range.stop = d.range.start
  oneLine : '\n' ∉ e.token.text.toList → d.range = e.token.range

theorem shown {text : String} {e : SyntaxError} (h : e.token ∈ (Tokens.ofText text).toList) :
    e.Shown e.report.diagnostic where
  token := rfl
  position := rfl
  start := rfl
  stop := by rw [e.diagnostic_range]; rfl
  message := rfl
  severity := rfl
  forward := by
    rw [e.diagnostic_range, Position.le_iff]
    exact Or.inr ⟨rfl, Nat.le_add_right _ _⟩
  empty heof := by
    have hend : e.token = (Tokens.ofText text).endOfText := by
      rcases List.mem_append.mp h with h | h
      · exact absurd heof ((Tokens.ofText_spec text).1 _ h).kind_ne
      · exact List.mem_singleton.mp h
    rw [e.diagnostic_range, hend, (Tokens.ofText_spec text).2.2]
    rfl
  oneLine hline := by
    have hstop := (Tokens.shows_of_mem h).range_of_oneLine hline
    rw [e.diagnostic_range, position, ← hstop]

end SyntaxError

/-- The analysis of a text has one diagnostic for each error, in the order of the errors, and the
errors blame significant tokens, or the end of the text, each further on than the one before. -/
theorem Analysis.diagnostics_shown (text : String) (dumping : Bool) : ∃ a,
    ofText text dumping = .ok a ∧ a.parse = Parse.ofText text ∧
      (a.parse.errors.map (·.token)).Sublist
        (a.parse.tokens.significant ++ [a.parse.tokens.endOfText]) ∧
      a.parse.errors.Pairwise (fun e f => e.token.startIndex < f.token.startIndex) ∧
      List.Forall₂ SyntaxError.Shown a.parse.errors a.diagnostics := by
  obtain ⟨r, ha⟩ := exists_ok text dumping
  refine ⟨_, ha, rfl, Parse.blamed_sublist text, Parse.pairwise_errors text, ?_⟩
  refine List.forall₂_map_right_iff.mpr (List.forall₂_same.mpr fun e he => ?_)
  exact SyntaxError.shown (Parse.token_mem he)

end PvsIndex
