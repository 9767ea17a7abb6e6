import Mathlib.Data.List.TakeWhile
import PvsIndex.Proofs.Declaration.Reach
import PvsIndex.Proofs.Token.Append
import PvsIndex.Proofs.Token.Cover

/-! Words stand on one line, and no two of them touch one position. -/

namespace PvsIndex

theorem Lexeme.isNamePart_of_scan {c : Char} {cs : List Char} (h : (scan c cs).1.isWord = true) :
    ∀ d ∈ c :: cs.take (scan c cs).2, isNamePart d = true := by
  obtain ⟨hc, hextent, -⟩ := scan_word h
  have htake : cs.take (run isNamePart cs) = cs.takeWhile isNamePart :=
    (List.prefix_iff_eq_take.mp (List.takeWhile_prefix isNamePart)).symm
  rw [hextent, htake]
  exact List.forall_mem_cons.mpr ⟨isNamePart_of_isNameStart hc, fun d => List.mem_takeWhile_imp⟩

theorem Position.ofChars_of_oneLine {cs : List Char} (h : '\n' ∉ cs) :
    ofChars cs = ⟨0, cs.length⟩ := by
  induction cs with
  | nil => rfl
  | cons c cs ih =>
    rw [List.mem_cons, not_or] at h
    rw [ofChars_cons, ih h.2, ofChar, if_neg (Ne.symm h.1), List.length_cons]
    ext
    · rfl
    · exact Nat.add_comm _ _

namespace Token

variable {source : List Char} {t : Token}

theorem Shows.range_of_oneLine (h : t.Shows source) (hline : '\n' ∉ t.text.toList) :
    t.range.stop = ⟨t.range.start.line, t.range.start.character + t.length⟩ := by
  rw [h.range, Position.ofIndex_add, ← h.text, Position.ofChars_of_oneLine hline]
  rfl

end Token

namespace Tokens

variable {text : String} {t u : Token} {p : Position}

theorem isNamePart_of_mem_scanFrom {position : Position} {index : Nat} {cs : List Char}
    (h : t ∈ (scanFrom position index cs).lexemes) (hw : t.kind.isWord = true) :
    ∀ c ∈ t.text.toList, Lexeme.isNamePart c = true := by
  induction cs using lexeme_induction generalizing position index with
  | nil =>
    rw [scanFrom] at h
    cases h
  | cons c cs ih =>
    rw [scanFrom_lexeme] at h
    rcases List.mem_cons.mp h with rfl | h
    · rw [String.toList_ofList]
      exact Lexeme.isNamePart_of_scan hw
    · exact ih h

theorem mem_lexemes_of_word (h : t ∈ (ofText text).toList) (hw : t.kind.isWord = true) :
    t ∈ (ofText text).lexemes := by
  refine (List.mem_append.mp h).resolve_right fun hend => ?_
  rw [List.mem_singleton.mp hend, (ofText_spec text).2.2] at hw
  cases hw

theorem oneLine_of_word (h : t ∈ (ofText text).toList) (hw : t.kind.isWord = true) :
    '\n' ∉ t.text.toList := fun hc =>
  absurd (isNamePart_of_mem_scanFrom (mem_lexemes_of_word h hw) hw _ hc) (by decide)

theorem fits_of_word (h : t ∈ (ofText text).toList) (hw : t.kind.isWord = true) :
    t.Fits text.toList :=
  (ofText_spec text).1 t (mem_lexemes_of_word h hw)

/-- Two words do not touch one position. -/
theorem eq_of_touches (ht : t ∈ (ofText text).toList) (hu : u ∈ (ofText text).toList)
    (htw : t.kind.isWord = true) (huw : u.kind.isWord = true) (htp : t.range.Touches p)
    (hup : u.range.Touches p) : t = u := by
  let Same (t u : Token) : Prop := t.kind.isWord = true → u.kind.isWord = true →
    t.range.Touches p → u.range.Touches p → t = u
  have hpairwise : (ofText text).toList.Pairwise Same := by
    refine (toList_pairwise text).imp_of_mem fun {t u} ht hu hbefore htw huw htp hup => ?_
    have htf := fits_of_word ht htw
    have huf := fits_of_word hu huw
    have hlt := Token.lt_of_words htf huf htw huw hbefore
    have hpos := huf.length_pos
    have hstop := huf.stop_le
    rw [htf.range] at htp
    rw [huf.range] at hup
    exact absurd (hup.1.trans htp.2) (not_le_of_gt (Position.ofIndex_lt hlt (by omega)))
  have hsymm : Std.Symm Same := ⟨fun _ _ h huw htw hup htp => (h htw huw htp hup).symm⟩
  exact hpairwise.forall_of_forall (fun _ _ _ _ _ _ => rfl) ht hu htw huw htp hup

end Tokens

end PvsIndex
