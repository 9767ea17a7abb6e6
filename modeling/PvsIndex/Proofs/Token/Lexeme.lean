import Mathlib.Data.List.Basic
import PvsIndex.Token.Lexeme

/-! How far a lexeme goes. A line feed ends it, but for blanks and for strings that are not
closed. -/

namespace PvsIndex.Lexeme

variable {p : Char → Bool} {c : Char}

theorem run_le (p : Char → Bool) (cs : List Char) : run p cs ≤ cs.length :=
  (List.takeWhile_sublist p).length_le

theorem stringRest_le (cs : List Char) : stringRest cs ≤ cs.length := by
  induction cs using stringRest.induct with
  | case1 => exact Nat.le_refl _
  | case2 cs => simp [stringRest]
  | case3 d cs ih =>
    simp only [stringRest, List.length_cons]
    omega
  | case4 d cs hquote hback ih =>
    rw [stringRest, List.length_cons]
    · exact Nat.succ_le_succ ih
    · exact hquote
    · exact hback

theorem numberRest_of_point {cs ds : List Char} {d : Char}
    (h : cs.drop (run Char.isDigit cs) = '.' :: d :: ds) (hd : d.isDigit = true) :
    numberRest cs = run Char.isDigit cs + 2 + run Char.isDigit ds := by
  unfold numberRest
  dsimp only
  rw [h]
  exact if_pos hd

theorem numberRest_of_not {cs : List Char}
    (h : ∀ d ds, cs.drop (run Char.isDigit cs) = '.' :: d :: ds → d.isDigit = false) :
    numberRest cs = run Char.isDigit cs := by
  unfold numberRest
  dsimp only
  split
  · rename_i d ds hpoint
    exact if_neg (by simp [h d ds hpoint])
  · rfl

theorem numberRest_cases (cs : List Char) :
    (∃ d ds, cs.drop (run Char.isDigit cs) = '.' :: d :: ds ∧ d.isDigit = true) ∨
      ∀ d ds, cs.drop (run Char.isDigit cs) = '.' :: d :: ds → d.isDigit = false := by
  by_cases h : ∃ d ds, cs.drop (run Char.isDigit cs) = '.' :: d :: ds ∧ d.isDigit = true
  · exact Or.inl h
  · exact Or.inr fun d ds hds => Bool.eq_false_iff.mpr fun hd => h ⟨d, ds, hds, hd⟩

theorem numberRest_le (cs : List Char) : numberRest cs ≤ cs.length := by
  rcases numberRest_cases cs with ⟨d, ds, hds, hd⟩ | h
  · have hlen := congrArg List.length hds
    have hrun := run_le Char.isDigit ds
    rw [numberRest_of_point hds hd]
    simp only [List.length_drop, List.length_cons] at hlen
    omega
  · rw [numberRest_of_not h]
    exact run_le _ _

theorem sign_cons_cons (c d e : Char) (cs : List Char) : sign c (d :: e :: cs) = sign c [d, e] := by
  by_cases he : e = '>'
  · subst he
    unfold sign
    split <;> simp_all
    rename_i hne heq
    exact hne cs heq.2.symm
  · have hcons : ∀ t, e :: cs ≠ '>' :: t := by simp [he]
    unfold sign
    split <;> simp_all

theorem sign_extent_le (c : Char) (cs : List Char) : (sign c cs).2 ≤ cs.length := by
  unfold sign
  split <;> simp

theorem scan_extent_le (c : Char) (cs : List Char) : (scan c cs).2 ≤ cs.length := by
  unfold scan
  split_ifs
  · exact run_le _ _
  · exact stringRest_le _
  · exact numberRest_le _
  · exact run_le _ _
  · exact run_le _ _
  · exact sign_extent_le _ _

theorem not_isDigit_of_isWhitespace (h : Text.isWhitespace c = true) : c.isDigit = false := by
  have hranges : ∀ r ∈ Text.whitespaceRanges, r.2 < 48 ∨ 57 < r.1 := by decide
  obtain ⟨r, hr, hl, hu⟩ := Text.inRanges_iff.mp h
  refine Bool.eq_false_iff.mpr fun hd => ?_
  obtain ⟨hlow, hhigh⟩ : 48 ≤ c.toNat ∧ c.toNat ≤ 57 := by
    simp only [Char.isDigit, Bool.and_eq_true, decide_eq_true_eq] at hd
    exact ⟨UInt32.le_iff_toNat_le.mp hd.1, UInt32.le_iff_toNat_le.mp hd.2⟩
  rcases hranges r hr with h | h
  · omega
  · omega

theorem scan_whitespace (h : Text.isWhitespace c = true) (cs : List Char) :
    scan c cs = (.space, run Text.isWhitespace cs) := by
  have hcomment : c ≠ '%' := by
    rintro rfl
    exact absurd h (by decide)
  have hstring : c ≠ '"' := by
    rintro rfl
    exact absurd h (by decide)
  simp [scan, hcomment, hstring, not_isDigit_of_isWhitespace h, h]

theorem run_append (hc : p c = false) (cs ds : List Char) : run p (cs ++ c :: ds) = run p cs := by
  induction cs with
  | nil => simp [run, hc]
  | cons d cs ih =>
    unfold run at ih ⊢
    cases hd : p d with
    | true => simp [hd, ih]
    | false => simp [hd]

theorem stringRest_append {cs : List Char} (h : stringRest cs < cs.length) (ds : List Char) :
    stringRest (cs ++ ds) = stringRest cs := by
  induction cs using stringRest.induct with
  | case1 => exact absurd h (Nat.not_lt_zero _)
  | case2 cs => rfl
  | case3 d cs ih =>
    simp only [stringRest, List.length_cons] at h
    have ih := ih (by omega)
    simp only [List.cons_append, stringRest, ih]
  | case4 d cs hquote hback ih =>
    have hcons : stringRest (d :: cs) = stringRest cs + 1 := by
      rw [stringRest]
      · exact hquote
      · exact hback
    rw [hcons, List.length_cons] at h
    have hne : cs ≠ [] := by
      rintro rfl
      exact absurd h (by simp [stringRest])
    have hback' : ∀ e es, d = '\\' → cs ++ ds = e :: es → False := by
      obtain ⟨e, cs, rfl⟩ := List.exists_cons_of_ne_nil hne
      exact fun _ _ hd _ => hback e cs hd rfl
    rw [hcons, List.cons_append, stringRest, ih (by omega)]
    · exact hquote
    · exact hback'

theorem numberRest_append (cs ds : List Char) : numberRest (cs ++ '\n' :: ds) = numberRest cs := by
  have hrun : run Char.isDigit (cs ++ '\n' :: ds) = run Char.isDigit cs := run_append rfl cs ds
  have hdrop : (cs ++ '\n' :: ds).drop (run Char.isDigit cs) =
      cs.drop (run Char.isDigit cs) ++ '\n' :: ds :=
    List.drop_append_of_le_length (run_le _ _)
  rcases numberRest_cases cs with ⟨d, es, hes, hd⟩ | h
  · have hes' : (cs ++ '\n' :: ds).drop (run Char.isDigit (cs ++ '\n' :: ds)) =
        '.' :: d :: (es ++ '\n' :: ds) := by
      rw [hrun, hdrop, hes]
      rfl
    rw [numberRest_of_point hes hd, numberRest_of_point hes' hd, hrun, run_append rfl]
  · rw [numberRest_of_not h, numberRest_of_not, hrun]
    intro e es hes
    rw [hrun, hdrop] at hes
    rcases hcs : cs.drop (run Char.isDigit cs) with _ | ⟨x, _ | ⟨y, ys⟩⟩
    · simp [hcs] at hes
    · obtain ⟨-, rfl, -⟩ : x = '.' ∧ '\n' = e ∧ ds = es := by simpa [hcs] using hes
      rfl
    · obtain ⟨rfl, rfl, -⟩ : x = '.' ∧ y = e ∧ ys ++ '\n' :: ds = es := by simpa [hcs] using hes
      exact h y ys hcs

theorem sign_append (c : Char) (cs ds : List Char) : sign c (cs ++ '\n' :: ds) = sign c cs := by
  rcases cs with _ | ⟨d, _ | ⟨e, cs⟩⟩
  · unfold sign
    split <;> simp_all
  · rw [List.singleton_append, sign_cons_cons]
    unfold sign
    split <;> simp_all
  · rw [List.cons_append, List.cons_append, sign_cons_cons, sign_cons_cons c d e cs]

/-- What begins a text is the same lexeme with a line feed after it. -/
theorem scan_append {cs : List Char} (hspace : Text.isWhitespace c = false)
    (hstring : (scan c cs).1 = .string → (scan c cs).2 < cs.length) (ds : List Char) :
    scan c (cs ++ '\n' :: ds) = scan c cs := by
  unfold scan at hstring ⊢
  split_ifs at hstring ⊢ with h1 h2 h3 h4 h5
  · rw [run_append rfl]
  · rw [stringRest_append (hstring rfl)]
  · rw [numberRest_append]
  · simp [hspace] at h4
  · have hname : isNamePart '\n' = false := by decide +kernel
    rw [run_append hname]
    dsimp only
    rw [List.take_append_of_le_length (run_le _ _)]
  · exact sign_append c cs ds

end PvsIndex.Lexeme
