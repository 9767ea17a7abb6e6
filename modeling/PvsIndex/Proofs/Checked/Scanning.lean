import PvsIndex.Proofs.Checked.Scanner
import PvsIndex.Proofs.Token.Lexeme
import PvsIndex.Proofs.Token.Scan

/-! No check fails while a text is split into tokens, and the tokens are those of the text. -/

namespace PvsIndex.Checked

open Text

namespace Scanner

/-- After some tokens, with the beginning of another one passed over. -/
def between (before lexeme rest : List Char) (tokens : List Token) : Scanner :=
  ⟨before ++ (lexeme ++ rest), bytes (before ++ lexeme), bytes before, before.length,
    .start + .ofChars before, tokens⟩

variable {before lexeme rest cs : List Char} {tokens : List Token} {c : Char} {p : Char → Bool}

theorem fromByte?_current :
    fromByte? (between before lexeme rest tokens).source
      (between before lexeme rest tokens).current = some rest := by
  have hsource : before ++ (lexeme ++ rest) = (before ++ lexeme) ++ rest :=
    (List.append_assoc _ _ _).symm
  rw [between, hsource]
  exact fromByte?_append _ _

theorem current_le :
    (between before lexeme rest tokens).current ≤
      bytes (between before lexeme rest tokens).source := by
  simp only [between, bytes_append]
  omega

theorem last_le :
    (between before lexeme rest tokens).last ≤ (between before lexeme rest tokens).current := by
  simp [between]

theorem checkOrder_between : (between before lexeme rest tokens).checkOrder = pure () := by
  rw [checkOrder, require_of last_le, pure_bind, require_of current_le]

theorem atEnd_between : (between before lexeme rest tokens).atEnd = rest.isEmpty := by
  cases rest with
  | nil => simp [atEnd, between]
  | cons c cs =>
    have hpos := c.utf8Size_pos
    simp [atEnd, between]
    omega

theorem nth_between (n : Nat) :
    (between before lexeme rest tokens).nth n = pure (rest.getD n '\x00') := by
  rw [nth, Nat.min_eq_left current_le, demand_of fromByte?_current, pure_bind]

theorem next_between :
    (between before lexeme rest tokens).next = pure (rest.headD '\x00') := by
  rw [next, nth_between, List.headD_eq_head?_getD, List.getD_eq_getElem?_getD,
    List.head?_eq_getElem?]

theorem currentText_between :
    (between before lexeme rest tokens).currentText = pure lexeme := by
  have hrest : fromByte? (between before lexeme rest tokens).source
      (between before lexeme rest tokens).last = some (lexeme ++ rest) :=
    fromByte?_append _ _
  have hlength : (between before lexeme rest tokens).current -
      (between before lexeme rest tokens).last = bytes lexeme := by
    simp [between]
  rw [currentText, require_of last_le, pure_bind, demand_of hrest, pure_bind, hlength,
    demand_of (untilByte?_append _ _)]

theorem advance_between (word : List Char) :
    (between before lexeme (word ++ rest) tokens).advance (bytes word) =
      between before (lexeme ++ word) rest tokens := by
  simp [advance, between, Nat.add_assoc]

theorem bumpMany_between (word : List Char) :
    (between before lexeme (word ++ rest) tokens).bumpMany (bytes word) =
      pure (between before (lexeme ++ word) rest tokens) := by
  have hle : (between before lexeme (word ++ rest) tokens).current + bytes word ≤
      bytes (between before lexeme (word ++ rest) tokens).source := by
    simp only [between, bytes_append]
    omega
  rw [bumpMany, require_of hle, pure_bind, advance_between, checkOrder_between, pure_bind]

theorem bump_between : (between before lexeme (c :: rest) tokens).bump =
    pure (between before (lexeme ++ [c]) rest tokens) := by
  have hmany := @bumpMany_between before lexeme rest tokens [c]
  rw [bump, next_between, pure_bind]
  simpa using hmany

theorem isFollowedBy_between (word : List Char) :
    (between before lexeme rest tokens).isFollowedBy word = pure (word.isPrefixOf rest) := by
  rw [isFollowedBy, demand_of fromByte?_current, pure_bind]

theorem eat_between (word : List Char) :
    (between before lexeme (word ++ rest) tokens).eat word =
      pure (between before (lexeme ++ word) rest tokens) := by
  have hprefix : word.isPrefixOf (word ++ rest) = true := by simp
  rw [eat, isFollowedBy_between, pure_bind, if_pos hprefix, bumpMany_between]

def committed (before lexeme : List Char) (kind : TokenKind) : Token :=
  ⟨kind, String.ofList lexeme,
    ⟨.start + .ofChars before, .start + .ofChars before + .ofChars lexeme⟩, before.length⟩

theorem push_between (kind : TokenKind) :
    (between before lexeme rest tokens).push kind lexeme
        ⟨.start + .ofChars before, .start + .ofChars before + .ofChars lexeme⟩ =
      between (before ++ lexeme) [] rest (tokens ++ [committed before lexeme kind]) := by
  simp [push, between, committed, Position.ofChars_append, Position.add_assoc]

theorem commit_between (kind : TokenKind) :
    (between before lexeme rest tokens).commit kind =
      pure (between (before ++ lexeme) [] rest (tokens ++ [committed before lexeme kind])) := by
  have hrange : Range.checked (between before lexeme rest tokens).lastPosition
      ((between before lexeme rest tokens).lastPosition + .ofChars lexeme) =
        pure ⟨.start + .ofChars before, .start + .ofChars before + .ofChars lexeme⟩ :=
    Range.checked_of (Position.le_add _ _)
  rw [commit, currentText_between, pure_bind, hrange, pure_bind, push_between,
    checkOrder_between, pure_bind]

theorem bumpWhile_between (hp : p '\x00' = false) :
    (between before lexeme rest tokens).bumpWhile p =
      pure (between before (lexeme ++ rest.take (Lexeme.run p rest))
        (rest.drop (Lexeme.run p rest)) tokens) := by
  induction rest generalizing lexeme with
  | nil =>
    rw [bumpWhile, next_between, pure_bind]
    simp [hp]
  | cons c rest ih =>
    rw [bumpWhile, next_between, pure_bind, List.headD_cons]
    cases hc : p c with
    | true =>
      have hrun : Lexeme.run p (c :: rest) = Lexeme.run p rest + 1 := by
        simp [Lexeme.run, hc]
      rw [if_pos rfl, bump_between, pure_bind, ih, hrun]
      simp
    | false =>
      have hrun : Lexeme.run p (c :: rest) = 0 := by simp [Lexeme.run, hc]
      rw [if_neg (by simp), hrun]
      simp

theorem bumpLine_between :
    (between before lexeme rest tokens).bumpLine =
      pure (between before (lexeme ++ rest.take (Lexeme.run (!Lexeme.isLineEnd ·) rest))
        (rest.drop (Lexeme.run (!Lexeme.isLineEnd ·) rest)) tokens) := by
  induction rest generalizing lexeme with
  | nil =>
    rw [bumpLine, atEnd_between]
    simp
  | cons c rest ih =>
    rw [bumpLine, atEnd_between, next_between, List.headD_cons]
    cases hc : Lexeme.isLineEnd c with
    | true =>
      have hrun : Lexeme.run (!Lexeme.isLineEnd ·) (c :: rest) = 0 := by simp [Lexeme.run, hc]
      rw [hrun]
      simp [hc]
    | false =>
      have hrun : Lexeme.run (!Lexeme.isLineEnd ·) (c :: rest) =
          Lexeme.run (!Lexeme.isLineEnd ·) rest + 1 := by
        simp [Lexeme.run, hc]
      have hstep : (between before lexeme (c :: rest) tokens).bump >>= bumpLine =
          pure (between before (lexeme ++ [c] ++ rest.take (Lexeme.run (!Lexeme.isLineEnd ·) rest))
            (rest.drop (Lexeme.run (!Lexeme.isLineEnd ·) rest)) tokens) := by
        rw [bump_between, pure_bind, ih]
      rw [hrun]
      simpa [hc] using hstep

theorem bumpWhile_cons (hp : p '\x00' = false) (hc : p c = true) :
    (between before lexeme (c :: rest) tokens).bumpWhile p =
      pure (between before (lexeme ++ c :: rest.take (Lexeme.run p rest))
        (rest.drop (Lexeme.run p rest)) tokens) := by
  have hrun : Lexeme.run p (c :: rest) = Lexeme.run p rest + 1 := by simp [Lexeme.run, hc]
  rw [bumpWhile_between hp, hrun]
  rfl

theorem bumpTimes_between (n : Nat) (h : n ≤ rest.length) :
    (between before lexeme rest tokens).bumpTimes n =
      pure (between before (lexeme ++ rest.take n) (rest.drop n) tokens) := by
  induction n generalizing lexeme rest with
  | zero => simp [bumpTimes]
  | succ n ih =>
    cases rest with
    | nil => cases h
    | cons c rest =>
      rw [bumpTimes, bump_between, pure_bind, ih (Nat.le_of_succ_le_succ h)]
      simp

theorem bumpString_between :
    ((between before lexeme rest tokens).bumpString >>= (·.eat ['"'])) =
      pure (between before (lexeme ++ rest.take (Lexeme.stringRest rest))
        (rest.drop (Lexeme.stringRest rest)) tokens) := by
  induction rest using Lexeme.stringRest.induct generalizing lexeme with
  | case1 =>
    rw [bumpString, atEnd_between]
    simp [eat, isFollowedBy_between, Lexeme.stringRest]
  | case2 cs =>
    have heat := @eat_between before lexeme cs tokens ['"']
    rw [bumpString, atEnd_between, next_between]
    simpa [Lexeme.stringRest] using heat
  | case3 d cs ih =>
    have hbump : (between before lexeme ('\\' :: d :: cs) tokens).bump =
        pure (between before (lexeme ++ ['\\']) (d :: cs) tokens) := bump_between
    have hbump' : (between before (lexeme ++ ['\\']) (d :: cs) tokens).bump =
        pure (between before (lexeme ++ ['\\'] ++ [d]) cs tokens) := bump_between
    rw [bumpString, atEnd_between, next_between]
    simp [hbump, hbump', atEnd_between, Lexeme.stringRest, ih]
  | case4 d cs hquote hback ih =>
    have hbump : (between before lexeme (d :: cs) tokens).bump =
        pure (between before (lexeme ++ [d]) cs tokens) := bump_between
    have hne : d ≠ '"' := fun he => hquote he
    have hrest : Lexeme.stringRest (d :: cs) = Lexeme.stringRest cs + 1 := by
      rw [Lexeme.stringRest]
      · exact hquote
      · exact hback
    rw [bumpString, atEnd_between, next_between, hrest]
    by_cases hd : d = '\\'
    · cases cs with
      | cons e cs => exact (hback e cs hd rfl).elim
      | nil =>
        subst hd
        simp [hbump, atEnd_between, Lexeme.stringRest, ih]
    · simp [hbump, hd, hne, ih]

theorem sign_ahead (c : Char) (cs : List Char) :
    Lexeme.sign c [cs.getD 0 '\x00', cs.getD 1 '\x00'] = Lexeme.sign c cs := by
  rcases cs with _ | ⟨d, _ | ⟨e, cs⟩⟩
  · unfold Lexeme.sign
    split <;> simp_all
  · unfold Lexeme.sign
    split <;> simp_all
  · exact (Lexeme.sign_cons_cons c d e cs).symm

theorem isWhitespace_zero : isWhitespace '\x00' = false := by
  decide

theorem isDigit_zero : Char.isDigit '\x00' = false := by
  decide

theorem isNamePart_zero : Lexeme.isNamePart '\x00' = false := by
  decide +kernel

variable {cs : List Char}

theorem space_between (hc : isWhitespace c = true) :
    (between before [] (c :: cs) tokens).space =
      pure (between (before ++ c :: cs.take (Lexeme.run isWhitespace cs)) []
        (cs.drop (Lexeme.run isWhitespace cs))
        (tokens ++ [committed before (c :: cs.take (Lexeme.run isWhitespace cs)) .space])) := by
  rw [space, next_between, pure_bind, List.headD_cons, require_of hc, pure_bind,
    bumpWhile_cons isWhitespace_zero hc, pure_bind, List.nil_append, commit_between]

theorem comment_between :
    (between before [] ('%' :: cs) tokens).comment =
      pure (between (before ++ '%' :: cs.take (Lexeme.run (!Lexeme.isLineEnd ·) cs)) []
        (cs.drop (Lexeme.run (!Lexeme.isLineEnd ·) cs)) (tokens ++
          [committed before ('%' :: cs.take (Lexeme.run (!Lexeme.isLineEnd ·) cs)) .comment])) := by
  have heat : (between before [] ('%' :: cs) tokens).eat ['%'] =
      pure (between before ['%'] cs tokens) := eat_between ['%']
  have hstart : (between before [] ('%' :: cs) tokens).isFollowedBy ['%'] = pure true := by
    rw [isFollowedBy_between]
    rfl
  rw [comment, hstart, pure_bind, require_of rfl, pure_bind, heat, pure_bind, bumpLine_between,
    pure_bind, commit_between]
  rfl

theorem word_between (hc : Lexeme.isNameStart c = true) :
    (between before [] (c :: cs) tokens).word =
      pure (between (before ++ c :: cs.take (Lexeme.run Lexeme.isNamePart cs)) []
        (cs.drop (Lexeme.run Lexeme.isNamePart cs)) (tokens ++
          [committed before (c :: cs.take (Lexeme.run Lexeme.isNamePart cs))
            ((Keyword.kind? (String.ofList (c :: cs.take (Lexeme.run Lexeme.isNamePart cs)))).getD
              .identifier)])) := by
  rw [word, next_between, pure_bind, List.headD_cons, require_of hc, pure_bind,
    bumpWhile_cons isNamePart_zero (Lexeme.isNamePart_of_isNameStart hc), pure_bind,
    currentText_between, pure_bind, List.nil_append, commit_between]

theorem string_between :
    (between before [] ('"' :: cs) tokens).string =
      pure (between (before ++ '"' :: cs.take (Lexeme.stringRest cs)) []
        (cs.drop (Lexeme.stringRest cs))
        (tokens ++ [committed before ('"' :: cs.take (Lexeme.stringRest cs)) .string])) := by
  rw [string, next_between, pure_bind, List.headD_cons, require_of rfl, pure_bind, bump_between,
    pure_bind, ← bind_assoc, bumpString_between, pure_bind, commit_between]
  rfl

theorem sign_between :
    (between before [] (c :: cs) tokens).sign =
      pure (between (before ++ c :: cs.take (Lexeme.sign c cs).2) []
        (cs.drop (Lexeme.sign c cs).2) (tokens ++
          [committed before (c :: cs.take (Lexeme.sign c cs).2) (Lexeme.sign c cs).1])) := by
  have hone : (c :: cs).getD 1 '\x00' = cs.getD 0 '\x00' := by simp
  have htwo : (c :: cs).getD 2 '\x00' = cs.getD 1 '\x00' := by simp
  have hle : (Lexeme.sign c cs).2 + 1 ≤ (c :: cs).length :=
    Nat.succ_le_succ (Lexeme.sign_extent_le c cs)
  rw [sign, next_between, pure_bind, nth_between, pure_bind, nth_between, pure_bind, hone, htwo,
    List.headD_cons, sign_ahead]
  dsimp only
  rw [bumpTimes_between _ hle, pure_bind, commit_between]
  rfl

theorem number_between (hc : c.isDigit = true) :
    (between before [] (c :: cs) tokens).number =
      pure (between (before ++ c :: cs.take (Lexeme.numberRest cs)) []
        (cs.drop (Lexeme.numberRest cs))
        (tokens ++ [committed before (c :: cs.take (Lexeme.numberRest cs)) .number])) := by
  rw [number, next_between, pure_bind, List.headD_cons, require_of hc, pure_bind,
    bumpWhile_cons isDigit_zero hc, pure_bind, next_between, pure_bind, nth_between, pure_bind,
    List.nil_append]
  split_ifs with h
  · obtain ⟨hpoint, hd⟩ := h
    rcases hafter : cs.drop (Lexeme.run Char.isDigit cs) with _ | ⟨e, _ | ⟨d, ds⟩⟩
    · simp [hafter] at hpoint
    · simp [hafter] at hd
    · obtain rfl : e = '.' := by simpa [hafter] using hpoint
      have hd : d.isDigit = true := by simpa [hafter] using hd
      have hdigits := @bumpWhile_cons before (c :: cs.take (Lexeme.run Char.isDigit cs) ++ ['.'])
        ds tokens d Char.isDigit isDigit_zero hd
      have htake : cs.take (Lexeme.numberRest cs) = cs.take (Lexeme.run Char.isDigit cs) ++
          '.' :: d :: ds.take (Lexeme.run Char.isDigit ds) := by
        rw [Lexeme.numberRest_of_point hafter hd, Nat.add_assoc, List.take_add, hafter,
          Nat.add_comm 2, List.take_succ_cons, List.take_succ_cons]
      have hdrop : cs.drop (Lexeme.numberRest cs) = ds.drop (Lexeme.run Char.isDigit ds) := by
        rw [Lexeme.numberRest_of_point hafter hd, Nat.add_assoc, ← List.drop_drop, hafter,
          Nat.add_comm 2, List.drop_succ_cons, List.drop_succ_cons]
      rw [bump_between, pure_bind, hdigits, pure_bind, commit_between, htake, hdrop]
      simp
  · have hwhole : ∀ d ds, cs.drop (Lexeme.run Char.isDigit cs) = '.' :: d :: ds →
        d.isDigit = false := by
      intro d ds hds
      rw [hds] at h
      exact Bool.eq_false_iff.mpr fun hd => h ⟨rfl, hd⟩
    rw [commit_between, Lexeme.numberRest_of_not hwhole]

/-- The next lexeme is passed over, and becomes a token. -/
theorem lexeme_between :
    (between before [] (c :: cs) tokens).lexeme c =
      pure (between (before ++ c :: cs.take (Lexeme.scan c cs).2) []
        (cs.drop (Lexeme.scan c cs).2)
        (tokens ++
          [committed before (c :: cs.take (Lexeme.scan c cs).2) (Lexeme.scan c cs).1])) := by
  unfold lexeme Lexeme.scan
  split_ifs with hcomment hstring hdigit hspace hname
  · subst hcomment
    exact comment_between
  · subst hstring
    exact string_between
  · exact number_between hdigit
  · exact space_between hspace
  · exact word_between hname
  · exact sign_between

theorem scan_between (n : Nat) {before rest : List Char} {tokens : List Token}
    (hn : rest.length ≤ n) : (between before [] rest tokens).scan =
      pure (between (before ++ rest) [] [] (tokens ++
        (Tokens.scanFrom (.start + .ofChars before) before.length rest).lexemes)) := by
  induction n generalizing before rest tokens with
  | zero =>
    obtain rfl := List.length_eq_zero_iff.mp (Nat.le_zero.mp hn)
    rw [scan, atEnd_between, Tokens.scanFrom]
    simp
  | succ n ih =>
    cases rest with
    | nil =>
      rw [scan, atEnd_between, Tokens.scanFrom]
      simp
    | cons c cs =>
      have hlexeme : before ++ c :: cs = (before ++ c :: cs.take (Lexeme.scan c cs).2) ++
          cs.drop (Lexeme.scan c cs).2 := by
        simp
      have hle : (cs.drop (Lexeme.scan c cs).2).length ≤ n := by
        simp only [List.length_drop, List.length_cons] at hn ⊢
        omega
      rw [scan, atEnd_between, if_neg (by simp), next_between, pure_bind, List.headD_cons,
        lexeme_between, pure_bind, ih hle, ← hlexeme, Tokens.scanFrom]
      simp [committed, Position.ofChars_append, Position.add_assoc]

end Scanner

open Scanner in
/-- A text is split into tokens without a breach. -/
theorem tokenize_eq (text : String) : tokenize text = pure (Tokens.ofText text).toList := by
  have hstart : Scanner.ofText text = between [] [] text.toList [] := rfl
  have hend : (Tokens.ofText text).endOfText = committed text.toList [] .eof := by
    rw [(Tokens.ofText_spec text).2.2, Tokens.endToken, Position.ofIndex, List.take_length]
    rfl
  have hscan := @scan_between text.toList.length [] text.toList [] (Nat.le_refl _)
  have htokens : (between text.toList [] [] ((Tokens.ofText text).lexemes)).commit .eof =
      pure (between text.toList [] [] (Tokens.ofText text).toList) := by
    rw [commit_between, Tokens.toList, hend, List.append_nil]
  have hcover : (between text.toList [] [] (Tokens.ofText text).lexemes).current =
      bytes (between text.toList [] [] (Tokens.ofText text).lexemes).source := by
    simp [between]
  have hcommitted : (between text.toList [] [] (Tokens.ofText text).lexemes).current =
      (between text.toList [] [] (Tokens.ofText text).lexemes).last := by
    simp [between]
  have heof : (between text.toList [] [] (Tokens.ofText text).toList).tokens.getLast?.map
      (·.kind) = some .eof := by
    simp [between, Tokens.toList, hend, committed]
  rw [tokenize, hstart, hscan, pure_bind]
  change (between text.toList [] [] (Tokens.ofText text).lexemes).finish = _
  rw [finish, require_of hcommitted, pure_bind, require_of hcover, pure_bind, htokens, pure_bind,
    require_of heof, pure_bind]
  rfl

end PvsIndex.Checked
