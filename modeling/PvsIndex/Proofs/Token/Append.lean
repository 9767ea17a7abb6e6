import PvsIndex.Proofs.Token.Lexeme
import PvsIndex.Proofs.Token.Scan

/-! The tokens of two texts with a line feed between them. -/

namespace PvsIndex

namespace Position

def shift (n : Nat) (p : Position) : Position :=
  ⟨p.line + n, p.character⟩

theorem shift_add (n : Nat) (p d : Position) : (p + d).shift n = p.shift n + d := by
  ext
  · exact Nat.add_right_comm _ _ _
  · rfl

theorem start_add_ofChars (cs : List Char) :
    start + ofChars (cs ++ ['\n']) = start.shift (cs.count '\n' + 1) := by
  have hbreak : ofChars ['\n'] = ⟨1, 0⟩ := rfl
  rw [ofChars_append, hbreak]
  ext
  · rw [add_line, add_line, ofChars_line]
    rfl
  · rfl

end Position

def Range.shift (n : Nat) (r : Range) : Range :=
  ⟨r.start.shift n, r.stop.shift n⟩

namespace Token

def move (n k : Nat) (t : Token) : Token :=
  { t with range := t.range.shift n, startIndex := t.startIndex + k }

@[simp] theorem move_kind (n k : Nat) (t : Token) : (t.move n k).kind = t.kind := rfl

end Token

namespace Tokens

variable {position : Position} {index : Nat}

def move (n k : Nat) (ts : Tokens) : Tokens :=
  ⟨ts.lexemes.map (Token.move n k), ts.endOfText.move n k⟩

theorem significant_move (n k : Nat) (ts : Tokens) :
    (ts.move n k).significant = ts.significant.map (Token.move n k) :=
  List.filter_map

theorem scanFrom_lexeme (position : Position) (index : Nat) (c : Char) (cs : List Char) :
    scanFrom position index (c :: cs) =
      let lexeme := c :: cs.take (Lexeme.scan c cs).2
      let rest := scanFrom (position + .ofChars lexeme) (index + lexeme.length)
        (cs.drop (Lexeme.scan c cs).2)
      ⟨⟨(Lexeme.scan c cs).1, String.ofList lexeme, ⟨position, position + .ofChars lexeme⟩,
        index⟩ ::
        rest.lexemes, rest.endOfText⟩ := by
  rw [scanFrom]

/-- What is true of the empty text, and of a text if it is of the text after its first lexeme. -/
@[elab_as_elim]
theorem lexeme_induction {motive : List Char → Prop} (nil : motive [])
    (cons : ∀ c cs, motive (cs.drop (Lexeme.scan c cs).2) → motive (c :: cs)) (cs : List Char) :
    motive cs := by
  induction hn : cs.length using Nat.strong_induction_on generalizing cs with
  | _ n ih =>
  subst hn
  cases cs with
  | nil => exact nil
  | cons c cs =>
    exact cons c cs (ih _ (by simp only [List.length_drop, List.length_cons]; omega) _ rfl)

theorem scanFrom_shift (n k : Nat) (position : Position) (index : Nat) (cs : List Char) :
    scanFrom (position.shift n) (index + k) cs = (scanFrom position index cs).move n k := by
  induction cs using lexeme_induction generalizing position index with
  | nil =>
    rw [scanFrom, scanFrom]
    rfl
  | cons c cs ih =>
    rw [scanFrom_lexeme, scanFrom_lexeme]
    dsimp only
    rw [← Position.shift_add, Nat.add_right_comm, ih]
    rfl

theorem endOfText_scanFrom (position : Position) (index : Nat) (cs : List Char) :
    (scanFrom position index cs).endOfText =
      ⟨.eof, "", ⟨position + .ofChars cs, position + .ofChars cs⟩, index + cs.length⟩ := by
  induction cs using lexeme_induction generalizing position index with
  | nil =>
    rw [scanFrom]
    rfl
  | cons c cs ih =>
    have hsplit : c :: cs.take (Lexeme.scan c cs).2 ++ cs.drop (Lexeme.scan c cs).2 = c :: cs := by
      rw [List.cons_append, List.take_append_drop]
    have hlength := congrArg List.length hsplit
    rw [List.length_append] at hlength
    rw [scanFrom_lexeme]
    dsimp only
    rw [ih, Position.add_assoc, ← Position.ofChars_append, hsplit, Nat.add_assoc, hlength]

theorem significant_lexeme (position : Position) (index : Nat) (c : Char) (cs : List Char) :
    (scanFrom position index (c :: cs)).significant =
      let lexeme := c :: cs.take (Lexeme.scan c cs).2
      let rest := (scanFrom (position + .ofChars lexeme) (index + lexeme.length)
        (cs.drop (Lexeme.scan c cs).2)).significant
      if (Lexeme.scan c cs).1.isTrivia then rest
      else ⟨(Lexeme.scan c cs).1, String.ofList lexeme,
        ⟨position, position + .ofChars lexeme⟩, index⟩ :: rest := by
  rw [scanFrom_lexeme]
  dsimp only [significant]
  rw [List.filter_cons]
  dsimp only
  cases (Lexeme.scan c cs).1.isTrivia <;> rfl

theorem significant_space {c : Char} (h : Text.isWhitespace c = true) (position : Position)
    (index : Nat) (cs : List Char) : (scanFrom position index (c :: cs)).significant =
      (scanFrom (position + .ofChars [c]) (index + 1) cs).significant := by
  have hfirst := significant_lexeme position index c cs
  rw [Lexeme.scan_whitespace h] at hfirst
  cases cs with
  | nil => exact hfirst
  | cons d ds =>
    cases hd : Text.isWhitespace d with
    | false => simpa [Lexeme.run, hd, TokenKind.isTrivia] using hfirst
    | true =>
      have hsecond := significant_lexeme (position + .ofChars [c]) (index + 1) d ds
      rw [Lexeme.scan_whitespace hd] at hsecond
      rw [hfirst, hsecond]
      simp only [Lexeme.run, hd, TokenKind.isTrivia, List.takeWhile_cons_of_pos, List.length_cons,
        List.take_succ_cons, List.drop_succ_cons, ↓reduceIte]
      rw [Position.add_assoc, ← Position.ofChars_append, List.singleton_append,
        Nat.add_right_comm index 1]
      rfl

/-- A line feed separates the tokens before it from those after it, unless it falls into a string
that is not closed. -/
theorem significant_append (position : Position) (index : Nat) (cs ds : List Char)
    (h : ∀ t ∈ (scanFrom position index cs).significant.getLast?, t.kind ≠ .string) :
    (scanFrom position index (cs ++ '\n' :: ds)).significant =
      (scanFrom position index cs).significant ++
        (scanFrom (position + .ofChars (cs ++ ['\n'])) (index + cs.length + 1) ds).significant := by
  induction hn : cs.length using Nat.strong_induction_on generalizing position index cs with
  | _ n ih =>
  subst hn
  cases cs with
  | nil =>
    have hspace : Text.isWhitespace '\n' = true := by decide
    rw [List.nil_append, significant_space hspace, scanFrom]
    rfl
  | cons c cs =>
    cases hspace : Text.isWhitespace c with
    | true =>
      rw [significant_space hspace] at h
      rw [List.cons_append, significant_space hspace, significant_space hspace,
        ih cs.length (Nat.lt_succ_self _) _ _ cs h rfl, Position.add_assoc,
        ← Position.ofChars_append, List.singleton_append, List.length_cons, List.cons_append]
      congr 4
      omega
    | false =>
      have hle := Lexeme.scan_extent_le c cs
      have hsplit :
          c :: cs.take (Lexeme.scan c cs).2 ++ cs.drop (Lexeme.scan c cs).2 = c :: cs := by
        rw [List.cons_append, List.take_append_drop]
      have hlength := congrArg List.length hsplit
      rw [List.length_append] at hlength
      have hscan : Lexeme.scan c (cs ++ '\n' :: ds) = Lexeme.scan c cs := by
        refine Lexeme.scan_append hspace (fun hk => ?_) ds
        by_contra hlt
        rw [significant_lexeme] at h
        dsimp only at h
        rw [hk, List.drop_of_length_le (Nat.le_of_not_lt hlt), scanFrom] at h
        exact h _ rfl rfl
      have hrest := ih (cs.drop (Lexeme.scan c cs).2).length
        (by simp only [List.length_drop, List.length_cons]; omega)
        (position + .ofChars (c :: cs.take (Lexeme.scan c cs).2))
        (index + (c :: cs.take (Lexeme.scan c cs).2).length) _ ?_ rfl
      · rw [Position.add_assoc, ← Position.ofChars_append, ← List.append_assoc, hsplit,
          Nat.add_assoc index, hlength] at hrest
        rw [List.cons_append, significant_lexeme, significant_lexeme position index c cs, hscan]
        dsimp only
        rw [List.take_append_of_le_length hle, List.drop_append_of_le_length hle, hrest]
        split_ifs
        · rfl
        · rfl
      · intro t ht
        rw [significant_lexeme] at h
        dsimp only at h
        split_ifs at h
        · exact h t ht
        · refine h t ?_
          rw [List.getLast?_cons, Option.mem_def.mp ht]
          rfl

/-- The tokens of the second text come after those of the first one, as many lines and characters
later as the first text has with the line feed after it. -/
theorem ofText_append (a b : String)
    (h : ∀ t ∈ (ofText a).significant.getLast?, t.kind ≠ .string) :
    let moved := (ofText b).move (a.toList.count '\n' + 1) (a.toList.length + 1)
    (ofText (a ++ "\n" ++ b)).significant = (ofText a).significant ++ moved.significant ∧
      (ofText (a ++ "\n" ++ b)).endOfText = moved.endOfText := by
  have htext : (a ++ "\n" ++ b).toList = a.toList ++ '\n' :: b.toList := by simp
  have hstart := Position.start_add_ofChars a.toList
  have hmoved : scanFrom (.start + .ofChars (a.toList ++ ['\n'])) (0 + a.toList.length + 1)
      b.toList = (ofText b).move (a.toList.count '\n' + 1) (a.toList.length + 1) := by
    rw [hstart, Nat.add_assoc, scanFrom_shift]
    rfl
  constructor
  · rw [ofText, htext, significant_append _ _ _ _ h, hmoved]
    rfl
  · rw [← hmoved, ofText, htext, endOfText_scanFrom, endOfText_scanFrom, Position.add_assoc,
      ← Position.ofChars_append]
    simp [Nat.add_assoc, Nat.add_comm 1]

end Tokens

end PvsIndex
