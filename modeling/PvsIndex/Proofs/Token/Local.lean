import PvsIndex.Proofs.Token.Append
import PvsIndex.Proofs.Token.Exact

/-! Where one token ends and the next begins is settled by these two alone: what lies before them
or after them can be taken away. This holds of any classes of characters. -/

namespace PvsIndex

namespace Lexeme

theorem run_take {p : Char → Bool} {cs : List Char} {m : Nat} (h : run p cs ≤ m) :
    run p (cs.take m) = run p cs := by
  induction cs generalizing m with
  | nil => rw [List.take_nil]
  | cons c cs ih =>
    unfold run at ih h ⊢
    cases hc : p c with
    | true =>
      rw [List.takeWhile_cons_of_pos hc, List.length_cons] at h
      obtain ⟨m, rfl⟩ := Nat.exists_eq_add_of_lt h
      rw [List.take_succ_cons, List.takeWhile_cons_of_pos hc, List.takeWhile_cons_of_pos hc,
        List.length_cons, List.length_cons, ih (by omega)]
    | false =>
      cases m with
      | zero => simp [hc]
      | succ m => simp [hc]

theorem stringRest_take {cs : List Char} {m : Nat} (h : stringRest cs ≤ m) :
    stringRest (cs.take m) = stringRest cs := by
  induction cs using stringRest.induct generalizing m with
  | case1 => rw [List.take_nil]
  | case2 cs =>
    obtain ⟨m, rfl⟩ := Nat.exists_eq_add_of_le' h
    rfl
  | case3 d cs ih =>
    rw [stringRest] at h
    obtain ⟨m, rfl⟩ := Nat.exists_eq_add_of_le' (Nat.le_of_add_left_le h)
    rw [List.take_succ_cons, List.take_succ_cons, stringRest, stringRest, ih (by omega)]
  | case4 d cs hquote hback ih =>
    have hcons : stringRest (d :: cs) = stringRest cs + 1 := by
      rw [stringRest]
      · exact hquote
      · exact hback
    rw [hcons] at h ⊢
    obtain ⟨m, rfl⟩ := Nat.exists_eq_add_of_le' (Nat.le_of_add_left_le h)
    rw [List.take_succ_cons, stringRest, ih (by omega)]
    · exact hquote
    · intro e es hd hes
      cases cs with
      | nil => simp at hes
      | cons x xs => exact hback x xs hd rfl

theorem numberRest_take {cs : List Char} {m : Nat} (h : numberRest cs ≤ m) :
    numberRest (cs.take m) = numberRest cs := by
  rcases numberRest_cases cs with ⟨d, ds, hds, hd⟩ | hnot
  · rw [numberRest_of_point hds hd] at h ⊢
    have hrun : run Char.isDigit (cs.take m) = run Char.isDigit cs := run_take (by omega)
    have hdrop : (cs.take m).drop (run Char.isDigit (cs.take m)) =
        '.' :: d :: ds.take (m - run Char.isDigit cs - 2) := by
      obtain ⟨n, hn⟩ : ∃ n, m - run Char.isDigit cs = n + 2 :=
        ⟨m - run Char.isDigit cs - 2, by omega⟩
      rw [hrun, List.drop_take, hds, hn, List.take_succ_cons, List.take_succ_cons,
        Nat.add_sub_cancel]
    rw [numberRest_of_point hdrop hd, hrun, run_take (by omega)]
  · rw [numberRest_of_not hnot] at h ⊢
    have hrun := run_take h
    rw [numberRest_of_not, hrun]
    intro d ds hds
    rw [hrun, List.drop_take] at hds
    have hprefix : '.' :: d :: ds <+: cs.drop (run Char.isDigit cs) := hds ▸ List.take_prefix _ _
    obtain ⟨es, hes⟩ := hprefix
    exact hnot d (ds ++ es) hes.symm

theorem sign_nil_of_extent {c : Char} {cs : List Char} (h : (sign c cs).2 = 0) :
    sign c [] = sign c cs := by
  unfold sign at h ⊢
  split at h <;> simp_all

theorem sign_singleton_of_extent {c d : Char} {cs : List Char} (h : (sign c (d :: cs)).2 ≤ 1) :
    sign c [d] = sign c (d :: cs) := by
  unfold sign at h ⊢
  split at h <;> simp_all

theorem sign_take {c : Char} {cs : List Char} {m : Nat} (h : (sign c cs).2 ≤ m) :
    sign c (cs.take m) = sign c cs := by
  -- a sign looks at two characters ahead, so only the shortest cuts can matter
  rcases m with _ | _ | m
  · exact sign_nil_of_extent (Nat.le_zero.mp h)
  · cases cs with
    | nil => rfl
    | cons d cs => exact sign_singleton_of_extent h
  · rcases cs with _ | ⟨d, _ | ⟨e, cs⟩⟩
    · rfl
    · rfl
    · rw [List.take_succ_cons, List.take_succ_cons, sign_cons_cons, sign_cons_cons c d e cs]

end Lexeme

/-- The characters that blanks and words are made of. No character is both a blank and a letter,
and the end of a text is neither. -/
structure Classes where
  isWhitespace : Char → Bool
  isAlphabetic : Char → Bool
  isAlphanumeric : Char → Bool
  isAlphanumeric_of_isAlphabetic : ∀ c, isAlphabetic c = true → isAlphanumeric c = true
  not_isWhitespace_of_isAlphabetic : ∀ c, isAlphabetic c = true → isWhitespace c = false

theorem Text.not_isWhitespace_of_isAlphabetic (c : Char) (h : isAlphabetic c = true) :
    isWhitespace c = false := by
  have hletters : ∀ r ∈ whitespaceRanges, r.2 < 65 ∨ 122 < r.1 := by decide
  have hapart : ∀ r ∈ whitespaceRanges, ∀ s ∈ alphabeticRanges, r.2 < s.1 ∨ s.2 < r.1 := by
    decide +kernel
  refine Bool.eq_false_iff.mpr fun hspace => ?_
  obtain ⟨r, hr, hl, hu⟩ := inRanges_iff.mp hspace
  rcases Bool.or_eq_true_iff.mp h with h | h
  · have hbounds : 65 ≤ c.toNat ∧ c.toNat ≤ 122 := by
      rcases Bool.or_eq_true_iff.mp h with h | h
      · obtain ⟨hlow, hhigh⟩ := of_decide_eq_true h
        have hhigh : c.toNat ≤ 90 := UInt32.le_iff_toNat_le.mp hhigh
        exact ⟨UInt32.le_iff_toNat_le.mp hlow, by omega⟩
      · obtain ⟨hlow, hhigh⟩ := Bool.and_eq_true_iff.mp h
        have hlow : 97 ≤ c.toNat := UInt32.le_iff_toNat_le.mp (of_decide_eq_true hlow)
        exact ⟨by omega, UInt32.le_iff_toNat_le.mp (of_decide_eq_true hhigh)⟩
    have := hletters r hr
    omega
  · obtain ⟨-, h⟩ := Bool.and_eq_true_iff.mp h
    obtain ⟨s, hs, hl', hu'⟩ := inRanges_iff.mp h
    have := hapart r hr s hs
    omega

def Token.content (t : Token) : TokenKind × List Char :=
  (t.kind, t.text.toList)

/-- The tokens of a text that is cut into lexemes, from some place on. -/
def Tokens.place (position : Position) (index : Nat) : List (TokenKind × List Char) → Tokens
  | [] => ⟨[], ⟨.eof, "", ⟨position, position⟩, index⟩⟩
  | (kind, lexeme) :: lexemes =>
    let stop := position + .ofChars lexeme
    let rest := place stop (index + lexeme.length) lexemes
    { rest with lexemes := ⟨kind, String.ofList lexeme, ⟨position, stop⟩, index⟩ :: rest.lexemes }

namespace Classes

def unicode : Classes where
  isWhitespace := Text.isWhitespace
  isAlphabetic := Text.isAlphabetic
  isAlphanumeric := Text.isAlphanumeric
  isAlphanumeric_of_isAlphabetic _ := Text.isAlphanumeric_of_isAlphabetic
  not_isWhitespace_of_isAlphabetic := Text.not_isWhitespace_of_isAlphabetic

variable (k : Classes)

def isNamePart (c : Char) : Bool :=
  k.isAlphanumeric c || c = '_' || c = '?'

/-- The lexeme that begins with `c`: its kind, and how many characters of `cs` belong to it. -/
def scan (c : Char) (cs : List Char) : TokenKind × Nat :=
  if c = '%' then (.comment, Lexeme.run (!Lexeme.isLineEnd ·) cs)
  else if c = '"' then (.string, Lexeme.stringRest cs)
  else if c.isDigit then (.number, Lexeme.numberRest cs)
  else if k.isWhitespace c then (.space, Lexeme.run k.isWhitespace cs)
  else if k.isAlphabetic c then
    let extent := Lexeme.run k.isNamePart cs
    ((Keyword.kind? (String.ofList (c :: cs.take extent))).getD .identifier, extent)
  else Lexeme.sign c cs

/-- The lexemes of a text from left to right. -/
def cut : List Char → List (TokenKind × List Char)
  | [] => []
  | c :: cs =>
    let (kind, extent) := k.scan c cs
    (kind, c :: cs.take extent) :: cut (cs.drop extent)
termination_by cs => cs.length
decreasing_by simp only [List.length_drop, List.length_cons]; omega

def tokens (text : String) : Tokens :=
  .place .start 0 (k.cut text.toList)

theorem scan_unicode (c : Char) (cs : List Char) : unicode.scan c cs = Lexeme.scan c cs :=
  rfl

theorem cut_cons (c : Char) (cs : List Char) : k.cut (c :: cs) =
    ((k.scan c cs).1, c :: cs.take (k.scan c cs).2) :: k.cut (cs.drop (k.scan c cs).2) := by
  rw [cut]

/-- What is true of the empty text, and of a text if it is of the text after its first lexeme. -/
@[elab_as_elim]
theorem cut_induction {motive : List Char → Prop} (nil : motive [])
    (cons : ∀ c cs, motive (cs.drop (k.scan c cs).2) → motive (c :: cs)) (cs : List Char) :
    motive cs := by
  induction cs using cut.induct k with
  | case1 => exact nil
  | case2 c cs kind extent hscan ih =>
    refine cons c cs ?_
    rw [hscan]
    exact ih

theorem place_cut_unicode (position : Position) (index : Nat) (cs : List Char) :
    .place position index (unicode.cut cs) = Tokens.scanFrom position index cs := by
  induction cs using Tokens.lexeme_induction generalizing position index with
  | nil =>
    rw [cut, Tokens.scanFrom]
    rfl
  | cons c cs ih =>
    rw [cut_cons, Tokens.scanFrom_lexeme, scan_unicode, Tokens.place]
    dsimp only
    rw [ih]

theorem tokens_unicode (text : String) : unicode.tokens text = Tokens.ofText text :=
  place_cut_unicode _ _ _

/-- A lexeme is not changed by cutting off what does not belong to it. -/
theorem scan_take {c : Char} {cs : List Char} {m : Nat} (h : (k.scan c cs).2 ≤ m) :
    k.scan c (cs.take m) = k.scan c cs := by
  unfold scan at h ⊢
  split_ifs at h ⊢
  · rw [Lexeme.run_take h]
  · rw [Lexeme.stringRest_take h]
  · rw [Lexeme.numberRest_take h]
  · rw [Lexeme.run_take h]
  · dsimp only at h ⊢
    rw [Lexeme.run_take h, List.take_take, Nat.min_eq_left h]
  · exact Lexeme.sign_take h

theorem flatMap_cut (cs : List Char) : (k.cut cs).flatMap (·.2) = cs := by
  induction cs using k.cut_induction with
  | nil =>
    rw [cut]
    rfl
  | cons c cs ih =>
    rw [cut_cons, List.flatMap_cons, ih, List.cons_append, List.take_append_drop]

/-- A lexeme is the first one of itself and a part of what follows it. -/
theorem cut_append {c : Char} {cs rest : List Char} (h : rest <+: cs.drop (k.scan c cs).2) :
    k.cut (c :: cs.take (k.scan c cs).2 ++ rest) =
      ((k.scan c cs).1, c :: cs.take (k.scan c cs).2) :: k.cut rest := by
  have hrest := (List.prefix_iff_eq_take.mp h).symm
  have hle : (k.scan c cs).2 ≤ (k.scan c cs).2 + rest.length := Nat.le_add_right _ _
  have hfront : cs.take (k.scan c cs).2 ++ rest = cs.take ((k.scan c cs).2 + rest.length) := by
    rw [List.take_add, hrest]
  rw [List.cons_append, hfront, cut_cons, k.scan_take hle, List.take_take, Nat.min_eq_left hle,
    List.drop_take, Nat.add_sub_cancel_left, hrest]

theorem cut_take (cs : List Char) (i : Nat) :
    k.cut (((k.cut cs).take i).flatMap (·.2)) = (k.cut cs).take i := by
  induction cs using k.cut_induction generalizing i with
  | nil => rw [cut, List.take_nil, List.flatMap_nil, cut]
  | cons c cs ih =>
    cases i with
    | zero => rw [List.take_zero, List.flatMap_nil, cut]
    | succ i =>
      have hrest : ((k.cut (cs.drop (k.scan c cs).2)).take i).flatMap (·.2) <+:
          cs.drop (k.scan c cs).2 := by
        have hprefix := (List.take_prefix i (k.cut (cs.drop (k.scan c cs).2))).flatMap (·.2)
        rwa [flatMap_cut] at hprefix
      rw [cut_cons, List.take_succ_cons, List.flatMap_cons, k.cut_append hrest, ih]

theorem cut_drop (cs : List Char) (i : Nat) :
    k.cut (((k.cut cs).drop i).flatMap (·.2)) = (k.cut cs).drop i := by
  induction cs using k.cut_induction generalizing i with
  | nil => rw [cut, List.drop_nil, List.flatMap_nil, cut]
  | cons c cs ih =>
    cases i with
    | zero => rw [List.drop_zero, flatMap_cut]
    | succ i => rw [cut_cons, List.drop_succ_cons, ih]

theorem cut_of_mem {cs : List Char} {lexeme : TokenKind × List Char} (h : lexeme ∈ k.cut cs) :
    k.cut lexeme.2 = [lexeme] := by
  obtain ⟨before, after, hsplit⟩ := List.append_of_mem h
  have hdrop := k.cut_drop cs before.length
  rw [hsplit, List.drop_left] at hdrop
  have htake := k.cut_take ((lexeme :: after).flatMap (·.2)) 1
  rw [hdrop] at htake
  simpa using htake

end Classes

namespace Tokens

variable (position : Position) (index : Nat) (lexemes : List (TokenKind × List Char))

theorem content_place : (place position index lexemes).lexemes.map Token.content = lexemes := by
  induction lexemes generalizing position index with
  | nil => rfl
  | cons lexeme lexemes ih =>
    rw [place, List.map_cons, ih, Token.content, String.toList_ofList]

theorem lexemes_place_take (i : Nat) :
    (place position index (lexemes.take i)).lexemes =
      (place position index lexemes).lexemes.take i := by
  induction lexemes generalizing position index i with
  | nil => rw [List.take_nil, place, List.take_nil]
  | cons lexeme lexemes ih =>
    cases i with
    | zero => rfl
    | succ i => rw [List.take_succ_cons, place, place, List.take_succ_cons, ih]

theorem endOfText_place : (place position index lexemes).endOfText =
    let stop := position + .ofChars (lexemes.flatMap (·.2))
    ⟨.eof, "", ⟨stop, stop⟩, index + (lexemes.flatMap (·.2)).length⟩ := by
  induction lexemes generalizing position index with
  | nil => rfl
  | cons lexeme lexemes ih =>
    rw [place]
    dsimp only
    rw [ih, Position.add_assoc, ← Position.ofChars_append, List.flatMap_cons, List.length_append,
      Nat.add_assoc]

end Tokens

namespace Classes

open Token

variable (k : Classes) (text : String)

theorem content_tokens : (k.tokens text).lexemes.map content = k.cut text.toList :=
  Tokens.content_place _ _ _

theorem endOfText_tokens : (k.tokens text).endOfText = Tokens.endToken text.toList := by
  rw [tokens, Tokens.endOfText_place, flatMap_cut, Nat.zero_add, Tokens.endToken, Position.ofIndex,
    List.take_length]

theorem toList_joined (ts : List Token) :
    (joined ts).toList = (ts.map content).flatMap (·.2) := by
  rw [Token.toList_joined, List.flatMap_map]
  rfl

theorem tokens_take (i : Nat) : let ts := (k.tokens text).lexemes.take i
    k.tokens (joined ts) = ⟨ts, Tokens.endToken (joined ts).toList⟩ := by
  intro ts
  have hcut : k.cut (joined ts).toList = (k.cut text.toList).take i := by
    rw [toList_joined, List.map_take, content_tokens, cut_take]
  have hlexemes : (k.tokens (joined ts)).lexemes = ts := by
    rw [tokens, hcut, Tokens.lexemes_place_take]
    rfl
  have hend := k.endOfText_tokens (joined ts)
  cases htokens : k.tokens (joined ts)
  rw [htokens] at hlexemes hend
  exact congrArg₂ Tokens.mk hlexemes hend

theorem content_tokens_drop (i : Nat) : let ts := (k.tokens text).lexemes.drop i
    (k.tokens (joined ts)).lexemes.map content = ts.map content := by
  intro ts
  rw [content_tokens, toList_joined, List.map_drop, content_tokens, cut_drop]

theorem content_toList : (k.tokens text).toList.map content =
    (k.tokens text).lexemes.map content ++ [(.eof, [])] := by
  rw [Tokens.toList, List.map_append, endOfText_tokens]
  rfl

variable {text}

theorem content_tokens_of_mem {t : Token} (h : t ∈ (k.tokens text).lexemes) :
    (k.tokens t.text).lexemes.map content = [t.content] := by
  have hmem : t.content ∈ k.cut text.toList := k.content_tokens text ▸ List.mem_map_of_mem h
  rw [content_tokens]
  exact k.cut_of_mem hmem

end Classes

/-- Texts are split with the classes of Unicode. Whatever the classes, the tokens before a boundary
are the tokens of what they show, those after it are the same but for their places, and each token
is the only one of its own text. -/
theorem Checked.tokenize_local :
    (∀ text, tokenize text = pure (Classes.unicode.tokens text).toList) ∧
      ∀ (k : Classes) (text : String) (i : Nat),
        let ts := (k.tokens text).lexemes
        (k.tokens (Token.joined (ts.take i))).toList =
            ts.take i ++ [Tokens.endToken (Token.joined (ts.take i)).toList] ∧
          (k.tokens (Token.joined (ts.drop i))).toList.map Token.content =
            (ts.drop i).map Token.content ++ [(.eof, [])] ∧
          ∀ t ∈ ts, (k.tokens t.text).toList.map Token.content = [t.content, (.eof, [])] := by
  constructor
  · intro text
    rw [tokenize_eq, Classes.tokens_unicode]
  · intro k text i ts
    refine ⟨?_, ?_, fun t ht => ?_⟩
    · rw [k.tokens_take text i]
      rfl
    · rw [Classes.content_toList, k.content_tokens_drop text i]
    · rw [Classes.content_toList, k.content_tokens_of_mem ht]
      rfl

end PvsIndex
