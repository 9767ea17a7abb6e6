import Mathlib.Data.List.Basic
import Mathlib.Data.Nat.Init
import PvsIndex.Proofs.Source.Positions
import PvsIndex.Token.Lexer

/-! The tokens of a text: they cover it from end to end, each at its place. -/

namespace PvsIndex

namespace TokenKind

def isWord : TokenKind → Bool
  | identifier | allKw | andKw | beginKw | elseKw | elsifKw | endKw | endifKw | existsKw
  | exportingKw | falseKw | forallKw | formulaKw | fromKw | ifKw | iffKw | impliesKw
  | importingKw | inKw | lambdaKw | letKw | nonemptyTypeKw | notKw | orKw | thenKw | theoryKw
  | trueKw | typeKw | varKw => true
  | _ => false

end TokenKind

theorem Keyword.kind?_spec {word : String} {kind : TokenKind} (h : kind? word = some kind) :
    kind.isWord = true ∧ kind ≠ .identifier := by
  have hwords : ∀ e ∈ words, e.2.isWord = true ∧ e.2 ≠ .identifier := by decide
  unfold kind? at h
  dsimp only at h
  split at h
  · rename_i k hk
    obtain rfl := Option.some.inj h
    obtain ⟨l, m, hl, -⟩ := List.lookup_eq_some_iff.mp hk
    exact hwords _ (hl ▸ List.mem_append_right _ List.mem_cons_self)
  · split_ifs at h
    obtain rfl := Option.some.inj h
    decide

namespace Lexeme

theorem sign_spec (c : Char) (cs : List Char) :
    (sign c cs).1.isWord = false ∧ (sign c cs).1 ≠ .eof := by
  unfold sign
  split <;> decide

theorem scan_cases (c : Char) (cs : List Char) :
    ((scan c cs).1.isWord = false ∧ (scan c cs).1 ≠ .eof) ∨
      (isNameStart c = true ∧ scan c cs = ((Keyword.kind? (String.ofList
        (c :: cs.take (run isNamePart cs)))).getD .identifier, run isNamePart cs)) := by
  unfold scan
  split_ifs with _ _ _ _ hc
  · exact Or.inl ⟨rfl, nofun⟩
  · exact Or.inl ⟨rfl, nofun⟩
  · exact Or.inl ⟨rfl, nofun⟩
  · exact Or.inl ⟨rfl, nofun⟩
  · exact Or.inr ⟨hc, rfl⟩
  · exact Or.inl (sign_spec c cs)

/-- A word goes on as far as it can, and a name is no keyword. -/
theorem scan_word {c : Char} {cs : List Char} (h : (scan c cs).1.isWord = true) :
    isNameStart c = true ∧ (scan c cs).2 = run isNamePart cs ∧ ((scan c cs).1 = .identifier →
      Keyword.kind? (String.ofList (c :: cs.take (scan c cs).2)) = none) := by
  rcases scan_cases c cs with ⟨hw, -⟩ | ⟨hc, hs⟩
  · rw [hw] at h
    cases h
  · rw [hs]
    refine ⟨hc, rfl, fun hk => ?_⟩
    cases hw : Keyword.kind? (String.ofList (c :: cs.take (run isNamePart cs))) with
    | none => rfl
    | some kind =>
      rw [hw] at hk
      exact absurd hk (Keyword.kind?_spec hw).2

theorem scan_ne_eof (c : Char) (cs : List Char) : (scan c cs).1 ≠ .eof := by
  rcases scan_cases c cs with ⟨-, he⟩ | ⟨hc, hs⟩
  · exact he
  · rw [hs]
    intro he
    cases hw : Keyword.kind? (String.ofList (c :: cs.take (run isNamePart cs))) with
    | none =>
      rw [hw] at he
      cases he
    | some kind =>
      rw [hw] at he
      obtain rfl : kind = .eof := he
      cases (Keyword.kind?_spec hw).1

theorem isNamePart_of_isNameStart {c : Char} (h : isNameStart c = true) : isNamePart c = true := by
  simp [isNamePart, Text.isAlphanumeric_of_isAlphabetic h]

theorem not_of_mem_run {p : Char → Bool} {cs : List Char} {c : Char}
    (h : cs[run p cs]? = some c) : p c = false := by
  induction cs with
  | nil => simp at h
  | cons d cs ih =>
    cases hd : p d with
    | true => exact ih (by simpa [run, hd] using h)
    | false =>
      obtain rfl : d = c := by simpa [run, hd] using h
      exact hd

end Lexeme

namespace Token

/-- The token is what stands at its place in the source, and more does not belong to it. -/
structure Fits (source : List Char) (t : Token) : Prop where
  kind_ne : t.kind ≠ .eof
  length_pos : 0 < t.length
  text : t.text.toList = (source.drop t.startIndex).take t.length
  stop_le : t.startIndex + t.length ≤ source.length
  range : t.range = ⟨.ofIndex source t.startIndex, .ofIndex source (t.startIndex + t.length)⟩
  /-- Words begin with a letter and end where a word ends. -/
  word_start : t.kind.isWord = true → ∀ c, source[t.startIndex]? = some c →
    Lexeme.isNamePart c = true
  word_stop : t.kind.isWord = true → ∀ c, source[t.startIndex + t.length]? = some c →
    Lexeme.isNamePart c = false
  name : t.kind = .identifier → Keyword.kind? t.text = none

theorem Fits.text_ne {source : List Char} {t : Token} (h : t.Fits source) : t.text ≠ "" := by
  intro ht
  have hpos := h.length_pos
  rw [length, ht] at hpos
  exact absurd hpos (by decide)

/-- One token after another, with or without something between them. -/
def Before (t u : Token) : Prop :=
  t.startIndex + t.length ≤ u.startIndex

end Token

namespace Tokens

variable {source : List Char}

def endToken (source : List Char) : Token :=
  ⟨.eof, "", ⟨.ofIndex source source.length, .ofIndex source source.length⟩, source.length⟩

def tokenAt (source : List Char) (i : Nat) (c : Char) (cs : List Char) : Token :=
  let lexeme := c :: cs.take (Lexeme.scan c cs).2
  ⟨(Lexeme.scan c cs).1, String.ofList lexeme,
    ⟨.ofIndex source i, .ofIndex source i + .ofChars lexeme⟩, i⟩

variable {i : Nat} {c : Char} {cs : List Char}

theorem length_tokenAt (source : List Char) (i : Nat) (c : Char) (cs : List Char) :
    (tokenAt source i c cs).length = (c :: cs.take (Lexeme.scan c cs).2).length := by
  simp [tokenAt, Token.length]

theorem drop_tokenAt (h : source.drop i = c :: cs) :
    source.drop (i + (tokenAt source i c cs).length) = cs.drop (Lexeme.scan c cs).2 := by
  rw [length_tokenAt, ← List.drop_drop, h, List.length_cons, List.drop_succ_cons,
    List.length_take]
  exact List.drop_eq_drop_min.symm

theorem take_tokenAt (h : source.drop i = c :: cs) :
    (source.drop i).take (tokenAt source i c cs).length = c :: cs.take (Lexeme.scan c cs).2 := by
  rw [length_tokenAt, h, List.length_cons, List.take_succ_cons, List.length_take, ← List.take_take,
    List.take_length]

theorem stop_tokenAt (h : source.drop i = c :: cs) :
    i + (tokenAt source i c cs).length ≤ source.length := by
  have hlen := congrArg List.length h
  rw [length_tokenAt]
  simp only [List.length_drop, List.length_cons, List.length_take] at hlen ⊢
  omega

theorem tokenAt_fits (h : source.drop i = c :: cs) : (tokenAt source i c cs).Fits source where
  kind_ne := Lexeme.scan_ne_eof c cs
  length_pos := by simp [length_tokenAt]
  text := (String.toList_ofList).trans (take_tokenAt h).symm
  stop_le := stop_tokenAt h
  range := by
    rw [show (tokenAt source i c cs).startIndex = i from rfl, Position.ofIndex_add, take_tokenAt h]
    rfl
  word_start hw d hd := by
    have hc : source[i]? = some c := by
      rw [← List.head?_drop, h, List.head?_cons]
    obtain rfl : c = d := Option.some.inj (hc.symm.trans hd)
    exact Lexeme.isNamePart_of_isNameStart (Lexeme.scan_word hw).1
  word_stop hw d hd := by
    obtain ⟨-, hs, -⟩ := Lexeme.scan_word hw
    have hd : (source.drop (i + (tokenAt source i c cs).length)).head? = some d := by
      rw [List.head?_drop]
      exact hd
    rw [drop_tokenAt h, hs, List.head?_drop] at hd
    exact Lexeme.not_of_mem_run hd
  name hk := by
    have hword : (Lexeme.scan c cs).1.isWord = true := by
      rw [show (Lexeme.scan c cs).1 = .identifier from hk]
      rfl
    exact (Lexeme.scan_word hword).2.2 hk

theorem scanFrom_cons (h : source.drop i = c :: cs) :
    scanFrom (.ofIndex source i) i (source.drop i) =
      let j := i + (tokenAt source i c cs).length
      let rest := scanFrom (.ofIndex source j) j (source.drop j)
      { rest with lexemes := tokenAt source i c cs :: rest.lexemes } := by
  have hstop : .ofIndex source i + .ofChars (c :: cs.take (Lexeme.scan c cs).2) =
      Position.ofIndex source (i + (tokenAt source i c cs).length) := by
    rw [Position.ofIndex_add, take_tokenAt h]
  rw [h, scanFrom]
  dsimp only
  rw [drop_tokenAt h, ← hstop, length_tokenAt]
  rfl

/-- The tokens from some index on. -/
theorem scanFrom_spec (n : Nat) {i : Nat} (hi : i + n = source.length) :
    let ts := scanFrom (.ofIndex source i) i (source.drop i)
    (∀ t ∈ ts.lexemes, t.Fits source ∧ i ≤ t.startIndex) ∧ ts.lexemes.Pairwise Token.Before ∧
      ts.endOfText = endToken source := by
  induction n using Nat.strong_induction_on generalizing i with
  | _ n ih =>
  cases h : source.drop i with
  | nil =>
    obtain rfl : i = source.length := by
      have := List.drop_eq_nil_iff.mp h
      omega
    rw [scanFrom]
    exact ⟨List.forall_mem_nil _, .nil, rfl⟩
  | cons c cs =>
    rw [← h, scanFrom_cons h]
    have hpos := (tokenAt_fits h).length_pos
    have hle := stop_tokenAt h
    obtain ⟨hfits, hbefore, hend⟩ := ih (source.length - (i + (tokenAt source i c cs).length))
      (by omega) (i := i + (tokenAt source i c cs).length) (by omega)
    refine ⟨?_, List.pairwise_cons.mpr ⟨fun t ht => (hfits t ht).2, hbefore⟩, hend⟩
    intro t ht
    rcases List.mem_cons.mp ht with rfl | ht
    · exact ⟨tokenAt_fits h, Nat.le_refl i⟩
    · exact ⟨(hfits t ht).1, by have := (hfits t ht).2; omega⟩

theorem ofText_spec (text : String) :
    (∀ t ∈ (ofText text).lexemes, t.Fits text.toList) ∧
      (ofText text).lexemes.Pairwise Token.Before ∧
      (ofText text).endOfText = endToken text.toList := by
  obtain ⟨hfits, hbefore, hend⟩ := @scanFrom_spec text.toList _ 0 (Nat.zero_add _)
  exact ⟨fun t ht => (hfits t ht).1, hbefore, hend⟩

theorem fits_of_mem_significant {text : String} {t : Token} (h : t ∈ (ofText text).significant) :
    t.Fits text.toList :=
  (ofText_spec text).1 t (List.mem_of_mem_filter h)

end Tokens

end PvsIndex
