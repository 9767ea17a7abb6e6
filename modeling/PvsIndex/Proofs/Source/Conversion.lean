import Mathlib.Data.List.DropRight
import Mathlib.Data.Nat.PSub
import Mathlib.Data.Prod.Lex
import Mathlib.Order.Monotone.Defs
import PvsIndex.Proofs.Source.Units

/-! Positions and code units turn into each other and back. A column inside a pair is the only one
that does not come back. -/

namespace PvsIndex

namespace Utf16

/-- The pieces between the line feeds of a text, by their numbers; there is nothing past the last
one. -/
def pieceOf (row : Nat) (cs : List Char) : List Char :=
  (cs.splitOn '\n').getD row []

/-- The walk along a row up to a column, with what lies behind it in units and in characters. The
rest of the column is a difference that must not be negative. -/
def charactersFrom (column16 units character : Nat) : List Char → Option Nat
  | [] => (column16.psub units).map (character + ·)
  | c :: cs =>
    if column16 < units + Utf16.units c then some character
    else charactersFrom column16 (units + Utf16.units c) (character + 1) cs

/-- The walk along the characters of a row that are counted. So is the rest of the count. -/
def unitsFrom (character column16 count : Nat) : List Char → Option Nat
  | [] => (character.psub count).map (column16 + ·)
  | c :: cs => unitsFrom character (column16 + units c) (count + 1) cs

/-- The column falls between the two units of a character. -/
def InPair (cs : List Char) (column16 : Nat) : Prop :=
  ∃ before c after, cs = before ++ c :: after ∧ units c = 2 ∧ column16 = length before + 1

variable {c : Char} {cs : List Char} {n : Nat}

theorem rowOf_zero (cs : List Char) : rowOf 0 cs = cs.takeWhile (· ≠ '\n') := by
  cases cs with
  | nil => rfl
  | cons c cs => rfl

theorem rowOf_eq_pieceOf (row : Nat) (cs : List Char) : rowOf row cs = pieceOf row cs := by
  unfold pieceOf
  induction cs generalizing row with
  | nil => cases row <;> rfl
  | cons c cs ih =>
    have hpieces := List.splitOn_ne_nil '\n' cs
    rw [List.splitOn_cons_eq_if_modifyHead]
    by_cases hc : c = '\n'
    · subst hc
      rw [if_pos (beq_self_eq_true _)]
      cases row with
      | zero => rfl
      | succ row => rw [rowOf, if_pos rfl, ih, List.getD_cons_succ]
    · rw [if_neg (by simpa using hc)]
      obtain ⟨piece, pieces, hcons⟩ := List.exists_cons_of_ne_nil hpieces
      cases row with
      | zero =>
        have hfirst := ih 0
        rw [hcons, rowOf_zero] at hfirst
        rw [hcons, rowOf_zero, List.takeWhile_cons_of_pos (by simpa using hc), hfirst]
        rfl
      | succ row =>
        have hrest := ih (row + 1)
        rw [hcons] at hrest ⊢
        rw [rowOf, if_neg hc, hrest]
        rfl

theorem charactersFrom_eq {column16 units : Nat} (h : units ≤ column16) (character : Nat) :
    charactersFrom column16 units character cs =
      some (character + charactersIn cs (column16 - units)) := by
  induction cs generalizing units character with
  | nil =>
    rw [charactersFrom, Nat.psub_eq_sub h]
    rfl
  | cons c cs ih =>
    rw [charactersFrom, charactersIn]
    split_ifs with hunits hpair hpair
    · rfl
    · omega
    · omega
    · rw [ih (by omega), Nat.sub_add_eq, Nat.add_assoc, Nat.add_comm 1]

theorem unitsFrom_eq (cs : List Char) (n column16 count : Nat) :
    unitsFrom (count + n) column16 count (cs.take n) = some (column16 + unitsIn cs n) := by
  induction cs generalizing n column16 count with
  | nil =>
    rw [List.take_nil, unitsFrom, Nat.psub_eq_sub (Nat.le_add_right _ _), Nat.add_sub_cancel_left]
    rfl
  | cons c cs ih =>
    cases n with
    | zero =>
      rw [List.take_zero, unitsFrom, Nat.add_zero, Nat.psub_eq_sub (Nat.le_refl _), Nat.sub_self]
      rfl
    | succ n =>
      rw [List.take_succ_cons, unitsFrom, unitsIn, ← Nat.add_assoc, Nat.add_right_comm, ih,
        Nat.add_assoc]

theorem rowOf_append (n : Nat) (cs ds : List Char) :
    rowOf (cs.count '\n' + 1 + n) (cs ++ '\n' :: ds) = rowOf n ds := by
  induction cs with
  | nil => rw [List.count_nil, Nat.zero_add, Nat.add_comm, List.nil_append, rowOf, if_pos rfl]
  | cons c cs ih =>
    rw [List.cons_append, List.count_cons]
    by_cases hc : c = '\n'
    · subst hc
      rw [if_pos (beq_self_eq_true _), Nat.add_right_comm _ 1, rowOf, if_pos rfl, ih]
    · rw [if_neg (by simpa using hc), Nat.add_zero, Nat.add_right_comm, rowOf, if_neg hc,
        Nat.add_right_comm, ih]

theorem rowOf_count (cs ds : List Char) :
    rowOf (cs.count '\n') (cs ++ ds) = cs.rtakeWhile (· ≠ '\n') ++ rowOf 0 ds := by
  -- from the end: a line feed begins a new row, any other character goes on with the last one
  induction cs using List.reverseRecOn generalizing ds with
  | nil => rfl
  | append_singleton cs c ih =>
    rw [List.count_append, List.append_assoc, List.singleton_append, List.rtakeWhile_concat]
    by_cases hc : c = '\n'
    · subst hc
      rw [if_neg (by simp), List.nil_append]
      exact rowOf_append 0 cs ds
    · rw [if_pos (by simpa using hc), List.count_singleton, if_neg (by simpa using hc),
        Nat.add_zero, ih, rowOf_zero, rowOf_zero, List.takeWhile_cons_of_pos (by simpa using hc),
        List.append_assoc, List.singleton_append]

theorem unitsIn_length (cs ds : List Char) : unitsIn (cs ++ ds) cs.length = length cs := by
  induction cs with
  | nil => cases ds <;> rfl
  | cons c cs ih =>
    rw [List.cons_append, List.length_cons, unitsIn, ih]
    rfl

theorem unitsIn_strictMono (cs : List Char) {m n : Nat} (h : m < n) :
    unitsIn cs m < unitsIn cs n := by
  refine lt_of_le_of_ne (unitsIn_mono cs h.le) fun heq => ?_
  have hback := congrArg (charactersIn cs) heq
  rw [charactersIn_unitsIn, charactersIn_unitsIn] at hback
  omega

theorem inPair_cons : InPair (c :: cs) n ↔
    units c = 2 ∧ n = 1 ∨ units c ≤ n ∧ InPair cs (n - units c) := by
  constructor
  · rintro ⟨before, d, after, hsplit, hd, hn⟩
    cases before with
    | nil =>
      obtain ⟨rfl, -⟩ := List.cons.inj hsplit
      exact Or.inl ⟨hd, hn⟩
    | cons e before =>
      obtain ⟨rfl, hrest⟩ := List.cons.inj hsplit
      have hlength : length (c :: before) = units c + length before := rfl
      exact Or.inr ⟨by omega, before, d, after, hrest, hd, by omega⟩
  · rintro (⟨hc, rfl⟩ | ⟨hle, before, d, after, rfl, hd, hn⟩)
    · exact ⟨[], c, cs, rfl, hc, rfl⟩
    · have hlength : length (c :: before) = units c + length before := rfl
      exact ⟨c :: before, d, after, rfl, hd, by omega⟩

/-- A column in a pair goes back to the beginning of the pair, any other column to itself. -/
theorem unitsIn_charactersIn (cs : List Char) (n : Nat) :
    (InPair cs n → unitsIn cs (charactersIn cs n) + 1 = n) ∧
      (¬InPair cs n → unitsIn cs (charactersIn cs n) = n) := by
  induction cs generalizing n with
  | nil =>
    refine ⟨?_, fun _ => rfl⟩
    rintro ⟨before, c, after, hsplit, -⟩
    exact absurd hsplit (by simp)
  | cons c cs ih =>
    have hpos := units_pos c
    have htwo := units_le c
    rw [inPair_cons, charactersIn]
    split_ifs with hlt
    · rw [unitsIn]
      constructor <;> intro h <;> omega
    · obtain ⟨hpair, hnot⟩ := ih (n - units c)
      rw [unitsIn]
      constructor
      · rintro (h | h)
        · omega
        · have := hpair h.2
          omega
      · intro h
        have := hnot fun hin => h (Or.inr ⟨by omega, hin⟩)
        omega

end Utf16

theorem Position.ofChars_character (cs : List Char) :
    (ofChars cs).character = (cs.rtakeWhile (· ≠ '\n')).length := by
  induction cs using List.reverseRecOn with
  | nil => rfl
  | append_singleton cs c ih =>
    have hsingle : ofChars [c] = ofChar c := (ofChars_cons c []).trans (add_zero _)
    rw [ofChars_append, add_character, hsingle, List.rtakeWhile_concat, ofChar, ih]
    split_ifs <;> simp_all

namespace Utf16Position

open Utf16

/-- Rows come before columns. -/
instance : LinearOrder Utf16Position :=
  LinearOrder.lift' (fun q => toLex (q.row, q.column16)) fun q r h => by
    cases q
    cases r
    simpa using h

theorem lt_iff {q r : Utf16Position} :
    q < r ↔ q.row < r.row ∨ q.row = r.row ∧ q.column16 < r.column16 :=
  Prod.Lex.toLex_lt_toLex

theorem le_iff {q r : Utf16Position} :
    q ≤ r ↔ q.row < r.row ∨ q.row = r.row ∧ q.column16 ≤ r.column16 :=
  Prod.Lex.toLex_le_toLex

/-- The position of a column, where no difference is negative. -/
def toPosition? (q : Utf16Position) (text : String) : Option Position :=
  (charactersFrom q.column16 0 0 (pieceOf q.row text.toList)).map (⟨q.row + 1, ·⟩)

/-- The column of a position, where no difference is negative. -/
def ofPosition? (p : Position) (text : String) : Option Utf16Position :=
  (unitsFrom p.character 0 0 ((pieceOf (p.line - 1) text.toList).take p.character)).map
    (⟨p.line - 1, ·⟩)

theorem toPosition?_eq (q : Utf16Position) (text : String) :
    q.toPosition? text = some (q.toPosition text) := by
  rw [toPosition?, ← rowOf_eq_pieceOf, charactersFrom_eq (Nat.zero_le _), Nat.zero_add,
    Nat.sub_zero]
  rfl

theorem ofPosition?_eq (p : Position) (text : String) :
    ofPosition? p text = some (ofPosition p text) := by
  have hwalk := unitsFrom_eq (rowOf (p.line - 1) text.toList) p.character 0 0
  rw [Nat.zero_add, Nat.zero_add] at hwalk
  rw [ofPosition?, ← rowOf_eq_pieceOf, hwalk]
  rfl

/-- At the end of the first part of a text, its lines and the units of its last line are behind. -/
theorem ofPosition_split (a b : String) : ofPosition (.start + .ofText a) (a ++ b) =
    ⟨a.toList.count '\n', length (a.toList.rtakeWhile (· ≠ '\n'))⟩ := by
  have hline : (Position.start + .ofText a).line - 1 = a.toList.count '\n' := by
    rw [Position.add_line, Position.ofText, Position.ofChars_line]
    exact Nat.add_sub_cancel_left _ _
  have hcharacter : (Position.start + .ofText a).character =
      (a.toList.rtakeWhile (· ≠ '\n')).length := by
    rw [Position.add_character, Position.ofText, Position.ofChars_character]
    split_ifs
    · rfl
    · exact Nat.zero_add _
  rw [ofPosition, hline, hcharacter, String.toList_append, rowOf_count, unitsIn_length]

theorem ofPosition_toPosition (q : Utf16Position) (text : String) :
    let back := ofPosition (q.toPosition text) text
    (InPair (rowOf q.row text.toList) q.column16 → back = ⟨q.row, q.column16 - 1⟩) ∧
      (¬InPair (rowOf q.row text.toList) q.column16 → back = q) := by
  intro back
  have hback : back = ⟨q.row, unitsIn (rowOf q.row text.toList)
      (charactersIn (rowOf q.row text.toList) q.column16)⟩ := rfl
  obtain ⟨hpair, hnot⟩ := unitsIn_charactersIn (rowOf q.row text.toList) q.column16
  constructor
  · intro h
    rw [hback, Nat.eq_sub_of_add_eq (hpair h)]
  · intro h
    rw [hback, hnot h]

theorem ofPosition_strictMonoOn (text : String) :
    StrictMonoOn (ofPosition · text) {p | 1 ≤ p.line} := by
  intro p hp q hq hlt
  have hp : 1 ≤ p.line := hp
  change ofPosition p text < ofPosition q text
  rw [lt_iff, ofPosition, ofPosition]
  dsimp only
  rcases Position.lt_iff.mp hlt with hline | ⟨hline, hcharacter⟩
  · exact Or.inl (by omega)
  · rw [hline]
    exact Or.inr ⟨rfl, unitsIn_strictMono _ hcharacter⟩

theorem toPosition_monotone (text : String) :
    Monotone fun q : Utf16Position => q.toPosition text := by
  intro q r hle
  rw [Position.le_iff]
  rcases le_iff.mp hle with hrow | ⟨hrow, hcolumn⟩
  · exact Or.inl (Nat.succ_lt_succ hrow)
  · exact Or.inr ⟨congrArg (· + 1) hrow, toPosition_mono text hrow hcolumn⟩

/-- Positions and columns turn into each other exactly, and neither way is a difference negative. -/
theorem conversion_exact :
    (∀ a b : String, let p := Position.start + .ofText a
      ofPosition p (a ++ b) =
          ⟨a.toList.count '\n', length (a.toList.rtakeWhile (· ≠ '\n'))⟩ ∧
        (ofPosition p (a ++ b)).toPosition (a ++ b) = p) ∧
    ∀ text : String,
      (∀ p : Position, 1 ≤ p.line → (ofPosition p text).toPosition text = p) ∧
      (∀ q : Utf16Position, let back := ofPosition (q.toPosition text) text
        (InPair (rowOf q.row text.toList) q.column16 → back = ⟨q.row, q.column16 - 1⟩) ∧
          (¬InPair (rowOf q.row text.toList) q.column16 → back = q)) ∧
      StrictMonoOn (ofPosition · text) {p | 1 ≤ p.line} ∧
      (Monotone fun q : Utf16Position => q.toPosition text) ∧
      (∀ q : Utf16Position, q.toPosition? text = some (q.toPosition text)) ∧
      ∀ p : Position, ofPosition? p text = some (ofPosition p text) := by
  constructor
  · intro a b p
    have hline : 1 ≤ p.line := Nat.le_add_right _ _
    exact ⟨ofPosition_split a b, toPosition_ofPosition hline⟩
  · intro text
    refine ⟨fun p => toPosition_ofPosition, fun q => ofPosition_toPosition q text, ?_, ?_, ?_, ?_⟩
    · exact ofPosition_strictMonoOn text
    · exact toPosition_monotone text
    · exact fun q => toPosition?_eq q text
    · exact fun p => ofPosition?_eq p text

end Utf16Position

end PvsIndex
