import PvsIndex.Proofs.Source.Units

/-! Positions computed in words, with every sum and every difference on the way refused if it is no
word. Texts that fit in memory leave one sum that can be refused: that of a row and one. -/

namespace PvsIndex

namespace Word

def add (m n : Nat) : Except Fault Nat :=
  if m + n < limit then .ok (m + n) else .error .overflow

/-- A difference is no word if it is negative. -/
def sub (m n : Nat) : Except Fault Nat :=
  if n ≤ m then .ok (m - n) else .error .overflow

/-- The walk along a row up to a column, with what lies behind it in units and in characters. -/
def walkTo (row column16 units character : Nat) : List Char → Except Fault Position
  | [] => do
    let line ← add row 1
    let rest ← sub column16 units
    return ⟨line, ← add character rest⟩
  | c :: cs => do
    let next ← add units (Utf16.units c)
    if column16 < next then return ⟨← add row 1, character⟩
    else walkTo row column16 next (← add character 1) cs

def toPosition (q : Utf16Position) (text : String) : Except Fault Position :=
  walkTo q.row q.column16 0 0 (Utf16.rowOf q.row text.toList)

/-- The walk along the characters of a row that are counted. -/
def walkFrom (character column16 count : Nat) : List Char → Except Fault Nat
  | [] => do add column16 (← sub character count)
  | c :: cs => do walkFrom character (← add column16 (Utf16.units c)) (← add count 1) cs

def ofPosition (p : Position) (text : String) : Except Fault Utf16Position :=
  return ⟨p.line - 1,
    ← walkFrom p.character 0 0 ((Utf16.rowOf (p.line - 1) text.toList).take p.character)⟩

def addPosition (p d : Position) : Except Fault Position :=
  return ⟨← add p.line d.line, ← add (if 1 ≤ d.line then 0 else p.character) d.character⟩

def measure (s : String) : Except Fault Position :=
  s.toList.foldlM (fun p c => addPosition p (.ofChar c)) 0

variable {m n : Nat}

theorem add_of_lt (h : m + n < limit) : add m n = .ok (m + n) :=
  if_pos h

theorem add_of_not_lt (h : ¬ m + n < limit) : add m n = .error .overflow :=
  if_neg h

theorem sub_of_le (h : n ≤ m) : sub m n = .ok (m - n) :=
  if_pos h

theorem checked_of_sums (line line' character character' : Nat) :
    (do return ⟨← add line line', ← add character character'⟩ : Except Fault Position) =
      (⟨line + line', character + character'⟩ : Position).checked := by
  by_cases hline : line + line' < limit
  · rw [add_of_lt hline]
    by_cases hcharacter : character + character' < limit
    · rw [add_of_lt hcharacter]
      exact (if_pos ⟨hline, hcharacter⟩).symm
    · rw [add_of_not_lt hcharacter]
      exact (if_neg fun h : Position.Fits _ => hcharacter h.2).symm
  · rw [add_of_not_lt hline]
    exact (if_neg fun h : Position.Fits _ => hline h.1).symm

theorem addPosition_eq (p d : Position) : addPosition p d = (p + d).checked := by
  have hsum : (⟨p.line + d.line, (if 1 ≤ d.line then 0 else p.character) + d.character⟩ :
      Position) = p + d := by
    ext
    · rfl
    · rw [Position.add_character]
      split_ifs
      · exact Nat.zero_add _
      · rfl
  rw [addPosition, checked_of_sums, hsum]

/-- A text that fits in memory is measured in words. -/
theorem measure_eq {s : String} (h : s.toList.length < signedLimit) :
    measure s = .ok (.ofText s) := by
  have hwalk (before after : List Char) (hlength : (before ++ after).length < signedLimit) :
      after.foldlM (fun p c => addPosition p (.ofChar c)) (.ofChars before) =
        .ok (.ofChars (before ++ after)) := by
    induction after generalizing before with
    | nil => rw [List.foldlM_nil, List.append_nil]; rfl
    | cons c after ih =>
      have hsingle : Position.ofChars [c] = .ofChar c :=
        (Position.ofChars_cons c []).trans (Position.add_zero _)
      have hbounds := Position.ofChars_le (before ++ [c])
      have hlimit : limit = 2 * signedLimit := rfl
      rw [List.append_cons] at hlength ⊢
      have hstep : addPosition (.ofChars before) (.ofChar c) = .ok (.ofChars (before ++ [c])) := by
        rw [addPosition_eq, ← hsingle, ← Position.ofChars_append]
        simp only [List.length_append, List.length_singleton] at hlength hbounds
        exact if_pos ⟨by omega, by omega⟩
      rw [List.foldlM_cons, hstep]
      exact ih (before ++ [c]) hlength
  exact hwalk [] s.toList h

theorem walkTo_eq (row : Nat) {column16 units character : Nat} {cs : List Char}
    (hunits : units ≤ column16) (hcharacter : character ≤ units) (hcolumn : column16 < limit)
    (hlength : units + 2 * cs.length < limit) : walkTo row column16 units character cs =
      (⟨row + 1, character + Utf16.charactersIn cs (column16 - units)⟩ : Position).checked := by
  induction cs generalizing units character with
  | nil =>
    rw [walkTo, sub_of_le hunits]
    exact checked_of_sums row 1 character (column16 - units)
  | cons c cs ih =>
    have hpos := Utf16.units_pos c
    have htwo := Utf16.units_le c
    rw [List.length_cons] at hlength
    rw [walkTo, add_of_lt (by omega), Utf16.charactersIn]
    dsimp only [bind, Except.bind]
    by_cases hnext : column16 < units + Utf16.units c
    · have hword : add character 0 = .ok character :=
        add_of_lt (Nat.lt_of_le_of_lt (Nat.le_trans hcharacter hunits) hcolumn)
      rw [if_pos hnext, if_pos (by omega)]
      rw [← checked_of_sums, hword]
      rfl
    · rw [if_neg hnext, if_neg (by omega), add_of_lt (by omega)]
      dsimp only
      rw [ih (by omega) (by omega) (by omega), Nat.sub_add_eq, Nat.add_assoc, Nat.add_comm 1]

theorem walkFrom_eq {n column16 count : Nat} {cs : List Char} (hcount : count + n < limit)
    (hlength : column16 + 2 * cs.length < limit) :
    walkFrom (count + n) column16 count (cs.take n) = add column16 (Utf16.unitsIn cs n) := by
  induction cs generalizing n column16 count with
  | nil =>
    rw [List.take_nil, walkFrom, sub_of_le (Nat.le_add_right _ _), Nat.add_sub_cancel_left]
    rfl
  | cons c cs ih =>
    cases n with
    | zero =>
      rw [List.take_zero, walkFrom, Nat.add_zero, sub_of_le (Nat.le_refl _), Nat.sub_self]
      rfl
    | succ n =>
      have htwo := Utf16.units_le c
      rw [List.length_cons] at hlength
      have hrest := @ih n (column16 + Utf16.units c) (count + 1) (by omega) (by omega)
      rw [Nat.add_right_comm, Nat.add_assoc] at hrest
      rw [List.take_succ_cons, walkFrom, add_of_lt (by omega), add_of_lt (by omega),
        Utf16.unitsIn]
      dsimp only [bind, Except.bind]
      rw [hrest]
      unfold add
      rw [Nat.add_assoc]

section

variable {text : String} (hfits : text.toList.length < signedLimit)

include hfits

/-- In words, the position that a client means is right, or refused if it is no pair of words. -/
theorem toPosition_eq {q : Utf16Position} (hq : q.Fits) :
    toPosition q text = (q.toPosition text).checked := by
  have hrow := Utf16.length_rowOf_le q.row text.toList
  have hlimit : limit = 2 * signedLimit := rfl
  rw [toPosition, walkTo_eq q.row (Nat.zero_le _) (Nat.le_refl _) hq.2 (by omega), Nat.zero_add,
    Nat.sub_zero]
  rfl

theorem ofPosition_eq {p : Position} (hp : p.Fits) :
    ofPosition p text = (Utf16Position.ofPosition p text).checked := by
  have hrow := Utf16.length_rowOf_le (p.line - 1) text.toList
  have hlimit : limit = 2 * signedLimit := rfl
  have hwalk := @walkFrom_eq p.character 0 0 (Utf16.rowOf (p.line - 1) text.toList)
    (by rw [Nat.zero_add]; exact hp.2) (by omega)
  rw [Nat.zero_add] at hwalk
  have hline : p.line - 1 < limit := Nat.lt_of_le_of_lt (Nat.sub_le _ _) hp.1
  rw [ofPosition, hwalk, Utf16Position.ofPosition, add, Nat.zero_add]
  by_cases hcolumn : Utf16.unitsIn (Utf16.rowOf (p.line - 1) text.toList) p.character < limit
  · rw [if_pos hcolumn]
    exact (if_pos ⟨hline, hcolumn⟩).symm
  · rw [if_neg hcolumn]
    exact (if_neg fun h : Utf16Position.Fits _ => hcolumn h.2).symm

end

end Word

namespace Utf16Position

theorem charactersIn_le (cs : List Char) (n : Nat) : Utf16.charactersIn cs n ≤ n := by
  induction cs generalizing n with
  | nil => exact Nat.le_refl n
  | cons c cs ih =>
    have hpos := Utf16.units_pos c
    have hrest := ih (n - Utf16.units c)
    rw [Utf16.charactersIn]
    split_ifs
    · exact Nat.zero_le n
    · omega

/-- Of the rows that are words, the last one has no line. -/
theorem toPosition_fits_iff {q : Utf16Position} (h : q.Fits) (text : String) :
    (q.toPosition text).Fits ↔ q.row + 1 < Word.limit := by
  have hcharacter := charactersIn_le (Utf16.rowOf q.row text.toList) q.column16
  exact ⟨fun hfits => hfits.1, fun hrow => ⟨hrow, Nat.lt_of_le_of_lt hcharacter h.2⟩⟩

end Utf16Position

end PvsIndex
