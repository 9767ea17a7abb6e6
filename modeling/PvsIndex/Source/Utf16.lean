import PvsIndex.Source.Position

/-! Positions counted in UTF-16 code units, and their places in a text. -/

namespace PvsIndex

/-- Rows count from zero, columns are code units from the beginning of the row. -/
structure Utf16Position where
  row : Nat
  column16 : Nat
  deriving DecidableEq, Inhabited

namespace Utf16

/-- A character beyond the basic plane takes a pair of code units. -/
def units (c : Char) : Nat :=
  if c.toNat < 0x10000 then 1 else 2

def length (cs : List Char) : Nat :=
  cs.foldr (fun c n => units c + n) 0

/-- The characters of one row; a row past the end is empty. -/
def rowOf : Nat → List Char → List Char
  | 0, cs => cs.takeWhile (· ≠ '\n')
  | _ + 1, [] => []
  | row + 1, c :: cs => if c = '\n' then rowOf row cs else rowOf (row + 1) cs

/-- The number of characters that `column16` units reach. Inside a pair the character is not
reached; past the end of the row every unit counts as one character. -/
def charactersIn : List Char → Nat → Nat
  | [], column16 => column16
  | c :: cs, column16 =>
    if column16 < units c then 0 else charactersIn cs (column16 - units c) + 1

/-- The number of units that `character` characters take; past the end of the row, one each. -/
def unitsIn : List Char → Nat → Nat
  | [], character => character
  | _ :: _, 0 => 0
  | c :: cs, character + 1 => units c + unitsIn cs character

end Utf16

namespace Utf16Position

def toPosition (q : Utf16Position) (text : String) : Position :=
  ⟨q.row + 1, Utf16.charactersIn (Utf16.rowOf q.row text.toList) q.column16⟩

def ofPosition (p : Position) (text : String) : Utf16Position :=
  ⟨p.line - 1, Utf16.unitsIn (Utf16.rowOf (p.line - 1) text.toList) p.character⟩

end Utf16Position

end PvsIndex
