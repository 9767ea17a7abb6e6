import PvsIndex.Text.Ranges

/-! Blank characters: those with the property `White_Space`. -/

namespace PvsIndex.Text

def whitespaceRanges : List (Nat × Nat) :=
  [
    (0x9, 0xD), (0x20, 0x20), (0x85, 0x85), (0xA0, 0xA0), (0x1680, 0x1680), (0x2000, 0x200A),
    (0x2028, 0x2029), (0x202F, 0x202F), (0x205F, 0x205F), (0x3000, 0x3000)
  ]

def isWhitespace (c : Char) : Bool :=
  inRanges whitespaceRanges c.toNat

def trimEnd (cs : List Char) : List Char :=
  (cs.reverse.dropWhile isWhitespace).reverse

def trim (cs : List Char) : List Char :=
  (trimEnd cs).dropWhile isWhitespace

end PvsIndex.Text
