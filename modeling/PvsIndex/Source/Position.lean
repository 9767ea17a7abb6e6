/-! Positions in a text, and the distances that texts cover. -/

namespace PvsIndex

/-- A place in a text: lines count from one, characters of the line from zero. As a distance,
the number of lines passed and the characters passed since. -/
structure Position where
  line : Nat
  character : Nat
  deriving DecidableEq, Inhabited

namespace Position

instance : Zero Position := ⟨⟨0, 0⟩⟩

def start : Position := ⟨1, 0⟩

/-- A distance that passes a line break forgets the character it set out from. -/
def add (p d : Position) : Position :=
  ⟨p.line + d.line, if 1 ≤ d.line then d.character else p.character + d.character⟩

instance : Add Position := ⟨add⟩

/-- Only the line feed breaks a line. -/
def ofChar (c : Char) : Position :=
  if c = '\n' then ⟨1, 0⟩ else ⟨0, 1⟩

def ofChars (cs : List Char) : Position :=
  cs.foldl (fun p c => p + ofChar c) 0

/-- The distance from the beginning of a text to its end. -/
def ofText (s : String) : Position :=
  ofChars s.toList

def sum (ps : List Position) : Position :=
  ps.foldl (· + ·) 0

instance : LE Position := ⟨fun p q => p.line < q.line ∨ p.line = q.line ∧ p.character ≤ q.character⟩

instance : LT Position := ⟨fun p q => p.line < q.line ∨ p.line = q.line ∧ p.character < q.character⟩

instance (p q : Position) : Decidable (p ≤ q) :=
  inferInstanceAs (Decidable (p.line < q.line ∨ p.line = q.line ∧ p.character ≤ q.character))

instance (p q : Position) : Decidable (p < q) :=
  inferInstanceAs (Decidable (p.line < q.line ∨ p.line = q.line ∧ p.character < q.character))

instance : Min Position := ⟨fun p q => if p ≤ q then p else q⟩

instance : Max Position := ⟨fun p q => if p ≤ q then q else p⟩

def compare (p q : Position) : Ordering :=
  if p < q then .lt else if p = q then .eq else .gt

def render (p : Position) : String :=
  s!"{p.line}:{p.character}"

theorem le_iff {p q : Position} :
    p ≤ q ↔ p.line < q.line ∨ p.line = q.line ∧ p.character ≤ q.character :=
  Iff.rfl

theorem lt_iff {p q : Position} :
    p < q ↔ p.line < q.line ∨ p.line = q.line ∧ p.character < q.character :=
  Iff.rfl

end Position

end PvsIndex
