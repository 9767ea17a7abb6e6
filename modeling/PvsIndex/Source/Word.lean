import PvsIndex.Fault
import PvsIndex.Source.Utf16

/-! Limits of machine words. Positions and counts are unsigned words of 64 bits; a sum that does
not fit is refused. -/

namespace PvsIndex

namespace Word

def limit : Nat := 1 <<< 64

def signedLimit : Nat := 1 <<< 63

end Word

namespace Position

def Fits (p : Position) : Prop :=
  p.line < Word.limit ∧ p.character < Word.limit

instance (p : Position) : Decidable p.Fits :=
  inferInstanceAs (Decidable (_ ∧ _))

def checked (p : Position) : Except Fault Position :=
  if p.Fits then .ok p else .error .overflow

end Position

namespace Utf16Position

def Fits (q : Utf16Position) : Prop :=
  q.row < Word.limit ∧ q.column16 < Word.limit

instance (q : Utf16Position) : Decidable q.Fits :=
  inferInstanceAs (Decidable (_ ∧ _))

def checked (q : Utf16Position) : Except Fault Utf16Position :=
  if q.Fits then .ok q else .error .overflow

end Utf16Position

namespace Range

def ofEnds (start stop : Position) : Except Fault Range :=
  if start ≤ stop then .ok ⟨start, stop⟩ else .error (.reversed start stop)

/-- The characters as readers count them fit in words. -/
def RenderFits (r : Range) : Prop :=
  r.start.character + 1 < Word.limit ∧ r.stop.character + 1 < Word.limit

instance (r : Range) : Decidable r.RenderFits :=
  inferInstanceAs (Decidable (_ ∧ _))

def checkedRender (r : Range) : Except Fault String :=
  if r.RenderFits then .ok r.render else .error .overflow

end Range

end PvsIndex
