import PvsIndex.Source.Position

/-! Ranges of a text. -/

namespace PvsIndex

structure Range where
  start : Position
  stop : Position
  deriving DecidableEq, Inhabited

namespace Range

/-- Both ends belong to what a range touches, also the end that it does not cover. -/
def Touches (r : Range) (p : Position) : Prop :=
  r.start ≤ p ∧ p ≤ r.stop

instance (r : Range) (p : Position) : Decidable (r.Touches p) :=
  inferInstanceAs (Decidable (_ ∧ _))

def Contains (r s : Range) : Prop :=
  r.start ≤ s.start ∧ s.stop ≤ r.stop

instance (r s : Range) : Decidable (r.Contains s) :=
  inferInstanceAs (Decidable (_ ∧ _))

/-- The least range that contains both. -/
def unite (r s : Range) : Range :=
  ⟨min r.start s.start, max r.stop s.stop⟩

/-- The range of what has no text of its own. -/
def empty : Range :=
  ⟨.start, .start⟩

def compare (r s : Range) : Ordering :=
  (r.start.compare s.start).then (r.stop.compare s.stop)

def render (r : Range) : String :=
  s!"{r.start.line}.{r.start.character + 1}-{r.stop.line}.{r.stop.character + 1}"

end Range

end PvsIndex
