import PvsIndex.Tree.Visit
import PvsIndex.Fault

/-! The scope of a name: the range of the innermost element above the construct that declares it
which limits scope. -/

namespace PvsIndex

namespace Occurrence

def below (parent : Occurrence) (child : Element) : Occurrence :=
  ⟨child, parent.element :: parent.ancestors⟩

def parent? (o : Occurrence) : Option Element :=
  o.ancestors.head?

/-- The element that limits where the name can be used. The construct that declares the name does
not count. -/
def scopeElement? (name : Occurrence) : Option Element :=
  (name.ancestors.drop 1).find? (·.kind.introducesScope)

def scope? (name : Occurrence) : Except Fault (Option Range) :=
  match name.scopeElement? with
  | none => .ok none
  | some element =>
    if element.range.Contains name.element.range then .ok (some element.range)
    else .error .scopeMissesName

end Occurrence

end PvsIndex
