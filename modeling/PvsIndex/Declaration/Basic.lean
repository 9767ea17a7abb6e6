import PvsIndex.Text.Quoted
import PvsIndex.Source.Word

/-! Declarations, as the index records them. -/

namespace PvsIndex

inductive Category where
  | type | formula | function | localBinding
  deriving DecidableEq, Inhabited

namespace Category

/-- In the order in which a name is looked up. -/
def all : List Category :=
  [type, formula, function, localBinding]

/-- The lower rank goes first. -/
def rank : Category → Nat
  | type => 0
  | formula => 1
  | function => 2
  | localBinding => 3

def name : Category → String
  | type => "type"
  | formula => "formula"
  | function => "function"
  | localBinding => "local binding"

def heading : Category → String
  | type => "type declarations"
  | formula => "formula declarations"
  | function => "function declarations"
  | localBinding => "local bindings"

end Category

structure Declaration where
  name : String
  /-- Where the declared name starts. -/
  position : Position
  /-- The text of the declaring construct. -/
  sourceText : String
  /-- The range in which the name can be used; none if that is not known. -/
  scope : Option Range
  deriving DecidableEq, Inhabited

namespace Declaration

def render (d : Declaration) : String :=
  let scope := match d.scope with
    | none => ""
    | some scope => s!" in {scope.render}"
  s!"{d.position.render}{scope} {Text.quoted d.sourceText}"

def RenderFits (d : Declaration) : Prop :=
  ∀ scope ∈ d.scope, scope.RenderFits

instance (d : Declaration) : Decidable d.RenderFits :=
  inferInstanceAs (Decidable (∀ scope ∈ d.scope, scope.RenderFits))

def checkedRender (d : Declaration) : Except Fault String :=
  if d.RenderFits then .ok d.render else .error .overflow

def nameRange (d : Declaration) : Except Fault Range := do
  Range.ofEnds d.position (← (d.position + .ofText d.name).checked)

end Declaration

/-- A declaration under the category that it was recorded with. -/
structure Entry where
  category : Category
  declaration : Declaration
  deriving DecidableEq, Inhabited

end PvsIndex
