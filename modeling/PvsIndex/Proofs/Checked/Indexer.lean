import PvsIndex.Analysis
import PvsIndex.Proofs.Checked.Parser
import PvsIndex.Proofs.Checked.Scanner

/-! Recording the declarations of a stored tree, and the whole analysis, with every check on the
way. -/

namespace PvsIndex.Checked

namespace Stored

def token (s : Stored) (id : Nat) : Checked Token :=
  demand .outOfBounds s.tokens[id]?

def cell (s : Stored) (id : Nat) : Checked Cell :=
  demand .outOfBounds s.cells[id]?

def elements (s : Stored) (id : Nat) : Checked (List Nat) := do
  return (← s.cell id).children.filterMap Node.element?

mutual

/-- The first token that is found at or below a node, where children are taken in some order. -/
def seek (s : Stored) (order : List Node → List Node) : Node → Checked (Option Nat)
  | .token id => return some id
  | .element id => do s |>.seekIn order (order (← s.cell id).children)
partial_fixpoint

def seekIn (s : Stored) (order : List Node → List Node) : List Node → Checked (Option Nat)
  | [] => return none
  | node :: nodes => do
    match ← s |>.seek order node with
    | some id => return some id
    | none => s |>.seekIn order nodes
partial_fixpoint

end

def firstToken? (s : Stored) (id : Nat) : Checked (Option Nat) :=
  s.seek (·) (.element id)

def lastToken? (s : Stored) (id : Nat) : Checked (Option Nat) :=
  s.seek List.reverse (.element id)

def range (s : Stored) (id : Nat) : Checked Range := do
  match ← s.firstToken? id, ← s.lastToken? id with
  | some first, some last => return (← s.token first).range.unite (← s.token last).range
  | _, _ => Range.checked .start .start

/-- The texts of the tokens from the first to the last, those between elements included. -/
def sourceText (s : Stored) (id : Nat) : Checked String := do
  match ← s.firstToken? id, ← s.lastToken? id with
  | some first, some last =>
    require .reversedTokens (first ≤ last + 1)
    return String.join (((s.tokens.drop first).take (last + 1 - first)).map (·.text))
  | _, _ => return ""

def childrenOf (s : Stored) (kind : ElementKind) (id : Nat) : Checked (List Nat) := do
  (← s.elements id).filterM fun child => return (← s.cell child).kind = kind

/-- Climbs to an element that limits where a name can be used. -/
def climb (s : Stored) (name : Nat) : Option Nat → Checked (Option Range)
  | none => return none
  | some id => do
    let cell ← s.cell id
    if cell.kind.introducesScope then
      let scope ← s.range id
      require .scopeMissesName (scope.Contains (← s.range name))
      return some scope
    else s |>.climb name cell.parent?
partial_fixpoint

/-- The construct that declares the name does not count. -/
def scope? (s : Stored) (name : Nat) : Checked (Option Range) := do
  match (← s.cell name).parent? with
  | none => return none
  | some construct => s.climb name (← s.cell construct).parent?

def namesOf (s : Stored) (construct : Nat) : Checked (List Nat) := do
  let names ← s.childrenOf .identifier construct
  require .nameless (names ≠ [])
  return names

def declaration (s : Stored) (construct name : Nat) : Checked Declaration := do
  let d : Declaration :=
    { name := ← s.sourceText name
      position := (← s.range name).start
      sourceText := ← s.sourceText construct
      scope := ← s.scope? name }
  require .emptyName (d.name ≠ "")
  return d

def enter (s : Stored) (id : Nat) (r : Recording) : Checked Recording := do
  match (← s.cell id).kind.category? with
  | none => return r
  | some category =>
    let names ← s.namesOf id
    let table ← (if category.declaresList then names else names.take 1).foldlM
      (fun t name => return t.insert category (← s.declaration id name)) r.table
    return { r with table }

def leave (s : Stored) (dumping : Bool) (id : Nat) (r : Recording) : Checked Recording := do
  if dumping ∧ (← s.cell id).kind = .theory then
    return { r with dumps := r.dumps.push r.table.dump }
  else return r

/-- Enters an element, walks through the elements among its children, and leaves it. -/
def walk {σ : Type} (s : Stored) (enter leave : Nat → σ → Checked σ) (id : Nat) (state : σ) :
    Checked σ := do
  let state ← enter id state
  let state ← (← s.elements id).foldlM (fun state child => s |>.walk enter leave child state) state
  leave id state
partial_fixpoint

def index (s : Stored) (dumping : Bool) : Checked Recording :=
  s.walk s.enter (s.leave dumping) s.root {}

end Stored

def parseText (text : String) : Checked (Stored × List Diagnostic) := do
  let (stored, errors) ← parse (← tokenize text)
  return (stored, errors.map (·.report.diagnostic))

/-- Declarations are recorded only if there are no errors. -/
def analyze (text : String) (dumping : Bool) :
    Checked (Stored × List Diagnostic × Recording) := do
  let (stored, diagnostics) ← parseText text
  if diagnostics ≠ [] then return (stored, diagnostics, {})
  else return (stored, diagnostics, ← stored.index dumping)

end PvsIndex.Checked
