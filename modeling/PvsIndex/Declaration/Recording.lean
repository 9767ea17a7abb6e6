import PvsIndex.Declaration.Scope
import PvsIndex.Declaration.Table

/-! Recording the declarations of a tree in a table. -/

namespace PvsIndex

/-- Variables are not recorded. -/
def ElementKind.category? : ElementKind → Option Category
  | typeDecl => some .type
  | formulaDecl => some .formula
  | functionDecl => some .function
  | binding => some .localBinding
  | _ => none

/-- Types and functions may be declared several at a time. -/
def Category.declaresList : Category → Bool
  | type | function => true
  | formula | localBinding => false

namespace Declaration

/-- The declaration of a name by a construct. -/
def ofConstruct (source : List Char) (construct : Occurrence) (name : Element) :
    Except Fault Declaration := do
  let scope ← (construct.below name).scope?
  let d : Declaration :=
    { name := name.sourceText source
      position := name.range.start
      sourceText := construct.element.sourceText source
      scope }
  if d.name = "" then throw .emptyName
  return d

end Declaration

/-- The table so far, and the dumps at the ends of theories. -/
structure Recording where
  table : Table := {}
  dumps : Array String := #[]

namespace Recording

def insertNames (source : List Char) (category : Category) (construct : Occurrence)
    (names : List Element) (table : Table) : Except Fault Table :=
  names.foldlM
    (fun t name => return t.insert category (← Declaration.ofConstruct source construct name)) table

def record (source : List Char) (construct : Occurrence) (table : Table) : Except Fault Table :=
  match construct.element.kind.category?, construct.element.childrenOf .identifier with
  | none, _ => .ok table
  | some _, [] => .error (.nameless construct.element.kind construct.element.range)
  | some category, name :: names =>
    insertNames source category construct
      (if category.declaresList then name :: names else [name]) table

def step (source : List Char) (dumping : Bool) (r : Recording) : Visit → Except Fault Recording
  | .enter o => return { r with table := ← record source o r.table }
  | .leave o =>
    if dumping ∧ o.element.kind = .theory then
      return { r with dumps := r.dumps.push r.table.dump }
    else return r

def ofTree (source : List Char) (dumping : Bool) (tree : Tree) : Except Fault Recording :=
  tree.visits.foldlM (step source dumping) {}

end Recording

end PvsIndex
