import Std.Data.TreeMap
import PvsIndex.Declaration.Basic

/-! The table of declarations. A name means the declaration recorded last in its category. -/

namespace PvsIndex

structure Table where
  types : Std.TreeMap String Declaration := {}
  formulas : Std.TreeMap String Declaration := {}
  functions : Std.TreeMap String Declaration := {}
  localBindings : Std.TreeMap String Declaration := {}
  /-- Every declaration in the order of recording, also those that lost their name to another. -/
  history : Array Entry := #[]

namespace Table

def empty : Table := {}

def map (t : Table) : Category → Std.TreeMap String Declaration
  | .type => t.types
  | .formula => t.formulas
  | .function => t.functions
  | .localBinding => t.localBindings

def insert (t : Table) (category : Category) (d : Declaration) : Table :=
  let t := { t with history := t.history.push ⟨category, d⟩ }
  match category with
  | .type => { t with types := t.types.insert d.name d }
  | .formula => { t with formulas := t.formulas.insert d.name d }
  | .function => { t with functions := t.functions.insert d.name d }
  | .localBinding => { t with localBindings := t.localBindings.insert d.name d }

def get? (t : Table) (category : Category) (name : String) : Option Declaration :=
  (t.map category)[name]?

def size (t : Table) (category : Category) : Nat :=
  (t.map category).size

def isEmpty (t : Table) : Bool :=
  Category.all.all fun category => (t.map category).isEmpty

/-- Sorted by name, code point by code point. -/
def entries (t : Table) (category : Category) : List (String × Declaration) :=
  (t.map category).toList

/-- The first category that knows the name answers, whatever the scopes. -/
def find? (t : Table) (name : String) : Option Declaration :=
  Category.all.findSome? fun category => t.get? category name

/-- Two tables are the same if they were recorded in the same way. -/
def sameAs (t u : Table) : Bool :=
  t.history = u.history

def ruler : String := "------------------------------"

def dumpCategory (t : Table) (category : Category) : String :=
  let lines := (t.entries category).map fun (name, d) => s!"{name} {d.render}\n"
  s!"{ruler}\n{t.size category} {category.heading}\n{ruler}\n" ++ String.join lines

def dump (t : Table) : String :=
  String.join (Category.all.map t.dumpCategory)

def checkedDump (t : Table) : Except Fault String :=
  let shown := Category.all.flatMap t.entries
  if ∀ e ∈ shown, e.2.RenderFits then .ok t.dump else .error .overflow

end Table

end PvsIndex
