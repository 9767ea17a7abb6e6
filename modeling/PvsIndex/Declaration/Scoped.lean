import PvsIndex.Declaration.Table

/-! Lookup at a position: of the declarations in force there, the innermost. -/

namespace PvsIndex

namespace Entry

/-- Without a scope, a declaration is in force everywhere. -/
def InForce (e : Entry) (p : Position) : Prop :=
  ∀ scope ∈ e.declaration.scope, scope.Touches p

instance (e : Entry) (p : Position) : Decidable (e.InForce p) :=
  inferInstanceAs (Decidable (∀ scope ∈ e.declaration.scope, scope.Touches p))

/-- The narrower scope goes first: it starts later, or it starts at the same place and ends
earlier. What has no scope goes last. -/
def compareScope : Option Range → Option Range → Ordering
  | none, none => .eq
  | none, some _ => .gt
  | some _, none => .lt
  | some r, some s => (s.start.compare r.start).then (r.stop.compare s.stop)

def compare (d e : Entry) : Ordering :=
  (compareScope d.declaration.scope e.declaration.scope).then
    (Ord.compare d.category.rank e.category.rank)

/-- The better of two entries, the later one if neither is. -/
def closer (best : Option Entry) (e : Entry) : Option Entry :=
  match best with
  | none => some e
  | some b => if e.compare b = .gt then some b else some e

end Entry

namespace Table

def candidates (t : Table) (name : String) (p : Position) : List Entry :=
  t.history.toList.filter fun e => e.declaration.name = name ∧ e.InForce p

def findAt? (t : Table) (name : String) (p : Position) : Option Declaration :=
  ((t.candidates name p).foldl Entry.closer none).map (·.declaration)

end Table

/-- How a name is looked up: by category alone, or by the position of its use as well. -/
inductive LookupMode where
  | byCategory | scoped
  deriving DecidableEq, Inhabited

/-- Without a position, a name is looked up by category. -/
def LookupMode.find? (mode : LookupMode) (t : Table) (name : String) (p : Option Position) :
    Option Declaration :=
  match mode, p with
  | .scoped, some p => t.findAt? name p
  | _, _ => t.find? name

end PvsIndex
