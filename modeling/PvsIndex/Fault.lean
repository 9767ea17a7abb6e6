import PvsIndex.Source.Range
import PvsIndex.Tree.Kind

/-! What stops the work on a text or a request, in contrast to an error in the text. -/

namespace PvsIndex

inductive Fault where
  | nameless (kind : ElementKind) (range : Range)
  | emptyName
  | scopeMissesName
  | reversed (start stop : Position)
  | overflow
  /-- A message announces more bytes than memory can be asked for. -/
  | oversized
  deriving DecidableEq

namespace Fault

def message : Fault → String
  | nameless kind range => s!"{kind.name} at {range.render} has no identifier"
  | emptyName => "a declared name is empty"
  | scopeMissesName => "a scope does not contain its name"
  | reversed start stop => s!"({start.render}, {stop.render})"
  | overflow => "attempt to add with overflow"
  | oversized => "capacity overflow"

end Fault

end PvsIndex
