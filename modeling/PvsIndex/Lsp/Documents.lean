import Std.Data.TreeMap
import PvsIndex.Lsp.Uri

/-! The open documents: each has a number of its own, and no number is used twice. -/

namespace PvsIndex

structure Documents where
  lastId : Nat := 0
  uris : Std.TreeMap Nat Uri := {}
  ids : Std.TreeMap String Nat := {}

namespace Documents

def uri? (d : Documents) (id : Nat) : Option Uri :=
  d.uris[id]?

def id? (d : Documents) (uri : Uri) : Option Nat :=
  d.ids[uri.text]?

/-- An open document keeps its number. -/
def openUri (d : Documents) (uri : Uri) : Nat × Documents :=
  match d.id? uri with
  | some id => (id, d)
  | none =>
    let id := d.lastId + 1
    (id, ⟨id, d.uris.insert id uri, d.ids.insert uri.text id⟩)

def closeUri (d : Documents) (uri : Uri) : Option Nat × Documents :=
  match d.id? uri with
  | some id => (some id, { d with uris := d.uris.erase id, ids := d.ids.erase uri.text })
  | none => (none, d)

end Documents

end PvsIndex
