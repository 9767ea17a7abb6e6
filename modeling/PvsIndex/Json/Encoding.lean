import PvsIndex.Declaration.Table
import PvsIndex.Diagnostic.Basic
import PvsIndex.Json.Basic

/-! Positions, ranges, declarations and diagnostics as JSON. -/

namespace PvsIndex

def Position.toJson (p : Position) : Json :=
  .object [("line", .ofNat p.line), ("character", .ofNat p.character)]

def Range.toJson (r : Range) : Json :=
  .object [("start", r.start.toJson), ("end", r.stop.toJson)]

def Declaration.toJson (d : Declaration) : Json :=
  .object [
    ("name", .string d.name),
    ("position", d.position.toJson),
    ("sourceText", .string d.sourceText),
    ("scope", .ofOption Range.toJson d.scope)]

def Diagnostic.toJson (d : Diagnostic) : Json :=
  .object [
    ("range", d.range.toJson),
    ("message", .string d.message),
    ("severity", .ofNat d.severity.number)]

def Table.toJson (t : Table) : Json :=
  .object <| Category.all.map fun category =>
    (category.name, .ofList (Declaration.toJson ·.2) (t.entries category))

end PvsIndex
