import PvsIndex.Grammar.Error
import PvsIndex.Source.Word

/-! Diagnostics: syntax errors as ranges with messages. -/

namespace PvsIndex

inductive Severity where
  | error | warning | information | hint
  deriving DecidableEq, Inhabited

def Severity.number : Severity → Nat
  | error => 1
  | warning => 2
  | information => 3
  | hint => 4

structure Diagnostic where
  range : Range
  message : String
  severity : Severity := .error
  deriving DecidableEq, Inhabited

namespace Diagnostic

def render (d : Diagnostic) : String :=
  s!"{d.range.render} {d.message}"

end Diagnostic

/-- A syntax error as it is passed on. The token is missing if the error is not about one. -/
structure Report where
  token : Option Token
  position : Position
  message : String
  deriving DecidableEq, Inhabited

def SyntaxError.report (e : SyntaxError) : Report :=
  ⟨some e.token, e.position, e.message⟩

namespace Report

/-- The distance from the first to the last character of the token, one less than none at the end
of the text. -/
def extent (r : Report) : Int :=
  match r.token with
  | none => 0
  | some t => t.stopIndex - t.startIndex

/-- The character after the token, on the line where the token starts. -/
def stopCharacter (r : Report) : Int :=
  r.position.character + 1 + r.extent

def diagnostic (r : Report) : Diagnostic :=
  { range := ⟨r.position, ⟨r.position.line, r.stopCharacter.toNat⟩⟩
    message := r.message }

/-- The end of a diagnostic is summed up in signed words. A character beyond them counts back from
the limit, and a sum beyond them is refused. -/
def checkedDiagnostic (r : Report) : Except Fault Diagnostic :=
  let character := Int.bmod r.position.character Word.limit
  if max (character + 1) (character + 1 + r.extent) < Word.signedLimit then
    let stop := ((character + 1 + r.extent) % Word.limit).toNat
    .ok { r.diagnostic with range := ⟨r.position, ⟨r.position.line, stop⟩⟩ }
  else .error .overflow

end Report

end PvsIndex
