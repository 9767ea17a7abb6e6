import PvsIndex.Analysis

/-! The language service: questions about the open documents. A document is analysed when it is
first asked about, and the analysis is kept until the document changes. -/

namespace PvsIndex

structure Document where
  version : Int
  text : String
  analysis : Option Analysis := none

namespace Document

def analyze (d : Document) : Except Fault Analysis :=
  match d.analysis with
  | some a => .ok a
  | none => Analysis.ofText d.text false

end Document

namespace Analysis

/-- The name that the position touches; of two that meet there, the first. -/
def nameAt? (a : Analysis) (p : Position) : Option String :=
  (a.parse.tokens.toList.find? fun t => t.kind = .identifier ∧ t.range.Touches p).map (·.text)

/-- The declaration of the name that the position touches. -/
def declarationAt? (a : Analysis) (mode : LookupMode) (p : Position) : Option Declaration := do
  mode.find? a.table (← a.nameAt? p) (some p)

/-- Where the declared name stands. -/
def definitionsAt (a : Analysis) (mode : LookupMode) (p : Position) :
    Except Fault (Option (List Range)) :=
  match a.declarationAt? mode p with
  | none => .ok none
  | some d => return some [← d.nameRange]

def hoverAt? (a : Analysis) (mode : LookupMode) (p : Position) : Option String :=
  (a.declarationAt? mode p).map fun d => s!"```pvs\n{d.sourceText}\n```"

end Analysis

structure Service where
  mode : LookupMode
  documents : Std.TreeMap Nat Document := {}

namespace Service

def openDocument (s : Service) (id : Nat) (version : Int) (text : String) : Service :=
  { s with documents := s.documents.insert id { version, text } }

def closeDocument (s : Service) (id : Nat) : Service :=
  { s with documents := s.documents.erase id }

/-- The document with its analysis, which is kept. -/
def request (s : Service) (id : Nat) :
    Except Fault (Option (Document × Analysis) × Service) :=
  match s.documents[id]? with
  | none => .ok (none, s)
  | some d => do
    let a ← d.analyze
    let documents := s.documents.insert id { d with analysis := some a }
    return (some (d, a), { s with documents })

/-- The version and the diagnostics of a document. A closed one has neither. -/
def validate (s : Service) (id : Nat) :
    Except Fault ((Option Int × List Diagnostic) × Service) := do
  match ← s.request id with
  | (none, s) => return ((none, []), s)
  | (some (d, a), s) => return ((some d.version, a.diagnostics), s)

def definitions (s : Service) (id : Nat) (p : Position) :
    Except Fault (Option (List Range) × Service) := do
  match ← s.request id with
  | (none, s) => return (none, s)
  | (some (_, a), s) => return (← a.definitionsAt s.mode p, s)

def hover (s : Service) (id : Nat) (p : Position) : Except Fault (Option String × Service) := do
  match ← s.request id with
  | (none, s) => return (none, s)
  | (some (_, a), s) => return (a.hoverAt? s.mode p, s)

def toPosition (s : Service) (id : Nat) (q : Utf16Position) : Except Fault (Option Position) :=
  match s.documents[id]? with
  | none => .ok none
  | some d => return some (← (q.toPosition d.text).checked)

def ofPosition (s : Service) (id : Nat) (p : Position) : Except Fault (Option Utf16Position) :=
  match s.documents[id]? with
  | none => .ok none
  | some d => return some (← (Utf16Position.ofPosition p d.text).checked)

end Service

end PvsIndex
