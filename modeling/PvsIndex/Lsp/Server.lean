import PvsIndex.Lsp.Message
import PvsIndex.Lsp.Documents
import PvsIndex.Json.Printer
import PvsIndex.Service

/-! The server: one message after the other, and what is sent back for each. -/

namespace PvsIndex

structure Server where
  service : Service
  documents : Documents := {}

/-- What is sent back for a message. After the last message there is no server. -/
structure Reply where
  bodies : List Json
  server : Option Server

namespace Server

def name : String := "pvs_lsp"

def version : String := "0.1.0"

def fullSynchronization : Nat := 1

def unknownMethod : Int := -32601

def start (mode : LookupMode) : Server :=
  { service := { mode } }

def response (id : Int) (result : Json) : Json :=
  .object [("jsonrpc", .string "2.0"), ("id", .ofInt id), ("result", result)]

def failure (id : Int) (code : Int) (message : String) : Json :=
  .object [
    ("jsonrpc", .string "2.0"),
    ("id", .ofInt id),
    ("error", .object [("code", .ofInt code), ("message", .string message)])]

def notification (method : String) (params : Json) : Json :=
  .object [("jsonrpc", .string "2.0"), ("method", .string method), ("params", params)]

def capabilities : Json :=
  .object [
    ("capabilities", .object [
      ("textDocumentSync", .object [
        ("openClose", .bool true), ("change", .ofNat fullSynchronization)]),
      ("hoverProvider", .bool true),
      ("definitionProvider", .bool true)]),
    ("serverInfo", .object [("name", .string name), ("version", .string version)])]

def encodePosition (s : Server) (id : Nat) (p : Position) : Except Fault Json := do
  let q := (← s.service.ofPosition id p).getD ⟨p.line - 1, p.character⟩
  return .object [("line", .ofNat q.row), ("character", .ofNat q.column16)]

def encodeRange (s : Server) (id : Nat) (r : Range) : Except Fault Json :=
  return .object [
    ("start", ← s.encodePosition id r.start), ("end", ← s.encodePosition id r.stop)]

def encodeDiagnostic (s : Server) (id : Nat) (d : Diagnostic) : Except Fault Json :=
  return .object [
    ("range", ← s.encodeRange id d.range),
    ("severity", .ofNat d.severity.number),
    ("source", .string "pvs"),
    ("message", .string d.message)]

def publication (uri : Uri) (version : Option Int) (diagnostics : List Json) : Json :=
  let version := match version with
    | none => []
    | some version => [("version", Json.ofInt version)]
  notification "textDocument/publishDiagnostics" <| .object <|
    ("uri", .string uri.text) :: version ++ [("diagnostics", .array diagnostics)]

/-- Sends the diagnostics of a document that was opened or changed. -/
def publish (s : Server) (uri : Uri) (id : Nat) : Except Fault Reply := do
  let ((version, diagnostics), service) ← s.service.validate id
  let s := { s with service }
  let diagnostics ← diagnostics.mapM (s.encodeDiagnostic id)
  return ⟨[publication uri version diagnostics], some s⟩

/-- A document that changes is opened if it is not. -/
def update (s : Server) (uri : Uri) (version : Int) (text : String) : Except Fault Reply :=
  let (id, documents) := s.documents.openUri uri
  { s with documents, service := s.service.openDocument id version text }.publish uri id

def close (s : Server) (uri : Uri) : Reply :=
  let (id, documents) := s.documents.closeUri uri
  let service := match id with
    | none => s.service
    | some id => s.service.closeDocument id
  ⟨[publication uri none []], some { s with documents, service }⟩

def define (s : Server) (uri : Uri) (q : Utf16Position) : Except Fault (Json × Server) := do
  let some id := s.documents.id? uri | return (.null, s)
  let some uri := s.documents.uri? id | return (.null, s)
  let some p ← s.service.toPosition id q | return (.null, s)
  let (ranges, service) ← s.service.definitions id p
  let s := { s with service }
  let some ranges := ranges | return (.null, s)
  let locations ← ranges.mapM fun range =>
    return Json.object [("uri", .string uri.text), ("range", ← s.encodeRange id range)]
  return (.array locations, s)

def hover (s : Server) (uri : Uri) (q : Utf16Position) : Except Fault (Json × Server) := do
  let some id := s.documents.id? uri | return (.null, s)
  let some p ← s.service.toPosition id q | return (.null, s)
  let (text, service) ← s.service.hover id p
  let s := { s with service }
  let some text := text | return (.null, s)
  let contents := Json.object [("kind", .string "markdown"), ("value", .string text)]
  return (.object [("contents", contents)], s)

def handle (s : Server) : Message → Except Fault Reply
  | .connect id => .ok ⟨[response id capabilities], some s⟩
  | .shutdown id => .ok ⟨[response id .null], some s⟩
  | .exit => .ok ⟨[], none⟩
  | .opened uri version text => s.update uri version text
  | .changed uri version text => s.update uri version text
  | .closed uri => .ok (s.close uri)
  | .definition id uri q => do
    let (result, s) ← s.define uri q
    return ⟨[response id result], some s⟩
  | .hover id uri q => do
    let (result, s) ← s.hover uri q
    return ⟨[response id result], some s⟩
  | .unknown id method =>
    .ok ⟨[failure id unknownMethod s!"unknown method '{method}'"], some s⟩
  | .ignored => .ok ⟨[], some s⟩

section Protocol

variable [Protocol]

def receive (s : Server) (text : String) : Except Fault Reply :=
  s.handle (.ofText text)

/-- The replies to a run of messages, one list for each. -/
def converse (s : Server) : List String → Except Fault (List (List Json))
  | [] => .ok []
  | text :: texts => do
    let reply ← s.receive text
    match reply.server with
    | none => return [reply.bodies]
    | some s => return reply.bodies :: (← s.converse texts)

end Protocol

end Server

end PvsIndex
