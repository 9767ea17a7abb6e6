import PvsIndex.Json.Reader
import PvsIndex.Lsp.Protocol
import PvsIndex.Source.Utf16

/-! Messages from a client. What is no message of the right shape is ignored. -/

namespace PvsIndex

inductive Message where
  | connect (id : Int)
  | shutdown (id : Int)
  | exit
  | opened (uri : Uri) (version : Int) (text : String)
  | changed (uri : Uri) (version : Int) (text : String)
  | closed (uri : Uri)
  | definition (id : Int) (uri : Uri) (position : Utf16Position)
  | hover (id : Int) (uri : Uri) (position : Utf16Position)
  | unknown (id : Int) (method : String)
  | ignored
  deriving DecidableEq

namespace Message

/-- What every message has: a method and, if it is a request, a number. -/
structure Envelope where
  id : Option Int
  method : String

def envelope? (json : Json) : Option Envelope := do
  let json := json.named ["id", "method"]
  return ⟨← json.optional? "id" Json.signedWord?, ← json.required? "method" Json.text?⟩

def position? (json : Json) : Option Utf16Position := do
  let json := json.named ["line", "character"]
  return ⟨← json.required? "line" Json.word?, ← json.required? "character" Json.word?⟩

def request? {α : Type} (params : Json → Option α) (json : Json) : Option (Int × α) := do
  let json := json.named ["id", "params"]
  return (← json.required? "id" Json.signedWord?, ← json.required? "params" params)

/-- Unlike a request, a notification says which protocol it is of, though not anything else. -/
def notification? {α : Type} (params : Json → Option α) (json : Json) : Option α := do
  let json := json.named ["jsonrpc", "method", "params"]
  let _ ← json.required? "jsonrpc" Json.text?
  let _ ← json.required? "method" Json.text?
  json.required? "params" params

/-- The range of a change is checked and not used: the text is that of the whole document. -/
def change? (json : Json) : Option String := do
  let json := json.named ["range", "rangeLength", "text"]
  let _ ← json.optional? "range" fun range => do
    let range := range.named ["start", "end"]
    let _ ← range.required? "start" position?
    range.required? "end" position?
  let _ ← json.optional? "rangeLength" Json.word?
  json.required? "text" Json.text?

section Protocol

variable [Protocol]

def uri? (json : Json) : Option Uri := do
  Protocol.uri? (← json.text?)

def identifier? (json : Json) : Option Uri :=
  (json.named ["uri"]).required? "uri" uri?

/-- The document that the parameters are about. -/
def document? (json : Json) : Option Uri :=
  (json.named ["textDocument"]).required? "textDocument" identifier?

def place? (json : Json) : Option (Uri × Utf16Position) := do
  let json := json.named ["textDocument", "position"]
  return (← json.required? "textDocument" identifier?, ← json.required? "position" position?)

def client? (json : Json) : Option Json :=
  if Protocol.isClient json then some json else none

def opened? (json : Json) : Option Message :=
  (json.named ["textDocument"]).required? "textDocument" fun item => do
    let item := item.named ["uri", "languageId", "version", "text"]
    let uri ← item.required? "uri" uri?
    let _ ← item.required? "languageId" Json.text?
    let version ← item.required? "version" Json.signedWord?
    return opened uri version (← item.required? "text" Json.text?)

def versioned? (json : Json) : Option (Uri × Option Int) := do
  let json := json.named ["uri", "version"]
  return (← json.required? "uri" uri?, ← json.optional? "version" Json.signedWord?)

/-- The last change counts. -/
def changed? (json : Json) : Option Message := do
  let json := json.named ["textDocument", "contentChanges"]
  let (uri, version) ← json.required? "textDocument" versioned?
  let texts ← json.required? "contentChanges" (Json.list? change?)
  return match texts.getLast? with
    | none => ignored
    | some text => changed uri (version.getD 0) text

def decode? (json : Json) : Option Message := do
  let envelope ← envelope? json
  match envelope.method, envelope.id with
  | "initialize", _ =>
    let (id, _) ← request? client? json
    return connect id
  | "initialized", _ => return ignored
  | "shutdown", some id => return shutdown id
  | "shutdown", none => return ignored
  | "exit", _ => return exit
  | "textDocument/didOpen", _ => notification? opened? json
  | "textDocument/didChange", _ => notification? changed? json
  | "textDocument/didClose", _ => return closed (← notification? document? json)
  | "textDocument/definition", _ =>
    let (id, uri, position) ← request? place? json
    return definition id uri position
  | "textDocument/hover", _ =>
    let (id, uri, position) ← request? place? json
    return hover id uri position
  | method, some id => return unknown id method
  | _, none => return ignored

def ofText (text : String) : Message :=
  ((Json.ofText? text).bind decode?).getD ignored

end Protocol

end Message

end PvsIndex
