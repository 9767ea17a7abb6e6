import PvsIndex.Proofs.Declaration.History
import PvsIndex.Proofs.Except
import PvsIndex.Proofs.Grammar.Blame
import PvsIndex.Proofs.Lsp.Run
import PvsIndex.Proofs.Source.Units

/-! What the server sends about documents: the diagnostics of each text when it comes, and nothing
at any other time. -/

namespace PvsIndex

namespace Message

/-- What a message says of a document: its version and text, or that it is closed. -/
def news? : Message → Option (Uri × Option (Int × String))
  | opened uri version text => some (uri, some (version, text))
  | changed uri version text => some (uri, some (version, text))
  | closed uri => some (uri, none)
  | _ => none

theorem notification?_map {α β : Type} (params : Json → Option α) (f : α → β) (json : Json) :
    notification? (fun json => (params json).map f) json = (notification? params json).map f := by
  simp only [notification?, Json.required?, Option.bind_eq_bind, Option.map_bind,
    Function.comp_def]

section Protocol

variable [Protocol]

/-- The document that changes, its version if there is one, and its texts. -/
def changeOf? (json : Json) : Option (Uri × Option Int × List String) := do
  let json := json.named ["textDocument", "contentChanges"]
  let (uri, version) ← json.required? "textDocument" versioned?
  return (uri, version, ← json.required? "contentChanges" (Json.list? change?))

theorem changed?_eq (json : Json) : changed? json =
    (changeOf? json).map fun (uri, version, texts) => match texts.getLast? with
      | none => ignored
      | some text => changed uri (version.getD 0) text := by
  rw [changed?, changeOf?]
  dsimp only
  cases (json.named ["textDocument", "contentChanges"]).required? "textDocument" versioned? with
  | none => rfl
  | some document =>
    obtain ⟨uri, version⟩ := document
    cases (json.named ["textDocument", "contentChanges"]).required? "contentChanges"
      (Json.list? change?) <;> rfl

/-- Of several changes the last one counts, and a version that is missing is zero. -/
theorem news?_of_change {text : String} {json : Json} {id : Option Int} {uri : Uri}
    {version : Option Int} {texts : List String} (hj : Json.ofText? text = some json)
    (he : envelope? json = some ⟨id, "textDocument/didChange"⟩)
    (hc : notification? changeOf? json = some (uri, version, texts)) :
    (ofText text).news? = texts.getLast?.map fun t => (uri, some (version.getD 0, t)) := by
  have hchanged : notification? changed? json = some (match texts.getLast? with
      | none => ignored
      | some text => changed uri (version.getD 0) text) := by
    rw [funext changed?_eq, notification?_map, hc]
    rfl
  have hdecode : decode? json = notification? changed? json := by
    rw [decode?, he]
    rfl
  rw [ofText, hj, Option.bind_some, hdecode, hchanged, Option.getD_some]
  cases texts.getLast? <;> rfl

end Protocol

end Message

/-- A notification of diagnostics. -/
def Json.IsPublication (json : Json) : Prop :=
  ∃ members, json = .object members ∧
    ("method", .string "textDocument/publishDiagnostics") ∈ members

def Utf16Position.encode (q : Utf16Position) : Json :=
  .object [("line", .number (toString q.row)), ("character", .number (toString q.column16))]

namespace Diagnostic

/-- The diagnostic of a text as it is sent: it begins and ends where the text has those positions,
in rows from zero and code units, and runs forward in one row. -/
def Encodes (text : String) (d : Diagnostic) (json : Json) : Prop :=
  let start := Utf16Position.ofPosition d.range.start text
  let stop := Utf16Position.ofPosition d.range.stop text
  json = .object [
    ("range", .object [("start", start.encode), ("end", stop.encode)]),
    ("severity", .number "1"),
    ("source", .string "pvs"),
    ("message", .string d.message)] ∧
  start.row = stop.row ∧ start.column16 ≤ stop.column16

end Diagnostic

namespace Server

/-- What is sent back for a message: about a document that is opened or changed, the diagnostics of
its text; about a closed one, that there are none; and for other messages nothing of the kind. -/
def Answers (message : Message) (bodies : List Json) : Prop :=
  match message.news? with
  | none => ∀ body ∈ bodies, ¬ body.IsPublication
  | some (uri, none) =>
    bodies = [.object [
      ("jsonrpc", .string "2.0"),
      ("method", .string "textDocument/publishDiagnostics"),
      ("params", .object [("uri", .string uri.text), ("diagnostics", .array [])])]]
  | some (uri, some (version, text)) => ∃ encoded,
    bodies = [.object [
      ("jsonrpc", .string "2.0"),
      ("method", .string "textDocument/publishDiagnostics"),
      ("params", .object [
        ("uri", .string uri.text),
        ("version", .number (toString version)),
        ("diagnostics", .array encoded)])]] ∧
      List.Forall₂ (Diagnostic.Encodes text) (Parse.ofText text).diagnostics encoded

def Fits (text : String) : Prop :=
  text.toList.length < Word.signedLimit

instance (text : String) : Decidable (Fits text) :=
  inferInstanceAs (Decidable (_ < _))

/-- The message is about a document, and brings no text or one that fits in memory. -/
def Heeds (message : Message) : Prop :=
  match message.news? with
  | none => False
  | some (_, none) => True
  | some (_, some (_, text)) => Fits text

end Server

theorem Parse.diagnostic_bounds {text : String} {d : Diagnostic}
    (h : d ∈ (Parse.ofText text).diagnostics) :
    d.range.start.line = d.range.stop.line ∧
      d.range.start.character ≤ d.range.stop.character ∧
        d.range.stop.line ≤ text.toList.length + 1 ∧
          d.range.stop.character ≤ text.toList.length := by
  obtain ⟨e, he, rfl⟩ := List.mem_map.mp h
  have hshows := Tokens.shows_of_mem (Parse.token_mem he)
  have hstop := hshows.stop_le
  have hbounds := Position.ofIndex_bounds text.toList (i := e.token.startIndex) (by omega)
  have hposition : e.position = .ofIndex text.toList e.token.startIndex := by
    rw [SyntaxError.position, hshows.range]
  rw [e.diagnostic_range, hposition]
  dsimp only
  omega

namespace Server

variable {s : Server} {id : Nat} {d : Document}

section Encoding

variable (hd : s.service.documents[id]? = some d)

include hd

theorem encodePosition_eq (p : Position) : s.encodePosition id p =
    (Utf16Position.ofPosition p d.text).checked.map Utf16Position.encode := by
  rw [encodePosition, Service.ofPosition, hd]
  dsimp only
  cases (Utf16Position.ofPosition p d.text).checked <;> rfl

theorem encodePosition_of {p : Position} {json : Json} (h : s.encodePosition id p = .ok json) :
    json = (Utf16Position.ofPosition p d.text).encode := by
  rw [encodePosition_eq hd] at h
  unfold Utf16Position.checked at h
  split_ifs at h
  · exact (Except.ok.inj h).symm
  · cases h

theorem encodeDiagnostic_of {diagnostic : Diagnostic} {json : Json}
    (hmem : diagnostic ∈ (Parse.ofText d.text).diagnostics)
    (h : s.encodeDiagnostic id diagnostic = .ok json) : diagnostic.Encodes d.text json := by
  obtain ⟨range, hrange, h⟩ := Except.exists_ok_of_bind h
  obtain ⟨start, hstart, hrange⟩ := Except.exists_ok_of_bind hrange
  obtain ⟨stop, hstop, hrange⟩ := Except.exists_ok_of_bind hrange
  obtain rfl := encodePosition_of hd hstart
  obtain rfl := encodePosition_of hd hstop
  obtain rfl := Except.ok.inj hrange
  obtain rfl := Except.ok.inj h
  obtain ⟨hline, hcharacter, -, -⟩ := Parse.diagnostic_bounds hmem
  have hseverity : diagnostic.severity = .error := by
    obtain ⟨e, -, rfl⟩ := List.mem_map.mp hmem
    rfl
  refine ⟨?_, Utf16Position.ofPosition_row hline, Utf16Position.ofPosition_mono hline hcharacter⟩
  rw [hseverity]
  rfl

theorem exists_encodeDiagnostic {diagnostic : Diagnostic} (hfits : Fits d.text)
    (hmem : diagnostic ∈ (Parse.ofText d.text).diagnostics) :
    ∃ json, s.encodeDiagnostic id diagnostic = .ok json := by
  obtain ⟨hline, hcharacter, hrow, hcolumn⟩ := Parse.diagnostic_bounds hmem
  have hstart := encodePosition_eq hd diagnostic.range.start
  have hstop := encodePosition_eq hd diagnostic.range.stop
  rw [Utf16Position.ofPosition_fits hfits (by omega) (by omega)] at hstart
  rw [Utf16Position.ofPosition_fits hfits hrow hcolumn] at hstop
  rw [encodeDiagnostic, encodeRange, hstart, hstop]
  exact ⟨_, rfl⟩

end Encoding

section Update

variable {uri : Uri} {version : Int} {text : String}

/-- A document that was just opened is analysed afresh, whatever was known under its number. -/
theorem validate_openDocument (service : Service) (id : Nat) (version : Int) (text : String) :
    ∃ service' d, (service.openDocument id version text).validate id =
        .ok ((some version, (Parse.ofText text).diagnostics), service') ∧
      service'.documents[id]? = some d ∧ d.text = text := by
  obtain ⟨r, hr⟩ := Analysis.exists_ok text false
  let d : Document := ⟨version, text, some ⟨Parse.ofText text, r⟩⟩
  let opened := service.openDocument id version text
  refine ⟨{ opened with documents := opened.documents.insert id d }, d, ?_,
    Std.TreeMap.getElem?_insert_self, rfl⟩
  have hopened : opened.documents[id]? = some { version, text } :=
    Std.TreeMap.getElem?_insert_self
  rw [Service.validate, Service.request, hopened]
  dsimp only
  rw [Document.analyze, hr]
  rfl

/-- What is sent for a new text depends on the number of the document and the text only. -/
theorem exists_update_eq (s : Server) (uri : Uri) (version : Int) (text : String) :
    ∃ s' id d, s'.service.documents[id]? = some d ∧ d.text = text ∧
      s.update uri version text = (do
        let encoded ← (Parse.ofText text).diagnostics.mapM (s'.encodeDiagnostic id)
        return ⟨[publication uri (some version) encoded], some s'⟩) := by
  cases hopen : s.documents.openUri uri with
  | mk id documents =>
    obtain ⟨service, d, hvalidate, hd, htext⟩ := validate_openDocument s.service id version text
    refine ⟨⟨service, documents⟩, id, d, hd, htext, ?_⟩
    rw [update, hopen]
    dsimp only
    rw [publish, hvalidate]
    rfl

theorem update_answers {reply : Reply} (h : s.update uri version text = .ok reply) :
    ∃ encoded s', reply = ⟨[publication uri (some version) encoded], some s'⟩ ∧
      List.Forall₂ (Diagnostic.Encodes text) (Parse.ofText text).diagnostics encoded := by
  obtain ⟨s', id, d, hd, rfl, hupdate⟩ := exists_update_eq s uri version text
  rw [hupdate] at h
  obtain ⟨encoded, hencoded, h⟩ := Except.exists_ok_of_bind h
  refine ⟨encoded, s', (Except.ok.inj h).symm, ?_⟩
  exact Except.forall₂_of_mapM hencoded fun diagnostic hmem json hjson =>
    encodeDiagnostic_of hd hmem hjson

theorem exists_update (h : Fits text) : ∃ reply, s.update uri version text = .ok reply := by
  obtain ⟨s', id, d, hd, rfl, hupdate⟩ := exists_update_eq s uri version text
  obtain ⟨encoded, hencoded⟩ := Except.exists_mapM fun diagnostic hmem =>
    exists_encodeDiagnostic hd h hmem
  exact ⟨_, by rw [hupdate, hencoded]; rfl⟩

end Update

section Answering

variable {message : Message} {reply : Reply}

theorem Heeds.ne_exit (h : Heeds message) : message ≠ .exit := by
  rintro rfl
  exact h

theorem response_not_publication (id : Int) (result : Json) :
    ¬ (response id result).IsPublication := by
  simp [Json.IsPublication, response]

theorem failure_not_publication (id : Int) (code : Int) (text : String) :
    ¬ (failure id code text).IsPublication := by
  simp [Json.IsPublication, failure]

/-- One message is answered by what it says of a document, whatever was said before. -/
theorem handle_answers (h : s.handle message = .ok reply) (hexit : message ≠ .exit) :
    Answers message reply.bodies := by
  cases message with
  | connect id =>
    obtain rfl := Except.ok.inj h
    exact List.forall_mem_singleton.mpr (response_not_publication _ _)
  | shutdown id =>
    obtain rfl := Except.ok.inj h
    exact List.forall_mem_singleton.mpr (response_not_publication _ _)
  | exit => exact absurd rfl hexit
  | opened uri version text =>
    obtain ⟨encoded, s', rfl, hencoded⟩ := update_answers h
    exact ⟨encoded, rfl, hencoded⟩
  | changed uri version text =>
    obtain ⟨encoded, s', rfl, hencoded⟩ := update_answers h
    exact ⟨encoded, rfl, hencoded⟩
  | closed uri =>
    obtain rfl := Except.ok.inj h
    rfl
  | definition id uri q =>
    obtain ⟨found, -, h⟩ := Except.exists_ok_of_bind h
    obtain rfl := Except.ok.inj h
    exact List.forall_mem_singleton.mpr (response_not_publication _ _)
  | hover id uri q =>
    obtain ⟨found, -, h⟩ := Except.exists_ok_of_bind h
    obtain rfl := Except.ok.inj h
    exact List.forall_mem_singleton.mpr (response_not_publication _ _)
  | unknown id method =>
    obtain rfl := Except.ok.inj h
    exact List.forall_mem_singleton.mpr (failure_not_publication _ _ _)
  | ignored =>
    obtain rfl := Except.ok.inj h
    exact nofun

end Answering

section Protocol

variable [Protocol]

theorem Run.answers {s s' : Server} {messages : List String} {replies : List (List Json)}
    (h : Run s messages replies s') (hexit : ∀ text ∈ messages, Message.ofText text ≠ .exit) :
    List.Forall₂ (fun text => Answers (.ofText text)) messages replies := by
  induction h with
  | nil s => exact .nil
  | cons hfirst hrest ih =>
    obtain ⟨hne, hexit⟩ := List.forall_mem_cons.mp hexit
    exact .cons (handle_answers hfirst hne) (ih hexit)

theorem exists_receive (s : Server) {text : String} (h : Heeds (.ofText text)) :
    ∃ bodies s', s.receive text = .ok ⟨bodies, some s'⟩ := by
  obtain ⟨⟨bodies, server⟩, hreply⟩ : ∃ reply, s.receive text = .ok reply := by
    unfold receive
    cases hm : Message.ofText text with
    | opened uri version t | changed uri version t =>
      rw [hm] at h
      exact exists_update h
    | closed uri => exact ⟨_, rfl⟩
    | _ =>
      rw [hm] at h
      exact h.elim
  obtain ⟨s', rfl⟩ : ∃ s', server = some s' := exists_server hreply h.ne_exit
  exact ⟨bodies, s', hreply⟩

/-- In a run without an end, each message that opens, changes or closes a document is answered by
one notification, with the diagnostics of the text that it brings; no other message is answered by
such a notification. Whatever was said before, the next message of that kind is answered, if its
text fits in memory. Of several changes the last one counts, and a version that is missing is
zero. -/
theorem converse_publishes (mode : LookupMode) {messages : List String}
    {replies : List (List Json)} (hexit : ∀ text ∈ messages, Message.ofText text ≠ .exit)
    (hrun : (start mode).converse messages = .ok replies) :
    List.Forall₂ (fun text => Answers (.ofText text)) messages replies ∧
      (∀ text, Heeds (.ofText text) → ∃ bodies,
        (start mode).converse (messages ++ [text]) = .ok (replies ++ [bodies]) ∧
          Answers (.ofText text) bodies) ∧
      ∀ text json id uri version texts, Json.ofText? text = some json →
        Message.envelope? json = some ⟨id, "textDocument/didChange"⟩ →
        Message.notification? Message.changeOf? json = some (uri, version, texts) →
        (Message.ofText text).news? =
          texts.getLast?.map fun t => (uri, some (version.getD 0, t)) := by
  obtain ⟨s', hs⟩ := exists_run hexit hrun
  refine ⟨hs.answers hexit, fun text hheeds => ?_, fun _ _ _ _ _ _ hj he hc =>
    Message.news?_of_change hj he hc⟩
  obtain ⟨bodies, s₁, hreceive⟩ := s'.exists_receive hheeds
  exact ⟨bodies, hs.converse_concat hreceive, handle_answers hreceive hheeds.ne_exit⟩

end Protocol

/-- A document is opened with an unfinished theory, and closed: its diagnostics come and go. -/
theorem converse_publishes_session :
    let opening :=
      "\x7b\"jsonrpc\":\"2.0\",\"method\":\"textDocument/didOpen\",\"params\":" ++
      "\x7b\"textDocument\":\x7b\"uri\":\"untitled:a\",\"languageId\":\"pvs\"," ++
      "\"version\":7,\"text\":\"t: THEORY\"\x7d\x7d\x7d"
    let closing :=
      "\x7b\"jsonrpc\":\"2.0\",\"method\":\"textDocument/didClose\",\"params\":" ++
      "\x7b\"textDocument\":\x7b\"uri\":\"untitled:a\"\x7d\x7d\x7d"
    (start .scoped).converse [opening, closing] = .ok [
      [.object [
        ("jsonrpc", .string "2.0"),
        ("method", .string "textDocument/publishDiagnostics"),
        ("params", .object [
          ("uri", .string "untitled:a"),
          ("version", .number "7"),
          ("diagnostics", .array [.object [
            ("range", .object [
              ("start", .object [("line", .number "0"), ("character", .number "9")]),
              ("end", .object [("line", .number "0"), ("character", .number "9")])]),
            ("severity", .number "1"),
            ("source", .string "pvs"),
            ("message", .string "mismatched input '<EOF>' expecting 'BEGIN'")]])])]],
      [.object [
        ("jsonrpc", .string "2.0"),
        ("method", .string "textDocument/publishDiagnostics"),
        ("params", .object [("uri", .string "untitled:a"), ("diagnostics", .array [])])]]] := by
  intro opening closing
  have hopen : Message.ofText opening = .opened ⟨"untitled:a"⟩ 7 "t: THEORY" := by
    decide +kernel
  have hclose : Message.ofText closing = .closed ⟨"untitled:a"⟩ := by decide +kernel
  have hdiagnostics : (Parse.ofText "t: THEORY").diagnostics =
      [⟨⟨⟨1, 9⟩, ⟨1, 9⟩⟩, "mismatched input '<EOF>' expecting 'BEGIN'", .error⟩] := by
    decide +kernel
  have hplace : Utf16Position.ofPosition ⟨1, 9⟩ "t: THEORY" = ⟨0, 9⟩ := by decide +kernel
  clear_value opening closing
  obtain ⟨-, hnext, -⟩ := @converse_publishes _ .scoped [] [] nofun rfl
  have hheeds : Heeds (.ofText opening) := by
    have hfits : Fits "t: THEORY" := by decide
    rw [hopen]
    exact hfits
  have hexit : ∀ text ∈ [opening], Message.ofText text ≠ .exit :=
    List.forall_mem_singleton.mpr (by rw [hopen]; simp)
  obtain ⟨first, hfirst, hanswer⟩ := hnext opening hheeds
  rw [hopen] at hanswer
  obtain ⟨encoded, rfl, hencoded⟩ := hanswer
  rw [hdiagnostics] at hencoded
  obtain ⟨_, _, ⟨rfl, -⟩, hnil, rfl⟩ := List.forall₂_cons_left_iff.mp hencoded
  obtain rfl := List.forall₂_nil_left_iff.mp hnil
  dsimp only at hfirst
  rw [hplace] at hfirst
  obtain ⟨-, hnext, -⟩ := converse_publishes .scoped hexit hfirst
  obtain ⟨second, hsecond, hanswer⟩ := hnext closing (by rw [hclose]; trivial)
  rw [hclose] at hanswer
  rw [hanswer] at hsecond
  exact hsecond

end Server

end PvsIndex
