import PvsIndex.Proofs.Lsp.Landing
import PvsIndex.Proofs.Lsp.Numbering

/-! Messages that leave no trace: what is ignored or only asked changes no later reply, and what is
asked is answered once. -/

namespace PvsIndex

namespace Message

def methods : List String :=
  ["initialize", "initialized", "shutdown", "exit", "textDocument/didOpen",
    "textDocument/didChange", "textDocument/didClose", "textDocument/definition",
    "textDocument/hover"]

/-- The message that asks with a number. -/
def AsksFor (number : Int) : Message → Prop
  | connect id | shutdown id | definition id _ _ | hover id _ _ | unknown id _ => id = number
  | _ => False

theorem AsksFor.news?_eq {message : Message} {number : Int} (h : message.AsksFor number) :
    message.news? = none := by
  cases message with
  | opened | changed | closed => exact h.elim
  | _ => rfl

section Protocol

variable [Protocol]

/-- What a message of the method has to hold besides is not there. -/
def Refused (json : Json) : String → Prop
  | "initialize" => request? client? json = none
  | "textDocument/didOpen" => notification? opened? json = none
  | "textDocument/didChange" => notification? changeOf? json = none
  | "textDocument/didClose" => notification? document? json = none
  | "textDocument/definition" | "textDocument/hover" => request? place? json = none
  | _ => False

/-- The messages that nothing is sent back for, whatever the server knows: those of the wrong shape,
changes without a text, and what needs no answer. -/
inductive Silent (text : String) : Prop where
  | unreadable (h : Json.ofText? text = none)
  | shapeless {json} (hj : Json.ofText? text = some json) (h : envelope? json = none)
  | refused {json envelope} (hj : Json.ofText? text = some json)
      (he : envelope? json = some envelope) (h : Refused json envelope.method)
  | unchanged {json id uri version} (hj : Json.ofText? text = some json)
      (he : envelope? json = some ⟨id, "textDocument/didChange"⟩)
      (h : notification? changeOf? json = some (uri, version, []))
  | initialized {json id} (hj : Json.ofText? text = some json)
      (he : envelope? json = some ⟨id, "initialized"⟩)
  | unanswerable {json method} (hj : Json.ofText? text = some json)
      (he : envelope? json = some ⟨none, method⟩) (h : method = "shutdown" ∨ method ∉ methods)

/-- The messages that ask for an answer with this number, and change nothing. -/
inductive Asks (text : String) : Int → Prop where
  | connect {json id number client} (hj : Json.ofText? text = some json)
      (he : envelope? json = some ⟨id, "initialize"⟩)
      (h : request? client? json = some (number, client)) : Asks text number
  | shutdown {json number} (hj : Json.ofText? text = some json)
      (he : envelope? json = some ⟨some number, "shutdown"⟩) : Asks text number
  | definition {json id number uri q} (hj : Json.ofText? text = some json)
      (he : envelope? json = some ⟨id, "textDocument/definition"⟩)
      (h : request? place? json = some (number, uri, q)) : Asks text number
  | hover {json id number uri q} (hj : Json.ofText? text = some json)
      (he : envelope? json = some ⟨id, "textDocument/hover"⟩)
      (h : request? place? json = some (number, uri, q)) : Asks text number
  | unknown {json number method} (hj : Json.ofText? text = some json)
      (he : envelope? json = some ⟨some number, method⟩) (h : method ∉ methods) : Asks text number

section Decoding

variable {json : Json} {text : String}

theorem ofText_of_decode? (hj : Json.ofText? text = some json) {message : Option Message}
    (hd : decode? json = message) : ofText text = message.getD ignored := by
  rw [ofText, hj, Option.bind_some, hd]

theorem decode?_of_unhandled {id : Option Int} {method : String}
    (he : envelope? json = some ⟨id, method⟩) (h : method ∉ methods) :
    decode? json = some (id.elim ignored (unknown · method)) := by
  simp only [methods, List.mem_cons, List.not_mem_nil, or_false, not_or] at h
  cases id <;> simp [decode?, he, h]

theorem decode?_of_refused {envelope : Envelope} (he : envelope? json = some envelope)
    (h : Refused json envelope.method) : decode? json = none := by
  obtain ⟨id, method⟩ := envelope
  have hchanged (h : notification? changeOf? json = none) : notification? changed? json = none := by
    rw [funext changed?_eq, notification?_map, h]
    rfl
  unfold Refused at h
  dsimp only at h
  split at h
  · simp [decode?, he, h]
  · simp [decode?, he, h]
  · simp [decode?, he, hchanged h]
  · simp [decode?, he, h]
  · simp [decode?, he, h]
  · simp [decode?, he, h]
  · exact h.elim

theorem Silent.ofText_eq (h : Silent text) : ofText text = ignored := by
  cases h with
  | unreadable h => rw [ofText, h]; rfl
  | @shapeless json hj h =>
    have hnone : decode? json = none := by
      rw [decode?, h]
      rfl
    exact ofText_of_decode? hj hnone
  | refused hj he h => exact ofText_of_decode? hj (decode?_of_refused he h)
  | @unchanged json _ _ _ hj he h =>
    have hchanged : notification? changed? json = some ignored := by
      rw [funext changed?_eq, notification?_map, h]
      rfl
    rw [ofText_of_decode? hj (by rw [decode?, he]), hchanged]
    rfl
  | initialized hj he => exact ofText_of_decode? hj (by rw [decode?, he])
  | unanswerable hj he h =>
    rcases h with rfl | h
    · exact ofText_of_decode? hj (by rw [decode?, he])
    · exact ofText_of_decode? hj (decode?_of_unhandled he h)

theorem Asks.asksFor {number : Int} (h : Asks text number) : (ofText text).AsksFor number := by
  cases h with
  | connect hj he h =>
    rw [ofText_of_decode? hj (by rw [decode?, he]), h]
    rfl
  | shutdown hj he =>
    rw [ofText_of_decode? hj (by rw [decode?, he])]
    rfl
  | definition hj he h =>
    rw [ofText_of_decode? hj (by rw [decode?, he]), h]
    rfl
  | hover hj he h =>
    rw [ofText_of_decode? hj (by rw [decode?, he]), h]
    rfl
  | unknown hj he h =>
    rw [ofText_of_decode? hj (decode?_of_unhandled he h)]
    rfl

end Decoding

end Protocol

end Message

/-- A response to the request with the number: its result, or an error. -/
def Json.RespondsTo (number : Int) (body : Json) : Prop :=
  (∃ result, body = .object [
    ("jsonrpc", .string "2.0"), ("id", .number (toString number)), ("result", result)]) ∨
  ∃ code message, body = .object [
    ("jsonrpc", .string "2.0"), ("id", .number (toString number)),
    ("error", .object [("code", .number code), ("message", .string message)])]

namespace Server

variable {s t : Server} {uri : Uri}

def bodies (reply : Except Fault Reply) : Except Fault (List Json) :=
  reply.map (·.bodies)

section Knowing

variable {known : Nat → Option (Int × String)} (hs : s.service.Knows known)
  (ht : t.service.Knows known)

include hs ht

theorem encodeRange_eq (id : Nat) (r : Range) : s.encodeRange id r = t.encodeRange id r := by
  have hposition (p : Position) : s.encodePosition id p = t.encodePosition id p := by
    rw [encodePosition, encodePosition, hs.ofPosition, ht.ofPosition]
  rw [encodeRange, encodeRange, hposition, hposition]

theorem toPosition_eq (id : Nat) (q : Utf16Position) :
    s.service.toPosition id q = t.service.toPosition id q := by
  rw [hs.toPosition, ht.toPosition]

variable (hmode : s.service.mode = t.service.mode)

include hmode

theorem exists_definitions_eq (id : Nat) (p : Position) :
    ∃ (found : Except Fault (Option (List Range))) (s' t' : Service),
      s'.Knows known ∧ t'.Knows known ∧ s.service.definitions id p = found.map (·, s') ∧
        t.service.definitions id p = found.map (·, t') := by
  obtain ⟨s', hs', -, hsd⟩ := hs.definitions id p
  obtain ⟨t', ht', -, htd⟩ := ht.definitions id p
  rw [hsd, htd, hmode]
  rcases known id with _ | ⟨version, text⟩
  · exact ⟨.ok none, s', t', hs', ht', rfl, rfl⟩
  · obtain ⟨r, ha⟩ := Analysis.exists_ok text false
    generalize (⟨Parse.ofText text, r⟩ : Analysis) = a at ha
    dsimp only [bind, Except.bind]
    rw [ha]
    refine ⟨a.definitionsAt t.service.mode p, s', t', hs', ht', ?_⟩
    dsimp only
    cases a.definitionsAt t.service.mode p <;> exact ⟨rfl, rfl⟩

theorem exists_hover_eq (id : Nat) (p : Position) :
    ∃ (found : Except Fault (Option String)) (s' t' : Service),
      s.service.hover id p = found.map (·, s') ∧ t.service.hover id p = found.map (·, t') := by
  obtain ⟨s', -, -, hsd⟩ := hs.hover id p
  obtain ⟨t', -, -, htd⟩ := ht.hover id p
  rw [hsd, htd, hmode]
  rcases known id with _ | ⟨version, text⟩
  · exact ⟨.ok none, s', t', rfl, rfl⟩
  · obtain ⟨r, ha⟩ := Analysis.exists_ok text false
    dsimp only
    rw [ha]
    exact ⟨.ok _, s', t', rfl, rfl⟩

variable (hd : s.documents = t.documents)

include hd

/-- What is answered about a definition depends on what is known, not on what was asked before. -/
theorem define_fst_eq (uri : Uri) (q : Utf16Position) :
    (s.define uri q).map Prod.fst = (t.define uri q).map Prod.fst := by
  rw [define, define, hd]
  cases t.documents.id? uri with
  | none => rfl
  | some id =>
    dsimp only
    cases t.documents.uri? id with
    | none => rfl
    | some uri =>
      dsimp only
      rw [toPosition_eq hs ht]
      obtain _ | _ | p := t.service.toPosition id q
      · rfl
      · rfl
      · obtain ⟨found, s', t', hs', ht', hsd, htd⟩ := exists_definitions_eq hs ht hmode id p
        have hrange := encodeRange_eq (s := ⟨s', t.documents⟩) (t := ⟨t', t.documents⟩) hs' ht' id
        dsimp only [bind, Except.bind]
        rw [hsd, htd]
        obtain _ | _ | ranges := found
        · rfl
        · rfl
        · dsimp only [Except.map]
          simp only [hrange]
          generalize List.mapM (m := Except Fault) _ ranges = locations
          cases locations <;> rfl

theorem hover_fst_eq (uri : Uri) (q : Utf16Position) :
    (s.hover uri q).map Prod.fst = (t.hover uri q).map Prod.fst := by
  rw [hover, hover, hd]
  cases t.documents.id? uri with
  | none => rfl
  | some id =>
    dsimp only
    rw [toPosition_eq hs ht]
    obtain _ | _ | p := t.service.toPosition id q
    · rfl
    · rfl
    · obtain ⟨found, s', t', hsd, htd⟩ := exists_hover_eq hs ht hmode id p
      dsimp only [bind, Except.bind]
      rw [hsd, htd]
      obtain _ | _ | text := found <;> rfl

end Knowing

theorem update_bodies (s t : Server) (uri : Uri) (version : Int) (text : String) :
    bodies (s.update uri version text) = bodies (t.update uri version text) := by
  obtain ⟨s', id, d, hd, htext, hs⟩ := exists_update_eq s uri version text
  obtain ⟨t', id', e, he, htext', ht⟩ := exists_update_eq t uri version text
  have hposition (p : Position) : s'.encodePosition id p = t'.encodePosition id' p := by
    rw [encodePosition_eq hd, encodePosition_eq he, htext, htext']
  have hdiagnostic : s'.encodeDiagnostic id = t'.encodeDiagnostic id' := by
    funext diagnostic
    rw [encodeDiagnostic, encodeDiagnostic, encodeRange, encodeRange, hposition, hposition]
  rw [hs, ht, hdiagnostic]
  cases (Parse.ofText text).diagnostics.mapM (t'.encodeDiagnostic id') <;> rfl

/-- Two servers that know the same, whatever they were asked. -/
def Alike (s t : Server) : Prop :=
  s.documents = t.documents ∧ ∃ mode known, s.Follows mode known ∧ t.Follows mode known

theorem bodies_definition (s : Server) (id : Int) (uri : Uri) (q : Utf16Position) :
    bodies (s.handle (.definition id uri q)) =
      ((s.define uri q).map Prod.fst).map fun result => [response id result] := by
  rw [handle]
  cases s.define uri q <;> rfl

theorem bodies_hover (s : Server) (id : Int) (uri : Uri) (q : Utf16Position) :
    bodies (s.handle (.hover id uri q)) =
      ((s.hover uri q).map Prod.fst).map fun result => [response id result] := by
  rw [handle]
  cases s.hover uri q <;> rfl

namespace Alike

variable {message : Message} {sent : List Json} {s' : Server}

theorem bodies_eq (h : s.Alike t) (message : Message) :
    bodies (s.handle message) = bodies (t.handle message) := by
  obtain ⟨hd, mode, known, hs, ht⟩ := h
  have hmode := hs.mode.trans ht.mode.symm
  have hservice := ht.service
  rw [← hd] at hservice
  cases message with
  | opened uri version text | changed uri version text => exact update_bodies s t uri version text
  | closed uri => rfl
  | definition id uri q =>
    rw [bodies_definition, bodies_definition, define_fst_eq hs.service hservice hmode hd]
  | hover id uri q =>
    rw [bodies_hover, bodies_hover, hover_fst_eq hs.service hservice hmode hd]
  | _ => rfl

/-- After the same message, servers that knew the same do so again. -/
theorem step (h : s.Alike t) (hs : s.handle message = .ok ⟨sent, some s'⟩) :
    ∃ t', t.handle message = .ok ⟨sent, some t'⟩ ∧ s'.Alike t' := by
  have hbodies := h.bodies_eq message
  obtain ⟨hd, mode, known, hfs, hft⟩ := h
  rw [hs] at hbodies
  cases ht : t.handle message with
  | error fault =>
    rw [ht] at hbodies
    cases hbodies
  | ok reply =>
    obtain ⟨sent', server⟩ := reply
    rw [ht] at hbodies
    obtain rfl : sent = sent' := Except.ok.inj hbodies
    have hexit : message ≠ .exit := by
      rintro rfl
      cases hs
    obtain ⟨t', rfl⟩ : ∃ t', server = some t' := exists_server ht hexit
    refine ⟨t', rfl, ?_, mode, _, hfs.handle hs, hft.handle ht⟩
    rw [documents_of_handle hs, documents_of_handle ht, hd]

theorem skip (h : s.Alike t) (hnews : message.news? = none)
    (hs : s.handle message = .ok ⟨sent, some s'⟩) : s'.Alike t := by
  obtain ⟨hd, mode, known, hfs, hft⟩ := h
  have hnext := hfs.handle hs
  rw [hnews] at hnext
  refine ⟨?_, mode, known, hnext, hft⟩
  have hoperation : message.operation? = none := by
    cases message with
    | opened | changed | closed => cases hnews
    | _ => rfl
  rw [documents_of_handle hs, hoperation]
  exact hd

end Alike

def keep {α : Type} : List Bool → List α → List α
  | true :: kept, x :: xs => x :: keep kept xs
  | false :: kept, _ :: xs => keep kept xs
  | _, _ => []

/-- Without messages that say nothing of a document, the others are answered as before. -/
theorem Run.keep [Protocol] {texts : List String} {replies : List (List Json)} {s' : Server}
    (h : Run s texts replies s') (ht : s.Alike t) {kept : List Bool}
    (hkept : List.Forall₂ (fun k text => k = false → (Message.ofText text).news? = none)
      kept texts) : t.converse (Server.keep kept texts) = .ok (Server.keep kept replies) := by
  induction h generalizing t kept with
  | nil s =>
    cases hkept
    rfl
  | cons hfirst hrest ih =>
    cases hkept with
    | @cons k _ kept _ hk hkept =>
      cases k with
      | true =>
        obtain ⟨t', hreceive, ht'⟩ := ht.step hfirst
        rw [Server.keep, Server.keep, converse_cons hreceive rfl, ih ht' hkept]
        rfl
      | false => exact ih (ht.skip (hk rfl) hfirst) hkept

/-- The text at a position that is asked about fits in memory, and so does the position. -/
def Bounded (known : Uri → Option (Int × String)) : Message → Prop
  | .definition _ uri q | .hover _ uri q => ∀ version text, known uri = some (version, text) →
      Fits text ∧ (q.toPosition text).Fits
  | _ => True

section Asking

variable {mode : LookupMode} {known : Uri → Option (Int × String)} {q : Utf16Position}
  {message : Message} {number : Int}

theorem Follows.exists_handle (h : s.Follows mode known) (hasks : message.AsksFor number)
    (hb : Bounded known message) : ∃ sent s', s.handle message = .ok ⟨sent, some s'⟩ := by
  cases message with
  | definition id uri q =>
    obtain ⟨result, s', hdefine⟩ := h.exists_define hb
    exact ⟨_, s', by rw [Server.handle, hdefine]; rfl⟩
  | hover id uri q =>
    obtain ⟨result, s', hhover⟩ := h.exists_hover hb
    exact ⟨_, s', by rw [Server.handle, hhover]; rfl⟩
  | connect id | shutdown id | unknown id method => exact ⟨_, s, rfl⟩
  | _ => exact hasks.elim

theorem responds_of_handle {reply : Reply} (h : s.handle message = .ok reply)
    (hasks : message.AsksFor number) :
    ∃ body, reply.bodies = [body] ∧ body.RespondsTo number := by
  cases message with
  | connect id | shutdown id =>
    obtain rfl := Except.ok.inj h
    obtain rfl : id = number := hasks
    exact ⟨_, rfl, Or.inl ⟨_, rfl⟩⟩
  | unknown id method =>
    obtain rfl := Except.ok.inj h
    obtain rfl : id = number := hasks
    exact ⟨_, rfl, Or.inr ⟨_, _, rfl⟩⟩
  | definition id uri q | hover id uri q =>
    obtain ⟨_, -, h⟩ := Except.exists_ok_of_bind h
    obtain rfl := Except.ok.inj h
    obtain rfl : id = number := hasks
    exact ⟨_, rfl, Or.inl ⟨_, rfl⟩⟩
  | _ => exact hasks.elim

end Asking

section Protocol

variable [Protocol]

theorem receive_silent (s : Server) {text : String} (h : Message.Silent text) :
    s.receive text = .ok ⟨[], some s⟩ := by
  rw [receive, h.ofText_eq]
  rfl

/-- Of all messages of a run, nothing is sent for the silent ones, and one response for those that
ask. -/
theorem Run.sent {texts : List String} {replies : List (List Json)} {s' : Server}
    (h : Run s texts replies s') : List.Forall₂ (fun text sent =>
      (Message.Silent text → sent = []) ∧ ∀ number, Message.Asks text number →
        ∃ body, sent = [body] ∧ body.RespondsTo number) texts replies := by
  induction h with
  | nil => exact .nil
  | cons hfirst hrest ih =>
    refine .cons ⟨fun hsilent => ?_, fun number hasks => ?_⟩ ih
    · rw [receive_silent _ hsilent] at hfirst
      cases hfirst
      rfl
    · exact responds_of_handle hfirst hasks.asksFor

/-- In a run without an end, messages of the wrong shape and those that need no answer are answered
by nothing, each request by one response with its number, and so it goes on, as long as positions
fit in memory. Where some messages of these two kinds are left out, the others are answered
as before. -/
theorem converse_keep (mode : LookupMode) {messages : List String} {replies : List (List Json)}
    (hexit : ∀ text ∈ messages, Message.ofText text ≠ .exit)
    (hrun : (start mode).converse messages = .ok replies) :
    List.Forall₂ (fun text sent => (Message.Silent text → sent = []) ∧
        ∀ number, Message.Asks text number → ∃ body, sent = [body] ∧ body.RespondsTo number)
      messages replies ∧
      (∀ text, Message.Silent text →
        (start mode).converse (messages ++ [text]) = .ok (replies ++ [[]])) ∧
      (∀ text number, Message.Asks text number →
        Bounded (latest? (news messages)) (.ofText text) → ∃ body,
          (start mode).converse (messages ++ [text]) = .ok (replies ++ [[body]]) ∧
            body.RespondsTo number) ∧
      ∀ kept, List.Forall₂ (fun k text => k = false →
          Message.Silent text ∨ ∃ number, Message.Asks text number) kept messages →
        (start mode).converse (keep kept messages) = .ok (keep kept replies) := by
  obtain ⟨s, hs, hfollows⟩ := follows_of_converse hexit hrun
  refine ⟨hs.sent, fun text hsilent => hs.converse_concat (s.receive_silent hsilent),
    fun text number hasks hb => ?_, fun kept hkept => ?_⟩
  · obtain ⟨sent, s', hhandle⟩ := hfollows.exists_handle hasks.asksFor hb
    obtain ⟨body, rfl, hbody⟩ := responds_of_handle hhandle hasks.asksFor
    exact ⟨body, hs.converse_concat hhandle, hbody⟩
  · have hstart : (start mode).Alike (start mode) :=
      ⟨rfl, mode, _, follows_start mode, follows_start mode⟩
    refine hs.keep hstart (hkept.imp fun k text hk hfalse => ?_)
    rcases hk hfalse with hsilent | ⟨number, hasks⟩
    · rw [hsilent.ofText_eq]
      rfl
    · exact Message.AsksFor.news?_eq hasks.asksFor

end Protocol

/-- A hover and a line of noise come before another hover: without them its answer is the same. -/
theorem converse_keep_hover :
    let opening :=
      "\x7b\"jsonrpc\":\"2.0\",\"method\":\"textDocument/didOpen\",\"params\":" ++
      "\x7b\"textDocument\":\x7b\"uri\":\"untitled:a\",\"languageId\":\"pvs\"," ++
      "\"version\":7,\"text\":\"t: THEORY BEGIN x: TYPE END t\"\x7d\x7d\x7d"
    let place := "\"method\":\"textDocument/hover\",\"params\":" ++
      "\x7b\"textDocument\":\x7b\"uri\":\"untitled:a\"\x7d," ++
      "\"position\":\x7b\"line\":0,\"character\":16\x7d\x7d\x7d"
    let asking := "\x7b\"id\":2," ++ place
    let again := "\x7b\"id\":3," ++ place
    let answer (number : String) : Json := .object [
      ("jsonrpc", .string "2.0"),
      ("id", .number number),
      ("result", .object [("contents", .object [
        ("kind", .string "markdown"), ("value", .string "```pvs\nx: TYPE\n```")])])]
    ∃ first, (start .scoped).converse [opening, asking, "noise", again] =
        .ok [first, [answer "2"], [], [answer "3"]] ∧
      (start .scoped).converse [opening, again] = .ok [first, [answer "3"]] := by
  intro opening place asking again answer
  let text := "t: THEORY BEGIN x: TYPE END t"
  have hopen : Message.ofText opening = .opened ⟨"untitled:a"⟩ 7 text := by decide +kernel
  have hasking : Message.ofText asking = .hover 2 ⟨"untitled:a"⟩ ⟨0, 16⟩ := by decide +kernel
  have hagain : Message.ofText again = .hover 3 ⟨"untitled:a"⟩ ⟨0, 16⟩ := by decide +kernel
  have hsilent : Message.Silent "noise" := .unreadable (by decide +kernel)
  have hfits : Fits text := by decide
  have hq : (Utf16Position.toPosition ⟨0, 16⟩ text).Fits := by decide +kernel
  have hfound : (Analysis.ofText text false).map
      (·.hoverAt? .scoped (Utf16Position.toPosition ⟨0, 16⟩ text)) =
        .ok (some "```pvs\nx: TYPE\n```") := by
    decide +kernel
  have asks {message : String} {number : Int}
      (he : ((Json.ofText? message).bind Message.envelope?).map (·.method) =
        some "textDocument/hover")
      (h : (Json.ofText? message).bind (Message.request? Message.place?) =
        some (number, ⟨"untitled:a"⟩, ⟨0, 16⟩)) : Message.Asks message number := by
    obtain ⟨json, hj, hrequest⟩ := Option.bind_eq_some_iff.mp h
    rw [hj, Option.bind_some, Option.map_eq_some_iff] at he
    obtain ⟨⟨id, method⟩, henvelope, rfl⟩ := he
    exact .hover hj henvelope hrequest
  have hasks : Message.Asks asking 2 := asks (by decide +kernel) (by decide +kernel)
  have hasks' : Message.Asks again 3 := asks (by decide +kernel) (by decide +kernel)
  clear_value opening asking again text
  obtain ⟨r, ha⟩ := Analysis.exists_ok text false
  have hreplies : Replies .hover .scoped ⟨"untitled:a"⟩ text ⟨0, 16⟩ _ := replies_hover hq ha
  rw [ha, Except.map, Except.ok.injEq] at hfound
  rw [hfound] at hreplies
  obtain ⟨first, hrun₁, hexit₁, hknown⟩ := exists_converse_opened .scoped hopen hfits
  have hrun₂ := hreplies [opening] [first] 7 asking 2 hexit₁ hrun₁ hknown hasking
  have hexit₂ : ∀ m ∈ [opening, asking], Message.ofText m ≠ .exit := by
    simp [hopen, hasking]
  have hrun₃ := (converse_keep .scoped hexit₂ hrun₂).2.1 "noise" hsilent
  have hexit₃ : ∀ m ∈ [opening, asking, "noise"], Message.ofText m ≠ .exit := by
    simp [hopen, hasking, hsilent.ofText_eq]
  have hnews : news [opening, asking, "noise"] = news [opening] := by
    simp [news, hopen, hasking, hsilent.ofText_eq, Message.news?]
  have hrun₄ := hreplies [opening, asking, "noise"] [first, [answer "2"], []] 7 again 3 hexit₃
    hrun₃ (hnews ▸ hknown) hagain
  have hexit₄ : ∀ m ∈ [opening, asking, "noise", again], Message.ofText m ≠ .exit := by
    simp [hopen, hasking, hsilent.ofText_eq, hagain]
  obtain ⟨-, -, -, hkeep⟩ := converse_keep .scoped hexit₄ hrun₄
  refine ⟨first, hrun₄, hkeep [true, false, false, true] ?_⟩
  exact .cons (fun h => absurd h (by decide)) (.cons (fun _ => Or.inr ⟨2, hasks⟩)
    (.cons (fun _ => Or.inl hsilent) (.cons (fun h => absurd h (by decide)) .nil)))

end Server

end PvsIndex
