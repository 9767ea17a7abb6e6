import PvsIndex.Proofs.Declaration.Definition
import PvsIndex.Proofs.Lsp.Session

/-! Requests for a definition are answered with the place of a declared name, and requests for a
hover with the construct that declares it. -/

namespace PvsIndex

namespace Range

/-- Where a range of the text begins and ends, as a client counts. -/
def first16 (r : Range) (text : String) : Utf16Position :=
  .ofPosition r.start text

def last16 (r : Range) (text : String) : Utf16Position :=
  .ofPosition r.stop text

def encode (r : Range) (text : String) : Json :=
  .object [("start", (r.first16 text).encode), ("end", (r.last16 text).encode)]

/-- A position in the row of the range, from its beginning to its end. -/
def Touches16 (r : Range) (text : String) (q : Utf16Position) : Prop :=
  q.row = (r.first16 text).row ∧
    (r.first16 text).column16 ≤ q.column16 ∧ q.column16 ≤ (r.last16 text).column16

end Range

namespace Token

/-- As a client counts, the token lies in one row, from where it begins in the text to where it
ends, and it is the one name at each position there. -/
structure Spans (text : String) (t : Token) : Prop where
  row : (t.range.first16 text).row = (t.range.last16 text).row
  start : (t.range.first16 text).toPosition text = t.range.start
  stop : (t.range.last16 text).toPosition text = t.range.stop
  only : ∀ q, t.range.Touches16 text q → t.OnlyAt text (q.toPosition text)

variable {text : String} {t : Token}

theorem spans_of_mem (h : t ∈ (Tokens.ofText text).toList) (hk : t.kind = .identifier) :
    t.Spans text := by
  have hword : t.kind.isWord = true := by rw [hk]; rfl
  have hshows := Tokens.shows_of_mem h
  have hle := hshows.stop_le
  have hline : 1 ≤ t.range.start.line := by
    rw [hshows.range]
    exact (Position.ofIndex_bounds text.toList (by omega)).1
  have hstop := hshows.range_of_oneLine (Tokens.oneLine_of_word h hword)
  have hlines : t.range.start.line = t.range.stop.line := by rw [hstop]
  have hrows : (t.range.first16 text).row = (t.range.last16 text).row :=
    Utf16Position.ofPosition_row hlines
  have hfirst : (t.range.first16 text).toPosition text = t.range.start :=
    Utf16Position.toPosition_ofPosition hline
  have hlast : (t.range.last16 text).toPosition text = t.range.stop :=
    Utf16Position.toPosition_ofPosition (hlines ▸ hline)
  refine ⟨hrows, hfirst, hlast, fun q hq => ?_⟩
  obtain ⟨hrow, hlower, hupper⟩ := hq
  have hq : (q.toPosition text).line = t.range.start.line := by
    rw [Utf16Position.toPosition, hrow]
    exact Nat.sub_add_cancel hline
  have hfrom := Utf16Position.toPosition_mono text hrow.symm hlower
  have hto := Utf16Position.toPosition_mono text (hrow.trans hrows) hupper
  rw [hfirst] at hfrom
  rw [hlast] at hto
  exact .of_touches h hk ⟨Or.inr ⟨hq.symm, hfrom⟩, Or.inr ⟨hq.trans hlines, hto⟩⟩

theorem first16_checked (h : t.Shows text.toList) (hfits : Server.Fits text) :
    (t.range.first16 text).checked = .ok (t.range.first16 text) := by
  have hstart : t.range.start = .ofIndex text.toList t.startIndex := by rw [h.range]
  rw [Range.first16, hstart]
  exact Utf16Position.ofIndex_fits hfits ((Nat.le_add_right _ _).trans h.stop_le)

theorem last16_checked (h : t.Shows text.toList) (hfits : Server.Fits text) :
    (t.range.last16 text).checked = .ok (t.range.last16 text) := by
  have hstop : t.range.stop = .ofIndex text.toList (t.startIndex + t.length) := by rw [h.range]
  rw [Range.last16, hstop]
  exact Utf16Position.ofIndex_fits hfits h.stop_le

theorem Spans.fits (h : t.Spans text) (ht : t.Shows text.toList) (hfits : Server.Fits text)
    {q : Utf16Position} (hq : t.range.Touches16 text q) : (q.toPosition text).Fits := by
  have hle := ht.stop_le
  have hlimit : Word.limit = 2 * Word.signedLimit := rfl
  obtain ⟨-, hline, hcharacter⟩ := Position.ofIndex_bounds text.toList hle
  have hlines : (q.toPosition text).line = t.range.stop.line := by
    rw [← h.stop, Utf16Position.toPosition, Utf16Position.toPosition, hq.1, h.row]
  have htouches := ((h.only q hq t).mpr rfl).2.2.2
  have hupper : (q.toPosition text).character ≤ t.range.stop.character :=
    (htouches.resolve_left (by omega)).2
  have hlast : t.range.stop = .ofIndex text.toList (t.startIndex + t.length) := by rw [ht.range]
  rw [hlast] at hlines hupper
  unfold Server.Fits at hfits
  exact ⟨by omega, by omega⟩

end Token

namespace Server

def location (uri : Uri) (range : Json) : Json :=
  .object [("uri", .string uri.text), ("range", range)]

def markdown (text : String) : Json :=
  .object [("contents", .object [("kind", .string "markdown"), ("value", .string text)])]

namespace Follows

variable {s : Server} {mode : LookupMode} {known : Uri → Option (Int × String)} {uri : Uri}
  {version : Int} {text : String} {q : Utf16Position} {a : Analysis}

variable (h : s.Follows mode known) (hknown : known uri = some (version, text))
  (hq : (q.toPosition text).Fits) (ha : Analysis.ofText text false = .ok a)

include h hknown hq

theorem exists_place : ∃ id, s.documents.id? uri = some id ∧ s.documents.uri? id = some uri ∧
    (s.documents.uri? id).bind known = some (version, text) ∧
    s.service.toPosition id q = .ok (some (q.toPosition text)) := by
  obtain ⟨id, hid, huri⟩ := h.exists_id hknown
  have hcontent : (s.documents.uri? id).bind known = some (version, text) := by
    rw [huri, Option.bind_some, hknown]
  refine ⟨id, hid, huri, hcontent, ?_⟩
  rw [h.service.toPosition, hcontent]
  dsimp only
  rw [Position.checked, if_pos hq]
  rfl

include ha

/-- A definition in an open document is found by the analysis of its text, and sent with the places
that it has in the text. -/
theorem define_eq : ∃ id d s', s'.service.documents[id]? = some d ∧ d.text = text ∧
    s.define uri q = do match ← a.definitionsAt mode (q.toPosition text) with
      | none => return (.null, s')
      | some ranges =>
        let locations ← ranges.mapM fun range => return location uri (← s'.encodeRange id range)
        return (.array locations, s') := by
  obtain ⟨id, hid, huri, hcontent, hposition⟩ := h.exists_place hknown hq
  obtain ⟨service, hservice, -, hdefinitions⟩ := h.service.definitions id (q.toPosition text)
  rw [hcontent] at hdefinitions
  dsimp only at hdefinitions
  rw [ha, h.mode] at hdefinitions
  rcases hservice.cases id with ⟨hnone, -⟩ | ⟨d, hsome, hd, -⟩
  · exact absurd (hcontent.symm.trans hnone) nofun
  · have htext : d.text = text :=
      congrArg Prod.snd (Option.some.inj (hsome.symm.trans hcontent))
    refine ⟨id, d, { s with service }, hd, htext, ?_⟩
    rw [Server.define, hid]
    dsimp only
    rw [huri]
    dsimp only
    rw [hposition]
    dsimp only [bind, Except.bind] at hdefinitions ⊢
    dsimp only [pure, Except.pure]
    rw [hdefinitions]
    cases a.definitionsAt mode (q.toPosition text) with
    | error => rfl
    | ok ranges => cases ranges <;> rfl

theorem define_null (hnone : a.declarationAt? mode (q.toPosition text) = none) :
    ∃ s', s.define uri q = .ok (.null, s') := by
  obtain ⟨id, d, s', -, -, hdefine⟩ := h.define_eq hknown hq ha
  rw [Analysis.definitionsAt, hnone] at hdefine
  exact ⟨s', hdefine⟩

theorem define_location {d : Declaration} {r : Range}
    (hsome : a.declarationAt? mode (q.toPosition text) = some d) (hr : d.nameRange = .ok r)
    (hstart : (r.first16 text).checked = .ok (r.first16 text))
    (hstop : (r.last16 text).checked = .ok (r.last16 text)) :
    ∃ s', s.define uri q = .ok (.array [location uri (r.encode text)], s') := by
  obtain ⟨id, document, s', hdocument, rfl, hdefine⟩ := h.define_eq hknown hq ha
  have hfirst : s'.encodePosition id r.start =
      (r.first16 document.text).checked.map Utf16Position.encode :=
    encodePosition_eq hdocument r.start
  have hlast : s'.encodePosition id r.stop =
      (r.last16 document.text).checked.map Utf16Position.encode :=
    encodePosition_eq hdocument r.stop
  rw [hstart] at hfirst
  rw [hstop] at hlast
  have hencode : s'.encodeRange id r = .ok (r.encode document.text) := by
    rw [encodeRange, hfirst, hlast]
    rfl
  rw [Analysis.definitionsAt, hsome] at hdefine
  dsimp only at hdefine
  rw [hr] at hdefine
  dsimp only [bind, Except.bind, pure, Except.pure] at hdefine
  rw [List.mapM_cons, hencode] at hdefine
  exact ⟨s', hdefine⟩

theorem hover_eq : ∃ s', s.hover uri q =
    .ok (((a.hoverAt? mode (q.toPosition text)).map markdown).getD .null, s') := by
  obtain ⟨id, hid, huri, hcontent, hposition⟩ := h.exists_place hknown hq
  obtain ⟨service, hservice, -, hhover⟩ := h.service.hover id (q.toPosition text)
  rw [hcontent] at hhover
  dsimp only at hhover
  rw [ha, h.mode] at hhover
  refine ⟨{ s with service }, ?_⟩
  rw [Server.hover, hid]
  dsimp only
  rw [hposition]
  dsimp only [bind, Except.bind]
  rw [hhover]
  dsimp only [bind, Except.bind, pure, Except.pure]
  cases a.hoverAt? mode (q.toPosition text) <;> rfl

omit hknown hq ha

/-- A definition is answered, if the text that is known fits in memory, and so does the position. -/
theorem exists_define
    (hb : ∀ version text, known uri = some (version, text) → Fits text ∧ (q.toPosition text).Fits) :
    ∃ result s', s.define uri q = .ok (result, s') := by
  cases hknown : known uri with
  | none =>
    rw [Server.define, h.id?_eq_none hknown]
    exact ⟨_, _, rfl⟩
  | some content =>
    obtain ⟨version, text⟩ := content
    obtain ⟨hfits, hq⟩ := hb version text hknown
    obtain ⟨r, ha⟩ := Analysis.exists_ok text false
    by_cases herrors : (Parse.ofText text).errors = []
    · rcases Analysis.declarationAt?_cases herrors ha mode (q.toPosition text) with
        ⟨hnone, -⟩ | ⟨d, n, t, construct, hsome, -, ht, -⟩
      · obtain ⟨s', hdefine⟩ := h.define_null hknown hq ha hnone
        exact ⟨_, s', hdefine⟩
      · have hshows := Tokens.shows_of_mem ht.mem
        obtain ⟨s', hdefine⟩ := h.define_location hknown hq ha hsome (ht.nameRange hfits)
          (Token.first16_checked hshows hfits) (Token.last16_checked hshows hfits)
        exact ⟨_, s', hdefine⟩
    · obtain ⟨s', hdefine⟩ :=
        h.define_null hknown hq ha (Analysis.declarationAt?_of_errors herrors ha _)
      exact ⟨_, s', hdefine⟩

theorem exists_hover
    (hb : ∀ version text, known uri = some (version, text) → Fits text ∧ (q.toPosition text).Fits) :
    ∃ result s', s.hover uri q = .ok (result, s') := by
  cases hknown : known uri with
  | none =>
    rw [Server.hover, h.id?_eq_none hknown]
    exact ⟨_, _, rfl⟩
  | some content =>
    obtain ⟨version, text⟩ := content
    obtain ⟨r, ha⟩ := Analysis.exists_ok text false
    obtain ⟨s', hhover⟩ := h.hover_eq hknown (hb version text hknown).2 ha
    exact ⟨_, s', hhover⟩

end Follows

section Protocol

variable [Protocol]

/-- After any run that leaves the document open with this text, a request at the position is
answered by this result, and by nothing else. -/
def Replies (request : Int → Uri → Utf16Position → Message) (mode : LookupMode) (uri : Uri)
    (text : String) (q : Utf16Position) (result : Json) : Prop :=
  ∀ (messages : List String) (replies : List (List Json)) (version : Int) (message : String)
    (id : Int), (∀ m ∈ messages, Message.ofText m ≠ .exit) →
    (start mode).converse messages = .ok replies →
    latest? (news messages) uri = some (version, text) →
    Message.ofText message = request id uri q →
    (start mode).converse (messages ++ [message]) = .ok (replies ++ [[.object [
      ("jsonrpc", .string "2.0"), ("id", .number (toString id)), ("result", result)]]])

section Requests

variable {mode : LookupMode} {uri : Uri} {text : String} {q : Utf16Position} {result : Json}
  {a : Analysis} {d : Declaration}

/-- What any server answers that knows the text is the answer after any run. -/
theorem replies_of_handle {request : Int → Uri → Utf16Position → Message}
    (h : ∀ {s : Server} {known : Uri → Option (Int × String)} {version : Int} (id : Int),
      s.Follows mode known → known uri = some (version, text) →
        ∃ s', s.handle (request id uri q) = .ok ⟨[response id result], some s'⟩) :
    Replies request mode uri text q result := by
  intro messages replies version message id hexit hrun hknown hmessage
  obtain ⟨s, hs, hfollows⟩ := follows_of_converse hexit hrun
  obtain ⟨s', hhandle⟩ := h id hfollows hknown
  have hreceive : s.receive message = .ok ⟨[response id result], some s'⟩ := by
    rw [receive, hmessage, hhandle]
  exact hs.converse_concat hreceive

variable (hq : (q.toPosition text).Fits) (ha : Analysis.ofText text false = .ok a)

include hq ha

theorem replies_definition_null (hnone : a.declarationAt? mode (q.toPosition text) = none) :
    Replies .definition mode uri text q .null := by
  refine replies_of_handle fun id hfollows hknown => ?_
  obtain ⟨s', hdefine⟩ := hfollows.define_null hknown hq ha hnone
  exact ⟨s', by rw [handle, hdefine]; rfl⟩

theorem replies_definition_location {t : Token} {construct : Element} (hfits : Fits text)
    (hsome : a.declarationAt? mode (q.toPosition text) = some d)
    (ht : t.Declares text construct d) :
    Replies .definition mode uri text q (.array [location uri (t.range.encode text)]) := by
  have hshows := Tokens.shows_of_mem ht.mem
  refine replies_of_handle fun id hfollows hknown => ?_
  obtain ⟨s', hdefine⟩ := hfollows.define_location hknown hq ha hsome (ht.nameRange hfits)
    (Token.first16_checked hshows hfits) (Token.last16_checked hshows hfits)
  exact ⟨s', by rw [handle, hdefine]; rfl⟩

theorem replies_hover : Replies .hover mode uri text q
    (((a.hoverAt? mode (q.toPosition text)).map markdown).getD .null) := by
  refine replies_of_handle fun id hfollows hknown => ?_
  obtain ⟨s', hhover⟩ := hfollows.hover_eq hknown hq ha
  exact ⟨s', by rw [handle, hhover]; rfl⟩

end Requests

/-- What is found at a position: for the name n there, the declared name t of the same text, and for
a hover the construct that declares it. By category, the same is found at each position of t. -/
structure Lands (mode : LookupMode) (uri : Uri) (text : String) (q : Utf16Position)
    (definition hover : Json) (n t : Token) (construct : Element) (d : Declaration) : Prop where
  asked : n.OnlyAt text (q.toPosition text)
  declares : t.Declares text construct d
  sameText : t.text = n.text
  spans : t.Spans text
  located : definition = .array [location uri (t.range.encode text)]
  described : hover = markdown s!"```pvs\n{construct.sourceText text.toList}\n```"
  again : mode = .byCategory → ∀ q', t.range.Touches16 text q' →
    Replies .definition mode uri text q' definition

/-- Nothing that is recorded in the text under the name at the position is in force there. -/
def Unknown (mode : LookupMode) (text : String) (p : Position) : Prop :=
  ∀ (a : Analysis) (n : Token), Analysis.ofText text false = .ok a → n.OnlyAt text p →
    ∀ e ∈ a.table.history.toList, e.declaration.name = n.text → mode = .scoped ∧ ¬ e.InForce p

/-- Requests for a definition and for a hover at the same position are both answered, and both with
null or neither. In a text with errors nothing is found. -/
theorem definition_lands (mode : LookupMode) (uri : Uri) {text : String} {q : Utf16Position}
    (hfits : Fits text) (hq : (q.toPosition text).Fits) : ∃ definition hover,
      Replies .definition mode uri text q definition ∧ Replies .hover mode uri text q hover ∧
      (definition = .null ∧ hover = .null ∧
          ((Parse.ofText text).errors = [] → Unknown mode text (q.toPosition text)) ∨
        (Parse.ofText text).errors = [] ∧
          ∃ n t construct d, Lands mode uri text q definition hover n t construct d) := by
  obtain ⟨r, ha⟩ := Analysis.exists_ok text false
  generalize (⟨Parse.ofText text, r⟩ : Analysis) = a at ha
  have hhover : Replies .hover mode uri text q
      (((a.hoverAt? mode (q.toPosition text)).map markdown).getD .null) := replies_hover hq ha
  rw [Analysis.hoverAt?] at hhover
  by_cases herrors : (Parse.ofText text).errors = []
  · rcases Analysis.declarationAt?_cases herrors ha mode (q.toPosition text) with
      ⟨hnone, hforce⟩ | ⟨d, n, t, construct, hsome, hn, hdeclares, htext⟩
    · rw [hnone] at hhover
      refine ⟨.null, .null, replies_definition_null hq ha hnone, hhover,
        Or.inl ⟨rfl, rfl, fun _ b m hb hm => ?_⟩⟩
      obtain rfl := Except.ok.inj (ha.symm.trans hb)
      exact hforce m hm
    · have hspans := Token.spans_of_mem hdeclares.mem hdeclares.kind
      rw [hsome] at hhover
      refine ⟨_, _, replies_definition_location hq ha hfits hsome hdeclares, hhover,
        Or.inr ⟨herrors, n, t, construct, d, hn, hdeclares, htext, hspans, rfl, ?_, ?_⟩⟩
      · rw [← hdeclares.sourceText]
        rfl
      · rintro rfl q' hq'
        have hagain := Analysis.declarationAt?_byCategory ha (hspans.only q' hq') hn htext
        have hfits' := hspans.fits (Tokens.shows_of_mem hdeclares.mem) hfits hq'
        exact replies_definition_location hfits' ha hfits (hagain.trans hsome) hdeclares
  · have hnone : a.declarationAt? mode (q.toPosition text) = none :=
      Analysis.declarationAt?_of_errors herrors ha _
    rw [hnone] at hhover
    exact ⟨.null, .null, replies_definition_null hq ha hnone, hhover,
      Or.inl ⟨rfl, rfl, fun h => absurd h herrors⟩⟩

theorem exists_converse_opened (mode : LookupMode) {opening : String} {uri : Uri} {version : Int}
    {text : String} (hopen : Message.ofText opening = .opened uri version text)
    (hfits : Fits text) : ∃ first, (start mode).converse [opening] = .ok [first] ∧
      (∀ m ∈ [opening], Message.ofText m ≠ .exit) ∧
      latest? (news [opening]) uri = some (version, text) := by
  have hheeds : Heeds (.ofText opening) := by
    rw [hopen]
    exact hfits
  obtain ⟨bodies, s', hreceive⟩ := (start mode).exists_receive hheeds
  have hrun : (start mode).converse [opening] = .ok [bodies] :=
    (Run.nil (start mode)).converse_concat hreceive
  refine ⟨bodies, hrun, List.forall_mem_singleton.mpr hheeds.ne_exit, ?_⟩
  simp [news, hopen, Message.news?, latest?]

end Protocol

/-- A name of one letter, which takes two code units, is asked about between the two: its
declaration in front is found. -/
theorem definition_lands_session :
    let text := "t: THEORY BEGIN 𝐱: TYPE y: 𝐱 END t"
    let opening :=
      "\x7b\"jsonrpc\":\"2.0\",\"method\":\"textDocument/didOpen\",\"params\":" ++
      "\x7b\"textDocument\":\x7b\"uri\":\"untitled:a\",\"languageId\":\"pvs\"," ++
      "\"version\":7,\"text\":\"t: THEORY BEGIN 𝐱: TYPE y: 𝐱 END t\"\x7d\x7d\x7d"
    let asking :=
      "\x7b\"jsonrpc\":\"2.0\",\"id\":2,\"method\":\"textDocument/definition\",\"params\":" ++
      "\x7b\"textDocument\":\x7b\"uri\":\"untitled:a\"\x7d," ++
      "\"position\":\x7b\"line\":0,\"character\":29\x7d\x7d\x7d"
    Fits text ∧ (Utf16Position.toPosition ⟨0, 29⟩ text).Fits ∧
      ∃ first, (start .byCategory).converse [opening, asking] =
        .ok [first, [.object [
          ("jsonrpc", .string "2.0"),
          ("id", .number "2"),
          ("result", .array [.object [
            ("uri", .string "untitled:a"),
            ("range", .object [
              ("start", .object [("line", .number "0"), ("character", .number "16")]),
              ("end", .object [("line", .number "0"), ("character", .number "18")])])]])]]] := by
  intro text opening asking
  have hopen : Message.ofText opening = .opened ⟨"untitled:a"⟩ 7 text := by decide +kernel
  have hask : Message.ofText asking = .definition 2 ⟨"untitled:a"⟩ ⟨0, 29⟩ := by decide +kernel
  have hfits : Fits text := by decide +kernel
  have hq : Utf16Position.toPosition ⟨0, 29⟩ text = ⟨1, 27⟩ := by decide +kernel
  have herrors : (Parse.ofText text).errors = [] := by decide +kernel
  let declared : Token := ⟨.identifier, "𝐱", ⟨⟨1, 16⟩, ⟨1, 17⟩⟩, 16⟩
  let other : Token := ⟨.identifier, "y", ⟨⟨1, 24⟩, ⟨1, 25⟩⟩, 24⟩
  let used : Token := ⟨.identifier, "𝐱", ⟨⟨1, 27⟩, ⟨1, 28⟩⟩, 27⟩
  have hused : used ∈ (Tokens.ofText text).toList := by decide +kernel
  have hrecorded : ∃ e ∈ (Parse.ofText text).tree.declared.filterMap (·.record? text.toList),
      e.declaration.name = "𝐱" := by
    decide +kernel
  have hdeclared : ∀ name ∈ (Parse.ofText text).tree.declared,
      name.element.children = [.leaf declared] ∨ name.element.children = [.leaf other] := by
    decide +kernel
  have hfirst : declared.range.first16 text = ⟨0, 16⟩ := by decide +kernel
  have hlast : declared.range.last16 text = ⟨0, 18⟩ := by decide +kernel
  have hfits' : (Utf16Position.toPosition ⟨0, 29⟩ text).Fits := by
    rw [hq]
    decide
  clear_value text opening asking
  have hasked : used.OnlyAt text (Utf16Position.toPosition ⟨0, 29⟩ text) := by
    rw [hq]
    exact .of_touches hused rfl (by decide)
  refine ⟨hfits, hfits', ?_⟩
  obtain ⟨definition, hover, hreplies, -, ⟨-, -, hunknown⟩ | ⟨-, n, t, construct, d, hlands⟩⟩ :=
    definition_lands .byCategory ⟨"untitled:a"⟩ hfits hfits'
  · obtain ⟨r, hr, htable⟩ := Analysis.exists_table herrors false
    obtain ⟨e, he, hname⟩ := hrecorded
    have hhistory : e ∈ (Analysis.mk (Parse.ofText text) r).table.history.toList := by
      rw [Analysis.table, htable, Table.history_insertAll]
      exact he
    have hmode := (hunknown herrors _ used hr hasked e hhistory hname).1
    cases hmode
  · obtain rfl : used = n := (hlands.asked used).mp ((hasked used).mpr rfl)
    obtain ⟨name, hmem, hchildren, -⟩ := hlands.declares.declared
    have ht : t = declared := by
      have htext := hlands.sameText
      rcases hdeclared name hmem with h | h
      · simpa using hchildren.symm.trans h
      · obtain rfl : t = other := by simpa using hchildren.symm.trans h
        exact absurd htext (by decide)
    obtain ⟨first, hrun, hexit, hknown⟩ := exists_converse_opened .byCategory hopen hfits
    have hanswer := hreplies [opening] [first] 7 asking 2 hexit hrun hknown hask
    rw [hlands.located, ht, Range.encode, hfirst, hlast] at hanswer
    exact ⟨first, hanswer⟩

end Server

end PvsIndex
