import PvsIndex.Proofs.Lsp.Landing
import PvsIndex.Proofs.Source.Arithmetic

/-! Requests at the limits of machine words. Every position of a request is a pair of words, and
every request about an open document is answered but those in the last row that is a word. -/

namespace PvsIndex

namespace Json

variable {α : Type} {name : String} {decode : Json → Option α} {json : Json} {a : α}

theorem exists_of_required? (h : json.required? name decode = some a) :
    ∃ value, decode value = some a := by
  obtain ⟨member, -, h⟩ := Option.bind_eq_some_iff.mp h
  obtain ⟨value, -, h⟩ := Option.bind_eq_some_iff.mp h
  exact ⟨value, h⟩

theorem lt_of_word? {n : Nat} (h : json.word? = some n) : n < Word.limit := by
  obtain ⟨i, -, h⟩ := Option.bind_eq_some_iff.mp h
  split_ifs at h with hi
  obtain rfl := Option.some.inj h
  omega

end Json

namespace Message

variable {json : Json} {id : Int} {uri : Uri} {q : Utf16Position}

theorem fits_of_position? (h : position? json = some q) : q.Fits := by
  obtain ⟨row, hrow, h⟩ := Option.bind_eq_some_iff.mp h
  obtain ⟨column16, hcolumn, h⟩ := Option.bind_eq_some_iff.mp h
  obtain rfl := Option.some.inj h
  obtain ⟨_, hrow⟩ := Json.exists_of_required? hrow
  obtain ⟨_, hcolumn⟩ := Json.exists_of_required? hcolumn
  exact ⟨Json.lt_of_word? hrow, Json.lt_of_word? hcolumn⟩

theorem exists_of_notification? {α : Type} {params : Json → Option α} {a : α}
    (h : notification? params json = some a) : ∃ value, params value = some a := by
  obtain ⟨_, -, h⟩ := Option.bind_eq_some_iff.mp h
  obtain ⟨_, -, h⟩ := Option.bind_eq_some_iff.mp h
  exact Json.exists_of_required? h

/-- The message asks for a definition or a hover at a position of a document. -/
def AsksAt (id : Int) (uri : Uri) (q : Utf16Position) (message : Message) : Prop :=
  message = definition id uri q ∨ message = hover id uri q

section Protocol

variable [Protocol]

theorem fits_of_request? (h : request? place? json = some (id, uri, q)) : q.Fits := by
  obtain ⟨_, -, h⟩ := Option.bind_eq_some_iff.mp h
  obtain ⟨place, hplace, h⟩ := Option.bind_eq_some_iff.mp h
  cases h
  obtain ⟨params, hplace⟩ := Json.exists_of_required? hplace
  obtain ⟨_, -, hplace⟩ := Option.bind_eq_some_iff.mp hplace
  obtain ⟨_, hposition, hplace⟩ := Option.bind_eq_some_iff.mp hplace
  cases hplace
  obtain ⟨_, hposition⟩ := Json.exists_of_required? hposition
  exact fits_of_position? hposition

theorem not_asksAt_of_opened? {message : Message} (h : opened? json = some message) :
    ¬ message.AsksAt id uri q := by
  obtain ⟨item, h⟩ := Json.exists_of_required? h
  obtain ⟨_, -, h⟩ := Option.bind_eq_some_iff.mp h
  obtain ⟨_, -, h⟩ := Option.bind_eq_some_iff.mp h
  obtain ⟨_, -, h⟩ := Option.bind_eq_some_iff.mp h
  obtain ⟨_, -, h⟩ := Option.bind_eq_some_iff.mp h
  obtain rfl := Option.some.inj h
  simp [AsksAt]

theorem not_asksAt_of_changed? {message : Message} (h : changed? json = some message) :
    ¬ message.AsksAt id uri q := by
  rw [changed?_eq] at h
  obtain ⟨⟨_, _, texts⟩, -, rfl⟩ := Option.map_eq_some_iff.mp h
  dsimp only
  cases texts.getLast? <;> simp [AsksAt]

theorem fits_of_decode? {message : Message} (h : decode? json = some message)
    (ha : message.AsksAt id uri q) : q.Fits := by
  obtain ⟨envelope, -, h⟩ := Option.bind_eq_some_iff.mp h
  split at h
  case h_9 | h_10 =>
    obtain ⟨place, hplace, h⟩ := Option.bind_eq_some_iff.mp h
    obtain rfl := Option.some.inj h
    rcases ha with ha | ha <;> cases ha
    exact fits_of_request? hplace
  case h_6 =>
    obtain ⟨_, hopened⟩ := exists_of_notification? h
    exact absurd ha (not_asksAt_of_opened? hopened)
  case h_7 =>
    obtain ⟨_, hchanged⟩ := exists_of_notification? h
    exact absurd ha (not_asksAt_of_changed? hchanged)
  case h_1 | h_8 =>
    obtain ⟨_, -, h⟩ := Option.bind_eq_some_iff.mp h
    obtain rfl := Option.some.inj h
    rcases ha with ha | ha <;> cases ha
  all_goals
    obtain rfl := Option.some.inj h
    rcases ha with ha | ha <;> cases ha

theorem fits_of_ofText {text : String} (h : (ofText text).AsksAt id uri q) : q.Fits := by
  unfold ofText at h
  cases hdecode : (Json.ofText? text).bind decode? with
  | none =>
    rw [hdecode] at h
    rcases h with h | h <;> cases h
  | some message =>
    obtain ⟨json, -, hdecode'⟩ := Option.bind_eq_some_iff.mp hdecode
    rw [hdecode] at h
    exact fits_of_decode? hdecode' h

end Protocol

end Message

namespace Word

/-- Where a declared name begins and ends as a client counts, with every step in words. -/
def locate (d : Declaration) (text : String) : Except Fault (Utf16Position × Utf16Position) := do
  let stop ← addPosition d.position (← measure d.name)
  let r ← Range.ofEnds d.position stop
  return (← ofPosition r.start text, ← ofPosition r.stop text)

theorem locate_eq {text : String} {t : Token} {construct : Element} {d : Declaration}
    (h : t.Declares text construct d) (hfits : Server.Fits text) :
    locate d text = .ok (t.range.first16 text, t.range.last16 text) := by
  have hshows := Tokens.shows_of_mem h.mem
  have hle := hshows.stop_le
  have hname : d.name.toList.length < signedLimit := by
    rw [h.name]
    exact Nat.lt_of_le_of_lt (Nat.le_trans (Nat.le_add_left _ _) hle) hfits
  have hword {i : Nat} (hi : i ≤ text.toList.length) : (Position.ofIndex text.toList i).Fits := by
    obtain ⟨-, hline, hcharacter⟩ := Position.ofIndex_bounds text.toList hi
    have hlimit : limit = 2 * signedLimit := rfl
    unfold Server.Fits at hfits
    exact ⟨by omega, by omega⟩
  have hstart : t.range.start.Fits := by
    rw [hshows.range]
    exact hword (Nat.le_trans (Nat.le_add_right _ _) hle)
  have hstop : t.range.stop.Fits := by
    rw [hshows.range]
    exact hword hle
  have hrange := h.nameRange hfits
  rw [Declaration.nameRange] at hrange
  rw [locate, measure_eq hname]
  dsimp only [bind, Except.bind] at hrange ⊢
  rw [addPosition_eq]
  cases hchecked : (d.position + .ofText d.name).checked with
  | error => simp [hchecked] at hrange
  | ok stop =>
    rw [hchecked] at hrange
    dsimp only at hrange ⊢
    rw [hrange]
    dsimp only
    rw [ofPosition_eq hfits hstart, ofPosition_eq hfits hstop]
    have hfirst := Token.first16_checked hshows hfits
    have hlast := Token.last16_checked hshows hfits
    rw [Range.first16] at hfirst
    rw [Range.last16] at hlast
    rw [hfirst, hlast]
    rfl

end Word

namespace Server

variable {mode : LookupMode} {uri : Uri} {version : Int} {text : String} {q : Utf16Position}

theorem Follows.overflows {s : Server} {known : Uri → Option (Int × String)}
    (h : s.Follows mode known) (hknown : known uri = some (version, text))
    (hq : ¬ (q.toPosition text).Fits) :
    s.define uri q = .error .overflow ∧ s.hover uri q = .error .overflow := by
  obtain ⟨id, hid, huri⟩ := h.exists_id hknown
  have hplace : s.service.toPosition id q = .error .overflow := by
    rw [h.service.toPosition, huri, Option.bind_some, hknown]
    dsimp only
    rw [Position.checked, if_neg hq]
    rfl
  constructor
  · rw [Server.define, hid]
    dsimp only
    rw [huri]
    dsimp only
    rw [hplace]
    rfl
  · rw [Server.hover, hid]
    dsimp only
    rw [hplace]
    rfl

theorem exists_locate (hfits : Fits text) {a : Analysis} {d : Declaration} {p : Position}
    (ha : Analysis.ofText text false = .ok a) (hd : a.declarationAt? mode p = some d) :
    ∃ first last, Word.locate d text = .ok (first, last) := by
  have herrors : (Parse.ofText text).errors = [] := by
    by_contra h
    rw [Analysis.declarationAt?_of_errors h ha] at hd
    cases hd
  rcases Analysis.declarationAt?_cases herrors ha mode p with
    ⟨hnone, -⟩ | ⟨_, _, t, construct, hsome, -, ht, -⟩
  · rw [hnone] at hd
    cases hd
  · obtain rfl := Option.some.inj (hsome.symm.trans hd)
    exact ⟨_, _, Word.locate_eq ht hfits⟩

section Requests

variable [Protocol]

variable {messages : List String} {replies : List (List Json)} {message : String} {id : Int}
  (hexit : ∀ m ∈ messages, Message.ofText m ≠ .exit)
  (hrun : (start mode).converse messages = .ok replies)
  (hknown : latest? (news messages) uri = some (version, text))
  (hmessage : (Message.ofText message).AsksAt id uri q)

include hexit hrun hknown hmessage

theorem converse_overflows (hq : ¬ (q.toPosition text).Fits) :
    (start mode).converse (messages ++ [message]) = .error .overflow := by
  obtain ⟨s, hs, hfollows⟩ := follows_of_converse hexit hrun
  obtain ⟨hdefine, hhover⟩ := hfollows.overflows hknown hq
  have hreceive : s.receive message = .error .overflow := by
    rw [receive]
    rcases hmessage with h | h
    · rw [h, handle, hdefine]
      rfl
    · rw [h, handle, hhover]
      rfl
  have hlast : s.converse [message] = .error .overflow := by
    rw [converse, hreceive]
    rfl
  rw [hs.converse, hlast]
  rfl

theorem exists_converse_answered (hfits : Fits text) (hq : (q.toPosition text).Fits) :
    ∃ result, (start mode).converse (messages ++ [message]) = .ok (replies ++ [[.object [
      ("jsonrpc", .string "2.0"), ("id", .number (toString id)), ("result", result)]]]) := by
  obtain ⟨s, hs, hfollows⟩ := follows_of_converse hexit hrun
  have hb (v : Int) (t : String) (h : latest? (news messages) uri = some (v, t)) :
      Fits t ∧ (q.toPosition t).Fits := by
    obtain ⟨-, rfl⟩ := Prod.mk.inj (Option.some.inj (hknown.symm.trans h))
    exact ⟨hfits, hq⟩
  obtain ⟨result, s', hreceive⟩ :
      ∃ result s', s.receive message = .ok ⟨[response id result], some s'⟩ := by
    rw [receive]
    rcases hmessage with h | h
    · obtain ⟨result, s', hdefine⟩ := hfollows.exists_define hb
      exact ⟨result, s', by rw [h, handle, hdefine]; rfl⟩
    · obtain ⟨result, s', hhover⟩ := hfollows.exists_hover hb
      exact ⟨result, s', by rw [h, handle, hhover]; rfl⟩
  exact ⟨result, hs.converse_concat hreceive⟩

end Requests

/-- A request about an open document is answered, with no sum or difference on the way that is not
a word, unless its row is the last word: one more is no word then, and the request fails. -/
theorem request_in_words [Protocol] {messages : List String} {replies : List (List Json)}
    {message : String} {id : Int} (hexit : ∀ m ∈ messages, Message.ofText m ≠ .exit)
    (hrun : (start mode).converse messages = .ok replies)
    (hknown : latest? (news messages) uri = some (version, text)) (hfits : Fits text)
    (hmessage : (Message.ofText message).AsksAt id uri q) :
    (q.row + 1 < Word.limit →
      Word.toPosition q text = .ok (q.toPosition text) ∧
      (∀ a d, Analysis.ofText text false = .ok a →
        a.declarationAt? mode (q.toPosition text) = some d →
          ∃ first last, Word.locate d text = .ok (first, last)) ∧
      ∃ result, (start mode).converse (messages ++ [message]) = .ok (replies ++ [[.object [
        ("jsonrpc", .string "2.0"), ("id", .number (toString id)), ("result", result)]]])) ∧
    (q.row + 1 = Word.limit →
      Word.toPosition q text = .error .overflow ∧
      (start mode).converse (messages ++ [message]) = .error .overflow) := by
  have hwords := Message.fits_of_ofText hmessage
  have hcomputed : Word.toPosition q text = (q.toPosition text).checked :=
    Word.toPosition_eq hfits hwords
  have hrow := Utf16Position.toPosition_fits_iff hwords text
  constructor
  · intro hlt
    have hq := hrow.mpr hlt
    refine ⟨?_, fun a d ha hd => exists_locate hfits ha hd, ?_⟩
    · rw [hcomputed]
      exact if_pos hq
    · exact exists_converse_answered hexit hrun hknown hmessage hfits hq
  · intro heq
    have hq : ¬ (q.toPosition text).Fits := fun h => (hrow.mp h).ne heq
    refine ⟨?_, converse_overflows hexit hrun hknown hmessage hq⟩
    rw [hcomputed]
    exact if_neg hq

/-- In the row before the last one, the last column is far from every name, and an answer is
sent. -/
theorem request_in_words_far :
    let text := "t: THEORY BEGIN 𝐱: TYPE END t"
    let opening :=
      "\x7b\"jsonrpc\":\"2.0\",\"method\":\"textDocument/didOpen\",\"params\":" ++
      "\x7b\"textDocument\":\x7b\"uri\":\"untitled:a\",\"languageId\":\"pvs\"," ++
      "\"version\":7,\"text\":\"t: THEORY BEGIN 𝐱: TYPE END t\"\x7d\x7d\x7d"
    let asking :=
      "\x7b\"jsonrpc\":\"2.0\",\"id\":2,\"method\":\"textDocument/hover\",\"params\":" ++
      "\x7b\"textDocument\":\x7b\"uri\":\"untitled:a\"\x7d,\"position\":" ++
      "\x7b\"line\":18446744073709551614,\"character\":18446744073709551615\x7d\x7d\x7d"
    let q : Utf16Position := ⟨18446744073709551614, 18446744073709551615⟩
    Message.ofText opening = .opened ⟨"untitled:a"⟩ 7 text ∧ Fits text ∧
      (Message.ofText asking).AsksAt 2 ⟨"untitled:a"⟩ q ∧ ∃ first result,
        (start .scoped).converse [opening, asking] = .ok [first, [.object [
          ("jsonrpc", .string "2.0"), ("id", .number "2"), ("result", result)]]] := by
  intro text opening asking q
  have hopen : Message.ofText opening = .opened ⟨"untitled:a"⟩ 7 text := by decide +kernel
  have hask : Message.ofText asking = .hover 2 ⟨"untitled:a"⟩ q := by decide +kernel
  have hfits : Fits text := by decide +kernel
  have hrow : q.row + 1 < Word.limit := by decide
  clear_value text opening asking q
  refine ⟨hopen, hfits, Or.inr hask, ?_⟩
  obtain ⟨first, hrun, hexit, hknown⟩ := exists_converse_opened .scoped hopen hfits
  obtain ⟨-, -, result, hanswer⟩ :=
    (request_in_words hexit hrun hknown hfits (Or.inr hask)).1 hrow
  exact ⟨first, result, hanswer⟩

/-- The last row is a word, and a definition that is asked for there is not answered. -/
theorem request_in_last_row :
    let text := "t: THEORY BEGIN END t"
    let opening :=
      "\x7b\"jsonrpc\":\"2.0\",\"method\":\"textDocument/didOpen\",\"params\":" ++
      "\x7b\"textDocument\":\x7b\"uri\":\"untitled:a\",\"languageId\":\"pvs\"," ++
      "\"version\":7,\"text\":\"t: THEORY BEGIN END t\"\x7d\x7d\x7d"
    let asking :=
      "\x7b\"jsonrpc\":\"2.0\",\"id\":2,\"method\":\"textDocument/definition\",\"params\":" ++
      "\x7b\"textDocument\":\x7b\"uri\":\"untitled:a\"\x7d,\"position\":" ++
      "\x7b\"line\":18446744073709551615,\"character\":0\x7d\x7d\x7d"
    let q : Utf16Position := ⟨18446744073709551615, 0⟩
    Fits text ∧ q.Fits ∧ (Message.ofText asking).AsksAt 2 ⟨"untitled:a"⟩ q ∧
      (∃ replies, (start .byCategory).converse [opening] = .ok replies) ∧
        (start .byCategory).converse [opening, asking] = .error .overflow := by
  intro text opening asking q
  have hopen : Message.ofText opening = .opened ⟨"untitled:a"⟩ 7 text := by decide +kernel
  have hask : Message.ofText asking = .definition 2 ⟨"untitled:a"⟩ q := by decide +kernel
  have hfits : Fits text := by decide +kernel
  have hwords : q.Fits := by decide
  have hrow : ¬ q.row + 1 < Word.limit := by decide
  clear_value text opening asking q
  obtain ⟨first, hrun, hexit, hknown⟩ := exists_converse_opened .byCategory hopen hfits
  refine ⟨hfits, hwords, Or.inl hask, ⟨_, hrun⟩, ?_⟩
  refine converse_overflows hexit hrun hknown (Or.inl hask) fun hq => hrow ?_
  exact (Utf16Position.toPosition_fits_iff hwords text).mp hq

end Server

end PvsIndex
