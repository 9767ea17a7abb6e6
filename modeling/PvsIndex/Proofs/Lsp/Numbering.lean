import PvsIndex.Proofs.Lsp.Session

/-! The numbers of documents over time: no number is given out twice, whatever is opened and closed,
and the service holds the documents that have one. -/

namespace PvsIndex

namespace Documents

/-- What is done about a document. Questions leave everything as it is. -/
inductive Operation where
  | opening (uri : Uri)
  | closing (uri : Uri)

def perform (d : Documents) : Operation → Documents
  | .opening uri => (d.openUri uri).2
  | .closing uri => (d.closeUri uri).2

def after (d : Documents) (ops : List Operation) : Documents :=
  ops.foldl perform d

def numbers (d : Documents) : List Operation → List Nat
  | [] => []
  | .opening uri :: ops => (d.openUri uri).1 :: (d.perform (.opening uri)).numbers ops
  | .closing uri :: ops => (d.perform (.closing uri)).numbers ops

/-- The number is in use no more. -/
def Retired (d : Documents) (id : Nat) : Prop :=
  d.uri? id = none ∧ id ≤ d.lastId

variable {d : Documents} {uri : Uri} {id : Nat}

theorem lastId_closeUri (d : Documents) (uri : Uri) : (d.closeUri uri).2.lastId = d.lastId := by
  unfold closeUri
  cases d.id? uri <;> rfl

theorem lastId_openUri (d : Documents) (uri : Uri) :
    d.lastId ≤ (d.openUri uri).2.lastId := by
  cases h : d.id? uri with
  | some id => rw [openUri_of_open h]
  | none =>
    rw [openUri_of_closed h]
    exact Nat.le_succ _

theorem lastId_after (d : Documents) (ops : List Operation) : d.lastId ≤ (d.after ops).lastId := by
  induction ops generalizing d with
  | nil => exact Nat.le_refl _
  | cons op ops ih =>
    refine Nat.le_trans ?_ (ih (d.perform op))
    cases op with
    | opening uri => exact lastId_openUri d uri
    | closing uri => exact Nat.le_of_eq (lastId_closeUri d uri).symm

theorem id?_openUri_self (d : Documents) (uri : Uri) :
    (d.openUri uri).2.id? uri = some (d.openUri uri).1 := by
  rw [id?_openUri, Function.update_self]

namespace Consistent

theorem perform (h : d.Consistent) (op : Operation) : (d.perform op).Consistent := by
  cases op with
  | opening uri => exact h.openUri uri
  | closing uri => exact h.closeUri uri

theorem after (h : d.Consistent) (ops : List Operation) : (d.after ops).Consistent := by
  induction ops generalizing d with
  | nil => exact h
  | cons op ops ih => exact ih (h.perform op)

theorem numbers_bounds (h : d.Consistent) {ops : List Operation} (hid : id ∈ d.numbers ops) :
    1 ≤ id ∧ id ≤ (d.after ops).lastId := by
  induction ops generalizing d with
  | nil => cases hid
  | cons op ops ih =>
    have hnext := ih (h.perform op)
    cases op with
    | closing uri => exact hnext hid
    | opening uri =>
      rcases List.mem_cons.mp hid with rfl | hid
      · obtain ⟨hpos, hle⟩ := (h.openUri uri).issued uri _ (id?_openUri_self d uri)
        exact ⟨hpos, hle.trans (lastId_after _ ops)⟩
      · exact hnext hid

theorem retired_closeUri (h : d.Consistent) (hopen : d.id? uri = some id) :
    (d.closeUri uri).2.Retired id := by
  refine ⟨?_, ?_⟩
  · rw [uri?_closeUri hopen, Function.update_self]
  · rw [lastId_closeUri]
    exact (h.issued uri id hopen).2

end Consistent

namespace Retired

variable (hr : d.Retired id) (hd : d.Consistent)

include hr hd

theorem ne_openUri (uri : Uri) : (d.openUri uri).1 ≠ id := by
  cases h : d.id? uri with
  | some known =>
    rw [openUri_of_open h]
    rintro rfl
    exact absurd ((hd.inverse uri known).mp h) (by rw [hr.1]; nofun)
  | none =>
    rw [openUri_of_closed h]
    exact Nat.ne_of_gt (Nat.lt_succ_of_le hr.2)

theorem perform (op : Operation) : (d.perform op).Retired id := by
  cases op with
  | opening uri =>
    refine ⟨?_, hr.2.trans (lastId_openUri d uri)⟩
    rw [Documents.perform, hd.uri?_openUri, Function.update_of_ne (hr.ne_openUri hd uri).symm]
    exact hr.1
  | closing uri =>
    refine ⟨?_, (lastId_closeUri d uri).symm ▸ hr.2⟩
    cases h : d.id? uri with
    | some known =>
      rw [Documents.perform, uri?_closeUri h]
      rcases eq_or_ne id known with rfl | hne
      · rw [Function.update_self]
      · rw [Function.update_of_ne hne]
        exact hr.1
    | none =>
      rw [Documents.perform, closeUri_of_closed h]
      exact hr.1

/-- A retired number is never given out again. -/
theorem notMem_numbers (ops : List Operation) : id ∉ d.numbers ops := by
  induction ops generalizing d with
  | nil => exact List.not_mem_nil
  | cons op ops ih =>
    have hnext := ih (hr.perform hd op) (hd.perform op)
    cases op with
    | closing uri => exact hnext
    | opening uri => exact List.not_mem_cons_of_ne_of_not_mem (hr.ne_openUri hd uri).symm hnext

end Retired

/-- How the numbers are kept after some of them were given out. -/
structure Kept (d : Documents) (given : List Nat) : Prop where
  inverse : ∀ uri id, d.id? uri = some id ↔ d.uri? id = some uri
  within : ∀ id ∈ given, 1 ≤ id ∧ id ≤ d.lastId
  reopen : ∀ uri id, d.id? uri = some id → d.openUri uri = (id, d)
  /-- Any other document gets a number that no document had before. -/
  fresh : ∀ uri, d.id? uri = none → (d.openUri uri).1 ∉ given
  /-- A closed document has no number, and its number is never given out again. -/
  close : ∀ uri id, d.id? uri = some id → (d.closeUri uri).1 = some id ∧
    (d.closeUri uri).2.id? = Function.update d.id? uri none ∧
    (d.closeUri uri).2.uri? = Function.update d.uri? id none ∧
    ∀ later, id ∉ (d.closeUri uri).2.numbers later
  ignore : ∀ uri, d.id? uri = none → d.closeUri uri = (none, d)
  retired : ∀ id ∈ given, d.uri? id = none → ∀ later, id ∉ d.numbers later

theorem Consistent.kept (hd : d.Consistent) {given : List Nat}
    (hgiven : ∀ id ∈ given, 1 ≤ id ∧ id ≤ d.lastId) : d.Kept given where
  inverse := hd.inverse
  within := hgiven
  reopen _ _ h := openUri_of_open h
  fresh uri h hmem := by
    rw [openUri_of_closed h] at hmem
    exact Nat.not_succ_le_self _ (hgiven _ hmem).2
  close uri id h :=
    ⟨by rw [closeUri_of_open h], id?_closeUri d uri, uri?_closeUri h,
      (hd.retired_closeUri h).notMem_numbers (hd.closeUri uri)⟩
  ignore _ h := closeUri_of_closed h
  retired id hid h := Retired.notMem_numbers ⟨h, (hgiven id hid).2⟩ hd

/-- After any operations the numbers that they gave out are kept. -/
theorem kept_after (ops : List Operation) :
    (({} : Documents).after ops).Kept (({} : Documents).numbers ops) :=
  (consistent_empty.after ops).kept fun _ => consistent_empty.numbers_bounds

end Documents

namespace Message

def operation? : Message → Option Documents.Operation
  | opened uri _ _ | changed uri _ _ => some (.opening uri)
  | closed uri => some (.closing uri)
  | _ => none

end Message

namespace Server

variable {s s' : Server}

/-- A message does no more about the documents than it says. -/
theorem documents_of_handle {message : Message} {bodies : List Json}
    (h : s.handle message = .ok ⟨bodies, some s'⟩) :
    s'.documents = s.documents.after message.operation?.toList := by
  cases message with
  | exit => cases h
  | opened uri version text | changed uri version text =>
    obtain ⟨_, _, _, -, hreply⟩ := update_cases h
    cases hreply
    rfl
  | closed uri =>
    cases Except.ok.inj h
    rfl
  | definition id uri q =>
    obtain ⟨⟨_, _⟩, hdefine, hreply⟩ := Except.exists_ok_of_bind h
    cases hreply
    rcases define_cases hdefine with rfl | ⟨_, _, _, _, -, rfl⟩ <;> rfl
  | hover id uri q =>
    obtain ⟨⟨_, _⟩, hhover, hreply⟩ := Except.exists_ok_of_bind h
    cases hreply
    rcases hover_cases hhover with rfl | ⟨_, _, _, _, -, rfl⟩ <;> rfl
  | _ =>
    cases h
    rfl

theorem Follows.mem_service {mode : LookupMode} {known : Uri → Option (Int × String)}
    (h : s.Follows mode known) (id : Nat) :
    id ∈ s.service.documents ↔ ∃ uri, s.documents.id? uri = some id := by
  have hcontent := congrArg Option.isSome (h.service.content id)
  rw [Option.isSome_map] at hcontent
  rw [Std.TreeMap.mem_iff_isSome_getElem?, hcontent]
  constructor
  · intro hsome
    obtain ⟨content, hcontent⟩ := Option.isSome_iff_exists.mp hsome
    obtain ⟨uri, huri, -⟩ := Option.bind_eq_some_iff.mp hcontent
    exact ⟨uri, (h.documents.inverse uri id).mpr huri⟩
  · rintro ⟨uri, hid⟩
    rw [(h.documents.inverse uri id).mp hid, Option.bind_some, ← h.isSome, hid]
    rfl

section Protocol

variable [Protocol]

def operations (texts : List String) : List Documents.Operation :=
  texts.filterMap fun text => (Message.ofText text).operation?

theorem Run.documents {texts : List String} {replies : List (List Json)}
    (h : Run s texts replies s') : s'.documents = s.documents.after (operations texts) := by
  induction h with
  | nil s => rfl
  | @cons s s₁ s' text texts bodies replies hfirst hrest ih =>
    have hops : operations (text :: texts) =
        (Message.ofText text).operation?.toList ++ operations texts := by
      cases htext : (Message.ofText text).operation? <;> simp [operations, htext]
    rw [ih, documents_of_handle hfirst, hops, Documents.after, Documents.after, Documents.after,
      List.foldl_append]

/-- Whatever is opened and closed, the numbers of the documents are kept, and so they are by a
server after every message of every run, which holds the texts of just the documents with a
number. -/
theorem numbers_kept (mode : LookupMode) :
    (∀ ops, (({} : Documents).after ops).Kept (({} : Documents).numbers ops)) ∧
      ∀ texts replies s, Run (start mode) texts replies s →
        s.documents.Kept (({} : Documents).numbers (operations texts)) ∧
        ∀ id, id ∈ s.service.documents ↔ ∃ uri, s.documents.id? uri = some id := by
  refine ⟨Documents.kept_after, fun texts replies s hrun => ⟨?_, ?_⟩⟩
  · have hdocuments := hrun.documents
    rw [show (start mode).documents = {} from rfl] at hdocuments
    rw [hdocuments]
    exact Documents.kept_after _
  · have hfollows : s.Follows mode (latest? ([] ++ news texts)) :=
      hrun.follows (follows_start mode)
    exact hfollows.mem_service

end Protocol

/-- A document is opened, closed and opened again: it has the second number then, and the first one
belongs to no document. -/
theorem numbers_kept_reopened :
    let opening :=
      "\x7b\"jsonrpc\":\"2.0\",\"method\":\"textDocument/didOpen\",\"params\":" ++
      "\x7b\"textDocument\":\x7b\"uri\":\"untitled:a\",\"languageId\":\"pvs\"," ++
      "\"version\":7,\"text\":\"t: THEORY\"\x7d\x7d\x7d"
    let closing :=
      "\x7b\"jsonrpc\":\"2.0\",\"method\":\"textDocument/didClose\",\"params\":" ++
      "\x7b\"textDocument\":\x7b\"uri\":\"untitled:a\"\x7d\x7d\x7d"
    ∃ replies s, Run (start .scoped) [opening, closing, opening] replies s ∧
      s.documents.uri? 2 = some ⟨"untitled:a"⟩ ∧ 2 ∈ s.service.documents ∧
      s.documents.uri? 1 = none ∧ 1 ∉ s.service.documents := by
  intro opening closing
  have hopen : Message.ofText opening = .opened ⟨"untitled:a"⟩ 7 "t: THEORY" := by
    decide +kernel
  have hclose : Message.ofText closing = .closed ⟨"untitled:a"⟩ := by decide +kernel
  clear_value opening closing
  have hfits : Fits "t: THEORY" := by decide
  have hopening : Heeds (.ofText opening) := by
    rw [hopen]
    exact hfits
  have hclosing : Heeds (.ofText closing) := by
    rw [hclose]
    trivial
  obtain ⟨_, s₁, h₁⟩ := (start .scoped).exists_receive hopening
  obtain ⟨_, s₂, h₂⟩ := s₁.exists_receive hclosing
  obtain ⟨_, s₃, h₃⟩ := s₂.exists_receive hopening
  have hrun := Run.cons h₁ (.cons h₂ (.cons h₃ (.nil s₃)))
  obtain ⟨hkept, hservice⟩ := (numbers_kept .scoped).2 _ _ _ hrun
  have hdocuments : s₃.documents = ({} : Documents).after
      [.opening ⟨"untitled:a"⟩, .closing ⟨"untitled:a"⟩, .opening ⟨"untitled:a"⟩] := by
    rw [hrun.documents]
    simp only [operations, List.filterMap_cons, List.filterMap_nil, hopen, hclose]
    rfl
  have hsecond : s₃.documents.uri? 2 = some ⟨"untitled:a"⟩ := by
    rw [hdocuments]
    decide +kernel
  have hfirst : s₃.documents.uri? 1 = none := by
    rw [hdocuments]
    decide +kernel
  refine ⟨_, s₃, hrun, hsecond, (hservice 2).mpr ⟨_, (hkept.inverse _ 2).mpr hsecond⟩, hfirst, ?_⟩
  intro hmem
  obtain ⟨uri, hid⟩ := (hservice 1).mp hmem
  have huri := (hkept.inverse uri 1).mp hid
  rw [hfirst] at huri
  cases huri

end Server

end PvsIndex
