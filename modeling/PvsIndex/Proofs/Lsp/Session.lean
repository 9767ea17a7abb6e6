import PvsIndex.Proofs.Lsp.Documents
import PvsIndex.Proofs.Lsp.Publishing
import PvsIndex.Proofs.Service.Afresh

/-! What a run leaves the server with: of each document, what was said of it last. -/

namespace PvsIndex

namespace Server

/-- The server knows what was said of each document, under the number that the document has. -/
structure Follows (s : Server) (mode : LookupMode) (known : Uri → Option (Int × String)) :
    Prop where
  mode : s.service.mode = mode
  documents : s.documents.Consistent
  service : s.service.Knows fun id => (s.documents.uri? id).bind known
  isSome : ∀ uri, (s.documents.id? uri).isSome = (known uri).isSome

variable {s s' : Server} {mode : LookupMode} {known : Uri → Option (Int × String)} {uri : Uri}

theorem follows_start (mode : LookupMode) : (start mode).Follows mode fun _ => none where
  mode := rfl
  documents := Documents.consistent_empty
  service := by
    have hnone (id : Nat) :
        ((start mode).documents.uri? id).bind (fun _ => (none : Option (Int × String))) = none := by
      simp [start, Documents.uri?]
    simp only [hnone]
    exact Service.knows_start mode
  isSome uri := by simp [start, Documents.id?]

theorem isSome_update {α β : Type} {f : Uri → Option α} {g : Uri → Option β}
    (h : ∀ uri, (f uri).isSome = (g uri).isSome) {a : Option α} {b : Option β}
    (hab : a.isSome = b.isSome) (uri other : Uri) :
    (Function.update f uri a other).isSome = (Function.update g uri b other).isSome := by
  rcases eq_or_ne other uri with rfl | hne
  · rw [Function.update_self, Function.update_self, hab]
  · rw [Function.update_of_ne hne, Function.update_of_ne hne, h]

namespace Follows

variable (h : s.Follows mode known)

include h

theorem exists_id {content : Int × String} (hknown : known uri = some content) :
    ∃ id, s.documents.id? uri = some id ∧ s.documents.uri? id = some uri := by
  have hisSome := h.isSome uri
  rw [hknown] at hisSome
  obtain ⟨id, hid⟩ := Option.isSome_iff_exists.mp hisSome
  exact ⟨id, hid, (h.documents.inverse uri id).mp hid⟩

theorem id?_eq_none (hnone : known uri = none) : s.documents.id? uri = none := by
  rw [← Option.not_isSome_iff_eq_none, h.isSome, hnone]
  nofun

theorem query {op : Service.Operation} {answer : Service.Answer} {service : Service}
    (hop : op.news? = none) (hperform : s.service.perform op = .ok (answer, service)) :
    Follows ⟨service, s.documents⟩ mode known where
  mode := (h.service.of_perform hperform).2.1.trans h.mode
  documents := h.documents
  service := by
    have hknows := (h.service.of_perform hperform).2.2
    rw [hop] at hknows
    exact hknows
  isSome := h.isSome

theorem openDocument (uri : Uri) (version : Int) (text : String) :
    Follows
      ⟨s.service.openDocument (s.documents.openUri uri).1 version text,
        (s.documents.openUri uri).2⟩
      mode (Function.update known uri (some (version, text))) where
  mode := h.mode
  documents := h.documents.openUri uri
  service := by
    rw [h.documents.bind_openUri]
    exact h.service.openDocument _ version text
  isSome := by
    rw [Documents.id?_openUri]
    exact isSome_update h.isSome rfl uri

theorem update {version : Int} {text : String} {reply : Reply}
    (hupdate : s.update uri version text = .ok reply) : ∃ s', reply.server = some s' ∧
      s'.Follows mode (Function.update known uri (some (version, text))) := by
  obtain ⟨validated, service, encoded, hvalidate, rfl⟩ := update_cases hupdate
  have hperform : (s.service.openDocument (s.documents.openUri uri).1 version text).perform
      (.validate (s.documents.openUri uri).1) =
        .ok (.diagnostics validated.1 validated.2, service) := by
    rw [Service.perform, hvalidate]
    rfl
  exact ⟨_, rfl, (h.openDocument uri version text).query rfl hperform⟩

theorem close (uri : Uri) :
    ∃ s', (s.close uri).server = some s' ∧ s'.Follows mode (Function.update known uri none) := by
  rw [Server.close]
  cases hid : s.documents.id? uri with
  | none =>
    have hknown : known uri = none := by
      rw [← Option.not_isSome_iff_eq_none, ← h.isSome, hid]
      nofun
    rw [Documents.closeUri_of_closed hid, Function.update_eq_self_iff.mpr hknown.symm]
    exact ⟨s, rfl, h⟩
  | some id =>
    have hdocuments := h.documents.closeUri uri
    have hservice := h.service.closeDocument id
    rw [← h.documents.bind_closeUri known hid none] at hservice
    have hisSome := isSome_update h.isSome (a := none) (b := none) rfl uri
    rw [← Documents.id?_closeUri] at hisSome
    rw [Documents.closeUri_of_open hid] at hdocuments hservice hisSome ⊢
    exact ⟨_, rfl, h.mode, hdocuments, hservice, hisSome⟩

theorem define {q : Utf16Position} {result : Json} (hdefine : s.define uri q = .ok (result, s')) :
    s'.Follows mode known := by
  rcases define_cases hdefine with rfl | ⟨id, p, ranges, service, hdefinitions, rfl⟩
  · exact h
  · have hperform : s.service.perform (.definitions id p) = .ok (.definitions ranges, service) := by
      rw [Service.perform, hdefinitions]
      rfl
    exact h.query rfl hperform

theorem hover {q : Utf16Position} {result : Json} (hhover : s.hover uri q = .ok (result, s')) :
    s'.Follows mode known := by
  rcases hover_cases hhover with rfl | ⟨id, p, text, service, hanswer, rfl⟩
  · exact h
  · have hperform : s.service.perform (.hover id p) = .ok (.hover text, service) := by
      rw [Service.perform, hanswer]
      rfl
    exact h.query rfl hperform

/-- After a message, the server knows what the message says, if it says anything. -/
theorem handle {message : Message} {bodies : List Json}
    (hhandle : s.handle message = .ok ⟨bodies, some s'⟩) :
    s'.Follows mode (learn known message.news?) := by
  cases message with
  | exit => cases hhandle
  | opened uri version text | changed uri version text =>
    obtain ⟨_, hserver, hnext⟩ := h.update hhandle
    obtain rfl := Option.some.inj hserver
    exact hnext
  | closed uri =>
    obtain ⟨_, hserver, hnext⟩ := h.close uri
    rw [Except.ok.inj hhandle] at hserver
    obtain rfl := Option.some.inj hserver
    exact hnext
  | definition id uri q =>
    obtain ⟨⟨result, _⟩, hdefine, hreply⟩ := Except.exists_ok_of_bind hhandle
    cases hreply
    exact h.define hdefine
  | hover id uri q =>
    obtain ⟨⟨result, _⟩, hhover, hreply⟩ := Except.exists_ok_of_bind hhandle
    cases hreply
    exact h.hover hhover
  | _ =>
    cases hhandle
    exact h

end Follows

section Protocol

variable [Protocol]

def news (texts : List String) : List (Uri × Option (Int × String)) :=
  texts.filterMap fun text => (Message.ofText text).news?

/-- A run leaves a server that knows what was said of each document last. -/
theorem Run.follows {texts : List String} {replies : List (List Json)}
    (h : Run s texts replies s') {before : List (Uri × Option (Int × String))}
    (hbefore : s.Follows mode (latest? before)) :
    s'.Follows mode (latest? (before ++ news texts)) := by
  induction h generalizing before with
  | nil s =>
    rw [news, List.filterMap_nil, List.append_nil]
    exact hbefore
  | @cons s s₁ s' text texts bodies replies hfirst hrest ih =>
    have hnext := hbefore.handle hfirst
    rw [learn_latest?] at hnext
    have hrest := ih hnext
    have hnews : news (text :: texts) = (Message.ofText text).news?.toList ++ news texts := by
      cases htext : (Message.ofText text).news? <;> simp [news, htext]
    rw [hnews, ← List.append_assoc]
    exact hrest

theorem follows_of_converse {texts : List String} {replies : List (List Json)}
    (hexit : ∀ text ∈ texts, Message.ofText text ≠ .exit)
    (h : (start mode).converse texts = .ok replies) :
    ∃ s', Run (start mode) texts replies s' ∧ s'.Follows mode (latest? (news texts)) := by
  obtain ⟨s', hrun⟩ := exists_run hexit h
  have hstart : (start mode).Follows mode (latest? []) := follows_start mode
  exact ⟨s', hrun, hrun.follows hstart⟩

end Protocol

end Server

end PvsIndex
