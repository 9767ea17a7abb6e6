import PvsIndex.Lsp.Server
import PvsIndex.Proofs.Except

/-! A run of messages, which takes the server from one state to another. -/

namespace PvsIndex

namespace Server

variable {s s' : Server} {uri : Uri} {q : Utf16Position} {result : Json} {reply : Reply}

section Handling

theorem update_cases {version : Int} {text : String} (h : s.update uri version text = .ok reply) :
    ∃ validated service encoded,
      (s.service.openDocument (s.documents.openUri uri).1 version text).validate
        (s.documents.openUri uri).1 = .ok (validated, service) ∧
      reply =
        ⟨[publication uri validated.1 encoded], some ⟨service, (s.documents.openUri uri).2⟩⟩ := by
  obtain ⟨⟨validated, service⟩, hvalidate, h⟩ := Except.exists_ok_of_bind h
  obtain ⟨encoded, -, h⟩ := Except.exists_ok_of_bind h
  exact ⟨validated, service, encoded, hvalidate, (Except.ok.inj h).symm⟩

theorem define_cases (h : s.define uri q = .ok (result, s')) :
    s' = s ∨ ∃ id p ranges service, s.service.definitions id p = .ok (ranges, service) ∧
      s' = { s with service } := by
  rw [define] at h
  cases hid : s.documents.id? uri with
  | none =>
    rw [hid] at h
    exact Or.inl (congrArg Prod.snd (Except.ok.inj h)).symm
  | some id =>
    rw [hid] at h
    dsimp only at h
    cases huri : s.documents.uri? id with
    | none =>
      rw [huri] at h
      exact Or.inl (congrArg Prod.snd (Except.ok.inj h)).symm
    | some uri =>
      rw [huri] at h
      obtain ⟨p?, -, h⟩ := Except.exists_ok_of_bind h
      cases p? with
      | none => exact Or.inl (congrArg Prod.snd (Except.ok.inj h)).symm
      | some p =>
        obtain ⟨⟨ranges, service⟩, hdefinitions, h⟩ := Except.exists_ok_of_bind h
        refine Or.inr ⟨id, p, ranges, service, hdefinitions, ?_⟩
        cases ranges with
        | none => exact (congrArg Prod.snd (Except.ok.inj h)).symm
        | some ranges =>
          obtain ⟨locations, -, h⟩ := Except.exists_ok_of_bind h
          exact (congrArg Prod.snd (Except.ok.inj h)).symm

theorem hover_cases (h : s.hover uri q = .ok (result, s')) :
    s' = s ∨ ∃ id p text service, s.service.hover id p = .ok (text, service) ∧
      s' = { s with service } := by
  rw [hover] at h
  cases hid : s.documents.id? uri with
  | none =>
    rw [hid] at h
    exact Or.inl (congrArg Prod.snd (Except.ok.inj h)).symm
  | some id =>
    rw [hid] at h
    obtain ⟨p?, -, h⟩ := Except.exists_ok_of_bind h
    cases p? with
    | none => exact Or.inl (congrArg Prod.snd (Except.ok.inj h)).symm
    | some p =>
      obtain ⟨⟨text, service⟩, hhover, h⟩ := Except.exists_ok_of_bind h
      refine Or.inr ⟨id, p, text, service, hhover, ?_⟩
      cases text <;> exact (congrArg Prod.snd (Except.ok.inj h)).symm

theorem exists_server {message : Message} (h : s.handle message = .ok reply)
    (hexit : message ≠ .exit) : ∃ s', reply.server = some s' := by
  cases message with
  | exit => exact absurd rfl hexit
  | opened uri version text | changed uri version text =>
    obtain ⟨_, _, _, -, rfl⟩ := update_cases h
    exact ⟨_, rfl⟩
  | definition id uri q | hover id uri q =>
    obtain ⟨_, -, h⟩ := Except.exists_ok_of_bind h
    obtain rfl := Except.ok.inj h
    exact ⟨_, rfl⟩
  | _ =>
    obtain rfl := Except.ok.inj h
    exact ⟨_, rfl⟩

end Handling

section Protocol

variable [Protocol]

/-- The messages are answered by the replies, one after the other, and leave another server. -/
inductive Run : Server → List String → List (List Json) → Server → Prop where
  | nil (s : Server) : Run s [] [] s
  | cons {s s₁ s' : Server} {text : String} {texts : List String} {bodies : List Json}
      {replies : List (List Json)} (hfirst : s.receive text = .ok ⟨bodies, some s₁⟩)
      (hrest : Run s₁ texts replies s') : Run s (text :: texts) (bodies :: replies) s'

variable {texts : List String} {replies : List (List Json)}

theorem converse_cons {text : String} (h : s.receive text = .ok reply)
    (hserver : reply.server = some s') (texts : List String) :
    s.converse (text :: texts) = (s'.converse texts).map (reply.bodies :: ·) := by
  obtain ⟨bodies, server⟩ := reply
  obtain rfl : server = some s' := hserver
  rw [converse, h]
  change (do return bodies :: (← s'.converse texts)) = _
  cases s'.converse texts <;> rfl

theorem exists_run (hexit : ∀ text ∈ texts, Message.ofText text ≠ .exit)
    (h : s.converse texts = .ok replies) : ∃ s', Run s texts replies s' := by
  induction texts generalizing s replies with
  | nil =>
    obtain rfl := Except.ok.inj h
    exact ⟨s, .nil s⟩
  | cons text texts ih =>
    obtain ⟨hfirst, hexit⟩ := List.forall_mem_cons.mp hexit
    obtain ⟨⟨bodies, server⟩, hreply, h⟩ := Except.exists_ok_of_bind h
    obtain ⟨s₁, rfl⟩ : ∃ s₁, server = some s₁ := exists_server hreply hfirst
    obtain ⟨rest, hrest, h⟩ := Except.exists_ok_of_bind h
    obtain rfl := Except.ok.inj h
    obtain ⟨s', hrun⟩ := ih hexit hrest
    exact ⟨s', .cons hreply hrun⟩

theorem Run.converse (h : Run s texts replies s') (later : List String) :
    s.converse (texts ++ later) = (s'.converse later).map (replies ++ ·) := by
  induction h with
  | nil s =>
    rw [List.nil_append]
    cases s.converse later <;> rfl
  | cons hfirst hrest ih =>
    rw [List.cons_append, converse_cons hfirst rfl, ih]
    cases Server.converse _ later <;> rfl

theorem Run.converse_concat (h : Run s texts replies s') {text : String} {bodies : List Json}
    {s₁ : Server} (hreceive : s'.receive text = .ok ⟨bodies, some s₁⟩) :
    s.converse (texts ++ [text]) = .ok (replies ++ [bodies]) := by
  rw [h.converse, converse_cons hreceive rfl]
  rfl

end Protocol

end Server

end PvsIndex
