import Mathlib.Logic.Function.Basic
import PvsIndex.Lsp.Documents

/-! The numbers of the open documents: names and numbers stand for each other, and to open or to
close a document changes nothing about the others. -/

namespace PvsIndex

theorem Uri.text_ne {uri other : Uri} (h : uri ≠ other) : uri.text ≠ other.text := by
  cases uri
  cases other
  exact fun htext => h (congrArg _ htext)

namespace Documents

/-- Names and numbers stand for each other, and a number in use is one that was given out. -/
structure Consistent (d : Documents) : Prop where
  inverse : ∀ uri id, d.id? uri = some id ↔ d.uri? id = some uri
  issued : ∀ uri id, d.id? uri = some id → 1 ≤ id ∧ id ≤ d.lastId

theorem consistent_empty : Consistent {} where
  inverse uri id := by simp [id?, uri?]
  issued uri id h := by simp [id?] at h

variable {d : Documents} {uri : Uri} {id : Nat}

theorem openUri_of_open (h : d.id? uri = some id) : d.openUri uri = (id, d) := by
  rw [openUri, h]

theorem openUri_of_closed (h : d.id? uri = none) : d.openUri uri = (d.lastId + 1,
    ⟨d.lastId + 1, d.uris.insert (d.lastId + 1) uri, d.ids.insert uri.text (d.lastId + 1)⟩) := by
  rw [openUri, h]

theorem closeUri_of_open (h : d.id? uri = some id) : d.closeUri uri =
    (some id, { d with uris := d.uris.erase id, ids := d.ids.erase uri.text }) := by
  rw [closeUri, h]

theorem closeUri_of_closed (h : d.id? uri = none) : d.closeUri uri = (none, d) := by
  rw [closeUri, h]

theorem id?_openUri (d : Documents) (uri : Uri) :
    (d.openUri uri).2.id? = Function.update d.id? uri (some (d.openUri uri).1) := by
  cases h : d.id? uri with
  | some id =>
    rw [openUri_of_open h, ← h, Function.update_eq_self]
  | none =>
    rw [openUri_of_closed h]
    funext other
    rcases eq_or_ne other uri with rfl | hne
    · simp [id?]
    · simp [id?, Std.TreeMap.getElem?_insert, hne, Uri.text_ne hne.symm]

theorem id?_closeUri (d : Documents) (uri : Uri) :
    (d.closeUri uri).2.id? = Function.update d.id? uri none := by
  cases h : d.id? uri with
  | some id =>
    rw [closeUri_of_open h]
    funext other
    rcases eq_or_ne other uri with rfl | hne
    · simp [id?]
    · simp [id?, Std.TreeMap.getElem?_erase, hne, Uri.text_ne hne.symm]
  | none =>
    rw [closeUri_of_closed h, ← h, Function.update_eq_self]

theorem uri?_closeUri (h : d.id? uri = some id) :
    (d.closeUri uri).2.uri? = Function.update d.uri? id none := by
  rw [closeUri_of_open h]
  funext other
  rcases eq_or_ne other id with rfl | hne
  · simp [uri?]
  · simp [uri?, Std.TreeMap.getElem?_erase, hne, hne.symm]

namespace Consistent

variable (hd : d.Consistent)

include hd

theorem uri?_openUri (uri : Uri) :
    (d.openUri uri).2.uri? = Function.update d.uri? (d.openUri uri).1 (some uri) := by
  cases h : d.id? uri with
  | some id =>
    rw [openUri_of_open h, ← (hd.inverse uri id).mp h, Function.update_eq_self]
  | none =>
    rw [openUri_of_closed h]
    funext other
    rcases eq_or_ne other (d.lastId + 1) with rfl | hne
    · simp [uri?]
    · simp [uri?, Std.TreeMap.getElem?_insert, hne, hne.symm]

/-- A number that is not that of the document stands for another document, or for none. -/
theorem bind_update (h : d.id? uri ≠ some id) {α : Type} (known : Uri → Option α)
    (content : Option α) :
    (d.uri? id).bind (Function.update known uri content) = (d.uri? id).bind known := by
  cases hid : d.uri? id with
  | none => rfl
  | some other =>
    have hne : other ≠ uri := by
      rintro rfl
      exact h ((hd.inverse _ _).mpr hid)
    exact Function.update_of_ne hne _ _

theorem bind_openUri {α : Type} (known : Uri → Option α) (uri : Uri) (content : Option α) :
    (fun id => ((d.openUri uri).2.uri? id).bind (Function.update known uri content)) =
      Function.update (fun id => (d.uri? id).bind known) (d.openUri uri).1 content := by
  funext id
  rw [hd.uri?_openUri]
  rcases eq_or_ne id (d.openUri uri).1 with rfl | hne
  · rw [Function.update_self, Function.update_self, Option.bind_some, Function.update_self]
  · rw [Function.update_of_ne hne, Function.update_of_ne hne]
    refine hd.bind_update (fun h => ?_) known content
    rw [openUri_of_open h] at hne
    exact hne rfl

theorem bind_closeUri {α : Type} (known : Uri → Option α) (h : d.id? uri = some id)
    (content : Option α) :
    (fun id => ((d.closeUri uri).2.uri? id).bind (Function.update known uri content)) =
      Function.update (fun id => (d.uri? id).bind known) id none := by
  funext other
  rw [uri?_closeUri h]
  rcases eq_or_ne other id with rfl | hne
  · rw [Function.update_self, Function.update_self, Option.bind_none]
  · rw [Function.update_of_ne hne, Function.update_of_ne hne]
    exact hd.bind_update (fun hother => hne (Option.some.inj (hother.symm.trans h))) known content

theorem eq_of_id?_openUri {other : Uri} (h : d.id? other = some (d.openUri uri).1) :
    other = uri := by
  cases huri : d.id? uri with
  | some id =>
    rw [openUri_of_open huri] at h
    exact Option.some.inj (((hd.inverse _ _).mp h).symm.trans ((hd.inverse _ _).mp huri))
  | none =>
    rw [openUri_of_closed huri] at h
    exact absurd (hd.issued _ _ h).2 (Nat.not_succ_le_self _)

theorem openUri (uri : Uri) : (d.openUri uri).2.Consistent where
  inverse other id := by
    rw [id?_openUri, hd.uri?_openUri]
    rcases eq_or_ne other uri with rfl | hne
    · rw [Function.update_self]
      rcases eq_or_ne id (d.openUri other).1 with rfl | hid
      · simp
      · rw [Function.update_of_ne hid]
        constructor
        · intro h
          exact absurd (Option.some.inj h).symm hid
        · intro h
          have hopen := (hd.inverse _ _).mpr h
          rw [openUri_of_open hopen] at hid
          exact absurd rfl hid
    · rw [Function.update_of_ne hne, hd.inverse]
      rcases eq_or_ne id (d.openUri uri).1 with rfl | hid
      · rw [Function.update_self, ← hd.inverse]
        constructor
        · intro h
          exact absurd (hd.eq_of_id?_openUri h) hne
        · intro h
          exact absurd (Option.some.inj h).symm hne
      · rw [Function.update_of_ne hid]
  issued other id h := by
    cases huri : d.id? uri with
    | some known =>
      rw [openUri_of_open huri] at h ⊢
      exact hd.issued other id h
    | none =>
      rw [id?_openUri] at h
      rw [openUri_of_closed huri] at h ⊢
      rcases eq_or_ne other uri with rfl | hne
      · rw [Function.update_self] at h
        obtain rfl := Option.some.inj h
        exact ⟨Nat.succ_pos _, Nat.le_refl _⟩
      · rw [Function.update_of_ne hne] at h
        obtain ⟨hpos, hle⟩ := hd.issued other id h
        exact ⟨hpos, Nat.le_succ_of_le hle⟩

theorem closeUri (uri : Uri) : (d.closeUri uri).2.Consistent := by
  cases huri : d.id? uri with
  | none =>
    rw [closeUri_of_closed huri]
    exact hd
  | some known =>
    refine ⟨fun other id => ?_, fun other id h => ?_⟩
    · rw [id?_closeUri, uri?_closeUri huri]
      rcases eq_or_ne other uri with rfl | hne
      · rw [Function.update_self]
        rcases eq_or_ne id known with rfl | hid
        · simp
        · rw [Function.update_of_ne hid, ← hd.inverse, huri]
          simp [hid.symm]
      · rw [Function.update_of_ne hne, hd.inverse]
        rcases eq_or_ne id known with rfl | hid
        · rw [Function.update_self, (hd.inverse _ _).mp huri]
          simp [hne.symm]
        · rw [Function.update_of_ne hid]
    · rw [id?_closeUri] at h
      rw [closeUri_of_open huri]
      rcases eq_or_ne other uri with rfl | hne
      · rw [Function.update_self] at h
        cases h
      · rw [Function.update_of_ne hne] at h
        exact hd.issued other id h

end Consistent

end Documents

end PvsIndex
