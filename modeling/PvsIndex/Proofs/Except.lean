import Mathlib.Data.List.Forall2

/-! Work that may fail, step by step and over lists. -/

namespace PvsIndex

namespace Except

variable {ε α β : Type} {f : α → Except ε β}

theorem exists_ok_of_bind {x : Except ε α} {b : β} (h : (x >>= f) = .ok b) :
    ∃ a, x = .ok a ∧ f a = .ok b := by
  cases x with
  | error => cases h
  | ok a => exact ⟨a, rfl, h⟩

theorem forall₂_of_mapM {R : α → β → Prop} {xs : List α} {ys : List β} (h : xs.mapM f = .ok ys)
    (hr : ∀ x ∈ xs, ∀ y, f x = .ok y → R x y) : List.Forall₂ R xs ys := by
  induction xs generalizing ys with
  | nil =>
    obtain rfl := Except.ok.inj h
    exact .nil
  | cons x xs ih =>
    obtain ⟨hx, hxs⟩ := List.forall_mem_cons.mp hr
    rw [List.mapM_cons] at h
    obtain ⟨y, hy, h⟩ := exists_ok_of_bind h
    obtain ⟨ys', hys, h⟩ := exists_ok_of_bind h
    obtain rfl := Except.ok.inj h
    exact .cons (hx y hy) (ih hys hxs)

theorem exists_mapM {xs : List α} (h : ∀ x ∈ xs, ∃ y, f x = .ok y) : ∃ ys, xs.mapM f = .ok ys := by
  induction xs with
  | nil => exact ⟨[], rfl⟩
  | cons x xs ih =>
    obtain ⟨⟨y, hy⟩, hxs⟩ := List.forall_mem_cons.mp h
    obtain ⟨ys, hys⟩ := ih hxs
    exact ⟨y :: ys, by rw [List.mapM_cons, hy, hys]; rfl⟩

end Except

end PvsIndex
