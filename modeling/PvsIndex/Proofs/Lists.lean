import Mathlib.Data.List.Forall2
import Mathlib.Data.List.Nodup

/-! Lists and what is made of them. -/

namespace PvsIndex.List

variable {α β γ : Type}

theorem prefix_append_iff {xs ys zs : List α} :
    xs ++ ys <+: zs ↔ xs <+: zs ∧ ys <+: zs.drop xs.length := by
  constructor
  · rintro ⟨l, rfl⟩
    refine ⟨⟨ys ++ l, by simp⟩, ?_⟩
    rw [List.append_assoc, List.drop_left]
    exact List.prefix_append _ _
  · rintro ⟨⟨l, rfl⟩, h⟩
    rw [List.drop_left] at h
    exact (List.prefix_append_right_inj xs).mpr h

theorem zipIdx_eq_map_idxOf [DecidableEq α] {xs : List α} (h : xs.Nodup) :
    xs.zipIdx = xs.map fun x => (x, xs.idxOf x) := by
  refine List.ext_getElem (by simp) fun i hi _ => ?_
  have hlt : i < xs.length := by simpa using hi
  simp [h.idxOf_getElem i hlt]

/-- Parts of two kinds can be told apart if none of the second kind comes before one of the
first. -/
theorem flatMap_append_comm {f g : α → List β} {xs : List α}
    (h : xs.Pairwise fun x y => g x = [] ∨ f y = []) :
    xs.flatMap (fun x => f x ++ g x) = xs.flatMap f ++ xs.flatMap g := by
  induction xs with
  | nil => rfl
  | cons x xs ih =>
    obtain ⟨hx, hxs⟩ := List.pairwise_cons.mp h
    have hswap : g x ++ xs.flatMap f = xs.flatMap f ++ g x := by
      by_cases hg : g x = []
      · rw [hg, List.nil_append, List.append_nil]
      · have hf : xs.flatMap f = [] :=
          List.flatMap_eq_nil_iff.mpr fun y hy => (hx y hy).resolve_left hg
        rw [hf, List.nil_append, List.append_nil]
    simp only [List.flatMap_cons, ih hxs, List.append_assoc]
    rw [← List.append_assoc (g x), hswap, List.append_assoc]

theorem forall₂_filterMap {R : β → γ → Prop} {f : α → Option β} {g : α → Option γ} {xs : List α}
    (h : ∀ x ∈ xs, Option.Rel R (f x) (g x)) :
    List.Forall₂ R (xs.filterMap f) (xs.filterMap g) := by
  have hrel : List.Forall₂ (fun x y => Option.Rel R (f x) (g y)) xs xs := List.forall₂_same.mpr h
  exact List.rel_filterMap (fun _ _ hxy => hxy) hrel

theorem pairwise_of_forall₂ {R : α → β → Prop} {S : α → α → Prop} {P : β → β → Prop}
    {xs : List α} {ys : List β} (h : List.Forall₂ R xs ys) (hp : ys.Pairwise P)
    (hs : ∀ x x' y y', R x y → R x' y' → P y y' → S x x') : xs.Pairwise S := by
  obtain ⟨hlength, hget⟩ := List.forall₂_iff_get.mp h
  rw [List.pairwise_iff_getElem] at hp ⊢
  intro i j hi hj hij
  exact hs _ _ _ _ (hget i hi (by omega)) (hget j hj (by omega)) (hp i j _ _ hij)

end PvsIndex.List
