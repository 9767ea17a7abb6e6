import Mathlib.Data.List.Chain
import Mathlib.Data.List.ProdSigma
import PvsIndex.Proofs.Grammar.Phrase

/-! Forms: phrases without names. What a form says of the sequences it derives: which words occur,
which come first and last, which stand next to each other and which one before another. -/

namespace PvsIndex

abbrev Form (τ : Type) := Phrase Empty τ

namespace Form

open Phrase

variable {τ : Type} {p : Form τ} {w : List τ} {x y : τ}

def Derives (p : Form τ) (w : List τ) : Prop :=
  Phrase.Derives (fun x : Empty => x.elim) p w

def letters : Form τ → List τ
  | .fail => []
  | .empty => []
  | .word words => words
  | .seq p q => letters p ++ letters q
  | .alt p q => letters p ++ letters q
  | .star p => letters p
  | .name x => x.elim

def heads (p : Form τ) : List τ :=
  p.first fun x => x.elim

def lasts : Form τ → List τ
  | .fail => []
  | .empty => []
  | .word words => words
  | .seq p q => lasts q ++ if q.nullable then lasts p else []
  | .alt p q => lasts p ++ lasts q
  | .star p => lasts p
  | .name x => x.elim

def neighbours : Form τ → List (τ × τ)
  | .fail => []
  | .empty => []
  | .word _ => []
  | .seq p q => neighbours p ++ neighbours q ++ (lasts p).product (heads q)
  | .alt p q => neighbours p ++ neighbours q
  | .star p => neighbours p ++ (lasts p).product (heads p)
  | .name x => x.elim

/-- Words one of which comes before the other. -/
def pairs : Form τ → List (τ × τ)
  | .fail => []
  | .empty => []
  | .word _ => []
  | .seq p q => pairs p ++ pairs q ++ (letters p).product (letters q)
  | .alt p q => pairs p ++ pairs q
  | .star p => pairs p ++ (letters p).product (letters p)
  | .name x => x.elim

theorem startsRight : StartsRight (fun x : Empty => (x.elim : Form τ)) (fun x => x.elim) :=
  fun x => x.elim

theorem Derives.mem_letters (h : p.Derives w) (hx : x ∈ w) : x ∈ p.letters := by
  induction h with
  | empty => exact absurd hx List.not_mem_nil
  | word h => exact List.mem_singleton.mp hx ▸ h
  | seq _ _ ih1 ih2 =>
    rcases List.mem_append.mp hx with hx | hx
    · exact List.mem_append_left _ (ih1 hx)
    · exact List.mem_append_right _ (ih2 hx)
  | left _ ih => exact List.mem_append_left _ (ih hx)
  | right _ ih => exact List.mem_append_right _ (ih hx)
  | stop => exact absurd hx List.not_mem_nil
  | more _ _ ih1 ih2 =>
    rcases List.mem_append.mp hx with hx | hx
    · exact ih1 hx
    · exact ih2 hx
  | @name x => exact x.elim

theorem Derives.mem_heads (h : p.Derives w) (hx : x ∈ w.head?) : x ∈ p.heads := by
  obtain ⟨v, rfl⟩ := List.head?_eq_some_iff.mp hx
  exact Phrase.Derives.mem_first startsRight h

theorem Derives.mem_lasts (h : p.Derives w) (hx : x ∈ w.getLast?) : x ∈ p.lasts := by
  induction h with
  | empty => cases hx
  | word h =>
    obtain rfl := Option.some.inj hx
    exact h
  | @seq p q u v h1 h2 ih1 ih2 =>
    rw [lasts, List.mem_append]
    cases hv : v.getLast? with
    | some z =>
      rw [List.getLast?_append, hv] at hx
      exact Or.inl (ih2 (hv.trans hx))
    | none =>
      obtain rfl := List.getLast?_eq_none_iff.mp hv
      rw [List.append_nil] at hx
      rw [if_pos ((Phrase.Derives.nullable_or_first startsRight h2).1 rfl)]
      exact Or.inr (ih1 hx)
  | left _ ih => exact List.mem_append_left _ (ih hx)
  | right _ ih => exact List.mem_append_right _ (ih hx)
  | stop => cases hx
  | @more p u v _ _ ih1 ih2 =>
    cases hv : v.getLast? with
    | some z =>
      rw [List.getLast?_append, hv] at hx
      exact ih2 (hv.trans hx)
    | none =>
      obtain rfl := List.getLast?_eq_none_iff.mp hv
      rw [List.append_nil] at hx
      exact ih1 hx
  | @name x => exact x.elim

theorem Derives.isChain (h : p.Derives w) : w.IsChain fun x y => (x, y) ∈ p.neighbours := by
  induction h with
  | empty => exact .nil
  | word => exact .singleton _
  | @seq p q u v h1 h2 ih1 ih2 =>
    refine List.isChain_append.mpr ⟨ih1.imp ?_, ih2.imp ?_, fun x hx y hy => ?_⟩
    · exact fun _ _ hxy => List.mem_append_left _ (List.mem_append_left _ hxy)
    · exact fun _ _ hxy => List.mem_append_left _ (List.mem_append_right _ hxy)
    · exact List.mem_append_right _ (List.mem_product.mpr ⟨Derives.mem_lasts h1 hx,
        Derives.mem_heads h2 hy⟩)
  | left _ ih => exact ih.imp fun x y hxy => List.mem_append_left _ hxy
  | right _ ih => exact ih.imp fun x y hxy => List.mem_append_right _ hxy
  | stop => exact .nil
  | @more p u v h1 h2 ih1 ih2 =>
    refine List.isChain_append.mpr ⟨ih1.imp ?_, ih2, fun x hx y hy => ?_⟩
    · exact fun _ _ hxy => List.mem_append_left _ hxy
    · have hy : y ∈ heads (.star p) := Derives.mem_heads h2 hy
      exact List.mem_append_right _ (List.mem_product.mpr ⟨Derives.mem_lasts h1 hx, hy⟩)
  | @name x => exact x.elim

theorem Derives.pairwise (h : p.Derives w) : w.Pairwise fun x y => (x, y) ∈ p.pairs := by
  induction h with
  | empty => exact .nil
  | word => exact List.pairwise_singleton _ _
  | @seq p q u v h1 h2 ih1 ih2 =>
    refine List.pairwise_append.mpr ⟨ih1.imp ?_, ih2.imp ?_, fun x hx y hy => ?_⟩
    · exact fun hxy => List.mem_append_left _ (List.mem_append_left _ hxy)
    · exact fun hxy => List.mem_append_left _ (List.mem_append_right _ hxy)
    · exact List.mem_append_right _ (List.mem_product.mpr ⟨Derives.mem_letters h1 hx,
        Derives.mem_letters h2 hy⟩)
  | left _ ih => exact ih.imp fun hxy => List.mem_append_left _ hxy
  | right _ ih => exact ih.imp fun hxy => List.mem_append_right _ hxy
  | stop => exact .nil
  | @more p u v h1 h2 ih1 ih2 =>
    refine List.pairwise_append.mpr ⟨ih1.imp ?_, ih2, fun x hx y hy => ?_⟩
    · exact fun hxy => List.mem_append_left _ hxy
    · have hy : y ∈ letters (.star p) := Derives.mem_letters h2 hy
      exact List.mem_append_right _ (List.mem_product.mpr ⟨Derives.mem_letters h1 hx, hy⟩)
  | @name x => exact x.elim

theorem Derives.ne_nil (h : p.Derives w) (hp : p.nullable = false) : w ≠ [] :=
  Phrase.Derives.ne_nil startsRight hp h

/-- The words of a choice between single words. -/
def words? : Form τ → Option (List τ)
  | .fail => some []
  | .word words => some words
  | .alt p q => do return (← words? p) ++ (← words? q)
  | _ => none

theorem Derives.of_words? {words : List τ} (h : p.Derives w) (hp : p.words? = some words) :
    ∃ x ∈ words, w = [x] := by
  induction h generalizing words with
  | word h =>
    obtain rfl := Option.some.inj hp
    exact ⟨_, h, rfl⟩
  | left _ ih =>
    obtain ⟨us, hu, hp⟩ := Option.bind_eq_some_iff.mp hp
    obtain ⟨vs, -, hp⟩ := Option.bind_eq_some_iff.mp hp
    obtain rfl := Option.some.inj hp
    obtain ⟨x, hx, rfl⟩ := ih hu
    exact ⟨x, List.mem_append_left _ hx, rfl⟩
  | right _ ih =>
    obtain ⟨us, -, hp⟩ := Option.bind_eq_some_iff.mp hp
    obtain ⟨vs, hv, hp⟩ := Option.bind_eq_some_iff.mp hp
    obtain rfl := Option.some.inj hp
    obtain ⟨x, hx, rfl⟩ := ih hv
    exact ⟨x, List.mem_append_right _ hx, rfl⟩
  | @name x => exact x.elim
  | _ => cases hp

end Form

end PvsIndex
