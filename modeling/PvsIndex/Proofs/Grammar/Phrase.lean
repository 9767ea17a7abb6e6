import Mathlib.Data.List.Basic

/-! Phrases: extended regular expressions over words and over names that stand for other phrases,
and the sequences of words that they derive. -/

namespace PvsIndex

inductive Phrase (ν τ : Type) where
  | fail
  | empty
  | word (words : List τ)
  | seq (first second : Phrase ν τ)
  | alt (first second : Phrase ν τ)
  | star (phrase : Phrase ν τ)
  | name (name : ν)
  deriving DecidableEq

namespace Phrase

variable {ν τ : Type}

instance : AndThen (Phrase ν τ) := ⟨fun first second => seq first (second ())⟩

instance : OrElse (Phrase ν τ) := ⟨fun first second => alt first (second ())⟩

def option (p : Phrase ν τ) : Phrase ν τ :=
  p <|> empty

/-- One or more. -/
def plus (p : Phrase ν τ) : Phrase ν τ :=
  p >> star p

inductive Derives (production : ν → Phrase ν τ) : Phrase ν τ → List τ → Prop where
  | empty : Derives production empty []
  | word {words x} (h : x ∈ words) : Derives production (word words) [x]
  | seq {p q u v} (first : Derives production p u) (second : Derives production q v) :
      Derives production (seq p q) (u ++ v)
  | left {p q w} (h : Derives production p w) : Derives production (alt p q) w
  | right {p q w} (h : Derives production q w) : Derives production (alt p q) w
  | stop {p} : Derives production (star p) []
  | more {p u v} (first : Derives production p u) (rest : Derives production (star p) v) :
      Derives production (star p) (u ++ v)
  | name {x w} (h : Derives production (production x) w) : Derives production (name x) w

variable {production : ν → Phrase ν τ} {p q : Phrase ν τ} {u v w : List τ}

@[simp] theorem not_derives_fail : ¬ Derives production fail w := nofun

@[simp] theorem derives_empty : Derives production empty w ↔ w = [] := by
  constructor
  · rintro ⟨⟩
    rfl
  · rintro rfl
    exact .empty

@[simp] theorem derives_word {words : List τ} :
    Derives production (word words) w ↔ ∃ x ∈ words, w = [x] := by
  constructor
  · rintro (⟨⟩ | ⟨h⟩)
    exact ⟨_, h, rfl⟩
  · rintro ⟨x, h, rfl⟩
    exact .word h

theorem derives_seq : Derives production (seq p q) w ↔
    ∃ u v, w = u ++ v ∧ Derives production p u ∧ Derives production q v := by
  constructor
  · rintro (⟨⟩ | ⟨⟩ | ⟨h, k⟩)
    exact ⟨_, _, rfl, h, k⟩
  · rintro ⟨u, v, rfl, h, k⟩
    exact .seq h k

theorem derives_alt : Derives production (alt p q) w ↔
    Derives production p w ∨ Derives production q w := by
  constructor
  · intro h
    cases h with
    | left h => exact Or.inl h
    | right h => exact Or.inr h
  · rintro (h | h)
    · exact .left h
    · exact .right h

theorem derives_name {x : ν} : Derives production (name x) w ↔
    Derives production (production x) w := by
  constructor
  · rintro ⟨⟩
    assumption
  · exact .name

theorem Derives.star_of_forall {ws : List (List τ)} (h : ∀ u ∈ ws, Derives production p u) :
    Derives production (star p) ws.flatten := by
  induction ws with
  | nil => exact .stop
  | cons u ws ih =>
    exact .more (h u List.mem_cons_self) (ih fun v hv => h v (List.mem_cons_of_mem u hv))

/-- A repetition derives the sequences that fall into pieces which the repeated phrase derives. -/
theorem derives_star : Derives production (star p) w ↔
    ∃ ws : List (List τ), w = ws.flatten ∧ ∀ u ∈ ws, Derives production p u := by
  constructor
  · intro h
    generalize hq : star p = q at h
    induction h with
    | stop => exact ⟨[], rfl, by simp⟩
    | @more _ u v first _ _ ih =>
      obtain ⟨ws, rfl, hws⟩ := ih hq
      obtain rfl := (star.inj hq)
      exact ⟨u :: ws, rfl, by simpa using ⟨first, hws⟩⟩
    | _ => cases hq
  · rintro ⟨ws, rfl, h⟩
    exact .star_of_forall h

theorem Derives.star_append (h : Derives production (star p) u)
    (k : Derives production (star p) v) : Derives production (star p) (u ++ v) := by
  obtain ⟨us, rfl, hu⟩ := derives_star.mp h
  obtain ⟨vs, rfl, hv⟩ := derives_star.mp k
  rw [← List.flatten_append]
  exact .star_of_forall fun w hw => (List.mem_append.mp hw).elim (hu w) (hv w)

/-- A sequence without the parts that derive only the empty sequence. -/
def join : Phrase ν τ → Phrase ν τ → Phrase ν τ
  | fail, _ => fail
  | _, fail => fail
  | empty, q => q
  | p, empty => p
  | p, q => seq p q

/-- A choice without the alternatives that derive nothing. -/
def either : Phrase ν τ → Phrase ν τ → Phrase ν τ
  | fail, q => q
  | p, fail => p
  | p, q => alt p q

@[simp] theorem derives_join : Derives production (p.join q) w ↔
    ∃ u v, w = u ++ v ∧ Derives production p u ∧ Derives production q v := by
  unfold join
  split <;> simp [derives_seq]

@[simp] theorem derives_either : Derives production (p.either q) w ↔
    Derives production p w ∨ Derives production q w := by
  unfold either
  split <;> simp [derives_alt]

/-- The phrase derives the empty sequence. Names never do. -/
def nullable : Phrase ν τ → Bool
  | fail => false
  | empty => true
  | word _ => false
  | seq p q => p.nullable && q.nullable
  | alt p q => p.nullable || q.nullable
  | star _ => true
  | name _ => false

/-- The words that a derived sequence may begin with, given those of the names. -/
def first (starts : ν → List τ) : Phrase ν τ → List τ
  | fail => []
  | empty => []
  | word words => words
  | seq p q => p.first starts ++ if p.nullable then q.first starts else []
  | alt p q => p.first starts ++ q.first starts
  | star p => p.first starts
  | name x => starts x

/-- The words that may begin a derived sequence with what follows it. -/
def leads (starts : ν → List τ) (follow : List τ) (p : Phrase ν τ) : List τ :=
  p.first starts ++ if p.nullable then follow else []

/-- The words given for the names are right. -/
def StartsRight (production : ν → Phrase ν τ) (starts : ν → List τ) : Prop :=
  ∀ x, (production x).nullable = false ∧ (production x).first starts ⊆ starts x

variable {starts : ν → List τ}

theorem Derives.nullable_or_first (hs : StartsRight production starts)
    (h : Derives production p w) :
    (w = [] → p.nullable = true) ∧ ∀ x v, w = x :: v → x ∈ p.first starts := by
  induction h with
  | empty => simp [nullable]
  | word h => simpa [nullable, first] using h
  | @seq p q u v _ _ ih1 ih2 =>
    constructor
    · intro he
      obtain ⟨hu, hv⟩ := List.append_eq_nil_iff.mp he
      simp [nullable, ih1.1 hu, ih2.1 hv]
    · intro x t he
      rw [first, List.mem_append]
      cases u with
      | nil =>
        rw [if_pos (ih1.1 rfl)]
        exact Or.inr (ih2.2 x t he)
      | cons y u =>
        obtain ⟨rfl, -⟩ := List.cons.inj he
        exact Or.inl (ih1.2 _ _ rfl)
  | left _ ih =>
    refine ⟨fun he => by simp [nullable, ih.1 he], fun x t he => ?_⟩
    exact List.mem_append_left _ (ih.2 x t he)
  | right _ ih =>
    refine ⟨fun he => by simp [nullable, ih.1 he], fun x t he => ?_⟩
    exact List.mem_append_right _ (ih.2 x t he)
  | stop => simp [nullable]
  | @more p u v _ _ ih1 ih2 =>
    refine ⟨fun _ => rfl, fun x t he => ?_⟩
    cases u with
    | nil => exact ih2.2 x t he
    | cons y u =>
      obtain ⟨rfl, -⟩ := List.cons.inj he
      exact ih1.2 _ _ rfl
  | @name x w _ ih =>
    refine ⟨fun he => ?_, fun y t he => (hs x).2 (ih.2 y t he)⟩
    have := ih.1 he
    simp [(hs x).1] at this

theorem Derives.mem_first (hs : StartsRight production starts) {x : τ}
    (h : Derives production p (x :: w)) : x ∈ p.first starts :=
  (h.nullable_or_first hs).2 x w rfl

theorem Derives.ne_nil (hs : StartsRight production starts) (hp : p.nullable = false)
    (h : Derives production p w) : w ≠ [] := by
  rintro rfl
  simpa [hp] using (h.nullable_or_first hs).1

end Phrase

end PvsIndex
