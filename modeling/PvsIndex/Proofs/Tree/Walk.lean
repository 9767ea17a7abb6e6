import Mathlib.Data.List.Basic
import Mathlib.Data.List.Infix
import PvsIndex.Tree.Visit

/-! The elements of a tree in the order of a walk, and how two of them lie to each other. -/

namespace PvsIndex

namespace Tree

theorem induction {P : Tree → Prop} (leaf : ∀ t, P (leaf t))
    (node : ∀ kind children, (∀ c ∈ children, P c) → P (node kind children)) (t : Tree) : P t :=
  @Tree.rec P (fun ts => ∀ c ∈ ts, P c) leaf node nofun
    (fun _ _ h hs => List.forall_mem_cons.mpr ⟨h, hs⟩) t

/-- The elements of a tree below some others. -/
def preorderBelow (ancestors : List Element) (t : Tree) : List Occurrence :=
  (t.visitsBelow ancestors).filterMap Visit.entered?

def preorderOf (ancestors : List Element) (ts : List Tree) : List Occurrence :=
  (visitsOf ancestors ts).filterMap Visit.entered?

theorem preorder_eq (t : Tree) : t.preorder = t.preorderBelow [] :=
  rfl

variable {ancestors : List Element} {t : Tree} {ts : List Tree} {o p : Occurrence}

@[simp] theorem preorderBelow_leaf (ancestors : List Element) (token : Token) :
    (leaf token).preorderBelow ancestors = [] := by
  simp [preorderBelow, visitsBelow]

@[simp] theorem preorderBelow_node (ancestors : List Element) (kind : ElementKind)
    (children : List Tree) : (node kind children).preorderBelow ancestors =
      ⟨⟨kind, children⟩, ancestors⟩ :: preorderOf (⟨kind, children⟩ :: ancestors) children := by
  simp [preorderBelow, preorderOf, visitsBelow, Visit.entered?, List.filterMap_append]

@[simp] theorem preorderOf_nil (ancestors : List Element) : preorderOf ancestors [] = [] := by
  simp [preorderOf, visitsOf]

@[simp] theorem preorderOf_cons (ancestors : List Element) (t : Tree) (ts : List Tree) :
    preorderOf ancestors (t :: ts) = t.preorderBelow ancestors ++ preorderOf ancestors ts := by
  simp [preorderOf, preorderBelow, visitsOf, List.filterMap_append]

theorem preorderOf_eq_flatMap (ancestors : List Element) (ts : List Tree) :
    preorderOf ancestors ts = ts.flatMap (preorderBelow ancestors) := by
  induction ts with
  | nil => simp
  | cons t ts ih => simp [ih]

theorem mem_preorderOf :
    o ∈ preorderOf ancestors ts ↔ ∃ t ∈ ts, o ∈ t.preorderBelow ancestors := by
  rw [preorderOf_eq_flatMap, List.mem_flatMap]

theorem suffix_of_mem (h : o ∈ t.preorderBelow ancestors) : ancestors <:+ o.ancestors := by
  induction t using Tree.induction generalizing ancestors with
  | leaf => simp at h
  | node kind children ih =>
    rw [preorderBelow_node, List.mem_cons, mem_preorderOf] at h
    rcases h with rfl | ⟨c, hc, h⟩
    · exact List.suffix_rfl
    · exact (List.suffix_cons _ _).trans (ih c hc h)

theorem mem_of_suffix {e : Element} {rest : List Element} (h : o ∈ t.preorderBelow ancestors)
    (hs : e :: rest <:+ o.ancestors) :
    e :: rest <:+ ancestors ∨ ⟨e, rest⟩ ∈ t.preorderBelow ancestors := by
  induction t using Tree.induction generalizing ancestors with
  | leaf => simp at h
  | node kind children ih =>
    rw [preorderBelow_node, List.mem_cons, mem_preorderOf] at h ⊢
    rcases h with rfl | ⟨c, hc, h⟩
    · exact Or.inl hs
    · rcases ih c hc h with h | h
      · rcases List.suffix_cons_iff.mp h with h | h
        · obtain ⟨rfl, rfl⟩ := List.cons.inj h
          exact Or.inr (Or.inl rfl)
        · exact Or.inl h
      · exact Or.inr (Or.inr ⟨c, hc, h⟩)

theorem mem_preorder_of_suffix {e : Element} {rest : List Element} (h : o ∈ t.preorder)
    (hs : e :: rest <:+ o.ancestors) : ⟨e, rest⟩ ∈ t.preorder :=
  (mem_of_suffix h hs).resolve_left fun h => absurd (List.suffix_nil.mp h) nofun

theorem exists_child_of_suffix {e : Element} {rest : List Element}
    (h : o ∈ t.preorderBelow ancestors) (hs : e :: rest <:+ o.ancestors)
    (hn : ¬ e :: rest <:+ ancestors) : ∃ c ∈ e.children, o ∈ c.preorderBelow (e :: rest) := by
  induction t using Tree.induction generalizing ancestors with
  | leaf => simp at h
  | node kind children ih =>
    rw [preorderBelow_node, List.mem_cons, mem_preorderOf] at h
    rcases h with rfl | ⟨c, hc, h⟩
    · exact absurd hs hn
    · by_cases he : e :: rest <:+ ⟨kind, children⟩ :: ancestors
      · obtain ⟨rfl, rfl⟩ := List.cons.inj ((List.suffix_cons_iff.mp he).resolve_right hn)
        exact ⟨c, hc, h⟩
      · exact ih c hc h he

theorem mem_of_child {kind : ElementKind} {children : List Tree}
    (h : o ∈ t.preorderBelow ancestors) (hc : node kind children ∈ o.element.children) :
    ⟨⟨kind, children⟩, o.element :: o.ancestors⟩ ∈ t.preorderBelow ancestors := by
  induction t using Tree.induction generalizing ancestors with
  | leaf => simp at h
  | node kind' children' ih =>
    rw [preorderBelow_node, List.mem_cons, mem_preorderOf] at h ⊢
    rcases h with rfl | ⟨c, hm, h⟩
    · exact Or.inr ⟨_, hc, by simp⟩
    · exact Or.inr ⟨c, hm, ih c hm h⟩

theorem forall_preorderBelow {P : Tree → Prop} (h : P t)
    (down : ∀ kind children, P (node kind children) → ∀ c ∈ children, P c)
    (ho : o ∈ t.preorderBelow ancestors) : P o.element.tree := by
  induction t using Tree.induction generalizing ancestors with
  | leaf => simp at ho
  | node kind children ih =>
    rw [preorderBelow_node, List.mem_cons, mem_preorderOf] at ho
    rcases ho with rfl | ⟨c, hc, ho⟩
    · exact h
    · exact ih c hc (down kind children h c hc) ho

theorem leaves_isInfix_of_mem_children {children : List Tree} {c : Tree} (h : c ∈ children) :
    c.leaves <:+: leavesOf children := by
  obtain ⟨l, r, rfl⟩ := List.append_of_mem h
  refine ⟨leavesOf l, leavesOf r, ?_⟩
  simp [leavesOf_eq_flatMap]

theorem leaves_isInfix (h : o ∈ t.preorderBelow ancestors) : o.element.leaves <:+: t.leaves :=
  forall_preorderBelow (P := fun s => s.leaves <:+: t.leaves) List.infix_rfl
    (fun _ _ hs _ hc => (leaves_isInfix_of_mem_children hc).trans hs) h

end Tree

/-- The one element stands above the other. -/
def Occurrence.Above (o p : Occurrence) : Prop :=
  o.element :: o.ancestors <:+ p.ancestors

/-- An element that comes after another one in a walk lies below it, or its tokens come later. -/
def Occurrence.Earlier (R : Token → Token → Prop) (o p : Occurrence) : Prop :=
  o.Above p ∨ ∀ x ∈ o.element.leaves, ∀ y ∈ p.element.leaves, R x y

namespace Tree

variable {ancestors : List Element} {t : Tree} {ts : List Tree} {R : Token → Token → Prop}

theorem pairwise_preorderOf_of_forall
    (h : ∀ c ∈ ts, (c.preorderBelow ancestors).Pairwise (Occurrence.Earlier R))
    (hl : (leavesOf ts).Pairwise R) :
    (preorderOf ancestors ts).Pairwise (Occurrence.Earlier R) := by
  rw [leavesOf_eq_flatMap, List.pairwise_flatMap] at hl
  rw [preorderOf_eq_flatMap, List.pairwise_flatMap]
  refine ⟨h, hl.2.imp fun hcd o ho p hp => ?_⟩
  exact Or.inr fun x hx y hy =>
    hcd x ((leaves_isInfix ho).subset hx) y ((leaves_isInfix hp).subset hy)

theorem pairwise_preorderBelow (h : t.leaves.Pairwise R) :
    (t.preorderBelow ancestors).Pairwise (Occurrence.Earlier R) := by
  induction t using Tree.induction generalizing ancestors with
  | leaf => simp
  | node kind children ih =>
    rw [preorderBelow_node, List.pairwise_cons]
    refine ⟨fun p hp => ?_, pairwise_preorderOf_of_forall (fun _ hc => ih _ hc ?_) h⟩
    · obtain ⟨c, -, hp⟩ := mem_preorderOf.mp hp
      exact Or.inl (suffix_of_mem hp)
    · exact h.sublist (leaves_isInfix_of_mem_children hc).sublist

theorem pairwise_preorderOf (h : (leavesOf ts).Pairwise R) :
    (preorderOf ancestors ts).Pairwise (Occurrence.Earlier R) :=
  pairwise_preorderOf_of_forall (fun _ hc => pairwise_preorderBelow
    (h.sublist (leaves_isInfix_of_mem_children hc).sublist)) h

end Tree

namespace Occurrence

/-- The first of two elements lies below a child of this one, the second below a later child. -/
def Splits (q o p : Occurrence) : Prop :=
  ∃ l c m d r, q.element.children = l ++ c :: (m ++ d :: r) ∧
    o ∈ c.preorderBelow (q.element :: q.ancestors) ∧ p ∈ d.preorderBelow (q.element :: q.ancestors)

end Occurrence

namespace Tree

variable {ancestors : List Element} {t : Tree} {o p : Occurrence}

theorem exists_child_of_above (h : p ∈ t.preorder) (ho : o.Above p) :
    ∃ c ∈ o.element.children, p ∈ c.preorderBelow (o.element :: o.ancestors) :=
  exists_child_of_suffix h ho fun hs => absurd (List.suffix_nil.mp hs) nofun

theorem mem_or_splits {q : Occurrence} {a b : Tree} (ha : a ∈ q.element.children)
    (hb : b ∈ q.element.children) (hab : a ≠ b)
    (ho : o ∈ a.preorderBelow (q.element :: q.ancestors))
    (hp : p ∈ b.preorderBelow (q.element :: q.ancestors)) : q.Splits o p ∨ q.Splits p o := by
  obtain ⟨l, r, hl⟩ := List.append_of_mem ha
  rw [hl, List.mem_append, List.mem_cons] at hb
  rcases hb with hb | rfl | hb
  · obtain ⟨l1, l2, rfl⟩ := List.append_of_mem hb
    exact Or.inr ⟨l1, b, l2, a, r, by rw [hl]; simp, hp, ho⟩
  · exact absurd rfl hab
  · obtain ⟨r1, r2, rfl⟩ := List.append_of_mem hb
    exact Or.inl ⟨l, a, r1, b, r2, hl, ho, hp⟩

/-- Of two elements, one stands above the other, or they lie below different children. -/
theorem trichotomy (ho : o ∈ t.preorderBelow ancestors) (hp : p ∈ t.preorderBelow ancestors) :
    o = p ∨ o.Above p ∨ p.Above o ∨
      ∃ q ∈ t.preorderBelow ancestors, q.Splits o p ∨ q.Splits p o := by
  induction t using Tree.induction generalizing ancestors with
  | leaf => simp at ho
  | node kind children ih =>
    have inner : ∀ {x : Occurrence}, x ∈ preorderOf (⟨kind, children⟩ :: ancestors) children →
        (⟨⟨kind, children⟩, ancestors⟩ : Occurrence).Above x := by
      intro x hx
      obtain ⟨c, -, hx⟩ := mem_preorderOf.mp hx
      exact suffix_of_mem hx
    rw [preorderBelow_node, List.mem_cons] at ho hp
    rcases ho with rfl | ho
    · rcases hp with rfl | hp
      · exact Or.inl rfl
      · exact Or.inr (Or.inl (inner hp))
    · rcases hp with rfl | hp
      · exact Or.inr (Or.inr (Or.inl (inner ho)))
      · obtain ⟨a, ha, ho⟩ := mem_preorderOf.mp ho
        obtain ⟨b, hb, hp⟩ := mem_preorderOf.mp hp
        by_cases hab : a = b
        · subst hab
          rcases ih a ha ho hp with h | h | h | ⟨q, hq, h⟩
          · exact Or.inl h
          · exact Or.inr (Or.inl h)
          · exact Or.inr (Or.inr (Or.inl h))
          · rw [preorderBelow_node]
            exact Or.inr (Or.inr (Or.inr
              ⟨q, List.mem_cons_of_mem _ (mem_preorderOf.mpr ⟨a, ha, hq⟩), h⟩))
        · rw [preorderBelow_node]
          exact Or.inr (Or.inr (Or.inr ⟨_, List.mem_cons_self,
            mem_or_splits (q := ⟨⟨kind, children⟩, ancestors⟩) ha hb hab ho hp⟩))

end Tree

end PvsIndex
