import PvsIndex.Proofs.Lists
import PvsIndex.Proofs.Tree.Lawful

/-! The names that a tree declares, and that a walk comes to them in order. -/

namespace PvsIndex

namespace ElementKind

/-- The constructs that declare names, and under which category. -/
def declaring : List (ElementKind × Category) :=
  [(typeDecl, .type), (formulaDecl, .formula), (functionDecl, .function), (binding, .localBinding)]

/-- The constructs that limit where the names declared inside them can be used. -/
def scopes : List ElementKind :=
  [theory, functionDecl, binderExpr, letExpr, setType]

variable {kind : ElementKind} {category : Category}

theorem lookup_declaring (kind : ElementKind) : declaring.lookup kind = kind.category? := by
  cases kind <;> rfl

theorem mem_declaring : (kind, category) ∈ declaring ↔ kind.category? = some category := by
  cases kind <;> cases category <;> decide

theorem mem_scopes : kind ∈ scopes ↔ kind.introducesScope = true := by
  cases kind <;> decide

theorem decide_mem_scopes :
    (fun e : Element => decide (e.kind ∈ scopes)) = fun e => e.kind.introducesScope :=
  funext fun _ => Bool.eq_iff_iff.mpr (decide_eq_true_iff.trans mem_scopes)

end ElementKind

namespace Occurrence

/-- The category under which an identifier declares its name, if it does. -/
def category? (o : Occurrence) : Option Category :=
  if o.element.kind = .identifier then o.parent?.bind (ElementKind.declaring.lookup ·.kind)
  else none

theorem category?_def (o : Occurrence) : o.category? =
    if o.element.kind = .identifier then o.parent?.bind (·.kind.category?) else none := by
  simp only [category?, ElementKind.lookup_declaring]

/-- The innermost scope around the construct that declares the name. -/
def innermost? (name : Occurrence) : Option Element :=
  (name.ancestors.drop 1).find? (·.kind ∈ ElementKind.scopes)

theorem innermost?_eq (name : Occurrence) : name.innermost? = name.scopeElement? := by
  rw [innermost?, ElementKind.decide_mem_scopes, scopeElement?]

def names (construct : Occurrence) : List Occurrence :=
  match construct.element.kind.category? with
  | none => []
  | some category =>
    let names := construct.element.childrenOf .identifier
    (if category.declaresList then names else names.take 1).map construct.below

end Occurrence

namespace Tree

/-- The identifiers that declare their names, in the order of a walk. -/
def declared (t : Tree) : List Occurrence :=
  t.preorder.filter (·.category?.isSome)

end Tree

namespace Tree

variable {ancestors : List Element} {t c : Tree} {o : Occurrence}

/-- The tree itself, if it is the name that the element above declares. -/
def ownName (ancestors : List Element) (t : Tree) : List Occurrence :=
  match t with
  | leaf _ => []
  | node kind children =>
    if (⟨⟨kind, children⟩, ancestors⟩ : Occurrence).category?.isSome then
      [⟨⟨kind, children⟩, ancestors⟩] else []

theorem ownName_eq_nil {e : Element} (h : c.child ≠ .node .identifier) :
    ownName (e :: ancestors) c = [] := by
  cases c with
  | leaf => rfl
  | node kind children =>
    have hk : kind ≠ .identifier := fun he => h (by rw [child, he])
    simp [ownName, Occurrence.category?_def, hk]

theorem flatMap_ownName_of_category {e : Element} (h : e.kind.category?.isSome = true)
    (ancestors : List Element) (cs : List Tree) : cs.flatMap (ownName (e :: ancestors)) =
      ((cs.filterMap element?).filter (·.kind = .identifier)).map
        (⟨e, ancestors⟩ : Occurrence).below := by
  induction cs with
  | nil => rfl
  | cons c cs ih =>
    rw [List.flatMap_cons, ih]
    cases c with
    | leaf => simp [ownName, List.filterMap_cons, element?]
    | node kind children =>
      by_cases hk : kind = .identifier
      · simp [ownName, element?, Occurrence.category?_def, Occurrence.parent?, h, hk,
          Occurrence.below]
      · simp [ownName, element?, Occurrence.category?_def, hk]

end Tree

theorem Element.Lawful.childrenOf_identifier {e : Element} (h : e.Lawful) {category : Category}
    (hc : e.kind.category? = some category) :
    ∃ name names, e.childrenOf .identifier = name :: names ∧
      (category.declaresList = false → names = []) := by
  obtain ⟨cs, rest, hcs⟩ := h.named (Or.inl (by rw [hc]; rfl))
  have hpair := h.names category hc
  rw [hcs] at hpair
  refine ⟨⟨.identifier, cs⟩, (rest.filterMap Tree.element?).filter (·.kind = .identifier),
    by simp [Element.childrenOf, hcs, Tree.element?], fun hl => ?_⟩
  rw [List.filter_eq_nil_iff]
  intro d hd hk
  obtain ⟨y, hy, hyd⟩ := List.mem_filterMap.mp hd
  cases y with
  | leaf => cases hyd
  | node kind children =>
    obtain rfl := Option.some.inj hyd
    have hp := (List.pairwise_cons.mp hpair).1 _ hy (congrArg Child.node (of_decide_eq_true hk))
    simp [Tree.child, Child.isLeaf, hl] at hp

namespace Tree

variable {ancestors : List Element} {t c : Tree} {o : Occurrence}

theorem flatMap_ownName {e : Element} (h : e.Lawful) (ancestors : List Element) :
    e.children.flatMap (ownName (e :: ancestors)) = (⟨e, ancestors⟩ : Occurrence).names := by
  unfold Occurrence.names
  cases hc : e.kind.category? with
  | none =>
    refine List.flatMap_eq_nil_iff.mpr fun c _ => ?_
    cases c with
    | leaf => rfl
    | node kind children => simp [ownName, Occurrence.category?_def, Occurrence.parent?, hc]
  | some category =>
    rw [flatMap_ownName_of_category (by rw [hc]; rfl)]
    obtain ⟨name, names, hnames, hl⟩ := h.childrenOf_identifier hc
    cases hd : category.declaresList with
    | true => simp only [hd, if_true, Element.childrenOf]
    | false =>
      obtain rfl := hl hd
      simp only [hd, Bool.false_eq_true, if_false, hnames, List.take_one, List.head?_cons,
        Option.toList_some]
      exact congrArg (List.map _) hnames

theorem pairwise_ownName {e : Element} (h : e.Lawful)
    (below : ∀ c ∈ e.children, ∀ o ∈ c.preorderBelow (e :: ancestors), o.element.Lawful) :
    e.children.Pairwise fun x y =>
      (x.preorderBelow (e :: ancestors)).flatMap Occurrence.names = [] ∨
        ownName (e :: ancestors) y = [] := by
  cases hc : e.kind.category? with
  | none =>
    refine List.pairwise_of_forall fun x y => Or.inr ?_
    cases y with
    | leaf => rfl
    | node kind children => simp [ownName, Occurrence.category?_def, Occurrence.parent?, hc]
  | some category =>
    refine (h.names category hc).imp_of_mem fun {x y} hx _ hxy => ?_
    by_cases hy : y.child = .node .identifier
    · refine Or.inl ?_
      rcases hxy hy with hleaf | ⟨hident, -⟩
      · cases x with
        | leaf => simp
        | node => cases hleaf
      · obtain ⟨cs, rfl⟩ := child_eq_node hident
        have hlawful := below _ hx ⟨⟨.identifier, cs⟩, e :: ancestors⟩ (by simp)
        have hone := preorderBelow_identifier hlawful rfl (e :: ancestors)
        rw [Element.tree] at hone
        rw [hone]
        rfl
    · exact Or.inr (ownName_eq_nil hy)

/-- A walk comes to the declared names in the order of the constructs that declare them. -/
theorem filter_preorderBelow (h : ∀ o ∈ t.preorderBelow ancestors, o.element.Lawful) :
    (t.preorderBelow ancestors).filter (·.category?.isSome) =
      ownName ancestors t ++ (t.preorderBelow ancestors).flatMap Occurrence.names := by
  induction t using Tree.induction generalizing ancestors with
  | leaf => simp [ownName]
  | node kind children ih =>
    rw [preorderBelow_node] at h
    obtain ⟨hlawful, hbelow⟩ := List.forall_mem_cons.mp h
    have below : ∀ c ∈ children, ∀ o ∈ c.preorderBelow (⟨kind, children⟩ :: ancestors),
        o.element.Lawful := fun c hc o ho => hbelow o (mem_preorderOf.mpr ⟨c, hc, ho⟩)
    have hchildren : (preorderOf (⟨kind, children⟩ :: ancestors) children).filter
        (·.category?.isSome) = (⟨⟨kind, children⟩, ancestors⟩ : Occurrence).names ++
          (preorderOf (⟨kind, children⟩ :: ancestors) children).flatMap Occurrence.names := by
      rw [← flatMap_ownName hlawful, preorderOf_eq_flatMap, List.filter_flatMap,
        List.flatMap_assoc, ← List.flatMap_append_comm (pairwise_ownName hlawful below)]
      exact List.flatMap_congr fun c hc => ih c hc (below c hc)
    rw [preorderBelow_node, List.filter_cons, hchildren, List.flatMap_cons]
    simp only [ownName]
    split_ifs <;> rfl

end Tree

end PvsIndex
