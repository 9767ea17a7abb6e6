import PvsIndex.Proofs.Checked.Forest
import PvsIndex.Proofs.Grammar.Recovered

/-! The scope of a name is the innermost one around the construct that declares it, with errors in
the text or without. -/

namespace PvsIndex

namespace Range

/-- One range lies in the other, or they have nothing in common, or only the end of the one, where
the other begins. -/
def Laminar (r s : Range) : Prop :=
  r.Contains s ∨ s.Contains r ∨ (∀ p, r.Touches p → ¬s.Touches p) ∨
    ∃ p, (p = r.stop ∧ p = s.start ∨ p = s.stop ∧ p = r.start) ∧
      ∀ q, r.Touches q → s.Touches q → q = p

variable {r s : Range}

theorem Laminar.symm (h : r.Laminar s) : s.Laminar r := by
  rcases h with h | h | h | ⟨p, hp, h⟩
  · exact Or.inr (Or.inl h)
  · exact Or.inl h
  · exact Or.inr (Or.inr (Or.inl fun p hs hr => h p hr hs))
  · exact Or.inr (Or.inr (Or.inr ⟨p, hp.symm, fun q hs hr => h q hr hs⟩))

theorem laminar_of_le (h : r.stop ≤ s.start) : r.Laminar s := by
  rcases eq_or_lt_of_le h with heq | hlt
  · refine Or.inr (Or.inr (Or.inr ⟨r.stop, Or.inl ⟨rfl, heq⟩, fun q hr hs => ?_⟩))
    exact le_antisymm hr.2 (heq ▸ hs.1)
  · refine Or.inr (Or.inr (Or.inl fun p hr hs => ?_))
    exact absurd (hs.1.trans hr.2) (not_le_of_gt hlt)

end Range

namespace Occurrence

/-- The answer to where a name can be used: nowhere in particular, if it is the own name of a
theory; else in the innermost of the elements above the construct that declares it which limit
scope. -/
def Resolves (name : Occurrence) (scope? : Option Range) : Prop :=
  ∃ construct above, name.ancestors = construct :: above ∧
    (scope? = none ↔ construct.kind = .theory) ∧
    (construct.kind = .theory → construct.children.head? = some name.element.tree) ∧
    ∀ r ∈ scope?, ∃ inner scope outer, above = inner ++ scope :: outer ∧
      scope.kind ∈ ElementKind.scopes ∧ (∀ e ∈ inner, e.kind ∉ ElementKind.scopes) ∧
      r = scope.range ∧ r.Contains construct.range ∧ r.Contains name.element.range

end Occurrence

namespace Parse

variable {text : String} {o p name : Occurrence}

theorem leaves_sublist (ho : o ∈ (ofText text).tree.preorder) :
    o.element.leaves.Sublist (Tokens.ofText text).toList := by
  have hpart := (Tree.leaves_isInfix ho).sublist
  rw [leaves_tree] at hpart
  exact hpart.trans (.append List.filter_sublist (.refl _))

theorem exists_covers (ho : o ∈ (ofText text).tree.preorder) (hne : o.element.leaves ≠ []) :
    ∃ i j, o.element.Covers text.toList i j :=
  Element.exists_covers (fun _ ht => Tokens.shows_of_mem ((leaves_sublist ho).subset ht))
    ((Tokens.toList_pairwise text).sublist (leaves_sublist ho)) hne

theorem leaves_ne_nil_of_above (hp : p ∈ (ofText text).tree.preorder) (h : o.Above p)
    (hne : p.element.leaves ≠ []) : o.element.leaves ≠ [] := fun hnone =>
  hne (List.subset_nil.mp (hnone ▸ Tree.leaves_subset_of_above hp h))

theorem contains_of_above (hp : p ∈ (ofText text).tree.preorder) (h : o.Above p)
    (hne : p.element.leaves ≠ []) : o.element.range.Contains p.element.range := by
  obtain ⟨i, j, ho⟩ := exists_covers (Tree.mem_preorder_of_suffix hp h)
    (leaves_ne_nil_of_above hp h hne)
  obtain ⟨k, l, hp'⟩ := exists_covers hp hne
  exact ho.contains hp' (Tree.leaves_subset_of_above hp h)

theorem stop_le_of_splits {q : Occurrence} (hq : q ∈ (ofText text).tree.preorder)
    (ho : o ∈ (ofText text).tree.preorder) (hp : p ∈ (ofText text).tree.preorder)
    (hone : o.element.leaves ≠ []) (hpne : p.element.leaves ≠ []) (h : q.Splits o p) :
    o.element.range.stop ≤ p.element.range.start := by
  obtain ⟨l, c, m, d, r, hchildren, hoc, hpd⟩ := h
  obtain ⟨i, j, hcovers⟩ := exists_covers ho hone
  obtain ⟨i', j', hcovers'⟩ := exists_covers hp hpne
  refine hcovers.le_of_before hcovers' fun x hx y hy => ?_
  have hbefore := (Tokens.toList_pairwise text).sublist (leaves_sublist hq)
  have hleaves : q.element.leaves = q.element.children.flatMap Tree.leaves :=
    Tree.leavesOf_eq_flatMap _
  rw [hleaves, hchildren, List.pairwise_flatMap] at hbefore
  have hcd := (List.pairwise_cons.mp (List.pairwise_append.mp hbefore.2).2.1).1 d
    (List.mem_append_right _ List.mem_cons_self)
  exact hcd x ((Tree.leaves_isInfix hoc).subset hx) y ((Tree.leaves_isInfix hpd).subset hy)

theorem laminar (ho : o ∈ (ofText text).tree.preorder) (hp : p ∈ (ofText text).tree.preorder)
    (hone : o.element.leaves ≠ []) (hpne : p.element.leaves ≠ []) :
    o.element.range.Laminar p.element.range := by
  rcases Tree.trichotomy ho hp with rfl | h | h | ⟨q, hq, h | h⟩
  · exact Or.inl ⟨le_refl _, le_refl _⟩
  · exact Or.inl (contains_of_above hp h hpne)
  · exact Or.inr (Or.inl (contains_of_above ho h hone))
  · exact Range.laminar_of_le (stop_le_of_splits hq ho hp hone hpne h)
  · exact (Range.laminar_of_le (stop_le_of_splits hq hp ho hpne hone h)).symm

theorem leaves_ne_nil_of_identifier (hn : name ∈ (ofText text).tree.preorder)
    (hk : name.element.kind = .identifier) : name.element.leaves ≠ [] := by
  obtain ⟨trees, h⟩ := exists_recovered text
  have hroot : name.element.kind ≠ .root := by
    rw [hk]
    nofun
  obtain ⟨token, hc, -⟩ := (h.element_formed hn hroot).identifier hk
  simp [Element.leaves, Element.tree, Tree.leaves, Tree.leavesOf, hc]

theorem head?_of_theory {construct : Element} {above : List Element}
    (hn : name ∈ (ofText text).tree.preorder) (hk : name.element.kind = .identifier)
    (ha : name.ancestors = construct :: above) (hc : construct.kind = .theory) :
    construct.children.head? = some name.element.tree := by
  obtain ⟨trees, h⟩ := exists_recovered text
  have hmem : ⟨construct, above⟩ ∈ (ofText text).tree.preorder :=
    Tree.mem_preorder_of_suffix hn (ha ▸ List.suffix_rfl)
  have habove : (⟨construct, above⟩ : Occurrence).Above name := by
    rw [Occurrence.Above, ha]
  obtain ⟨c, hchild, hbelow⟩ := Tree.exists_child_of_above hn habove
  rw [← ha] at hbelow
  obtain rfl := Tree.eq_of_mem_preorderBelow hbelow
  have hroot : construct.kind ≠ .root :=
    ElementKind.ne_root_of_introducesScope (by rw [hc]; rfl)
  exact (h.element_formed hmem hroot).theory hc hchild (congrArg Child.node hk)

theorem resolves_none {theory : Element} (hn : name ∈ (ofText text).tree.preorder)
    (hk : name.element.kind = .identifier) (ha : name.ancestors = [theory, (ofText text).root])
    (htheory : theory.kind = .theory) : name.scope? = .ok none ∧ name.Resolves none := by
  obtain ⟨trees, h⟩ := exists_recovered text
  have hroot : (ofText text).root.kind.introducesScope = false := by
    rw [h.root]
    rfl
  have hscope : name.scopeElement? = none := by
    rw [Occurrence.scopeElement?, ha]
    simp [hroot]
  constructor
  · rw [Occurrence.scope?, hscope]
  · exact ⟨theory, _, ha, ⟨fun _ => htheory, fun _ => rfl⟩, head?_of_theory hn hk ha,
      fun r hr => absurd hr (Option.not_mem_none r)⟩

theorem resolves_some {construct : Element} {above : List Element}
    (hn : name ∈ (ofText text).tree.preorder) (hk : name.element.kind = .identifier)
    (ha : name.ancestors = construct :: above) (hconstruct : construct.kind ≠ .theory)
    (hlimit : ∃ e ∈ above, e.kind.introducesScope = true) :
    ∃ r, name.scope? = .ok (some r) ∧ name.Resolves (some r) := by
  have hne := leaves_ne_nil_of_identifier hn hk
  obtain ⟨scope, hfind⟩ := Option.isSome_iff_exists.mp (List.find?_isSome.mpr hlimit)
  obtain ⟨hscope, inner, outer, habove, hinner⟩ := List.find?_eq_some_iff_append.mp hfind
  have hsuffix : scope :: outer <:+ above := ⟨inner, habove.symm⟩
  have hdeclares : (⟨construct, above⟩ : Occurrence).Above name := by
    rw [Occurrence.Above, ha]
  have haround : (⟨scope, outer⟩ : Occurrence).Above name :=
    hsuffix.trans ((List.suffix_cons _ _).trans hdeclares)
  have hname := contains_of_above hn haround hne
  have hcontains := @contains_of_above text ⟨scope, outer⟩ ⟨construct, above⟩
    (Tree.mem_preorder_of_suffix hn hdeclares) hsuffix (leaves_ne_nil_of_above hn hdeclares hne)
  refine ⟨scope.range, ?_, construct, above, ha, ?_, head?_of_theory hn hk ha, ?_⟩
  · rw [Occurrence.scope?, Occurrence.scopeElement?, ha, List.drop_one, List.tail_cons, hfind]
    exact if_pos hname
  · exact ⟨fun he => absurd he (Option.some_ne_none _), fun he => absurd he hconstruct⟩
  · rintro r hr
    obtain rfl := Option.some.inj hr
    refine ⟨inner, scope, outer, habove, ElementKind.mem_scopes.mpr hscope, fun e he hk => ?_, rfl,
      hcontains, hname⟩
    have hnot := hinner e he
    rw [ElementKind.mem_scopes.mp hk] at hnot
    cases hnot

/-- Every name is resolved, errors or not. -/
theorem exists_resolves (hn : name ∈ (ofText text).tree.preorder)
    (hk : name.element.kind = .identifier) :
    ∃ scope?, name.scope? = .ok scope? ∧ name.Resolves scope? := by
  obtain ⟨trees, h⟩ := exists_recovered text
  obtain ⟨between, theory, ha, htheory, hnone⟩ := h.exists_theory hn (by rw [hk]; nofun)
    (by rw [hk]; nofun)
  cases between with
  | nil => exact ⟨none, resolves_none hn hk ha htheory⟩
  | cons construct between =>
    have hlimit : ∃ e ∈ between ++ [theory, (ofText text).root], e.kind.introducesScope = true :=
      ⟨theory, List.mem_append_right _ List.mem_cons_self, by rw [htheory]; rfl⟩
    obtain ⟨r, hr⟩ := resolves_some hn hk ha (hnone construct List.mem_cons_self) hlimit
    exact ⟨some r, hr⟩

/-- The scopes of two names. -/
theorem laminar_of_resolves {name' : Occurrence} {r r' : Range}
    (hn : name ∈ (ofText text).tree.preorder) (hn' : name' ∈ (ofText text).tree.preorder)
    (hk : name.element.kind = .identifier) (hk' : name'.element.kind = .identifier)
    (h : name.Resolves (some r)) (h' : name'.Resolves (some r')) : r.Laminar r' := by
  have hscope : ∀ {n : Occurrence} {q : Range}, n ∈ (ofText text).tree.preorder →
      n.element.kind = .identifier → n.Resolves (some q) →
      ∃ o ∈ (ofText text).tree.preorder, o.element.leaves ≠ [] ∧ q = o.element.range := by
    intro n q hn hk h
    obtain ⟨construct, above, ha, -, -, h⟩ := h
    obtain ⟨inner, scope, outer, rfl, -, -, hq, -⟩ := h q rfl
    have hsuffix : scope :: outer <:+ n.ancestors :=
      ha ▸ (List.suffix_append inner _).trans (List.suffix_cons _ _)
    exact ⟨⟨scope, outer⟩, Tree.mem_preorder_of_suffix hn hsuffix,
      leaves_ne_nil_of_above hn hsuffix (leaves_ne_nil_of_identifier hn hk), hq⟩
  obtain ⟨o, ho, hone, rfl⟩ := hscope hn hk h
  obtain ⟨p, hp, hpne, rfl⟩ := hscope hn' hk' h'
  exact laminar ho hp hone hpne

end Parse

namespace Tree

variable {ancestors : List Element} {t : Tree} {ts : List Tree} {o : Occurrence}

theorem mem_visitsOf {v : Visit} :
    v ∈ visitsOf ancestors ts ↔ ∃ t ∈ ts, v ∈ t.visitsBelow ancestors := by
  induction ts with
  | nil => simp [visitsOf]
  | cons t ts ih => simp [visitsOf, ih]

theorem leave_mem_iff : Visit.leave o ∈ t.visitsBelow ancestors ↔
    Visit.enter o ∈ t.visitsBelow ancestors := by
  induction t using Tree.induction generalizing ancestors with
  | leaf => simp [visitsBelow]
  | node kind children ih =>
    have hinner : Visit.leave o ∈ visitsOf (⟨kind, children⟩ :: ancestors) children ↔
        Visit.enter o ∈ visitsOf (⟨kind, children⟩ :: ancestors) children := by
      rw [mem_visitsOf, mem_visitsOf]
      exact exists_congr fun c => and_congr_right fun hc => ih c hc
    simp [visitsBelow, hinner, or_comm]

theorem mem_preorder_of_mem_postorder (h : o ∈ t.postorder) : o ∈ t.preorder := by
  obtain ⟨v, hv, hleft⟩ := List.mem_filterMap.mp h
  cases v with
  | enter => cases hleft
  | leave p =>
    obtain rfl := Option.some.inj hleft
    exact List.mem_filterMap.mpr ⟨_, leave_mem_iff.mp hv, rfl⟩

end Tree

namespace Checked

namespace Stored

variable {s : Stored} {text : String} {id : Nat} {name : Occurrence}

/-- What is stored under the number is a declared name. -/
def IsName (s : Stored) (id : Nat) : Prop :=
  ∃ cell, s.cells[id]? = some cell ∧ cell.kind = .identifier

theorem Stands.scope?_eq (h : s.Stands text id name) {construct : Element} {above : List Element}
    (ha : name.ancestors = construct :: above) {scope? : Option Range}
    (hscope : name.scope? = .ok scope?) : s.scope? id = pure scope? := by
  obtain ⟨element, ancestors⟩ := name
  obtain rfl : ancestors = construct :: above := ha
  obtain ⟨parent?, hat, habove⟩ := h
  cases habove with
  | @cons _ _ parent grandparent? hconstruct habove =>
    have hstands : s.Stands text parent ⟨construct, above⟩ := ⟨grandparent?, hconstruct, habove⟩
    exact hstands.scope? hat hscope

theorem IsName.exists_stands (h : (Parse.ofText text).stored.IsName id) :
    ∃ name ∈ (Parse.ofText text).tree.preorder, name.element.kind = .identifier ∧
      (Parse.ofText text).stored.Stands text id name := by
  obtain ⟨cell, hcell, hkind⟩ := h
  have hid := (List.getElem?_eq_some_iff.mp hcell).1
  obtain ⟨hlength, hget⟩ := List.forall₂_iff_get.mp (forall₂_stands text)
  rw [List.length_range] at hlength
  have hstands := hget id (by rwa [List.length_range]) (by omega)
  simp only [List.get_eq_getElem, List.getElem_range] at hstands
  refine ⟨_, Tree.mem_preorder_of_mem_postorder (List.getElem_mem _), ?_, hstands⟩
  obtain ⟨parent?, hat, -⟩ := hstands
  obtain ⟨nodes, hstored⟩ := hat.getElem?
  rw [← hkind, ← Option.some.inj (hstored.symm.trans hcell)]

theorem Stands.resolves (h : (Parse.ofText text).stored.Stands text id name)
    (hn : name ∈ (Parse.ofText text).tree.preorder) (hk : name.element.kind = .identifier) :
    ∃ scope?, (Parse.ofText text).stored.scope? id = pure scope? ∧ name.Resolves scope? := by
  obtain ⟨scope?, hscope, hresolves⟩ := Parse.exists_resolves hn hk
  have hanswer := hresolves
  obtain ⟨construct, above, ha, -⟩ := hresolves
  exact ⟨scope?, h.scope?_eq ha hscope, hanswer⟩

theorem IsName.exists_resolves (h : (Parse.ofText text).stored.IsName id) {r : Range}
    (hr : (Parse.ofText text).stored.scope? id = pure (some r)) :
    ∃ name ∈ (Parse.ofText text).tree.preorder, name.element.kind = .identifier ∧
      name.Resolves (some r) := by
  obtain ⟨name, hn, hk, hstands⟩ := h.exists_stands
  obtain ⟨scope?, hscope, hresolves⟩ := hstands.resolves hn hk
  obtain rfl := pure_inj (hscope.symm.trans hr)
  exact ⟨name, hn, hk, hresolves⟩

end Stored

/-- With errors in the text or without, every name that is stored is resolved to the innermost scope
around the construct that declares it, and two scopes lie in each other or beside each other. -/
theorem scope?_innermost (text : String) :
    ∃ s diagnostics, parseText text = pure (s, diagnostics) ∧
      List.Forall₂ (fun id name => s.Is text id name.element ∧
          (name.element.kind = .identifier →
            ∃ scope?, s.scope? id = pure scope? ∧ name.Resolves scope?))
        (List.range s.cells.length) (Parse.ofText text).tree.postorder ∧
      ∀ id id' r r', s.IsName id → s.IsName id' → s.scope? id = pure (some r) →
        s.scope? id' = pure (some r') → r.Laminar r' := by
  refine ⟨_, _, parseText_eq text, ?_, ?_⟩
  · obtain ⟨hlength, hget⟩ := List.forall₂_iff_get.mp (Stored.forall₂_stands text)
    refine List.forall₂_iff_get.mpr ⟨hlength, fun i hi hj => ?_⟩
    have hstands := hget i hi hj
    have hmem := Tree.mem_preorder_of_mem_postorder (List.get_mem _ ⟨i, hj⟩)
    exact ⟨hstands.choose_spec.1.is, hstands.resolves hmem⟩
  · intro id id' r r' hid hid' hr hr'
    obtain ⟨name, hn, hk, hresolves⟩ := hid.exists_resolves hr
    obtain ⟨name', hn', hk', hresolves'⟩ := hid'.exists_resolves hr'
    exact Parse.laminar_of_resolves hn hn' hk hk' hresolves hresolves'

end Checked

end PvsIndex
