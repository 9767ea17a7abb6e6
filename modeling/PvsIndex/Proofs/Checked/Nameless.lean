import PvsIndex.Proofs.Checked.Resolution
import PvsIndex.Proofs.Token.Words

/-! Recording the declarations of a tree fails at a binding without a name, and nowhere else, with
errors in the text or without. -/

namespace PvsIndex

/-- A binding that lacks its name. -/
def Element.Nameless (e : Element) : Prop :=
  e.kind = .binding ∧ e.childrenOf .identifier = []

instance (e : Element) : Decidable e.Nameless :=
  inferInstanceAs (Decidable (_ ∧ _))

theorem Element.Nameless.not_named {e : Element} (h : e.Nameless) : ¬e.Named := fun hnamed =>
  hnamed (by rw [h.1]; rfl) h.2

namespace Occurrence

variable {source : List Char} {name : Occurrence}

theorem contains_of_scope? {scope? : Option Range} (h : name.scope? = .ok scope?) :
    ∀ scope ∈ name.scopeElement?, scope.range.Contains name.element.range := by
  intro scope hscope
  rw [Occurrence.scope?, Option.mem_def.mp hscope] at h
  dsimp only at h
  split_ifs at h with hcontains
  exact hcontains

end Occurrence

/-- A walk stops at the first construct that holds no name, if all before it can be recorded. -/
theorem Recording.foldlM_step_nameless {source : List Char} {dumping : Bool}
    {before after : List Visit} {o : Occurrence}
    (h : ∀ p ∈ before.filterMap Visit.entered?, p.element.Named ∧
      ∀ name ∈ p.names, name.Recordable source)
    (ho : ¬o.element.Named) (r : Recording) :
    (before ++ .enter o :: after).foldlM (step source dumping) r =
      .error (.nameless o.element.kind o.element.range) := by
  rw [List.foldlM_append, foldlM_step dumping h]
  change ((Visit.enter o :: after).foldlM (step source dumping) _ : Except Fault Recording) = _
  rw [List.foldlM_cons, step, record_nameless ho]
  rfl

namespace Parse

variable {text : String} {o name : Occurrence}

theorem recordable_of_identifier (hn : name ∈ (ofText text).tree.preorder)
    (hk : name.element.kind = .identifier) : name.Recordable text.toList := by
  constructor
  · obtain ⟨trees, h⟩ := exists_recovered text
    have hroot : name.element.kind ≠ .root := by
      rw [hk]
      nofun
    obtain ⟨token, hc, ht⟩ := (h.element_formed hn hroot).identifier hk
    have hmem : token ∈ name.element.leaves := by
      simp [Element.leaves, Element.tree, Tree.leaves, Tree.leavesOf, hc]
    have hfits := Tokens.fits_of_word ((leaves_sublist hn).subset hmem) (by rw [ht]; rfl)
    rw [(Element.identifier_range hc hfits).2]
    exact hfits.text_ne
  · obtain ⟨scope?, hscope, -⟩ := exists_resolves hn hk
    exact Occurrence.contains_of_scope? hscope

theorem named_of_not_nameless (ho : o ∈ (ofText text).tree.preorder)
    (h : ¬o.element.Nameless) : o.element.Named := by
  by_cases hk : o.element.kind = .binding
  · exact fun _ hnone => h ⟨hk, hnone⟩
  · by_cases hroot : o.element.kind = .root
    · intro hc
      rw [hroot] at hc
      cases hc
    · obtain ⟨trees, hr⟩ := exists_recovered text
      exact (hr.element_formed ho hroot).named hk

theorem recordable_of_names (ho : o ∈ (ofText text).tree.preorder) (hn : name ∈ o.names) :
    name.Recordable text.toList := by
  obtain ⟨category, x, -, hx, rfl⟩ := Occurrence.mem_names hn
  obtain ⟨hk, hchild⟩ := Element.mem_childrenOf hx
  exact recordable_of_identifier (Tree.mem_of_child ho hchild) hk

theorem recordable_of_not_nameless (ho : o ∈ (ofText text).tree.preorder)
    (h : ¬o.element.Nameless) :
    o.element.Named ∧ ∀ name ∈ o.names, name.Recordable text.toList :=
  ⟨named_of_not_nameless ho h, fun _ hn => recordable_of_names ho hn⟩

theorem recording_of_named (dumping : Bool)
    (h : ∀ o ∈ (ofText text).tree.preorder, ¬o.element.Nameless) :
    ∃ r, (ofText text).recording dumping = .ok r :=
  ⟨_, Recording.foldlM_step dumping (fun _ ho => recordable_of_not_nameless ho (h _ ho)) {}⟩

theorem recording_of_nameless (dumping : Bool)
    (h : (ofText text).tree.preorder.find? (·.element.Nameless) = some o) :
    (ofText text).recording dumping = .error (.nameless .binding o.element.range) := by
  obtain ⟨ho, before, after, hsplit, hbefore⟩ := List.find?_eq_some_iff_append.mp h
  have hnameless : o.element.Nameless := of_decide_eq_true ho
  obtain ⟨entered, rest, hvisits, rfl, hrest⟩ := List.filterMap_eq_append_iff.mp hsplit
  obtain ⟨left, visit, later, rfl, hleft, hvisit, -⟩ := List.filterMap_eq_cons_iff.mp hrest
  obtain rfl : visit = .enter o := by
    cases visit with
    | enter => rw [Option.some.inj hvisit]
    | leave => cases hvisit
  have hwalked : ∀ p ∈ (entered ++ left).filterMap Visit.entered?,
      p.element.Named ∧ ∀ name ∈ p.names, name.Recordable text.toList := by
    intro p hp
    rw [List.filterMap_append, List.filterMap_eq_nil_iff.mpr hleft, List.append_nil] at hp
    exact recordable_of_not_nameless (hsplit ▸ List.mem_append_left _ hp)
      (by simpa using hbefore p hp)
  have hfails : (ofText text).tree.visits.foldlM (Recording.step text.toList dumping) {} =
      .error (.nameless .binding o.element.range) := by
    rw [hvisits, ← List.append_assoc,
      Recording.foldlM_step_nameless hwalked hnameless.not_named, hnameless.1]
  exact hfails

/-- All is recorded, or the walk fails at the first binding without a name. -/
theorem recording_cases (text : String) (dumping : Bool) :
    ((∀ o ∈ (ofText text).tree.preorder, ¬o.element.Nameless) ∧
      ∃ r, (ofText text).recording dumping = .ok r) ∨
    ∃ o, (ofText text).tree.preorder.find? (·.element.Nameless) = some o ∧
      (ofText text).recording dumping = .error (.nameless .binding o.element.range) := by
  cases hfirst : (ofText text).tree.preorder.find? (·.element.Nameless) with
  | none =>
    have hnone : ∀ o ∈ (ofText text).tree.preorder, ¬o.element.Nameless := fun o ho =>
      of_decide_eq_false (Bool.eq_false_iff.mpr (List.find?_eq_none.mp hfirst o ho))
    exact Or.inl ⟨hnone, recording_of_named dumping hnone⟩
  | some o => exact Or.inr ⟨o, rfl, recording_of_nameless dumping hfirst⟩

theorem Lawful.not_nameless {theories : List Tree} (h : (ofText text).Lawful theories)
    (ho : o ∈ (ofText text).tree.preorder) : ¬o.element.Nameless := fun hnameless =>
  hnameless.not_named (h.element_lawful ho).holdsName

end Parse

/-- Indexing what is stored for a text fails exactly if a binding in it lacks its name, and then
names the first one and where it is. Without errors in the text there is none. -/
theorem Checked.index_fails_iff (text : String) (dumping : Bool) :
    ∃ s diagnostics, parseText text = pure (s, diagnostics) ∧
      ((∃ fault, (Parse.ofText text).recording dumping = .error fault) ↔
        ∃ o ∈ (Parse.ofText text).tree.preorder, o.element.Nameless) ∧
      (∀ fault, (Parse.ofText text).recording dumping = .error fault → ∃ o,
        (Parse.ofText text).tree.preorder.find? (·.element.Nameless) = some o ∧
          fault = .nameless .binding o.element.range ∧
          fault.message = s!"TypeId at {o.element.range.render} has no identifier" ∧
          s.index dumping = throw .nameless) ∧
      (∀ r, (Parse.ofText text).recording dumping = .ok r → s.index dumping = pure r) ∧
      ((Parse.ofText text).errors = [] →
        ∀ o ∈ (Parse.ofText text).tree.preorder, ¬o.element.Nameless) := by
  have htracks := Stored.index_stored text dumping
  refine ⟨_, _, parseText_eq text, ?_, fun fault hfault => ?_, htracks.ok, fun herrors o ho => ?_⟩
  · rcases Parse.recording_cases text dumping with ⟨hnone, r, hr⟩ | ⟨o, hfirst, hat⟩
    · refine iff_of_false (fun ⟨fault, hfault⟩ => ?_) fun ⟨o, ho, hnameless⟩ => hnone o ho hnameless
      exact absurd (hfault.symm.trans hr) nofun
    · have hnameless : o.element.Nameless := by simpa using List.find?_some hfirst
      exact iff_of_true ⟨_, hat⟩ ⟨o, List.mem_of_find?_eq_some hfirst, hnameless⟩
  · rcases Parse.recording_cases text dumping with ⟨-, r, hr⟩ | ⟨o, hfirst, hat⟩
    · exact absurd (hfault.symm.trans hr) nofun
    · obtain rfl := Except.error.inj (hfault.symm.trans hat)
      exact ⟨o, hfirst, rfl, rfl, htracks.nameless _ _ hat⟩
  · obtain ⟨theories, hl⟩ := Parse.exists_lawful herrors
    exact hl.not_nameless ho

example : ((Parse.ofText "t: THEORY BEGIN L: LEMMA FORALL (: int): TRUE END t").tree.preorder.find?
    (·.element.Nameless)).map (·.element.range.render) = some "1.34-1.39" := by
  decide +kernel

end PvsIndex
