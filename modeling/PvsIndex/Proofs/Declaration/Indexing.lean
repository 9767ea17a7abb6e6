import PvsIndex.Proofs.Declaration.Scoping

/-! The history of a text without errors has one entry for each declared name, and each entry says
what stands in the text. -/

namespace PvsIndex

/-- The entry says of a name what stands in the source: the one token that is the name, the
construct that declares it with all that separates its tokens, and a scope around both. -/
structure Entry.Describes (source : List Char) (e : Entry) (name : Occurrence) : Prop where
  token : ∃ t, name.element.children = [.leaf t] ∧ t.kind = .identifier ∧ t.text ≠ "" ∧
    Keyword.kind? t.text = none ∧ e.declaration.name = t.text ∧
    e.declaration.position = t.range.start
  construct : ∃ construct before after, name.parent? = some construct ∧
    (construct.kind, e.category) ∈ ElementKind.declaring ∧
    source = before ++ e.declaration.sourceText.toList ++ after ∧
    construct.range = ⟨.start + .ofChars before,
      .start + .ofChars (before ++ e.declaration.sourceText.toList)⟩ ∧
    ∃ scope, e.declaration.scope = some scope ∧ scope.Contains name.element.range ∧
      scope.Contains construct.range

theorem Entry.Describes.of_place {source : List Char} {e : Entry} {name : Occurrence} {t : Token}
    {kind : ElementKind} (h : e.Describes source name) (ht : name.element.children = [.leaf t])
    (hk : name.parent?.map (·.kind) = some kind) : (kind, e.category) ∈ ElementKind.declaring ∧
      e.declaration.name = t.text ∧ e.declaration.position = t.range.start := by
  obtain ⟨u, hu, -, -, -, hname, hposition⟩ := h.token
  obtain ⟨construct, before, after, hparent, hcategory, -⟩ := h.construct
  obtain rfl : u = t := by simpa using hu.symm.trans ht
  rw [hparent] at hk
  obtain rfl := Option.some.inj hk
  exact ⟨hcategory, hname, hposition⟩

theorem Element.Extent.split {source : List Char} {e : Element} {i j : Nat}
    (h : e.Extent source i j) : ∃ before after,
      source = before ++ (e.sourceText source).toList ++ after ∧
      e.range = ⟨.start + .ofChars before,
        .start + .ofChars (before ++ (e.sourceText source).toList)⟩ := by
  have htake : source.take i ++ (source.drop i).take (j - i) = source.take j := by
    rw [← List.take_add, Nat.add_sub_cancel' h.lt.le]
  have htext : (e.sourceText source).toList = (source.drop i).take (j - i) := by
    rw [h.text, String.toList_ofList]
  refine ⟨source.take i, source.drop j, ?_, ?_⟩
  · rw [htext, htake, List.take_append_drop]
  · rw [h.range, htext, htake]
    rfl

namespace Parse.Lawful

variable {text : String} {theories : List Tree} {name : Occurrence}

/-- What is recorded for a declared name describes it. -/
theorem exists_describes (h : (ofText text).Lawful theories)
    (hn : name ∈ (ofText text).tree.declared) :
    ∃ e, name.record? text.toList = some e ∧ e.Describes text.toList name := by
  obtain ⟨construct, scope, hsite⟩ := h.exists_site hn
  obtain ⟨category, hc⟩ := Option.isSome_iff_exists.mp (List.mem_filter.mp hn).2
  obtain ⟨t, htree, ht, hfits⟩ := h.exists_token hsite.mem hsite.identifier
  obtain ⟨hrange, htext⟩ := Element.identifier_range htree hfits
  obtain ⟨i, j, hextent⟩ := h.exists_extent
    (h.inner_of_kind hsite.construct_mem (ElementKind.ne_of_category? hsite.category).1)
  obtain ⟨before, after, hsource, hconstruct⟩ := hextent.split
  rw [← hsite.declaration_sourceText] at hsource hconstruct
  refine ⟨⟨category, name.declaration text.toList⟩, ?_, ?_, ?_⟩
  · rw [Occurrence.record?, hc]
    rfl
  · exact ⟨t, htree, ht, hfits.text_ne, hfits.name ht, htext, congrArg Range.start hrange⟩
  · exact ⟨construct.element, before, after, hsite.parent?,
      ElementKind.mem_declaring.mpr (hsite.category?_eq.symm.trans hc), hsource, hconstruct,
      scope.element.range, hsite.declaration_scope, hsite.scope_contains h,
      hsite.scope_contains_construct h⟩

theorem exists_token_of_declared (h : (ofText text).Lawful theories)
    (hn : name ∈ (ofText text).tree.declared) :
    ∃ t, name.element.children = [.leaf t] ∧ t.Fits text.toList := by
  obtain ⟨hmem, hd⟩ := List.mem_filter.mp hn
  have hk : name.element.kind = .identifier := by
    by_contra hk
    simp [Occurrence.category?_def, hk] at hd
  obtain ⟨t, ht, -, hfits⟩ := h.exists_token hmem hk
  exact ⟨t, ht, hfits⟩

theorem declared_pairwise (h : (ofText text).Lawful theories) :
    (ofText text).tree.declared.Pairwise fun o p =>
      o.element.range.start < p.element.range.start := by
  have hleaves : (Tree.leavesOf theories).Pairwise Token.Before := by
    rw [h.leaves]
    exact (Tokens.significant_placed text).ordered
  have hinner : (ofText text).tree.declared =
      (Tree.preorderOf [(ofText text).root] theories).filter (·.category?.isSome) := by
    rw [Tree.declared, h.preorder_eq, List.filter_cons_of_neg]
    simp [Occurrence.category?_def, Occurrence.parent?]
  have hpair : (Tree.preorderOf [(ofText text).root] theories).Pairwise
      (Occurrence.Earlier Token.Before) := Tree.pairwise_preorderOf hleaves
  have hdeclared := hpair.filter (·.category?.isSome)
  rw [← hinner] at hdeclared
  refine hdeclared.imp_of_mem fun {o p} ho hp hop => ?_
  obtain ⟨t, ht, htf⟩ := h.exists_token_of_declared ho
  obtain ⟨u, hu, huf⟩ := h.exists_token_of_declared hp
  rcases hop with habove | hbefore
  · obtain ⟨c, hc, hp⟩ := Tree.exists_child_of_above (List.mem_filter.mp hp).1 habove
    rw [ht] at hc
    obtain rfl := List.mem_singleton.mp hc
    simp at hp
  · have hbefore : t.Before u := by
      refine hbefore t ?_ u ?_
      · simp [Element.leaves, Element.tree, Tree.leaves, Tree.leavesOf, ht]
      · simp [Element.leaves, Element.tree, Tree.leaves, Tree.leavesOf, hu]
    have hpos := htf.length_pos
    have hstop := huf.stop_le
    rw [(Element.identifier_range ht htf).1, (Element.identifier_range hu huf).1, htf.range,
      huf.range]
    unfold Token.Before at hbefore
    exact Position.ofIndex_lt (by omega) (by omega)

end Parse.Lawful

namespace Analysis

/-- A text without errors is indexed: each name that its tree declares has one entry, which
describes it, there are no other entries, and the entries come in the order of the text. -/
theorem history_describes {text : String} (h : (Parse.ofText text).errors = []) (dumping : Bool) :
    ∃ a, ofText text dumping = .ok a ∧
      List.Forall₂ (fun name e => e.Describes text.toList name) (Parse.ofText text).tree.declared
        a.table.history.toList ∧
      a.table.history.toList.Pairwise fun d e =>
        d.declaration.position < e.declaration.position := by
  obtain ⟨a, ha, -, hh⟩ := exists_history h dumping
  obtain ⟨theories, hl⟩ := Parse.exists_lawful h
  refine ⟨a, ha, ?_, ?_⟩
  · rw [hh]
    have hrel : List.Forall₂ (fun name (e : Entry) => e.Describes text.toList name)
        ((Parse.ofText text).tree.declared.filterMap some)
        ((Parse.ofText text).tree.declared.filterMap (·.record? text.toList)) := by
      refine List.forall₂_filterMap fun name hn => ?_
      obtain ⟨e, he, hd⟩ := hl.exists_describes hn
      rw [he]
      exact .some hd
    rwa [List.filterMap_some] at hrel
  · rw [hh, List.pairwise_filterMap]
    refine hl.declared_pairwise.imp fun hop d hd e he => ?_
    obtain ⟨c, -, rfl⟩ := Option.map_eq_some_iff.mp hd
    obtain ⟨k, -, rfl⟩ := Option.map_eq_some_iff.mp he
    exact hop

/-- A function and its parameter are recorded, each at its name. -/
theorem history_describes_binding :
    let text := "t: THEORY BEGIN f(x: int): int = x END t"
    (Parse.ofText text).errors = [] ∧ ∃ a, ofText text false = .ok a ∧
      a.table.history.toList.map (fun e =>
          (e.category, e.declaration.name, e.declaration.position)) =
        [(.function, "f", ⟨1, 16⟩), (.localBinding, "x", ⟨1, 18⟩)] := by
  intro text
  have h : (Parse.ofText text).errors = [] := by decide +kernel
  have hplaces : (Parse.ofText text).tree.declared.map (fun name =>
      (name.element.children, name.parent?.map (·.kind))) =
      [([.leaf ⟨.identifier, "f", ⟨⟨1, 16⟩, ⟨1, 17⟩⟩, 16⟩], some .functionDecl),
        ([.leaf ⟨.identifier, "x", ⟨⟨1, 18⟩, ⟨1, 19⟩⟩, 18⟩], some .binding)] := by
    decide +kernel
  obtain ⟨a, ha, hdescribes, -⟩ := history_describes h false
  refine ⟨h, a, ha, ?_⟩
  obtain ⟨f, names, hdeclared, hf, hplaces⟩ := List.map_eq_cons_iff.mp hplaces
  obtain ⟨x, names, rfl, hx, hplaces⟩ := List.map_eq_cons_iff.mp hplaces
  obtain rfl := List.map_eq_nil_iff.mp hplaces
  rw [hdeclared] at hdescribes
  obtain ⟨d, entries, hd, hentries, hhistory⟩ := List.forall₂_cons_left_iff.mp hdescribes
  obtain ⟨e, _, he, hnil, rfl⟩ := List.forall₂_cons_left_iff.mp hentries
  obtain rfl := List.forall₂_nil_left_iff.mp hnil
  obtain ⟨hcategory, hname, hposition⟩ :=
    hd.of_place (congrArg Prod.fst hf) (congrArg Prod.snd hf)
  obtain ⟨hcategory', hname', hposition'⟩ :=
    he.of_place (congrArg Prod.fst hx) (congrArg Prod.snd hx)
  have hfunction : d.category = .function :=
    (Option.some.inj (ElementKind.mem_declaring.mp hcategory)).symm
  have hbinding : e.category = .localBinding :=
    (Option.some.inj (ElementKind.mem_declaring.mp hcategory')).symm
  simp [hhistory, hfunction, hname, hposition, hbinding, hname', hposition']

end Analysis

end PvsIndex
