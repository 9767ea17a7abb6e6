import PvsIndex.Declaration.Recording
import PvsIndex.Proofs.Grammar.Correctness
import PvsIndex.Proofs.Grammar.Shape
import PvsIndex.Proofs.Tree.Walk

/-! What the grammar says of the elements of a text without errors: where names stand in them, and
what stands next to what. -/

namespace PvsIndex

namespace ElementKind

/-- The elements that use a name. -/
def isUse : ElementKind → Bool
  | nameType | nameExpr => true
  | _ => false

/-- The elements that may stand next to another one, with nothing between them. -/
def isPart : ElementKind → Bool
  | formals | params | importing | typeDecl | formulaDecl | functionDecl | varDecl | theory => true
  | _ => false

end ElementKind

namespace Child

def isLeaf : Child → Bool
  | leaf _ => true
  | node _ => false

/-- A declared name, or a token that is no name. -/
def opens : Child → Bool
  | leaf kind => kind ≠ .identifier
  | node kind => kind = .identifier

/-- In an element that declares names, nothing but a token stands before a name, or another name if
there may be several. -/
def Precedes (category : Category) (x y : Child) : Prop :=
  y = node .identifier →
    x.isLeaf = true ∨ x = node .identifier ∧ category.declaresList = true

/-- An element that follows another one without a token between them is a part. -/
def Follows (x y : Child) : Prop :=
  ∀ kind, y = node kind → x.isLeaf = true ∨ kind.isPart = true

instance (category : Category) (x y : Child) : Decidable (x.Precedes category y) :=
  inferInstanceAs (Decidable (_ → _))

instance (x y : Child) : Decidable (x.Follows y) :=
  match y with
  | leaf _ => isTrue nofun
  | node kind => decidable_of_iff (x.isLeaf = true ∨ kind.isPart = true)
      ⟨fun h _ hk => node.inj hk ▸ h, fun h => h kind rfl⟩

end Child

namespace Form

/-- What is checked of the form of each kind of elements. -/
def Lawful (kind : ElementKind) (f : Form Child) : Prop :=
  f.nullable = false ∧ (∀ p ∈ f.neighbours, p.1.Follows p.2) ∧
    (kind = .identifier → f = .word [.leaf .identifier]) ∧
    (kind.isUse = true → f.heads ⊆ [.leaf .identifier] ∧
      ∀ p ∈ f.neighbours, p.1 = .leaf .identifier → p.2.isLeaf = true) ∧
    (kind.isPart = true ∨ kind.introducesScope = true → ∀ x ∈ f.heads, x.opens = true) ∧
    (kind.category?.isSome = true ∨ kind = .theory → f.heads ⊆ [.node .identifier]) ∧
    ∀ category ∈ kind.category?, ∀ p ∈ f.pairs, p.1.Precedes category p.2

instance (kind : ElementKind) (f : Form Child) : Decidable (f.Lawful kind) := by
  unfold Lawful
  infer_instance

end Form

theorem Grammar.forms_lawful : ∀ f ∈ forms .fail, Form.Lawful f.1 f.2 := by
  decide +kernel

namespace Element

/-- What holds of every element of a text without errors. -/
structure Lawful (e : Element) : Prop where
  nonempty : e.children ≠ []
  follows : e.children.IsChain fun x y => x.child.Follows y.child
  identifier : e.kind = .identifier → ∃ t, e.children = [.leaf t] ∧ t.kind = .identifier
  /-- A use begins with the name, and no element comes next. -/
  use : e.kind.isUse = true → ∃ t rest, e.children = .leaf t :: rest ∧ t.kind = .identifier ∧
    ∀ c ∈ rest.head?, c.child.isLeaf = true
  opens : e.kind.isPart = true ∨ e.kind.introducesScope = true →
    ∃ c rest, e.children = c :: rest ∧ c.child.opens = true
  named : e.kind.category?.isSome = true ∨ e.kind = .theory →
    ∃ children rest, e.children = .node .identifier children :: rest
  names : ∀ category ∈ e.kind.category?,
    e.children.Pairwise fun x y => x.child.Precedes category y.child

end Element

namespace Tree

variable {ancestors : List Element} {t : Tree} {o : Occurrence}

theorem child_eq_leaf {t : Tree} {kind : TokenKind} (h : t.child = .leaf kind) :
    ∃ token, t = .leaf token ∧ token.kind = kind := by
  cases t with
  | leaf token => exact ⟨token, rfl, Child.leaf.inj h⟩
  | node => cases h

theorem child_eq_node {t : Tree} {kind : ElementKind} (h : t.child = .node kind) :
    ∃ children, t = .node kind children := by
  cases t with
  | leaf => cases h
  | node kind' children => exact ⟨children, by rw [Child.node.inj h]⟩

theorem Formed.lawful {e : Element} (h : e.tree.Formed (Grammar.forms .fail)) : e.Lawful := by
  obtain ⟨kind, children⟩ := e
  cases h with
  | @node _ _ form mem derives inner =>
  obtain ⟨hnull, hfollows, hident, huse, hopens, hnamed, hnames⟩ := Grammar.forms_lawful _ mem
  dsimp only at *
  have hne : children ≠ [] := fun he => derives.ne_nil hnull (by rw [he, List.map_nil])
  obtain ⟨c, rest, rfl⟩ := List.exists_cons_of_ne_nil hne
  have hchain := (List.isChain_map _).mp derives.isChain
  have hhead : c.child ∈ form.heads := derives.mem_heads rfl
  exact {
    nonempty := hne
    follows := hchain.imp fun x y hxy => hfollows _ hxy
    identifier := fun hk => by
      rw [hident hk] at derives
      obtain ⟨x, hx, hone⟩ := Form.Derives.of_words? derives rfl
      obtain ⟨hc, hrest⟩ := List.cons.inj hone
      obtain ⟨token, rfl, ht⟩ := child_eq_leaf (hc.trans (List.mem_singleton.mp hx))
      exact ⟨token, by rw [List.map_eq_nil_iff.mp hrest], ht⟩
    use := fun hk => by
      obtain ⟨hheads, hnext⟩ := huse hk
      obtain ⟨token, rfl, ht⟩ := child_eq_leaf (List.mem_singleton.mp (hheads hhead))
      refine ⟨token, rest, rfl, ht, fun d hd => ?_⟩
      obtain ⟨rest, rfl⟩ := List.head?_eq_some_iff.mp hd
      exact hnext _ (List.isChain_cons_cons.mp hchain).1 (congrArg Child.leaf ht)
    opens := fun hk => ⟨c, rest, rfl, hopens hk _ hhead⟩
    named := fun hk => by
      obtain ⟨cs, rfl⟩ := child_eq_node (List.mem_singleton.mp (hnamed hk hhead))
      exact ⟨cs, rest, rfl⟩
    names := fun category hc =>
      (List.pairwise_map.mp derives.pairwise).imp fun hxy => hnames category hc _ hxy
  }

theorem preorderBelow_identifier {e : Element} (h : e.Lawful) (hk : e.kind = .identifier)
    (ancestors : List Element) : e.tree.preorderBelow ancestors = [⟨e, ancestors⟩] := by
  obtain ⟨token, hc, -⟩ := h.identifier hk
  obtain ⟨kind, children⟩ := e
  obtain rfl : children = [leaf token] := hc
  simp [Element.tree]

theorem Formed.of_mem {forms : List (ElementKind × Form Child)} (h : t.Formed forms)
    (ho : o ∈ t.preorderBelow ancestors) : o.element.tree.Formed forms := by
  refine forall_preorderBelow h (fun kind children hf c hc => ?_) ho
  cases hf with
  | node _ _ inner => exact inner c hc

theorem Formed.leaves_ne_nil (h : t.Formed (Grammar.forms .fail)) : t.leaves ≠ [] := by
  induction h with
  | leaf => simp [leaves]
  | @node kind children form mem derives inner ih =>
    have hl := Formed.lawful (e := ⟨kind, children⟩) (.node mem derives inner)
    obtain ⟨c, rest, hc⟩ := List.exists_cons_of_ne_nil hl.nonempty
    obtain rfl : children = c :: rest := hc
    rw [leaves, leavesOf]
    exact List.append_ne_nil_of_left_ne_nil (ih c List.mem_cons_self) _

end Tree

namespace Parse

/-- The tree of a text without errors: theories, and the end of the text. -/
structure Lawful (p : Parse) (theories : List Tree) : Prop where
  root : p.root = ⟨.root, theories ++ [.leaf p.tokens.endOfText]⟩
  theory : ∀ t ∈ theories, ∃ children, t = .node .theory children
  formed : ∀ t ∈ theories, t.Formed (Grammar.forms .fail)
  leaves : Tree.leavesOf theories = p.tokens.significant

theorem theories_letters :
    (Grammar.theories.form .fail .anything).letters ⊆ [.node .theory] := by
  decide +kernel

theorem exists_lawful {text : String} (h : (ofText text).errors = []) :
    ∃ theories, (ofText text).Lawful theories := by
  obtain ⟨trees, hroot, hp⟩ := exists_parses h
  obtain ⟨hd, hformed⟩ := hp.formed ⟨.anything, Ahead.holds_anything _, rfl,
    Grammar.forms_theories .fail⟩
  refine ⟨trees, hroot, fun t ht => ?_, hformed, ?_⟩
  · exact Tree.child_eq_node
      (List.mem_singleton.mp (theories_letters (hd.mem_letters (List.mem_map_of_mem ht))))
  · have hl := hp.leaves
    rwa [List.append_nil] at hl

namespace Lawful

variable {p : Parse} {theories : List Tree} {o : Occurrence}

theorem preorder_eq (h : p.Lawful theories) :
    p.tree.preorder = ⟨p.root, []⟩ :: Tree.preorderOf [p.root] theories := by
  rw [Parse.tree, h.root]
  simp [Element.tree, Tree.preorder_eq, Tree.preorderOf_eq_flatMap]

theorem root_lawful (h : p.Lawful theories) : p.root.Lawful := by
  have hall : ∀ c ∈ p.root.children, ∀ kind, c.child = .node kind → kind = .theory := by
    rw [h.root]
    intro c hc kind hk
    rcases List.mem_append.mp hc with hc | hc
    · obtain ⟨cs, rfl⟩ := h.theory c hc
      exact (Child.node.inj hk).symm
    · obtain rfl := List.mem_singleton.mp hc
      cases hk
  have hkind : p.root.kind = .root := by rw [h.root]
  exact {
    nonempty := by simp [h.root]
    follows := by
      refine (List.pairwise_of_forall_mem_list fun x _ y hy => ?_).isChain
      intro kind hk
      exact Or.inr (by rw [hall y hy kind hk]; rfl)
    identifier := by simp [hkind]
    use := by simp [hkind, ElementKind.isUse]
    opens := by simp [hkind, ElementKind.isPart, ElementKind.introducesScope]
    named := by simp [hkind, ElementKind.category?]
    names := by simp [hkind, ElementKind.category?]
  }

theorem inner_lawful (h : p.Lawful theories) (ho : o ∈ Tree.preorderOf [p.root] theories) :
    o.element.Lawful := by
  obtain ⟨t, ht, ho⟩ := Tree.mem_preorderOf.mp ho
  exact ((h.formed t ht).of_mem ho).lawful

theorem element_lawful (h : p.Lawful theories) (ho : o ∈ p.tree.preorder) : o.element.Lawful := by
  rw [h.preorder_eq] at ho
  rcases List.mem_cons.mp ho with rfl | ho
  · exact h.root_lawful
  · exact h.inner_lawful ho

theorem inner_of_kind (h : p.Lawful theories) (ho : o ∈ p.tree.preorder)
    (hk : o.element.kind ≠ .root) : o ∈ Tree.preorderOf [p.root] theories := by
  rw [h.preorder_eq] at ho
  rcases List.mem_cons.mp ho with rfl | ho
  · exact absurd (by rw [h.root]) hk
  · exact ho

theorem theory_above (h : p.Lawful theories) (ho : o ∈ Tree.preorderOf [p.root] theories)
    (hk : o.element.kind ≠ .theory) : ∃ e ∈ o.ancestors, e.kind = .theory := by
  obtain ⟨t, ht, ho⟩ := Tree.mem_preorderOf.mp ho
  obtain ⟨cs, rfl⟩ := h.theory t ht
  rw [Tree.preorderBelow_node, List.mem_cons, Tree.mem_preorderOf] at ho
  rcases ho with rfl | ⟨c, -, ho⟩
  · exact absurd rfl hk
  · exact ⟨_, (Tree.suffix_of_mem ho).subset List.mem_cons_self, rfl⟩

end Lawful

end Parse

end PvsIndex
