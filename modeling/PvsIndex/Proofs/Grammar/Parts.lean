import PvsIndex.Proofs.Grammar.Orderly
import PvsIndex.Proofs.Grammar.Parsing
import PvsIndex.Proofs.Grammar.Termination

/-! The rules that the grammar is made of: every loop of it reads a token each time round, and what
a type or an expression begins with decides whether there is one. -/

namespace PvsIndex

namespace Rule

/-- The rules that a rule is made of, itself the first. -/
def parts : Rule → List Rule
  | empty => [empty]
  | take => [take]
  | skip => [skip]
  | report complaint => [report complaint]
  | seq first second => seq first second :: (first.parts ++ second.parts)
  | branch test yes no => branch test yes no :: (yes.parts ++ no.parts)
  | loop test body => loop test body :: body.parts
  | node kind body => node kind body :: body.parts
  | nodeBy opening test yes no closing =>
    nodeBy opening test yes no closing :: (opening.parts ++ closing.parts)
  | chain kind head test tail => chain kind head test tail :: (head.parts ++ tail.parts)
  | .call name => [.call name]

/-- The rule with its first token demanded where it accepts any. -/
def expecting (first : TokenKind) : Rule → Rule
  | take => expect first
  | seq head next => seq (head.expecting first) next
  | node kind body => node kind (body.expecting first)
  | r => r

/-- What the rule does again and again reads a token each time, and what it calls is a type or an
expression. -/
def Advances : Rule → Prop
  | loop test body => Flow.Turns test body.flow
  | chain _ _ test tail => Flow.Turns test tail.flow
  | .call name => name.Known
  | _ => True

instance (r : Rule) : Decidable r.Advances := by
  cases r <;> unfold Advances <;> infer_instance

@[simp] theorem mem_parts_self (r : Rule) : r ∈ r.parts := by
  cases r <;> exact List.mem_cons_self

theorem mem_parts_trans {r s t : Rule} (h : r ∈ s.parts) (hs : s ∈ t.parts) : r ∈ t.parts := by
  induction t with
  | empty | take | skip | report | call => simp_all [parts]
  | seq _ _ ih1 ih2 | branch _ _ _ ih1 ih2 | nodeBy _ _ _ _ _ ih1 ih2 | chain _ _ _ _ ih1 ih2 =>
    simp only [parts, List.mem_cons, List.mem_append] at hs ⊢
    rcases hs with rfl | hs | hs
    · simpa only [parts, List.mem_cons, List.mem_append] using h
    · exact Or.inr (Or.inl (ih1 hs))
    · exact Or.inr (Or.inr (ih2 hs))
  | loop _ _ ih | node _ _ ih =>
    simp only [parts, List.mem_cons] at hs ⊢
    rcases hs with rfl | hs
    · simpa only [parts, List.mem_cons] using h
    · exact Or.inr (ih hs)

theorem orderly_of_mem_parts {r s : Rule} (h : r ∈ s.parts) (hs : s.orderly = true) :
    r.orderly = true := by
  induction s with
  | empty | take | skip | report | call => simp_all [parts]
  | seq _ _ ih1 ih2 | branch _ _ _ ih1 ih2 | nodeBy _ _ _ _ _ ih1 ih2 | chain _ _ _ _ ih1 ih2 =>
    simp only [parts, List.mem_cons, List.mem_append] at h
    rcases h with rfl | h | h
    · exact hs
    · exact ih1 h (by simp_all [orderly])
    · exact ih2 h (by simp_all [orderly])
  | loop _ _ ih | node _ _ ih =>
    simp only [parts, List.mem_cons] at h
    rcases h with rfl | h
    · exact hs
    · exact ih h (by simp_all [orderly])

end Rule

namespace Grammar

open Rule

/-- Types, and expressions with the operators from each layer on, each with the tokens that it may
begin with. -/
def phrases : List (List TokenKind × Rule) :=
  (typeStarts, typeExpression) :: (atomStarts, atom) ::
    layers.tails.map fun ls => (expressionStarts ls, layered ls)

/-- The other rules, each with the tokens that it may be entered at: those that accept their first
token unseen not at the end of the text, but anywhere if they demand it, and those that tell
declarations apart at a name. -/
def entries : List (List TokenKind × Rule) :=
  [expression, expressions, type, types, name, binding, .node .binding name, bindings, bindingGroup,
    letBinding, names, theoryName, typeDeclaration, formulaDeclaration, functionDeclaration,
    variableDeclaration, strayPart, part, theory, theories].map (TokenKind.all, ·) ++
  (TokenKind.all.erase .eof).map (TokenKind.all, expect ·) ++
  [(.letKw, letExpression), (.ifKw, ifExpression), (.openParen, parameters),
    (.openBracket, formals), (.exportingKw, exporting), (.importingKw, importing)].map
    (fun (first, r) => (TokenKind.all, r.expecting first)) ++
  [binder, letExpression, ifExpression, arguments, parameters, formals, exporting, importing].map
    (TokenKind.all.erase .eof, ·) ++
  [([.identifier], formal), ([.identifier], declaration)]

/-- Every rule that a text is read by. -/
def rules : List Rule :=
  theories.parts ++ typeExpression.parts ++ layers.tails.flatMap fun ls => (layered ls).parts

theorem mem_phrases {name : Nonterminal} (h : name.Known) : (name.starts, name.rule) ∈ phrases := by
  cases name with
  | text => exact h.elim
  | type => exact List.mem_cons_self
  | expression ls =>
    refine List.mem_cons_of_mem _ (List.mem_cons_of_mem _ (List.mem_map.mpr ⟨ls, ?_, rfl⟩))
    exact (List.mem_tails _ _).mpr h

theorem phrases_advance : ∀ phrase ∈ phrases,
    Flow.Turns (.next phrase.1) phrase.2.flow ∧ phrase.2.orderly = true ∧
      phrase.2.single = true := by
  decide +kernel

theorem entries_flow : ∀ entry ∈ entries,
    (entry.2.flow ⟨.ofNext entry.1, true⟩).isSome = true ∧ entry.2.orderly = true := by
  decide +kernel

theorem layered_advance : ∀ ls ∈ layers.tails, (layered ls).Advances := by
  decide +kernel

theorem advances_of_mem_layered {ls : List Layer} (h : ls <:+ layers) :
    ∀ r ∈ (layered ls).parts, r.Advances := by
  induction ls with
  | nil =>
    have atoms : ∀ r ∈ (layered []).parts, r.Advances := by decide +kernel
    exact atoms
  | cons l ls ih =>
    have below := ih ((List.suffix_cons l ls).trans h)
    have own : (layered (l :: ls)).Advances := layered_advance _ ((List.mem_tails _ _).mpr h)
    intro r hr
    cases l with
    | binary operators =>
      simp only [layered, Rule.required, Rule.andThen_eq_seq, Rule.parts, List.mem_cons,
        List.mem_append, List.not_mem_nil, or_false] at hr
      rcases hr with rfl | hr | rfl | rfl | rfl | hr | rfl
      · exact own
      · exact below r hr
      · trivial
      · trivial
      · trivial
      · exact below r hr
      · trivial
    | unary operators =>
      simp only [layered, Rule.required, Rule.andThen_eq_seq, Rule.parts, List.mem_cons,
        List.mem_append, List.not_mem_nil, or_false] at hr
      rcases hr with rfl | hr | hr
      · exact own
      · rcases hr with rfl | rfl | rfl | rfl | rfl | rfl
        · trivial
        · trivial
        · trivial
        · trivial
        · exact h
        · trivial
      · exact below r hr

theorem mem_rules {r : Rule} : r ∈ rules ↔ r ∈ theories.parts ∨ r ∈ typeExpression.parts ∨
    ∃ ls, ls <:+ layers ∧ r ∈ (layered ls).parts := by
  simp [rules]

theorem rules_advance : ∀ r ∈ rules, r.Advances := by
  have theories : ∀ r ∈ theories.parts, r.Advances := by decide +kernel
  have types : ∀ r ∈ typeExpression.parts, r.Advances := by decide +kernel
  intro r hr
  rcases mem_rules.mp hr with hr | hr | ⟨ls, hls, hr⟩
  · exact theories r hr
  · exact types r hr
  · exact advances_of_mem_layered hls r hr

theorem rules_orderly : ∀ r ∈ rules, r.orderly = true := by
  intro r hr
  rcases mem_rules.mp hr with hr | hr | ⟨ls, hls, hr⟩
  · exact Rule.orderly_of_mem_parts hr theories_orderly
  · exact Rule.orderly_of_mem_parts hr (@Nonterminal.single_orderly .type trivial).2
  · exact Rule.orderly_of_mem_parts hr (@Nonterminal.single_orderly (.expression ls) hls).2

/-- What a rule of the grammar is made of are rules of the grammar. -/
theorem rules_parts {r s : Rule} (hs : s ∈ rules) (h : r ∈ s.parts) : r ∈ rules := by
  rw [mem_rules] at hs ⊢
  rcases hs with hs | hs | ⟨ls, hls, hs⟩
  · exact Or.inl (Rule.mem_parts_trans h hs)
  · exact Or.inr (Or.inl (Rule.mem_parts_trans h hs))
  · exact Or.inr (Or.inr ⟨ls, hls, Rule.mem_parts_trans h hs⟩)

end Grammar

namespace Reads

variable {endOfText : Token} {c : Cursor} {s : Step} {test : Lookahead} {body : Rule}

/-- What the check says of a turn: where the test holds, it is read and takes a token. -/
theorem exists_turn (h : Flow.Turns test body.flow) (ht : test.holds c.input = true) :
    ∃ s, Reads endOfText (.read body c) s ∧ s.cursor.input.length < c.input.length := by
  obtain ⟨g, hg, hm⟩ := h
  have hf : (⟨Ahead.anything.yes test, false⟩ : Flow).Holds c.input.length c :=
    ⟨(Ahead.holds_anything _).yes ht, Nat.le_refl _, by simp⟩
  obtain ⟨hr, hh⟩ := Rule.run_reads (Nonterminal.run_enters endOfText c.input.length) body
    (Nat.le_refl _) (hf.through hg) hf
  exact ⟨_, hr, hh.2.2 (hm.resolve_left hh.not_dead)⟩

theorem exists_of_flow {starts : List TokenKind} {r : Rule}
    (h : (r.flow ⟨.ofNext starts, true⟩).isSome = true) (hs : nextKind c.input ∈ starts) :
    ∃ s, Reads endOfText (.read r c) s := by
  obtain ⟨g, hg⟩ := Option.isSome_iff_exists.mp h
  have hf : (⟨.ofNext starts, true⟩ : Flow).Holds (c.input.length + 1) c :=
    ⟨Ahead.holds_ofNext.mpr hs, Nat.le_succ _, fun _ => Nat.lt_succ_self _⟩
  exact ⟨_, (Rule.run_reads (Nonterminal.run_enters endOfText (c.input.length + 1)) r
    (Nat.le_refl _) hg hf).1⟩

theorem trees_ne_nil (h : Reads endOfText (.read body c) s)
    (hlt : s.cursor.input.length < c.input.length) : s.trees ≠ [] := by
  intro hnil
  have hleaves := h.leaves
  rw [hnil] at hleaves
  have hinput : s.cursor.input = c.input := by
    simpa [Task.trees, Task.input, Tree.leavesOf] using hleaves
  rw [hinput] at hlt
  exact Nat.lt_irrefl _ hlt

theorem switch_empty {cases : List (List TokenKind × Rule)}
    (h : nextKind c.input ∉ cases.flatMap (·.1)) :
    Reads endOfText (.read (Rule.switch .empty cases) c) (.stay c) := by
  induction cases with
  | nil => exact .empty
  | cons first cases ih =>
    obtain ⟨hfirst, hrest⟩ := not_or.mp (mt List.mem_append.mpr h)
    exact .no trivial (by simpa [Lookahead.holds] using hfirst) (ih hrest)

theorem layered_stay {ls : List Layer} (h : nextKind c.input ∉ Grammar.expressionStarts ls) :
    Reads endOfText (.read (Grammar.layered ls) c) (.stay c) := by
  induction ls with
  | nil => exact .headless (switch_empty h) rfl
  | cons l ls ih =>
    cases l with
    | binary operators => exact .headless (ih h) rfl
    | unary operators =>
      obtain ⟨hoperators, hrest⟩ := not_or.mp (mt List.mem_append.mpr h)
      exact .no trivial (by simpa [Lookahead.holds] using hoperators) (ih hrest)

theorem phrase_stay {phrase : List TokenKind × Rule} (hp : phrase ∈ Grammar.phrases)
    (h : nextKind c.input ∉ phrase.1) : Reads endOfText (.read phrase.2 c) (.stay c) := by
  simp only [Grammar.phrases, List.mem_cons, List.mem_map] at hp
  rcases hp with rfl | rfl | ⟨ls, -, rfl⟩
  · exact switch_empty h
  · exact switch_empty h
  · exact layered_stay h

/-- A type or an expression is read wherever it is asked for, if only as nothing. -/
theorem exists_of_phrase {phrase : List TokenKind × Rule} (hp : phrase ∈ Grammar.phrases) :
    ∃ s, Reads endOfText (.read phrase.2 c) s := by
  by_cases h : nextKind c.input ∈ phrase.1
  · have ht : (Lookahead.next phrase.1).holds c.input = true := by
      simpa [Lookahead.holds] using h
    obtain ⟨s, hr, -⟩ := @exists_turn endOfText c _ _ (Grammar.phrases_advance phrase hp).1 ht
    exact ⟨s, hr⟩
  · exact ⟨_, phrase_stay hp h⟩

end Reads

end PvsIndex
