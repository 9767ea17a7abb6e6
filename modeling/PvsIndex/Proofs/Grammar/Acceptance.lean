import PvsIndex.Proofs.Grammar.Flow
import PvsIndex.Proofs.Grammar.Language
import PvsIndex.Proofs.Grammar.Parsing

/-! What the rules accept: each rule has a phrase that is read off it, the phrases of the named
rules are those of the grammar, and what parses is derived. -/

namespace PvsIndex

def kindsOf (ts : List Token) : List TokenKind :=
  ts.map (·.kind)

@[simp] theorem kindsOf_nil : kindsOf [] = [] := rfl

@[simp] theorem kindsOf_cons (t : Token) (ts : List Token) :
    kindsOf (t :: ts) = t.kind :: kindsOf ts := rfl

@[simp] theorem kindsOf_append (ts us : List Token) :
    kindsOf (ts ++ us) = kindsOf ts ++ kindsOf us :=
  List.map_append

theorem kindsOf_flatten (tss : List (List Token)) :
    kindsOf tss.flatten = (tss.map kindsOf).flatten :=
  List.map_flatten

@[simp] theorem length_kindsOf (ts : List Token) : (kindsOf ts).length = ts.length :=
  List.length_map _

open Phrase PvsIndex.Language

namespace Rule

/-- What a rule accepts, given what is known where it begins. To complain is to refuse. -/
def phrase : Rule → Ahead → Words
  | empty, _ => .empty
  | take, a => .word a.next
  | skip, a => .alt (.word a.next) .empty
  | report _, _ => .fail
  | seq first second, a => (first.phrase a).join (second.phrase .anything)
  | branch test yes no, a =>
    ((a.yes test).allow (yes.phrase (a.yes test))).either
      ((a.no test).allow (no.phrase (a.no test)))
  | loop test body, _ => .star (body.phrase (Ahead.anything.yes test))
  | node _ body, a => body.phrase a
  | nodeBy opening _ _ _ closing, a => (opening.phrase a).join (closing.phrase .anything)
  | chain _ head test tail, a =>
    (head.phrase a).join (.star (tail.phrase (Ahead.anything.yes test)))
  | .call x, _ => .name x

end Rule

/-- A named rule accepts what the grammar says. -/
theorem Nonterminal.phrase_rule {name : Nonterminal} (h : name.Known) :
    name.rule.phrase (.ofNext name.starts) = production name := by
  have expression : ∀ layers ∈ Grammar.layers.tails,
      (Grammar.layered layers).phrase (.ofNext (Grammar.expressionStarts layers)) =
        Language.layered layers := by decide +kernel
  have type : Grammar.typeExpression.phrase (.ofNext Grammar.typeStarts) =
      Language.typeExpression := by decide +kernel
  cases name with
  | text => exact h.elim
  | type => exact type
  | expression layers => exact expression layers ((List.mem_tails _ _).mpr h)

theorem phrase_theories : Grammar.theories.phrase .anything = .star theory := by
  decide +kernel

/-- What a piece accepts. -/
def Piece.Accepts (words : List TokenKind) (input : List Token) : Piece → Prop
  | rule r => ∀ a : Ahead, a.Holds input → Phrase.Derives production (r.phrase a) words
  | chain _ test tail _ =>
    Phrase.Derives production (.star (tail.phrase (Ahead.anything.yes test))) words

/-- What parses is accepted. -/
theorem Parses.accepts {piece : Piece} {input rest : List Token} {trees : List Tree}
    (h : Parses piece input trees rest) :
    ∃ ts, input = ts ++ rest ∧ piece.Accepts (kindsOf ts) input := by
  induction h with
  | empty => exact ⟨[], rfl, fun _ _ => .empty⟩
  | @take t input => exact ⟨[t], rfl, fun _ ha => .word ha.1⟩
  | @skip t input => exact ⟨[t], rfl, fun _ ha => .left (.word ha.1)⟩
  | skipNone => exact ⟨[], rfl, fun _ _ => .right .empty⟩
  | seq _ _ ih1 ih2 =>
    obtain ⟨ts, rfl, h1⟩ := ih1
    obtain ⟨us, rfl, h2⟩ := ih2
    refine ⟨ts ++ us, (List.append_assoc ..).symm, fun a ha => ?_⟩
    rw [kindsOf_append]
    exact derives_join.mpr ⟨_, _, rfl, h1 a ha, h2 _ (Ahead.holds_anything _)⟩
  | yes _ ht _ ih =>
    obtain ⟨ts, rfl, h⟩ := ih
    refine ⟨ts, rfl, fun a ha => derives_either.mpr (Or.inl ?_)⟩
    rw [(ha.yes ht).allow]
    exact h _ (ha.yes ht)
  | no _ ht _ ih =>
    obtain ⟨ts, rfl, h⟩ := ih
    refine ⟨ts, rfl, fun a ha => derives_either.mpr (Or.inr ?_)⟩
    rw [(ha.no ht).allow]
    exact h _ (ha.no ht)
  | finish => exact ⟨[], rfl, fun _ _ => .stop⟩
  | turn ht _ _ _ ih1 ih2 =>
    obtain ⟨ts, rfl, h1⟩ := ih1
    obtain ⟨us, rfl, h2⟩ := ih2
    refine ⟨ts ++ us, (List.append_assoc ..).symm, fun a ha => ?_⟩
    rw [kindsOf_append]
    exact .more (h1 _ ((Ahead.holds_anything _).yes ht)) (h2 _ (Ahead.holds_anything _))
  | node _ ih => exact ih
  | nodeBy _ _ ih1 ih2 =>
    obtain ⟨ts, rfl, h1⟩ := ih1
    obtain ⟨us, rfl, h2⟩ := ih2
    refine ⟨ts ++ us, (List.append_assoc ..).symm, fun a ha => ?_⟩
    rw [kindsOf_append]
    exact derives_join.mpr ⟨_, _, rfl, h1 a ha, h2 _ (Ahead.holds_anything _)⟩
  | headless _ ih =>
    obtain ⟨ts, rfl, h⟩ := ih
    exact ⟨ts, rfl, fun a ha => derives_join.mpr ⟨_, [], by simp, h a ha, .stop⟩⟩
  | chain _ _ _ ih1 ih2 =>
    obtain ⟨ts, rfl, h1⟩ := ih1
    obtain ⟨us, rfl, h2⟩ := ih2
    refine ⟨ts ++ us, (List.append_assoc ..).symm, fun a ha => ?_⟩
    rw [kindsOf_append]
    exact derives_join.mpr ⟨_, _, rfl, h1 a ha, h2⟩
  | grown => exact ⟨[], rfl, .stop⟩
  | link ht _ _ _ ih1 ih2 =>
    obtain ⟨ts, rfl, h1⟩ := ih1
    obtain ⟨us, rfl, h2⟩ := ih2
    refine ⟨ts ++ us, (List.append_assoc ..).symm, ?_⟩
    unfold Piece.Accepts
    rw [kindsOf_append]
    exact .more (h1 _ ((Ahead.holds_anything _).yes ht)) h2
  | call hk hs _ ih =>
    obtain ⟨ts, rfl, h⟩ := ih
    refine ⟨ts, rfl, fun a _ => .name ?_⟩
    rw [← Nonterminal.phrase_rule hk]
    exact h _ (Ahead.holds_ofNext.mpr hs)

end PvsIndex
