import Mathlib.Data.List.Basic
import PvsIndex.Grammar.Lookahead
import PvsIndex.Proofs.Grammar.Phrase

/-! What is known about the next two tokens before they are read, and what a test adds to it. -/

namespace PvsIndex

def TokenKind.all : List TokenKind :=
  [
    .eof, .space, .comment, .other, .number, .string, .identifier, .allKw, .andKw, .beginKw,
    .elseKw, .elsifKw, .endKw, .endifKw, .existsKw, .exportingKw, .falseKw, .forallKw, .formulaKw,
    .fromKw, .ifKw, .iffKw, .impliesKw, .importingKw, .inKw, .lambdaKw, .letKw, .nonemptyTypeKw,
    .notKw, .orKw, .thenKw, .theoryKw, .trueKw, .typeKw, .varKw, .ampersand, .disjunction, .colon,
    .comma, .dot, .equal, .openBrace, .openBracket, .openParen, .less, .lessEqual, .equivalence,
    .minus, .pipe, .plus, .closeBrace, .closeBracket, .closeParen, .greater, .greaterEqual,
    .implication, .arrow, .semicolon, .slash, .conjunction, .notEqual, .star, .tilde
  ]

@[simp] theorem TokenKind.mem_all (kind : TokenKind) : kind ∈ all := by
  cases kind <;> decide

@[simp] theorem nextKind_cons (t : Token) (input : List Token) :
    nextKind (t :: input) = t.kind := rfl

/-- The kinds that the next token may have, and those of the token after it. -/
structure Ahead where
  next : List TokenKind
  second : List TokenKind
  deriving DecidableEq

namespace Ahead

def anything : Ahead := ⟨TokenKind.all, TokenKind.all⟩

/-- Of the second token nothing is known. -/
def ofNext (kinds : List TokenKind) : Ahead := ⟨kinds, TokenKind.all⟩

def Holds (a : Ahead) (input : List Token) : Prop :=
  nextKind input ∈ a.next ∧ secondKind input ∈ a.second

/-- What is known once the next token has been read. -/
def shift (a : Ahead) : Ahead := ⟨a.second, TokenKind.all⟩

def keep (a : Ahead) (kinds : List TokenKind) : Ahead :=
  { a with next := kinds.filter (a.next.contains ·) }

def remove (a : Ahead) (kinds : List TokenKind) : Ahead :=
  { a with next := a.next.filter (!kinds.contains ·) }

/-- What is known where a test holds. -/
def yes (a : Ahead) : Lookahead → Ahead
  | .next kinds => a.keep kinds
  | .past kinds => a.remove kinds
  | .pair first second => { a.keep [first] with second := [second] }
  | .beyond kind => { a.remove [.eof] with second := [kind] }
  | .declares _ => a

/-- What is known where a test does not hold. -/
def no (a : Ahead) : Lookahead → Ahead
  | .next kinds => a.remove kinds
  | .past kinds => a.keep kinds
  | _ => a

/-- The phrase, if a token may come at all. -/
def allow {ν τ : Type} (a : Ahead) (p : Phrase ν τ) : Phrase ν τ :=
  if a.next = [] then .fail else p

variable {a : Ahead} {input : List Token} {kinds : List TokenKind} {test : Lookahead}

@[simp] theorem holds_anything (input : List Token) : anything.Holds input := by
  simp [Holds, anything]

theorem holds_ofNext : (ofNext kinds).Holds input ↔ nextKind input ∈ kinds := by
  simp [Holds, ofNext]

theorem Holds.ne_nil (h : a.Holds input) : a.next ≠ [] :=
  List.ne_nil_of_mem h.1

theorem Holds.allow {ν τ : Type} (h : a.Holds input) (p : Phrase ν τ) : a.allow p = p :=
  if_neg h.ne_nil

theorem Holds.shift {t : Token} (h : a.Holds (t :: input)) : a.shift.Holds input :=
  ⟨h.2, TokenKind.mem_all _⟩

theorem Holds.keep (h : a.Holds input) (hk : nextKind input ∈ kinds) : (a.keep kinds).Holds input :=
  ⟨by simp [Ahead.keep, hk, h.1], h.2⟩

theorem Holds.remove (h : a.Holds input) (hk : nextKind input ∉ kinds) :
    (a.remove kinds).Holds input :=
  ⟨by simp [Ahead.remove, hk, h.1], h.2⟩

theorem Holds.yes (h : a.Holds input) (ht : test.holds input = true) :
    (a.yes test).Holds input := by
  cases test with
  | next kinds => exact h.keep (by simpa [Lookahead.holds] using ht)
  | past kinds => exact h.remove (by simpa [Lookahead.holds] using ht)
  | pair first second =>
    obtain ⟨h1, h2⟩ : nextKind input = first ∧ secondKind input = second := by
      simpa [Lookahead.holds] using ht
    exact ⟨(h.keep (by simp [h1])).1, by simp [Ahead.yes, h2]⟩
  | beyond kind =>
    obtain ⟨h1, h2⟩ : nextKind input ≠ .eof ∧ secondKind input = kind := by
      simpa [Lookahead.holds] using ht
    exact ⟨(h.remove (by simpa using h1)).1, by simp [Ahead.yes, h2]⟩
  | declares kind => exact h

theorem Holds.no (h : a.Holds input) (ht : test.holds input = false) :
    (a.no test).Holds input := by
  cases test with
  | next kinds => exact h.remove (by simpa [Lookahead.holds] using ht)
  | past kinds => exact h.keep (by simpa [Lookahead.holds] using ht)
  | pair first second => exact h
  | beyond kind => exact h
  | declares kind => exact h

end Ahead

end PvsIndex
