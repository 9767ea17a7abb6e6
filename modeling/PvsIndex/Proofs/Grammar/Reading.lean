import PvsIndex.Grammar.Parse
import PvsIndex.Proofs.Grammar.Ahead

/-! Reading without a bound: what it means that a rule reads a piece of the text and comes to an
end, with each token accepted and each named rule entered only where the grammar foresees it. -/

namespace PvsIndex

/-- The kinds of the tokens that a named rule may be entered at. -/
def Nonterminal.starts : Nonterminal → List TokenKind
  | text => TokenKind.all
  | type => Grammar.typeStarts
  | expression layers => Grammar.expressionStarts layers

/-- The named rules that rules may enter. -/
def Nonterminal.Known : Nonterminal → Prop
  | text => False
  | type => True
  | expression layers => layers <:+ Grammar.layers

/-- Which declaration begins is asked only at a name. -/
def Lookahead.Proper (input : List Token) : Lookahead → Prop
  | declares _ => nextKind input = .identifier
  | _ => True

namespace Step

/-- One step after another. -/
def join (s t : Step) : Step :=
  ⟨s.trees ++ t.trees, s.errors ++ t.errors, t.cursor⟩

@[simp] theorem stay_trees (c : Cursor) : (stay c).trees = [] := rfl
@[simp] theorem stay_errors (c : Cursor) : (stay c).errors = [] := rfl
@[simp] theorem stay_cursor (c : Cursor) : (stay c).cursor = c := rfl
@[simp] theorem join_trees (s t : Step) : (s.join t).trees = s.trees ++ t.trees := rfl
@[simp] theorem join_errors (s t : Step) : (s.join t).errors = s.errors ++ t.errors := rfl
@[simp] theorem join_cursor (s t : Step) : (s.join t).cursor = t.cursor := rfl
@[simp] theorem wrap_trees (kind : ElementKind) (s : Step) :
    (s.wrap kind).trees = [.node kind s.trees] := rfl
@[simp] theorem wrap_errors (kind : ElementKind) (s : Step) : (s.wrap kind).errors = s.errors := rfl
@[simp] theorem wrap_cursor (kind : ElementKind) (s : Step) : (s.wrap kind).cursor = s.cursor := rfl

end Step

/-- A rule at its beginning, or a chain after some of its links. -/
inductive Task where
  | read (rule : Rule) (c : Cursor)
  | grow (kind : ElementKind) (test : Lookahead) (tail : Rule) (s : Step)

/-- How a task ends. -/
inductive Reads (endOfText : Token) : Task → Step → Prop where
  | empty {c} : Reads endOfText (.read .empty c) (.stay c)
  | take {c} (h : nextKind c.input ≠ .eof) : Reads endOfText (.read .take c) c.take
  | skip {c} : Reads endOfText (.read .skip c) c.skip
  | report {c complaint} :
      Reads endOfText (.read (.report complaint) c) (c.report endOfText complaint)
  | seq {first second c s t} (head : Reads endOfText (.read first c) s)
      (next : Reads endOfText (.read second s.cursor) t) :
      Reads endOfText (.read (.seq first second) c) (s.join t)
  | yes {test yes no c s} (proper : test.Proper c.input) (h : test.holds c.input = true)
      (body : Reads endOfText (.read yes c) s) : Reads endOfText (.read (.branch test yes no) c) s
  | no {test yes no c s} (proper : test.Proper c.input) (h : test.holds c.input = false)
      (body : Reads endOfText (.read no c) s) : Reads endOfText (.read (.branch test yes no) c) s
  | finish {test body c} (h : test.holds c.input = false) :
      Reads endOfText (.read (.loop test body) c) (.stay c)
  | turn {test body c s t} (h : test.holds c.input = true)
      (progress : s.cursor.input.length < c.input.length)
      (once : Reads endOfText (.read body c) s)
      (again : Reads endOfText (.read (.loop test body) s.cursor) t) :
      Reads endOfText (.read (.loop test body) c) (s.join t)
  | node {kind body c s} (inner : Reads endOfText (.read body c) s) :
      Reads endOfText (.read (.node kind body) c) (s.wrap kind)
  | nodeBy {opening test yes no closing c s t} (opened : Reads endOfText (.read opening c) s)
      (closed : Reads endOfText (.read closing s.cursor) t) :
      Reads endOfText (.read (.nodeBy opening test yes no closing) c)
        ((s.join t).wrap (if test.holds s.cursor.input then yes else no))
  | headless {kind head test tail c s} (first : Reads endOfText (.read head c) s)
      (h : s.trees = []) : Reads endOfText (.read (.chain kind head test tail) c) s
  | chain {kind head test tail c s t} (first : Reads endOfText (.read head c) s)
      (h : s.trees ≠ []) (links : Reads endOfText (.grow kind test tail s) t) :
      Reads endOfText (.read (.chain kind head test tail) c) t
  | grown {kind test tail s} (h : test.holds s.cursor.input = false) :
      Reads endOfText (.grow kind test tail s) s
  | link {kind test tail s t u} (h : test.holds s.cursor.input = true)
      (progress : t.cursor.input.length < s.cursor.input.length)
      (once : Reads endOfText (.read tail s.cursor) t)
      (again : Reads endOfText (.grow kind test tail ((s.join t).wrap kind)) u) :
      Reads endOfText (.grow kind test tail s) u
  | call {name c s} (known : name.Known) (h : nextKind c.input ∈ name.starts)
      (body : Reads endOfText (.read name.rule c) s) : Reads endOfText (.read (.call name) c) s

namespace Reads

variable {endOfText : Token} {task : Task} {s t : Step}

theorem unique (h : Reads endOfText task s) (k : Reads endOfText task t) : s = t := by
  induction h generalizing t with
  | empty => cases k; rfl
  | take => cases k; rfl
  | skip => cases k; rfl
  | report => cases k; rfl
  | seq _ _ ih1 ih2 =>
    cases k with
    | seq k1 k2 =>
      obtain rfl := ih1 k1
      rw [ih2 k2]
  | yes _ h _ ih =>
    cases k with
    | yes _ _ k => exact ih k
    | no _ h' => simp [h] at h'
  | no _ h _ ih =>
    cases k with
    | yes _ h' => simp [h] at h'
    | no _ _ k => exact ih k
  | finish h =>
    cases k with
    | finish => rfl
    | turn h' => simp [h] at h'
  | turn h _ _ _ ih1 ih2 =>
    cases k with
    | finish h' => simp [h] at h'
    | turn _ _ k1 k2 =>
      obtain rfl := ih1 k1
      rw [ih2 k2]
  | node _ ih =>
    cases k with
    | node k => rw [ih k]
  | nodeBy _ _ ih1 ih2 =>
    cases k with
    | nodeBy k1 k2 =>
      obtain rfl := ih1 k1
      rw [ih2 k2]
  | headless _ h ih =>
    cases k with
    | headless k _ => exact ih k
    | chain k h' => exact absurd (ih k ▸ h) h'
  | chain _ h _ ih1 ih2 =>
    cases k with
    | headless k h' => exact absurd (ih1 k ▸ h') h
    | chain k1 _ k2 =>
      obtain rfl := ih1 k1
      exact ih2 k2
  | grown h =>
    cases k with
    | grown => rfl
    | link h' => simp [h] at h'
  | link h _ _ _ ih1 ih2 =>
    cases k with
    | grown h' => simp [h] at h'
    | link _ _ k1 k2 =>
      obtain rfl := ih1 k1
      exact ih2 k2
  | call _ _ _ ih =>
    cases k with
    | call _ _ k => exact ih k

end Reads

end PvsIndex
