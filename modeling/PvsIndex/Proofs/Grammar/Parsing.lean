import PvsIndex.Proofs.Grammar.Reading

/-! Reading without errors, told apart from the rest: the tokens read, the trees they yield and the
tokens left. -/

namespace PvsIndex

namespace Tree

@[simp] theorem leavesOf_append (ts us : List Tree) :
    leavesOf (ts ++ us) = leavesOf ts ++ leavesOf us := by
  simp [leavesOf_eq_flatMap]

@[simp] theorem leavesOf_node (kind : ElementKind) (trees : List Tree) :
    leavesOf [.node kind trees] = leavesOf trees := by
  simp [leavesOf, leaves]

end Tree

/-- A rule, or a chain that has come to some trees. -/
inductive Piece where
  | rule (rule : Rule)
  | chain (kind : ElementKind) (test : Lookahead) (tail : Rule) (trees : List Tree)

/-- The piece reads the input up to the rest and yields the trees. -/
inductive Parses : Piece → List Token → List Tree → List Token → Prop where
  | empty {input} : Parses (.rule .empty) input [] input
  | take {t input} (h : t.kind ≠ .eof) : Parses (.rule .take) (t :: input) [.leaf t] input
  | skip {t input} : Parses (.rule .skip) (t :: input) [.leaf t] input
  | skipNone : Parses (.rule .skip) [] [] []
  | seq {first second input mid rest ts us} (head : Parses (.rule first) input ts mid)
      (next : Parses (.rule second) mid us rest) :
      Parses (.rule (.seq first second)) input (ts ++ us) rest
  | yes {test yes no input ts rest} (proper : test.Proper input) (h : test.holds input = true)
      (body : Parses (.rule yes) input ts rest) : Parses (.rule (.branch test yes no)) input ts rest
  | no {test yes no input ts rest} (proper : test.Proper input) (h : test.holds input = false)
      (body : Parses (.rule no) input ts rest) : Parses (.rule (.branch test yes no)) input ts rest
  | finish {test body input} (h : test.holds input = false) :
      Parses (.rule (.loop test body)) input [] input
  | turn {test body input mid rest ts us} (h : test.holds input = true)
      (progress : mid.length < input.length) (once : Parses (.rule body) input ts mid)
      (again : Parses (.rule (.loop test body)) mid us rest) :
      Parses (.rule (.loop test body)) input (ts ++ us) rest
  | node {kind body input ts rest} (inner : Parses (.rule body) input ts rest) :
      Parses (.rule (.node kind body)) input [.node kind ts] rest
  | nodeBy {opening test yes no closing input mid rest ts us}
      (opened : Parses (.rule opening) input ts mid) (closed : Parses (.rule closing) mid us rest) :
      Parses (.rule (.nodeBy opening test yes no closing)) input
        [.node (if test.holds mid then yes else no) (ts ++ us)] rest
  | headless {kind head test tail input rest} (first : Parses (.rule head) input [] rest) :
      Parses (.rule (.chain kind head test tail)) input [] rest
  | chain {kind head test tail input mid rest ts us} (first : Parses (.rule head) input ts mid)
      (h : ts ≠ []) (links : Parses (.chain kind test tail ts) mid us rest) :
      Parses (.rule (.chain kind head test tail)) input us rest
  | grown {kind test tail trees input} (h : test.holds input = false) :
      Parses (.chain kind test tail trees) input trees input
  | link {kind test tail trees input mid rest ts us} (h : test.holds input = true)
      (progress : mid.length < input.length) (once : Parses (.rule tail) input ts mid)
      (again : Parses (.chain kind test tail [.node kind (trees ++ ts)]) mid us rest) :
      Parses (.chain kind test tail trees) input us rest
  | call {name input ts rest} (known : name.Known) (h : nextKind input ∈ name.starts)
      (body : Parses (.rule name.rule) input ts rest) : Parses (.rule (.call name)) input ts rest

namespace Task

/-- Nothing is wrong so far. -/
def Quiet : Task → Prop
  | read _ c => c.recovering = false
  | grow _ _ _ s => s.cursor.recovering = false

def piece : Task → Piece
  | read r _ => .rule r
  | grow kind test tail s => .chain kind test tail s.trees

def input : Task → List Token
  | read _ c => c.input
  | grow _ _ _ s => s.cursor.input

def trees : Task → List Tree
  | read _ _ => []
  | grow _ _ _ s => s.trees

def errors : Task → List SyntaxError
  | read _ _ => []
  | grow _ _ _ s => s.errors

end Task

namespace Reads

variable {endOfText : Token} {task : Task} {s : Step}

theorem errors_prefix (h : Reads endOfText task s) : task.errors <+: s.errors := by
  induction h with
  | grown => exact List.prefix_rfl
  | link _ _ _ _ _ ih2 => exact (List.prefix_append _ _).trans ih2
  | _ => exact List.nil_prefix

/-- Every token that is read becomes a leaf, in order. -/
theorem leaves (h : Reads endOfText task s) :
    Tree.leavesOf s.trees ++ s.cursor.input = Tree.leavesOf task.trees ++ task.input := by
  induction h with
  | empty => rfl
  | @take c h =>
    obtain ⟨input, recovering⟩ := c
    cases input with
    | nil => rfl
    | cons t input => rfl
  | @skip c =>
    obtain ⟨input, recovering⟩ := c
    cases input with
    | nil => rfl
    | cons t input => rfl
  | @report c complaint =>
    obtain ⟨input, recovering⟩ := c
    cases recovering <;> rfl
  | seq _ _ ih1 ih2 =>
    rw [Step.join_trees, Tree.leavesOf_append, Step.join_cursor, List.append_assoc, ih2]
    exact ih1
  | yes _ _ _ ih => exact ih
  | no _ _ _ ih => exact ih
  | finish => rfl
  | turn _ _ _ _ ih1 ih2 =>
    rw [Step.join_trees, Tree.leavesOf_append, Step.join_cursor, List.append_assoc, ih2]
    exact ih1
  | node _ ih =>
    rw [Step.wrap_trees, Tree.leavesOf_node]
    exact ih
  | nodeBy _ _ ih1 ih2 =>
    rw [Step.wrap_trees, Tree.leavesOf_node, Step.join_trees, Tree.leavesOf_append,
      Step.wrap_cursor, Step.join_cursor, List.append_assoc, ih2]
    exact ih1
  | headless _ _ ih => exact ih
  | chain _ _ _ ih1 ih2 => exact ih2.trans ih1
  | grown => rfl
  | @link kind _ _ s t _ _ _ _ _ ih1 ih2 =>
    have h2 : Tree.leavesOf [.node kind (s.trees ++ t.trees)] ++ t.cursor.input =
        Tree.leavesOf s.trees ++ s.cursor.input := by
      rw [Tree.leavesOf_node, Tree.leavesOf_append, List.append_assoc]
      exact congrArg (Tree.leavesOf s.trees ++ ·) ih1
    exact ih2.trans h2
  | call _ _ _ ih => exact ih

theorem input_suffix {r : Rule} {c : Cursor} (h : Reads endOfText (.read r c) s) :
    s.cursor.input <:+ c.input :=
  ⟨_, h.leaves⟩

/-- What is read without an error parses. -/
theorem parses (h : Reads endOfText task s) (hq : task.Quiet) (hs : s.errors = []) :
    Parses task.piece task.input s.trees s.cursor.input ∧ s.cursor.recovering = false := by
  induction h with
  | empty => exact ⟨.empty, hq⟩
  | @take c h =>
    obtain ⟨input, recovering⟩ := c
    cases input with
    | nil => exact absurd rfl h
    | cons t input => exact ⟨.take h, rfl⟩
  | @skip c =>
    obtain ⟨input, recovering⟩ := c
    cases input with
    | nil => exact ⟨.skipNone, hq⟩
    | cons t input => exact ⟨.skip, hq⟩
  | @report c complaint =>
    have hr : c.recovering = false := hq
    simp [Cursor.report, hr] at hs
  | seq _ _ ih1 ih2 =>
    obtain ⟨hs1, hs2⟩ := List.append_eq_nil_iff.mp hs
    obtain ⟨h1, hq1⟩ := ih1 hq hs1
    obtain ⟨h2, hq2⟩ := ih2 hq1 hs2
    exact ⟨.seq h1 h2, hq2⟩
  | yes hp h _ ih =>
    obtain ⟨h1, hq1⟩ := ih hq hs
    exact ⟨.yes hp h h1, hq1⟩
  | no hp h _ ih =>
    obtain ⟨h1, hq1⟩ := ih hq hs
    exact ⟨.no hp h h1, hq1⟩
  | finish h => exact ⟨.finish h, hq⟩
  | turn h hl _ _ ih1 ih2 =>
    obtain ⟨hs1, hs2⟩ := List.append_eq_nil_iff.mp hs
    obtain ⟨h1, hq1⟩ := ih1 hq hs1
    obtain ⟨h2, hq2⟩ := ih2 hq1 hs2
    exact ⟨.turn h hl h1 h2, hq2⟩
  | node _ ih =>
    obtain ⟨h1, hq1⟩ := ih hq hs
    exact ⟨.node h1, hq1⟩
  | nodeBy _ _ ih1 ih2 =>
    obtain ⟨hs1, hs2⟩ := List.append_eq_nil_iff.mp hs
    obtain ⟨h1, hq1⟩ := ih1 hq hs1
    obtain ⟨h2, hq2⟩ := ih2 hq1 hs2
    exact ⟨.nodeBy h1 h2, hq2⟩
  | headless _ h ih =>
    obtain ⟨h1, hq1⟩ := ih hq hs
    rw [h] at h1 ⊢
    exact ⟨.headless h1, hq1⟩
  | chain _ h links ih1 ih2 =>
    obtain ⟨h1, hq1⟩ := ih1 hq (List.prefix_nil.mp (hs ▸ links.errors_prefix))
    obtain ⟨h2, hq2⟩ := ih2 hq1 hs
    exact ⟨.chain h1 h h2, hq2⟩
  | grown h => exact ⟨.grown h, hq⟩
  | link h hl _ again ih1 ih2 =>
    have hs12 := List.prefix_nil.mp (hs ▸ again.errors_prefix)
    obtain ⟨-, hs1⟩ := List.append_eq_nil_iff.mp hs12
    obtain ⟨h1, hq1⟩ := ih1 hq hs1
    obtain ⟨h2, hq2⟩ := ih2 hq1 hs
    exact ⟨.link h hl h1 h2, hq2⟩
  | call hk h _ ih =>
    obtain ⟨h1, hq1⟩ := ih hq hs
    exact ⟨.call hk h h1, hq1⟩

end Reads

namespace Piece

/-- The task of a piece at some input, while nothing is wrong. -/
def task (input : List Token) : Piece → Task
  | rule r => .read r ⟨input, false⟩
  | chain kind test tail trees => .grow kind test tail ⟨trees, [], ⟨input, false⟩⟩

end Piece

/-- What parses is read without an error. -/
theorem Parses.reads (endOfText : Token) {piece : Piece} {input rest : List Token}
    {trees : List Tree} (h : Parses piece input trees rest) :
    Reads endOfText (piece.task input) ⟨trees, [], ⟨rest, false⟩⟩ := by
  induction h with
  | empty => exact .empty
  | take h => exact .take h
  | skip => exact .skip
  | skipNone => exact .skip
  | seq _ _ ih1 ih2 => exact .seq ih1 ih2
  | yes hp h _ ih => exact .yes hp h ih
  | no hp h _ ih => exact .no hp h ih
  | finish h => exact .finish h
  | turn h hl _ _ ih1 ih2 => exact .turn h hl ih1 ih2
  | node _ ih => exact .node ih
  | nodeBy _ _ ih1 ih2 => exact .nodeBy ih1 ih2
  | headless _ ih => exact .headless ih rfl
  | chain _ h _ ih1 ih2 => exact .chain ih1 h ih2
  | grown h => exact .grown h
  | link h hl _ _ ih1 ih2 => exact .link h hl ih1 ih2
  | call hk h _ ih => exact .call hk h ih

theorem Parses.leaves {r : Rule} {input rest : List Token} {trees : List Tree}
    (h : Parses (.rule r) input trees rest) : Tree.leavesOf trees ++ rest = input :=
  (h.reads default).leaves

theorem Parses.ne_nil {r : Rule} {ts rest : List Token} {trees : List Tree}
    (h : Parses (.rule r) (ts ++ rest) trees rest) (ht : ts ≠ []) : trees ≠ [] := by
  rintro rfl
  exact ht (List.append_left_eq_self.mp h.leaves.symm)

end PvsIndex
