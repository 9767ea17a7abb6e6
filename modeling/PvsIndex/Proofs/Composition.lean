import PvsIndex.Proofs.Declaration.Shift
import PvsIndex.Proofs.Grammar.Extension
import PvsIndex.Proofs.Grammar.Renaming

/-! Two texts with a line feed between them: what is wrong with the second one, what its tree is and
what it declares does not depend on the first one, but for the places. -/

namespace PvsIndex

namespace Parse

variable {a b : String}

/-- After a text without errors, the next one is parsed as if it stood alone. -/
theorem ofText_append (ha : (ofText a).errors = []) (hb : (Tokens.ofText b).significant ≠ []) :
    let move := Token.move (a.toList.count '\n' + 1) (a.toList.length + 1)
    (ofText (a ++ "\n" ++ b)).errors = (ofText b).errors.map (SyntaxError.map move) ∧
      (ofText (a ++ "\n" ++ b)).root = ⟨.root, (ofText a).root.children.dropLast ++
        Tree.mapOf move (ofText b).root.children⟩ := by
  intro move
  obtain ⟨trees, hroot, hp⟩ := exists_parses ha
  obtain ⟨s, herrors, hroot', hr⟩ := reads b
  obtain ⟨u, huerrors, huroot, hu⟩ := reads (a ++ "\n" ++ b)
  rw [Grammar.theories_eq] at hp hr
  cases hp with
  | yes _ _ hp => cases hp
  | no _ _ hp =>
    cases hr with
    | yes _ heof =>
      have heof : nextKind (Tokens.ofText b).significant = .eof := by
        simpa [Lookahead.holds] using heof
      exact absurd ((nextKind_eq_eof fun _ => kind_ne_eof_of_mem_significant).mp heof) hb
    | no _ _ hr =>
      obtain ⟨hlast, hread⟩ := hp.theoryList_append (hr.map (f := move) fun _ => rfl)
      have hstring : ∀ t ∈ (Tokens.ofText a).significant.getLast?, t.kind ≠ .string := by
        intro t ht
        rw [hlast t ht]
        decide
      obtain ⟨htokens, hend⟩ := Tokens.ofText_append a b hstring
      rw [Tokens.significant_move] at htokens
      have hne : (Tokens.ofText (a ++ "\n" ++ b)).significant ≠ [] := by
        rw [htokens]
        exact List.append_ne_nil_of_right_ne_nil _ (mt List.map_eq_nil_iff.mp hb)
      have hne := mt (nextKind_eq_eof fun _ => kind_ne_eof_of_mem_significant).mp hne
      rw [hend, htokens] at hu
      rw [htokens] at hne
      obtain rfl := hu.unique (.no trivial (by simpa [Lookahead.holds] using hne) hread)
      refine ⟨by rw [huerrors, herrors]; rfl, ?_⟩
      rw [huroot, hroot, hroot', hend, List.dropLast_concat, Tree.mapOf_append, Step.join_trees,
        List.append_assoc]
      rfl

end Parse

namespace Analysis

variable {a b : String}

/-- Texts compose: after a text without errors and a line feed, another one has the errors and the
theories that it has alone, some lines further down. If it has no errors, its declarations are
recorded after those of the first text, a name means what the second text says of it, or else what
the first one says, and the dumps begin with those of the first one. -/
theorem ofText_composes (ha : (Parse.ofText a).errors = [])
    (hb : (Tokens.ofText b).significant ≠ []) :
    let c := a ++ "\n" ++ b
    let lines := a.toList.count '\n' + 1
    let move := Token.move lines (a.toList.length + 1)
    (Parse.ofText c).errors = (Parse.ofText b).errors.map (SyntaxError.map move) ∧
      (Parse.ofText c).root.children = (Parse.ofText a).root.children.dropLast ++
        Tree.mapOf move (Parse.ofText b).root.children ∧
      ((Parse.ofText b).errors = [] → ∀ dumping, ∃ x y z, ofText a dumping = .ok x ∧
        ofText b dumping = .ok y ∧ ofText c dumping = .ok z ∧
        z.table.history.toList =
          x.table.history.toList ++ y.table.history.toList.map (Entry.shift lines) ∧
        (∀ category name, z.table.get? category name =
          ((y.table.get? category name).map (Declaration.shift lines)).or
            (x.table.get? category name)) ∧
        x.dumps <+: z.dumps) := by
  intro c lines move
  obtain ⟨herrors, hroot⟩ := Parse.ofText_append ha hb
  refine ⟨herrors, congrArg Element.children hroot, fun hb' dumping => ?_⟩
  have hc : (Parse.ofText c).errors = [] := by
    rw [herrors, hb', List.map_nil]
  obtain ⟨theories, hl⟩ := Parse.exists_lawful ha
  obtain ⟨theories', hl'⟩ := Parse.exists_lawful hb'
  obtain ⟨all, hl''⟩ := Parse.exists_lawful hc
  obtain rfl : all = theories ++ Tree.mapOf move theories' := by
    have hchildren := congrArg Element.children (hl''.root.symm.trans hroot)
    rw [hl.root, hl'.root, List.dropLast_concat, Tree.mapOf_append, ← List.append_assoc]
      at hchildren
    exact (List.append_inj' hchildren rfl).1
  have hkind : (Parse.ofText c).root.kind = .root := by rw [hl''.root]
  have hsource : c.toList = a.toList ++ '\n' :: b.toList := by simp [c]
  have hsource' : c.toList = (a.toList ++ ['\n']) ++ b.toList ++ [] := by simp [c]
  have hmove : move = Token.move lines (a.toList ++ ['\n']).length := by simp [move]
  have hrecording := hl''.recording_eq_visitsOf dumping
  rw [Tree.visitsOf_append, List.foldl_append, hsource, hl.foldl_play_visitsOf hkind] at hrecording
  refine ⟨_, _, _, ofText_of_recording ha (hl.recording_eq_visitsOf dumping),
    ofText_of_recording hb' (hl'.recording_eq_visitsOf dumping),
    ofText_of_recording hc hrecording, ?_⟩
  have hentries := hl'.flatMap_entries_visitsOf hkind lines (a.toList ++ ['\n']) []
  rw [← hmove, ← hsource', hsource] at hentries
  simp only [table, dumps, Recording.table_foldl_play, hentries]
  refine ⟨?_, fun category name => ?_, Recording.dumps_foldl_play _ _ _ _⟩
  · simp only [Table.history_insertAll, List.nil_append]
  · exact Table.get?_insertAll_shift _ _ _ _ _

/-- Two theories declare the same type, one on each line: the name means the second one. -/
theorem ofText_composes_types :
    let a := "s: THEORY BEGIN x: TYPE END s"
    let b := "t: THEORY BEGIN x: TYPE END t"
    (Parse.ofText a).errors = [] ∧ (Tokens.ofText b).significant ≠ [] ∧
      (Parse.ofText b).errors = [] ∧ ∃ z, ofText (a ++ "\n" ++ b) false = .ok z ∧
        (z.table.get? .type "x").map (·.position) = some ⟨2, 16⟩ := by
  intro a b
  have ha : (Parse.ofText a).errors = [] := by decide +kernel
  have hb : (Tokens.ofText b).significant ≠ [] := by decide +kernel
  have hb' : (Parse.ofText b).errors = [] := by decide +kernel
  have hline : (ofText b false).toOption.map
      (fun y => (y.table.get? .type "x").map (·.position)) = some (some ⟨1, 16⟩) := by
    decide +kernel
  have hlines : a.toList.count '\n' + 1 = 1 := by decide +kernel
  clear_value a b
  obtain ⟨-, -, h⟩ := ofText_composes ha hb
  obtain ⟨x, y, z, -, hy, hz, -, hget, -⟩ := h hb' false
  refine ⟨ha, hb, hb', z, hz, ?_⟩
  rw [hy] at hline
  obtain ⟨d, hd, hposition⟩ := Option.map_eq_some_iff.mp (Option.some.inj hline)
  rw [hget, hd, hlines, Option.map_some, Option.some_or, Option.map_some, Declaration.shift,
    hposition]
  rfl

end Analysis

end PvsIndex
