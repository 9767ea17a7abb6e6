import Mathlib.Data.List.Basic
import PvsIndex.Diagnostic.Collector
import PvsIndex.Proofs.Except
import PvsIndex.Proofs.Source.Positions

/-! Handles and collectors share what was reported. A history of actions says which collector each
handle was obtained from; a collector holds the reports through its own handles, also where handles
of finished collectors are still written to. -/

namespace PvsIndex

namespace Report

def tokenLength (r : Report) : Nat :=
  match r.token with
  | none => 0
  | some t => t.length

/-- The position and the token are far from the limits of words. -/
def Moderate (r : Report) : Prop :=
  r.position.line < 1 <<< 62 ∧ r.position.character + r.tokenLength < 1 <<< 62

instance (r : Report) : Decidable r.Moderate :=
  inferInstanceAs (Decidable (_ ∧ _))

theorem extent_bounds (r : Report) : -1 ≤ r.extent ∧ r.extent ≤ r.tokenLength := by
  unfold extent tokenLength
  cases r.token with
  | none => decide
  | some t =>
    dsimp only [Token.stopIndex]
    omega

/-- The diagnostic ends behind the token, or one character behind its start if there is none. -/
structure Covers (r : Report) (d : Diagnostic) : Prop where
  start : d.range.start = r.position
  line : d.range.stop.line = r.position.line
  character : (d.range.stop.character : Int) = r.position.character + 1 + r.extent
  ordered : d.range.start ≤ d.range.stop
  message : d.message = r.message
  severity : d.severity = .error

theorem covers_diagnostic (r : Report) : r.Covers r.diagnostic := by
  have hstop : (r.stopCharacter.toNat : Int) = r.position.character + 1 + r.extent := by
    have hlower := r.extent_bounds.1
    rw [Int.toNat_of_nonneg (by unfold stopCharacter; omega), stopCharacter]
  refine ⟨rfl, rfl, hstop, ?_, rfl, rfl⟩
  have hlower := r.extent_bounds.1
  exact Or.inr ⟨rfl, by dsimp only [diagnostic]; omega⟩

theorem checkedDiagnostic_of_moderate {r : Report} (h : r.Moderate) :
    r.checkedDiagnostic = .ok r.diagnostic := by
  obtain ⟨hlower, hupper⟩ := r.extent_bounds
  obtain ⟨-, hcolumn⟩ := h
  have hlimit : (Word.limit : Int) = 4 * (1 <<< 62 : Nat) := rfl
  have hsigned : (Word.signedLimit : Int) = 2 * (1 <<< 62 : Nat) := rfl
  have hbmod : Int.bmod r.position.character Word.limit = r.position.character :=
    Int.bmod_eq_of_le (by omega) (by omega)
  rw [checkedDiagnostic, hbmod]
  dsimp only
  rw [if_pos (by omega), Int.emod_eq_of_lt (by omega) (by omega)]
  rfl

end Report

namespace Collector

/-- What is done with the collector at work and with the handles. -/
inductive Action where
  | listen
  | copy (handle : Nat)
  | report (handle : Nat) (r : Report)
  | read
  | finish

/-- What is reported is far from the limits of words. -/
def Action.Moderate : Action → Prop
  | report _ r => r.Moderate
  | _ => True

instance : (action : Action) → Decidable action.Moderate
  | .report _ r => inferInstanceAs (Decidable r.Moderate)
  | .listen | .copy _ | .read | .finish => inferInstanceAs (Decidable True)

/-- The collector after an action, and what the action shows. -/
def perform (c : Collector) : Action → Except Fault (List Diagnostic × Collector)
  | .listen => .ok ([], c.newHandle)
  | .copy handle => .ok ([], c.copyHandle handle)
  | .report handle r => return ([], ← c.report handle r)
  | .read => .ok (c.diagnostics, c)
  | .finish => .ok c.finish

/-- The collector after a history. The latest action stands first. -/
def after : List Action → Except Fault Collector
  | [] => .ok {}
  | action :: history => do return (← (← after history).perform action).2

def finishes : List Action → Nat
  | [] => 0
  | .finish :: history => finishes history + 1
  | _ :: history => finishes history

def made : List Action → Nat
  | [] => 1
  | .listen :: history => made history + 1
  | .copy handle :: history => if handle < made history then made history + 1 else made history
  | _ :: history => made history

/-- The collector that a handle was obtained from, directly or by copying: the number of collectors
that were finished before it. -/
def origin? : List Action → Nat → Option Nat
  | [], handle => if handle = 0 then some 0 else none
  | .listen :: history, handle =>
    if handle = made history then some (finishes history) else origin? history handle
  | .copy original :: history, handle =>
    if handle = made history then origin? history original else origin? history handle
  | _ :: history, handle => origin? history handle

/-- The reports through handles of a collector, in order. -/
def reportsTo (collector : Nat) : List Action → List Diagnostic
  | [] => []
  | .report handle r :: history =>
    if origin? history handle = some collector then reportsTo collector history ++ [r.diagnostic]
    else reportsTo collector history
  | _ :: history => reportsTo collector history

end Collector

/-- Memory as it is shared: a sequence for each collector that was made. The collector at work and
each handle refer to one of them. -/
structure Memory where
  sequences : List (List Diagnostic) := [[]]
  handles : List Nat := [0]
  atWork : Nat := 0

namespace Memory

open Collector

def diagnostics (m : Memory) : List Diagnostic :=
  m.sequences[m.atWork]?.getD []

/-- A copy refers to the same sequence, and a report goes to the sequence that is referred to, also
if its collector is finished. Finishing takes all out of the sequence. -/
def perform (m : Memory) : Action → Except Fault (List Diagnostic × Memory)
  | .listen => .ok ([], { m with handles := m.handles ++ [m.atWork] })
  | .copy handle => match m.handles[handle]? with
    | none => .ok ([], m)
    | some place => .ok ([], { m with handles := m.handles ++ [place] })
  | .report handle r => do
    let d ← r.checkedDiagnostic
    match m.handles[handle]? with
    | none => return ([], m)
    | some place => return ([], { m with sequences := m.sequences.modify place (· ++ [d]) })
  | .read => .ok (m.diagnostics, m)
  | .finish => .ok (m.diagnostics,
      { m with sequences := m.sequences.set m.atWork [] ++ [[]], atWork := m.sequences.length })

def after : List Action → Except Fault Memory
  | [] => .ok {}
  | action :: history => do return (← (← after history).perform action).2

end Memory

namespace Collector

variable {c : Collector} {m : Memory} {action : Action} {history : List Action}

theorem gather_of_eq {handle : Nat} {d : Diagnostic} (h : c.handles[handle]? = some c.finished) :
    c.gather handle d = { c with gathered := c.gathered.push d } :=
  if_pos h

theorem gather_of_ne {handle : Nat} {d : Diagnostic} (h : c.handles[handle]? ≠ some c.finished) :
    c.gather handle d = c :=
  if_neg h

/-- The collector keeps what its own sequence in memory holds. -/
structure Views (c : Collector) (m : Memory) : Prop where
  atWork : m.atWork = c.finished
  handles : m.handles = c.handles.toList
  last : m.sequences.length = c.finished + 1
  held : m.sequences[c.finished]? = some c.diagnostics

namespace Views

theorem diagnostics (h : c.Views m) : m.diagnostics = c.diagnostics := by
  rw [Memory.diagnostics, h.atWork, h.held]
  rfl

theorem place? (h : c.Views m) (handle : Nat) : m.handles[handle]? = c.handles[handle]? := by
  rw [h.handles, Array.getElem?_toList]

/-- An action shows the same in both, and both go on alike or both fail. -/
theorem perform (h : c.Views m) (action : Action) :
    (∃ fault, c.perform action = .error fault ∧ m.perform action = .error fault) ∨
      ∃ shown c' m', c.perform action = .ok (shown, c') ∧ m.perform action = .ok (shown, m') ∧
        c'.Views m' := by
  have hlast : m.sequences.length = c.finished + 1 := h.last
  cases action with
  | listen =>
    exact Or.inr ⟨_, _, _, rfl, rfl, h.atWork, by simp [newHandle, h.handles, h.atWork], h.last,
      h.held⟩
  | copy handle =>
    have hplace := h.place? handle
    rw [Memory.perform, hplace, Collector.perform, copyHandle]
    cases c.handles[handle]? with
    | none => exact Or.inr ⟨_, _, _, rfl, rfl, h⟩
    | some place =>
      exact Or.inr ⟨_, _, _, rfl, rfl, h.atWork, by simp [h.handles], h.last, h.held⟩
  | report handle r =>
    have hplace := h.place? handle
    rw [Memory.perform, hplace, Collector.perform, Collector.report]
    cases r.checkedDiagnostic with
    | error fault => exact Or.inl ⟨fault, rfl, rfl⟩
    | ok d =>
      cases hc : c.handles[handle]? with
      | none => exact Or.inr ⟨_, _, _, rfl, rfl, by rwa [gather_of_ne (by simp [hc])]⟩
      | some place =>
        refine Or.inr ⟨_, _, _, rfl, rfl, ?_⟩
        by_cases hp : place = c.finished
        · subst hp
          rw [gather_of_eq hc]
          refine ⟨h.atWork, h.handles, by simpa using h.last, ?_⟩
          dsimp only
          rw [List.getElem?_modify_eq, h.held]
          simp [Collector.diagnostics]
        · rw [gather_of_ne (by simpa [hc] using hp)]
          refine ⟨h.atWork, h.handles, by simpa using h.last, ?_⟩
          dsimp only
          rw [List.getElem?_modify_ne _ _ hp, h.held]
  | read => exact Or.inr ⟨_, _, _, rfl, by rw [Memory.perform, h.diagnostics], h⟩
  | finish =>
    refine Or.inr ⟨_, _, _, rfl, by rw [Memory.perform, h.diagnostics], ?_⟩
    refine ⟨h.last, h.handles, by simp [hlast], ?_⟩
    simp [Collector.diagnostics, hlast]

end Views

/-- After a history, the collector and memory agree, or both have failed. -/
theorem views_after (history : List Action) :
    (∃ fault, after history = .error fault ∧ Memory.after history = .error fault) ∨
      ∃ c m, after history = .ok c ∧ Memory.after history = .ok m ∧ c.Views m := by
  induction history with
  | nil => exact Or.inr ⟨_, _, rfl, rfl, rfl, rfl, rfl, rfl⟩
  | cons action history ih =>
    rw [after, Memory.after]
    obtain ⟨fault, hc, hm⟩ | ⟨c, m, hc, hm, hviews⟩ := ih
    · rw [hc, hm]
      exact Or.inl ⟨fault, rfl, rfl⟩
    · rw [hc, hm]
      obtain ⟨fault, hc', hm'⟩ | ⟨shown, c', m', hc', hm', hviews'⟩ := hviews.perform action
      · refine Or.inl ⟨fault, ?_, ?_⟩
        · exact congrArg (·.map Prod.snd) hc'
        · exact congrArg (·.map Prod.snd) hm'
      · refine Or.inr ⟨c', m', ?_, ?_, hviews'⟩
        · exact congrArg (·.map Prod.snd) hc'
        · exact congrArg (·.map Prod.snd) hm'

theorem origin?_le {handle collector : Nat} (h : origin? history handle = some collector) :
    collector ≤ finishes history := by
  induction history generalizing handle with
  | nil =>
    rw [origin?] at h
    split_ifs at h
    exact Nat.le_of_eq (Option.some.inj h).symm
  | cons action history ih =>
    cases action with
    | listen =>
      rw [origin?] at h
      split_ifs at h
      · exact Nat.le_of_eq (Option.some.inj h).symm
      · exact ih h
    | copy original =>
      rw [origin?] at h
      split_ifs at h
      · exact ih h
      · exact ih h
    | report handle r => exact ih h
    | read => exact ih h
    | finish => exact Nat.le_succ_of_le (ih h)

theorem reportsTo_of_lt {collector : Nat} (h : finishes history < collector) :
    reportsTo collector history = [] := by
  induction history with
  | nil => rfl
  | cons action history ih =>
    cases action with
    | report handle r =>
      have hne : origin? history handle ≠ some collector := fun he =>
        Nat.not_lt_of_le (origin?_le he) h
      rw [reportsTo, if_neg hne]
      exact ih h
    | finish => exact ih (Nat.lt_of_succ_lt h)
    | _ => exact ih h

/-- The collector holds what was reported to it, and each handle serves the one that it was obtained
from. -/
structure Holds (c : Collector) (history : List Action) : Prop where
  finished : c.finished = finishes history
  made : c.handles.size = made history
  handles : ∀ handle, c.handles[handle]? = origin? history handle
  diagnostics : c.diagnostics = reportsTo (finishes history) history

theorem Holds.perform (h : c.Holds history) (hmoderate : action.Moderate) :
    ∃ shown c', c.perform action = .ok (shown, c') ∧ c'.Holds (action :: history) := by
  cases action with
  | listen =>
    refine ⟨_, _, rfl, h.finished, ?_, fun handle => ?_, h.diagnostics⟩
    · simp [newHandle, h.made, Collector.made]
    · rw [newHandle, origin?, Array.getElem?_push, h.made, h.handles, h.finished]
  | copy original =>
    have horiginal := h.handles original
    rw [Collector.perform, copyHandle]
    cases hc : c.handles[original]? with
    | none =>
      have hle := Array.getElem?_eq_none_iff.mp hc
      rw [h.made] at hle
      refine ⟨_, _, rfl, h.finished, ?_, fun handle => ?_, h.diagnostics⟩
      · rw [Collector.made, if_neg (Nat.not_lt_of_le hle), h.made]
      · rw [origin?, ← horiginal, hc, h.handles]
        split_ifs with hm
        · rw [hm, ← h.handles, ← h.made, Array.getElem?_size]
        · rfl
    | some place =>
      have hlt := (Array.getElem?_eq_some_iff.mp hc).1
      rw [h.made] at hlt
      refine ⟨_, _, rfl, h.finished, ?_, fun handle => ?_, h.diagnostics⟩
      · rw [Collector.made, if_pos hlt, ← h.made, Array.size_push]
      · dsimp only
        rw [origin?, Array.getElem?_push, h.made, h.handles, ← horiginal, hc]
  | report handle r =>
    have hreport : c.report handle r = .ok (c.gather handle r.diagnostic) := by
      rw [Collector.report, Report.checkedDiagnostic_of_moderate hmoderate]
      rfl
    have hserves := h.handles handle
    refine ⟨[], c.gather handle r.diagnostic, ?_, ?_⟩
    · rw [Collector.perform, hreport]
      rfl
    · have hfinishes : finishes (.report handle r :: history) = finishes history := rfl
      by_cases hc : c.handles[handle]? = some c.finished
      · rw [gather_of_eq hc]
        refine ⟨h.finished, h.made, h.handles, ?_⟩
        rw [hserves, h.finished] at hc
        rw [hfinishes, reportsTo, if_pos hc, ← h.diagnostics]
        simp [Collector.diagnostics]
      · rw [gather_of_ne hc]
        refine ⟨h.finished, h.made, h.handles, ?_⟩
        rw [hserves, h.finished] at hc
        rw [hfinishes, reportsTo, if_neg hc, ← h.diagnostics]
  | read => exact ⟨_, _, rfl, h.finished, h.made, h.handles, h.diagnostics⟩
  | finish =>
    refine ⟨_, _, rfl, congrArg (· + 1) h.finished, h.made, h.handles, ?_⟩
    exact (reportsTo_of_lt (Nat.lt_succ_self (finishes history))).symm

theorem holds_after (h : ∀ action ∈ history, action.Moderate) :
    ∃ c, after history = .ok c ∧ c.Holds history := by
  induction history with
  | nil =>
    refine ⟨{}, rfl, rfl, rfl, fun handle => ?_, rfl⟩
    cases handle <;> rfl
  | cons action history ih =>
    obtain ⟨hmoderate, hrest⟩ := List.forall_mem_cons.mp h
    obtain ⟨c, hc, hholds⟩ := ih hrest
    obtain ⟨shown, c', hc', hholds'⟩ := hholds.perform hmoderate
    refine ⟨c', ?_, hholds'⟩
    rw [after, hc]
    exact congrArg (·.map Prod.snd) hc'

/-- A collector that was not finished shows the reports through its own handles, and so does shared
memory. A report through a handle of another one is shown nowhere. -/
theorem gathers_own_reports (history : List Action) (h : ∀ action ∈ history, action.Moderate) :
    let own := reportsTo (finishes history) history
    ∃ c m, after history = .ok c ∧ Memory.after history = .ok m ∧
      c.perform .read = .ok (own, c) ∧ m.perform .read = .ok (own, m) ∧
      (∃ c', c.perform .finish = .ok (own, c') ∧ c'.diagnostics = []) ∧
      (∃ m', m.perform .finish = .ok (own, m') ∧ m'.diagnostics = []) ∧
      (∀ handle r c', origin? history handle ≠ some (finishes history) →
        c.report handle r = .ok c' → c'.diagnostics = own) ∧
      ∀ handle r, .report handle r ∈ history → r.Covers r.diagnostic := by
  intro own
  obtain ⟨c, hc, hholds⟩ := holds_after h
  obtain ⟨fault, hfault, -⟩ | ⟨c, m, hc', hm, hviews⟩ := views_after history
  · rw [hc] at hfault
    cases hfault
  obtain rfl := Except.ok.inj (hc.symm.trans hc')
  have hown : c.diagnostics = own := hholds.diagnostics
  have hmemory : m.diagnostics = own := hviews.diagnostics.trans hown
  obtain ⟨fault, hfault, -⟩ | ⟨shown, c', m', hfinish, hfinish', hviews'⟩ := hviews.perform .finish
  · cases hfault
  have hempty : c'.diagnostics = [] := by
    cases hfinish
    rfl
  refine ⟨c, m, hc, hm, ?_, ?_, ⟨c', ?_, hempty⟩, ⟨m', ?_, hviews'.diagnostics.trans hempty⟩, ?_,
    fun _ r _ => r.covers_diagnostic⟩
  · rw [perform, hown]
  · rw [Memory.perform, hmemory]
  · rw [hfinish, ← hown]
    cases hfinish
    rfl
  · rw [hfinish', ← hown]
    cases hfinish
    rfl
  · intro handle r c' hne hreport
    rw [← hholds.handles, ← hholds.finished] at hne
    obtain ⟨d, -, hgather⟩ := Except.exists_ok_of_bind hreport
    rw [← Except.ok.inj hgather, gather_of_ne hne, hown]

/-- After a collector is finished, an old handle and its copy report to nobody, and those of the new
one to it, twice the same if it is so. -/
theorem gathers_own_reports_finished :
    let stale : Report := ⟨none, ⟨1, 0⟩, "stale"⟩
    let r : Report := ⟨some ⟨.eof, "", ⟨⟨3, 5⟩, ⟨3, 5⟩⟩, 12⟩, ⟨3, 5⟩, "bad"⟩
    let d : Diagnostic := ⟨⟨⟨3, 5⟩, ⟨3, 5⟩⟩, "bad", .error⟩
    let history : List Action := [.report 3 r, .report 4 stale, .report 3 r, .copy 1, .copy 2,
      .report 0 stale, .listen, .finish, .report 1 stale, .copy 0]
    (∀ action ∈ history, action.Moderate) ∧ ∃ c, after history = .ok c ∧
      c.perform .read = .ok ([d, d], c) := by
  intro stale r d history
  have hmoderate : ∀ action ∈ history, action.Moderate := by decide
  obtain ⟨c, m, hc, -, hread, -⟩ := gathers_own_reports history hmoderate
  exact ⟨hmoderate, c, hc, hread⟩

end Collector

end PvsIndex
