import Mathlib.Logic.Function.Basic
import PvsIndex.Proofs.Declaration.History
import PvsIndex.Service

/-! The service answers as if it kept no analysis: from what was said of a document last, whatever
was said of other documents and asked before. -/

namespace PvsIndex

/-- What the last news say of a document, if it is open: its version and its text. -/
def latest? {κ : Type} [DecidableEq κ] (news : List (κ × Option (Int × String))) (key : κ) :
    Option (Int × String) :=
  (news.filter (·.1 = key)).getLast?.bind (·.2)

section Latest

variable {κ : Type} [DecidableEq κ]

theorem latest?_concat (news : List (κ × Option (Int × String))) (key : κ)
    (content : Option (Int × String)) :
    latest? (news ++ [(key, content)]) = Function.update (latest? news) key content := by
  funext other
  rw [latest?, List.filter_append]
  by_cases h : other = key
  · subst h
    simp
  · rw [Function.update_of_ne h, List.filter_cons_of_neg (by simpa using Ne.symm h),
      List.filter_nil, List.append_nil, latest?]

def learn (known : κ → Option (Int × String)) :
    Option (κ × Option (Int × String)) → κ → Option (Int × String)
  | none => known
  | some (key, content) => Function.update known key content

theorem learn_latest? (news : List (κ × Option (Int × String)))
    (said : Option (κ × Option (Int × String))) :
    learn (latest? news) said = latest? (news ++ said.toList) := by
  cases said with
  | none => rw [learn, Option.toList_none, List.append_nil]
  | some said => exact (latest?_concat news said.1 said.2).symm

end Latest

namespace Document

/-- A kept analysis is that of the text. -/
def Sound (d : Document) : Prop :=
  ∀ a ∈ d.analysis, Analysis.ofText d.text false = .ok a

theorem Sound.analyze {d : Document} (h : d.Sound) :
    d.analyze = Analysis.ofText d.text false := by
  unfold Document.analyze
  cases ha : d.analysis with
  | none => rfl
  | some a => exact (h a ha).symm

end Document

namespace Service

def start (mode : LookupMode) : Service :=
  { mode }

/-- The service knows the versions and the texts of the open documents, and has not analysed any
other text in their place. -/
structure Knows (s : Service) (known : Nat → Option (Int × String)) : Prop where
  content : ∀ id, s.documents[id]?.map (fun d => (d.version, d.text)) = known id
  sound : ∀ (id : Nat) (d : Document), s.documents[id]? = some d → d.Sound

variable {s : Service} {known : Nat → Option (Int × String)}

theorem knows_start (mode : LookupMode) : (start mode).Knows fun _ => none where
  content id := by simp [start]
  sound id d hd := by simp [start] at hd

theorem Knows.insert (h : s.Knows known) (id : Nat) {d : Document} (hd : d.Sound) :
    Knows { s with documents := s.documents.insert id d }
      (Function.update known id (some (d.version, d.text))) where
  content other := by
    have hother := h.content other
    rcases eq_or_ne other id with rfl | hne
    · simp
    · simp [Std.TreeMap.getElem?_insert, hne, hne.symm, hother]
  sound other e he := by
    rcases eq_or_ne other id with rfl | hne
    · obtain rfl : d = e := by simpa using he
      exact hd
    · exact h.sound other e (by simpa [Std.TreeMap.getElem?_insert, hne.symm] using he)

theorem Knows.openDocument (h : s.Knows known) (id : Nat) (version : Int) (text : String) :
    (s.openDocument id version text).Knows (Function.update known id (some (version, text))) :=
  h.insert id (d := { version, text }) (fun _ ha => absurd ha (Option.not_mem_none _))

theorem Knows.closeDocument (h : s.Knows known) (id : Nat) :
    (s.closeDocument id).Knows (Function.update known id none) where
  content other := by
    have hother := h.content other
    rcases eq_or_ne other id with rfl | hne
    · simp [Service.closeDocument]
    · simp [Service.closeDocument, Std.TreeMap.getElem?_erase, hne, hne.symm, hother]
  sound other d hd := by
    rcases eq_or_ne other id with rfl | hne
    · simp [Service.closeDocument] at hd
    · exact h.sound other d
        (by simpa [Service.closeDocument, Std.TreeMap.getElem?_erase, hne.symm] using hd)

theorem Knows.cases (h : s.Knows known) (id : Nat) :
    (known id = none ∧ s.documents[id]? = none) ∨
      ∃ d, known id = some (d.version, d.text) ∧ s.documents[id]? = some d ∧ d.Sound := by
  have hcontent := h.content id
  cases hd : s.documents[id]? with
  | none =>
    rw [hd] at hcontent
    exact Or.inl ⟨hcontent.symm, rfl⟩
  | some d =>
    rw [hd] at hcontent
    exact Or.inr ⟨d, hcontent.symm, rfl, h.sound id d hd⟩

/-- A document is analysed as its text is, and to keep the analysis changes nothing. -/
theorem Knows.request (h : s.Knows known) (id : Nat) : ∃ s', s'.Knows known ∧ s'.mode = s.mode ∧
    ((known id = none ∧ s.request id = .ok (none, s')) ∨
      ∃ d a, known id = some (d.version, d.text) ∧ Analysis.ofText d.text false = .ok a ∧
        a.parse = Parse.ofText d.text ∧ s.request id = .ok (some (d, a), s')) := by
  rcases h.cases id with ⟨hk, hd⟩ | ⟨d, hk, hd, hsound⟩
  · exact ⟨s, h, rfl, Or.inl ⟨hk, by rw [Service.request, hd]⟩⟩
  · obtain ⟨r, ha⟩ := Analysis.exists_ok d.text false
    have hkept : (⟨d.version, d.text, some ⟨Parse.ofText d.text, r⟩⟩ : Document).Sound := by
      intro b hb
      obtain rfl := Option.some.inj hb
      exact ha
    have hinsert := h.insert id hkept
    rw [Function.update_eq_self_iff.mpr hk.symm] at hinsert
    refine ⟨_, hinsert, rfl, Or.inr ⟨d, _, hk, ha, rfl, ?_⟩⟩
    rw [Service.request, hd]
    dsimp only
    rw [hsound.analyze, ha]
    rfl

theorem Knows.validate (h : s.Knows known) (id : Nat) : ∃ s', s'.Knows known ∧ s'.mode = s.mode ∧
    s.validate id = match known id with
      | none => .ok ((none, []), s')
      | some (version, text) => .ok ((some version, (Parse.ofText text).diagnostics), s') := by
  obtain ⟨s', h', hmode, ⟨hk, hs⟩ | ⟨d, a, hk, -, hparse, hs⟩⟩ := h.request id
  · refine ⟨s', h', hmode, ?_⟩
    rw [Service.validate, hs, hk]
    rfl
  · refine ⟨s', h', hmode, ?_⟩
    rw [Service.validate, hs, hk]
    dsimp only
    rw [← hparse]
    rfl

theorem Knows.definitions (h : s.Knows known) (id : Nat) (p : Position) :
    ∃ s', s'.Knows known ∧ s'.mode = s.mode ∧ s.definitions id p = match known id with
      | none => .ok (none, s')
      | some (_, text) => do
        let a ← Analysis.ofText text false
        return (← a.definitionsAt s.mode p, s') := by
  obtain ⟨s', h', hmode, ⟨hk, hs⟩ | ⟨d, a, hk, ha, -, hs⟩⟩ := h.request id
  · refine ⟨s', h', hmode, ?_⟩
    rw [Service.definitions, hs, hk]
    rfl
  · refine ⟨s', h', hmode, ?_⟩
    rw [Service.definitions, hs, hk, ← hmode]
    dsimp only
    rw [ha]
    rfl

theorem Knows.hover (h : s.Knows known) (id : Nat) (p : Position) :
    ∃ s', s'.Knows known ∧ s'.mode = s.mode ∧ s.hover id p = match known id with
      | none => .ok (none, s')
      | some (_, text) => do
        let a ← Analysis.ofText text false
        return (a.hoverAt? s.mode p, s') := by
  obtain ⟨s', h', hmode, ⟨hk, hs⟩ | ⟨d, a, hk, ha, -, hs⟩⟩ := h.request id
  · refine ⟨s', h', hmode, ?_⟩
    rw [Service.hover, hs, hk]
    rfl
  · refine ⟨s', h', hmode, ?_⟩
    rw [Service.hover, hs, hk, ← hmode]
    dsimp only
    rw [ha]
    rfl

theorem Knows.toPosition (h : s.Knows known) (id : Nat) (q : Utf16Position) :
    s.toPosition id q = match known id with
      | none => .ok none
      | some (_, text) => return some (← (q.toPosition text).checked) := by
  rcases h.cases id with ⟨hk, hd⟩ | ⟨d, hk, hd, -⟩
  · rw [Service.toPosition, hd, hk]
  · rw [Service.toPosition, hd, hk]

theorem Knows.ofPosition (h : s.Knows known) (id : Nat) (p : Position) :
    s.ofPosition id p = match known id with
      | none => .ok none
      | some (_, text) => return some (← (Utf16Position.ofPosition p text).checked) := by
  rcases h.cases id with ⟨hk, hd⟩ | ⟨d, hk, hd, -⟩
  · rw [Service.ofPosition, hd, hk]
  · rw [Service.ofPosition, hd, hk]

/-- What is said to the service, or asked of it, about a document. -/
inductive Operation where
  | opened (id : Nat) (version : Int) (text : String)
  | changed (id : Nat) (version : Int) (text : String)
  | closed (id : Nat)
  | validate (id : Nat)
  | definitions (id : Nat) (p : Position)
  | hover (id : Nat) (p : Position)
  | toPosition (id : Nat) (q : Utf16Position)
  | ofPosition (id : Nat) (p : Position)

inductive Answer where
  | done
  | diagnostics (version : Option Int) (diagnostics : List Diagnostic)
  | definitions (ranges : Option (List Range))
  | hover (text : Option String)
  | position (p : Option Position)
  | position16 (q : Option Utf16Position)

namespace Operation

def document : Operation → Nat
  | opened id _ _ | changed id _ _ | closed id | validate id | definitions id _ | hover id _
  | toPosition id _ | ofPosition id _ => id

/-- What the operation says of its document. -/
def news? : Operation → Option (Nat × Option (Int × String))
  | opened id version text | changed id version text => some (id, some (version, text))
  | closed id => some (id, none)
  | _ => none

/-- The answer that version and text of the document give, analysed anew. -/
def afresh (mode : LookupMode) (content : Option (Int × String)) :
    Operation → Except Fault Answer
  | opened _ _ _ | changed _ _ _ | closed _ => return .done
  | validate _ => match content with
    | none => return .diagnostics none []
    | some (version, text) => do
      let a ← Analysis.ofText text false
      return .diagnostics (some version) a.diagnostics
  | definitions _ p => match content with
    | none => return .definitions none
    | some (_, text) => do
      let a ← Analysis.ofText text false
      return .definitions (← a.definitionsAt mode p)
  | hover _ p => match content with
    | none => return .hover none
    | some (_, text) => do
      let a ← Analysis.ofText text false
      return .hover (a.hoverAt? mode p)
  | toPosition _ q => match content with
    | none => return .position none
    | some (_, text) => return .position (some (← (q.toPosition text).checked))
  | ofPosition _ p => match content with
    | none => return .position16 none
    | some (_, text) => return .position16 (some (← (Utf16Position.ofPosition p text).checked))

end Operation

def perform (s : Service) : Operation → Except Fault (Answer × Service)
  | .opened id version text | .changed id version text =>
    return (.done, s.openDocument id version text)
  | .closed id => return (.done, s.closeDocument id)
  | .validate id => do
    let ((version, diagnostics), s) ← s.validate id
    return (.diagnostics version diagnostics, s)
  | .definitions id p => do
    let (ranges, s) ← s.definitions id p
    return (.definitions ranges, s)
  | .hover id p => do
    let (text, s) ← s.hover id p
    return (.hover text, s)
  | .toPosition id q => return (.position (← s.toPosition id q), s)
  | .ofPosition id p => return (.position16 (← s.ofPosition id p), s)

/-- The answer to an operation, and the service after it. A fault leaves the service as it is. -/
def step (s : Service) (op : Operation) : Except Fault Answer × Service :=
  match s.perform op with
  | .ok (answer, s) => (.ok answer, s)
  | .error fault => (.error fault, s)

def answers (s : Service) : List Operation → List (Except Fault Answer)
  | [] => []
  | op :: ops => (s.step op).1 :: (s.step op).2.answers ops

theorem step_of_perform {op : Operation} {answer : Except Fault Answer} {s' : Service}
    (h : s.perform op = answer.map (·, s')) (h' : s'.Knows known) (hs : s.Knows known)
    (hmode : s'.mode = s.mode) :
    (s.step op).1 = answer ∧ (s.step op).2.mode = s.mode ∧ (s.step op).2.Knows known := by
  rw [step, h]
  cases answer with
  | error fault => exact ⟨rfl, rfl, hs⟩
  | ok answer => exact ⟨rfl, hmode, h'⟩

/-- An operation is answered from what is known of its document, and the service knows what the
operation says. -/
theorem Knows.step (h : s.Knows known) (op : Operation) :
    (s.step op).1 = op.afresh s.mode (known op.document) ∧ (s.step op).2.mode = s.mode ∧
      (s.step op).2.Knows (learn known op.news?) := by
  cases op with
  | opened id version text => exact ⟨rfl, rfl, h.openDocument id version text⟩
  | changed id version text => exact ⟨rfl, rfl, h.openDocument id version text⟩
  | closed id => exact ⟨rfl, rfl, h.closeDocument id⟩
  | validate id =>
    obtain ⟨s', h', hmode, heq⟩ := h.validate id
    refine step_of_perform ?_ h' h hmode
    rw [Service.perform, heq]
    dsimp only [Operation.document]
    rcases known id with _ | ⟨version, text⟩
    · rfl
    · obtain ⟨r, ha⟩ := Analysis.exists_ok text false
      dsimp only [Operation.afresh]
      rw [ha]
      rfl
  | definitions id p =>
    obtain ⟨s', h', hmode, heq⟩ := h.definitions id p
    refine step_of_perform ?_ h' h hmode
    rw [Service.perform, heq]
    dsimp only [Operation.document]
    rcases known id with _ | ⟨version, text⟩
    · rfl
    · obtain ⟨r, ha⟩ := Analysis.exists_ok text false
      dsimp only [Operation.afresh]
      rw [ha]
      generalize (⟨Parse.ofText text, r⟩ : Analysis) = a
      cases hfound : a.definitionsAt s.mode p with
      | error fault => simp only [bind, Except.bind, hfound, Except.map]
      | ok ranges =>
        simp only [bind, Except.bind, hfound]
        rfl
  | hover id p =>
    obtain ⟨s', h', hmode, heq⟩ := h.hover id p
    refine step_of_perform ?_ h' h hmode
    rw [Service.perform, heq]
    dsimp only [Operation.document]
    rcases known id with _ | ⟨version, text⟩
    · rfl
    · obtain ⟨r, ha⟩ := Analysis.exists_ok text false
      dsimp only [Operation.afresh]
      rw [ha]
      rfl
  | toPosition id q =>
    refine step_of_perform ?_ h h rfl
    rw [Service.perform, h.toPosition]
    dsimp only [Operation.document]
    rcases known id with _ | ⟨version, text⟩
    · rfl
    · dsimp only [Operation.afresh]
      cases (q.toPosition text).checked <;> rfl
  | ofPosition id p =>
    refine step_of_perform ?_ h h rfl
    rw [Service.perform, h.ofPosition]
    dsimp only [Operation.document]
    rcases known id with _ | ⟨version, text⟩
    · rfl
    · dsimp only [Operation.afresh]
      cases (Utf16Position.ofPosition p text).checked <;> rfl

theorem Knows.of_perform (h : s.Knows known) {op : Operation} {answer : Answer} {s' : Service}
    (hperform : s.perform op = .ok (answer, s')) :
    op.afresh s.mode (known op.document) = .ok answer ∧ s'.mode = s.mode ∧
      s'.Knows (learn known op.news?) := by
  obtain ⟨hanswer, hmode, hnext⟩ := h.step op
  rw [Service.step, hperform] at hanswer hmode hnext
  exact ⟨hanswer.symm, hmode, hnext⟩

theorem Knows.answers {news : List (Nat × Option (Int × String))} (h : s.Knows (latest? news))
    (ops : List Operation) : s.answers ops = List.zipWith
      (fun before op => op.afresh s.mode
        (latest? (news ++ before.filterMap Operation.news?) op.document)) ops.inits ops := by
  induction ops generalizing s news with
  | nil => rfl
  | cons op ops ih =>
    obtain ⟨hanswer, hmode, hnext⟩ := h.step op
    rw [learn_latest?] at hnext
    have hnews (before : List Operation) : (op :: before).filterMap Operation.news? =
        op.news?.toList ++ before.filterMap Operation.news? := by
      cases hop : op.news? <;> simp [hop]
    rw [Service.answers, hanswer, ih hnext, hmode, List.inits_cons, List.zipWith_cons_cons,
      List.zipWith_map_left]
    simp only [hnews, ← List.append_assoc, List.filterMap_nil, List.append_nil]

/-- Each operation of a run is answered from what the operations before it have said of its document
last, as if the text were analysed for it alone. -/
theorem answers_eq_afresh (mode : LookupMode) (ops : List Operation) :
    (start mode).answers ops = List.zipWith
      (fun before op => op.afresh mode
        (latest? (before.filterMap Operation.news?) op.document)) ops.inits ops :=
  (show (start mode).Knows (latest? []) from knows_start mode).answers ops

end Service

end PvsIndex
