import Mathlib.Data.Set.BooleanAlgebra
import Mathlib.Order.CompletePartialOrder
import Orchestrator.Isolation.Rows
import Orchestrator.Lib.Scope

/-!
# Statements about one run

Statements reach rows by identifiers. `Query.Concerns` lists those that concern one run
when the given identifiers are known to be of that run, and `Query.shows` what
an answer makes known. Such a statement has the same effect in two stores with the
same rows of the run, and writes only rows of the run.
-/

namespace Orchestrator

open Lib

/-- The statement concerns the run, if the rows in the known places do. -/
def Query.Concerns (A : UUID) (K : Set Lock) : {β : Type} → Query β → Prop
  | _, .mapOrder _ => True
  | _, .newUUID => False
  | _, .randFloat => True
  | _, .timeNow => True
  | _, .createWorkflowDefinition .. => False
  | _, .getWorkflowDefinition .. => True
  | _, .getLatestWorkflowDefinition _ => True
  | _, .createWorkflowRun id .. => id = A
  | _, .getWorkflowRun id => id = A
  | _, .updateWorkflowRunStatus id .. => id = A
  | _, .createStep runID _ => runID = A
  | _, .getSteps runID => runID = A
  | _, .getStep id => .step id ∈ K
  | _, .updateStepStatus id .. => .step id ∈ K
  | _, .createTaskAttempt stepID runID .. => .step stepID ∈ K ∧ runID = A
  | _, .claimTaskAttempt attemptID .. => .attempt attemptID ∈ K
  | _, .heartbeatTaskAttempt attemptID .. => .attempt attemptID ∈ K
  | _, .completeTaskAttempt attemptID .. => .attempt attemptID ∈ K
  | _, .reapExpiredAttempts _ => False
  | _, .insertOutboxMessage msg => msg.payload.workflowRunID = A
  | _, .fetchAndLockPendingOutbox .. => False
  | _, .markOutboxPublished _ => False
  | _, .insertTimer timer =>
    timer.workflowRunID = A ∧ ∀ id, timer.stepID = some id → .step id ∈ K
  | _, .fireTimerCAS timerID => .timer timerID ∈ K
  | _, .pendingTimersForRun runID => runID = A
  | _, .cancelTimer timerID => .timer timerID ∈ K
  | _, .insertSignal runID .. => runID = A
  | _, .listUnprocessedSignals runID => runID = A
  | _, .markSignalProcessed id => .signal id ∈ K
  | _, .appendHistory runID .. => runID = A

/-- The places that an answer makes known. -/
def Query.shows : {β : Type} → Query β → β → List Lock
  | _, .createStep .., s => [.step s.id]
  | _, .getSteps _, steps => steps.map (fun s => .step s.id)
  | _, .getStep _, s => s.toList.map (fun s => .step s.id)
  | _, .claimTaskAttempt .., answer => answer.1.toList.map (fun a => .step a.stepID)
  | _, .completeTaskAttempt .., answer => [.step answer.1.stepID]
  | _, .fireTimerCAS _, tm => (tm.bind (·.stepID)).toList.map .step
  | _, .pendingTimersForRun _, ids => ids.map .timer
  | _, .listUnprocessedSignals _, signals => signals.map (fun s => .signal s.id)
  | _, _, _ => []

/-- The runs that an answer names. -/
def Query.names : {β : Type} → Query β → β → List UUID
  | _, .createWorkflowRun .., r => [r.id]
  | _, .getWorkflowRun _, r => r.toList.map (·.id)
  | _, .claimTaskAttempt .., answer => answer.1.toList.map (·.workflowRunID)
  | _, .completeTaskAttempt .., answer => [answer.1.workflowRunID]
  | _, .fireTimerCAS _, tm => tm.toList.map (·.workflowRunID)
  | _, _, _ => []

/-- The statements about a run, by what is known to belong to it. -/
def runScope (A : UUID) : Scope Query (Set Lock) where
  allows := fun K op => op.Concerns A K
  learns := fun K op a K' => (∀ r ∈ op.names a, r = A) ∧ K' = K ∪ { l | l ∈ op.shows a }
  grows := fun h => h.2 ▸ Set.subset_union_left

section Same

variable {A : UUID} {K : Set Lock} {v v' : Db}

theorem SameRun.run (h : SameRun A v v') : v'.runs.get? A = v.runs.get? A :=
  Table.get?_congr (fun r hr => (h (.run r) (Or.inl (congrArg some hr))).symm)

theorem SameRun.definitions (h : SameRun A v v') : v'.definitions = v.definitions :=
  Table.ext_mem (fun d => (h (.definition d) (Or.inr rfl)).symm)

/-- What stands in a known place is the same. -/
theorem SameRun.place (h : SameRun A v v') (hK : Known A K v) {l : Lock} (hl : l ∈ K) :
    l.Same v v' := by
  obtain ⟨y, hy, rfl, hrun⟩ := hK l hl
  have hy' := (h y (Or.inl hrun)).mp hy
  cases y <;> exact (Table.mem_iff_get?.mp hy').trans (Table.mem_iff_get?.mp hy).symm

theorem Known.step (hK : Known A K v) {id : UUID} (hl : .step id ∈ K) :
    ∃ t, v.steps.get? id = some t ∧ t.workflowRunID = A := by
  obtain ⟨y, hy, hkey, hrun⟩ := hK _ hl
  cases y with
  | step t =>
    obtain rfl := Lock.step.inj hkey
    exact ⟨t, Table.mem_iff_get?.mp hy, Option.some.inj hrun⟩
  | _ => cases hkey

theorem Known.attempt (hK : Known A K v) {id : UUID} (hl : .attempt id ∈ K) :
    ∃ a, v.attempts.get? id = some a ∧ a.workflowRunID = A := by
  obtain ⟨y, hy, hkey, hrun⟩ := hK _ hl
  cases y with
  | attempt a =>
    obtain rfl := Lock.attempt.inj hkey
    exact ⟨a, Table.mem_iff_get?.mp hy, Option.some.inj hrun⟩
  | _ => cases hkey

theorem Known.timer (hK : Known A K v) {id : UUID} (hl : .timer id ∈ K) :
    ∃ tm, v.timers.get? id = some tm ∧ tm.workflowRunID = A := by
  obtain ⟨y, hy, hkey, hrun⟩ := hK _ hl
  cases y with
  | timer tm =>
    obtain rfl := Lock.timer.inj hkey
    exact ⟨tm, Table.mem_iff_get?.mp hy, Option.some.inj hrun⟩
  | _ => cases hkey

theorem Known.signal (hK : Known A K v) {id : UUID} (hl : .signal id ∈ K) :
    ∃ s, v.signals.get? id = some s ∧ s.workflowRunID = A := by
  obtain ⟨y, hy, hkey, hrun⟩ := hK _ hl
  cases y with
  | signal s =>
    obtain rfl := Lock.signal.inj hkey
    exact ⟨s, Table.mem_iff_get?.mp hy, Option.some.inj hrun⟩
  | _ => cases hkey

/-- The attempts of a step of the run are of the run. -/
theorem Referential.attempt (hr : Referential v) {t : Step} {a : TaskAttempt}
    (ht : v.steps.get? a.stepID = some t) (ha : a ∈ v.attempts) :
    a.workflowRunID = t.workflowRunID := by
  obtain ⟨t', ht', hid, hrun⟩ := hr (.attempt a) ha a.stepID rfl
  obtain rfl := Table.eq_of_key_eq ht' (Table.mem_of_get? ht)
    (hid.trans (Table.key_of_get? ht).symm)
  exact Option.some.inj hrun

/-- A store that has the rows of another one has its attempts of the step. -/
theorem SameRun.noAttempt (h : SameRun A v v') (hK : Known A K v) (hr : Referential v)
    {stepID : UUID} (hl : .step stepID ∈ K) {n : ℕ} (hno : v'.NoAttempt stepID n) :
    v.NoAttempt stepID n := by
  rintro a ha rfl
  obtain ⟨t, ht, hrun⟩ := hK.step hl
  have hA := (hr.attempt ht ha).trans hrun
  exact hno a ((h (.attempt a) (Or.inl (congrArg some hA))).mp ha) rfl

/-- A test on rows of the run has the same result. -/
theorem SameRun.any_steps (h : SameRun A v v') (p : Step → Bool)
    (hp : ∀ s, p s = true → s.workflowRunID = A) : v'.steps.rows.any p = v.steps.rows.any p := by
  refine Bool.eq_iff_iff.mpr ?_
  simp only [List.any_eq_true]
  refine exists_congr (fun s => and_congr_left (fun hs => ?_))
  exact (h (.step s) (Or.inl (congrArg some (hp s hs)))).symm

/-- A statement about the run has the same effect in two stores with the same rows of
the run. -/
theorem SameRun.exec (h : SameRun A v v') (hK : Known A K v) (hK' : Known A K v')
    (hr : Referential v) (hr' : Referential v') {β : Type} {op : Query β}
    (hop : op.Concerns A K) (d : Draw) : op.exec d v' = op.exec d v := by
  have hplace : ∀ l ∈ K, l.Same v v' := fun l hl => h.place hK hl
  cases op with
  | newUUID => exact hop.elim
  | createWorkflowDefinition => exact hop.elim
  | getWorkflowDefinition => simp only [Query.exec, h.definitions]
  | getLatestWorkflowDefinition => simp only [Query.exec, h.definitions]
  | createWorkflowRun =>
    obtain rfl := hop
    simp only [Query.exec, h.definitions, h.run]
  | getWorkflowRun =>
    obtain rfl := hop
    simp only [Query.exec, h.run]
  | updateWorkflowRunStatus =>
    obtain rfl := hop
    simp only [Query.exec, h.run]
  | createStep runID step =>
    obtain rfl := hop
    have hany := h.any_steps (fun s => s.workflowRunID == runID && s.stepName == step.stepName)
      (by simp +contextual)
    simp only [Query.exec, h.run, hany]
  | getSteps runID =>
    obtain rfl := hop
    have hsteps : v'.stepsOf runID = v.stepsOf runID := Table.filter_rows_congr (fun s hs =>
      (h (.step s) (Or.inl (congrArg some (of_decide_eq_true hs)))).symm)
    simp only [Query.exec, hsteps]
  | getStep id =>
    have hstep : v'.steps.get? id = v.steps.get? id := hplace _ hop
    simp only [Query.exec, hstep]
  | updateStepStatus id =>
    have hstep : v'.steps.get? id = v.steps.get? id := hplace _ hop
    simp only [Query.exec, hstep]
  | createTaskAttempt stepID runID n =>
    obtain ⟨hstep, rfl⟩ := hop
    have hget : v'.steps.get? stepID = v.steps.get? stepID := hplace _ hstep
    have hno : v'.NoAttempt stepID n ↔ v.NoAttempt stepID n :=
      ⟨h.noAttempt hK hr hstep, SameRun.noAttempt (fun x hx => (h x hx).symm) hK' hr' hstep⟩
    simp only [Query.exec, h.run, hget, hno]
  | claimTaskAttempt id =>
    have ha : v'.attempts.get? id = v.attempts.get? id := hplace _ hop
    simp only [Query.exec, ha]
  | heartbeatTaskAttempt id =>
    have ha : v'.attempts.get? id = v.attempts.get? id := hplace _ hop
    simp only [Query.exec, ha]
  | completeTaskAttempt id =>
    have ha : v'.attempts.get? id = v.attempts.get? id := hplace _ hop
    simp only [Query.exec, ha]
  | reapExpiredAttempts => exact hop.elim
  | fetchAndLockPendingOutbox => exact hop.elim
  | markOutboxPublished => exact hop.elim
  | insertTimer timer =>
    obtain ⟨rfl, hstep⟩ := hop
    have hany : timer.stepID.any (fun id => (v'.steps.get? id).isNone) =
        timer.stepID.any (fun id => (v.steps.get? id).isNone) := by
      cases hid : timer.stepID with
      | none => rfl
      | some id => exact congrArg Option.isNone (hplace _ (hstep id hid))
    simp only [Query.exec, h.run, hany]
  | fireTimerCAS id =>
    have htm : v'.timers.get? id = v.timers.get? id := hplace _ hop
    simp only [Query.exec, htm]
  | pendingTimersForRun runID =>
    obtain rfl := hop
    have htms := Table.filter_rows_congr (t := v'.timers) (u := v.timers)
      (p := fun t => t.workflowRunID = runID ∧ t.status = .pending) (fun t ht =>
        (h (.timer t) (Or.inl (congrArg some (of_decide_eq_true ht).1))).symm)
    simp only [Query.exec, htms]
  | cancelTimer id =>
    have htm : v'.timers.get? id = v.timers.get? id := hplace _ hop
    simp only [Query.exec, htm]
  | insertSignal =>
    obtain rfl := hop
    simp only [Query.exec, h.run]
  | listUnprocessedSignals runID =>
    obtain rfl := hop
    have hsigs := Table.filter_rows_congr (t := v'.signals) (u := v.signals)
      (p := fun s => s.workflowRunID = runID ∧ s.processed = false) (fun s hs =>
        (h (.signal s) (Or.inl (congrArg some (of_decide_eq_true hs).1))).symm)
    simp only [Query.exec, hsigs]
  | markSignalProcessed id =>
    have hs : v'.signals.get? id = v.signals.get? id := hplace _ hop
    simp only [Query.exec, hs]
  | appendHistory =>
    obtain rfl := hop
    simp only [Query.exec, h.run]
  | _ => rfl

end Same

section Writes

variable {A : UUID} {K : Set Lock} {v : Db} {x y : Write}

/-- A row is inserted. -/
theorem Owned.insert (hrun : x.run? = some A) (hnew : v.Free x.key)
    (hrefers : ∀ id, x.step? = some id → ∃ t ∈ v.steps, t.id = id ∧ t.workflowRunID = A) :
    Owned A v x :=
  ⟨hrun, fun _ hy hkey => absurd hkey (hnew.ne_key hy), hrefers⟩

/-- A row is put in place of one that belongs to the run and refers to the same step. -/
theorem Owned.update (hr : Referential v) (hy : v.Has y) (hA : y.run? = some A)
    (hkey : y.key = x.key) (hrun : x.run? = y.run?) (hstep : x.step? = y.step?) :
    Owned A v x := by
  refine ⟨hrun.trans hA, fun z hz hzkey => ?_, fun id hid => ?_⟩
  · obtain rfl := hz.unique hy (hzkey.trans hkey.symm)
    exact hA
  · obtain ⟨t, ht, htid, htrun⟩ := hr y hy id (hstep.symm.trans hid)
    exact ⟨t, ht, htid, Option.some.inj (htrun.symm.trans hA)⟩

/-- The row of the run itself is written. -/
theorem Owned.ofRun {r : WorkflowRun} (hid : r.id = A) : Owned A v (.run r) := by
  refine ⟨congrArg some hid, fun y _ hkey => ?_, fun id hstep => by cases hstep⟩
  cases y with
  | run r' => exact congrArg some ((Lock.run.inj hkey).trans hid)
  | _ => cases hkey

/-- An event of the run is written. -/
theorem Owned.ofHistory {e : HistoryEvent} (hid : e.workflowRunID = A) :
    Owned A v (.history e) := by
  refine ⟨congrArg some hid, fun y _ hkey => ?_, fun id hstep => by cases hstep⟩
  cases y with
  | history e' => exact congrArg some ((Lock.history.inj hkey).1.trans hid)
  | _ => cases hkey

/-- What a row of the run refers to is known with it. -/
theorem Referential.known (hr : Referential v) (hy : v.Has y) (hA : y.run? = some A) {id : UUID}
    (hid : y.step? = some id) : ∃ z, v.Has z ∧ z.key = .step id ∧ z.run? = some A := by
  obtain ⟨t, ht, rfl, hrun⟩ := hr y hy id hid
  exact ⟨.step t, ht, rfl, hrun.symm.trans hA⟩

/-- What a statement about the run does: it writes rows of the run, and shows rows of
the run. -/
structure Confined (A : UUID) (v : Db) (ws : List Write) (names : List UUID)
    (shows : List Lock) : Prop where
  owned : OwnedAll A v ws
  named : ∀ r ∈ names, r = A
  shown : ∀ l ∈ shows, ∃ y, (backend.applyAll v ws).Has y ∧ y.key = l ∧ y.run? = some A

/-- Nothing is written. -/
theorem Confined.read {shows : List Lock}
    (h : ∀ l ∈ shows, ∃ y, v.Has y ∧ y.key = l ∧ y.run? = some A) : Confined A v [] [] shows :=
  ⟨trivial, fun _ hr => absurd hr List.not_mem_nil, h⟩

theorem Confined.nothing : Confined A v [] [] [] :=
  .read (fun _ hl => absurd hl List.not_mem_nil)

/-- One row is written. -/
theorem Confined.write (h : Owned A v x) : Confined A v [x] [] [] :=
  ⟨⟨h, trivial⟩, fun _ hr => absurd hr List.not_mem_nil, fun _ hl => absurd hl List.not_mem_nil⟩

/-- One row is written, and it is what is shown. -/
theorem Confined.created (h : Owned A v x) : Confined A v [x] [] [x.key] := by
  refine ⟨⟨h, trivial⟩, fun _ hr => absurd hr List.not_mem_nil, fun l hl => ?_⟩
  obtain rfl := List.mem_singleton.mp hl
  exact ⟨x, Db.has_apply.mpr (Or.inl rfl), rfl, h.run⟩

/-- The rows found are shown. -/
theorem Confined.list {α : Type} {found rows : List α} (f : α → Write) (hperm : found.Perm rows)
    (h : ∀ a ∈ rows, v.Has (f a) ∧ (f a).run? = some A) :
    Confined A v [] [] (found.map (fun a => (f a).key)) := by
  refine .read (fun l hl => ?_)
  obtain ⟨a, ha, rfl⟩ := List.mem_map.mp hl
  obtain ⟨hhas, hrun⟩ := h a (hperm.mem_iff.mp ha)
  exact ⟨f a, hhas, rfl, hrun⟩

/-- A row of the run is found, and perhaps written again. -/
theorem Confined.found (hr : Referential v) (hy : v.Has y) (hA : y.run? = some A)
    (hkey : y.key = x.key) (hrun : x.run? = y.run?) (hstep : x.step? = y.step?)
    (hother : ∀ id, .step id ≠ x.key) {ws : List Write} (hws : ws = [] ∨ ws = [x]) :
    Confined A v ws x.run?.toList (x.step?.toList.map .step) := by
  refine ⟨?_, ?_, fun l hl => ?_⟩
  · rcases hws with rfl | rfl
    · trivial
    · exact ⟨.update hr hy hA hkey hrun hstep, trivial⟩
  · simp [hrun, hA]
  · simp only [List.mem_map, Option.mem_toList] at hl
    obtain ⟨id, hid, rfl⟩ := hl
    obtain ⟨z, hz, hzkey, hzrun⟩ := hr.known hy hA (hstep.symm.trans hid)
    refine ⟨z, ?_, hzkey, hzrun⟩
    rcases hws with rfl | rfl
    · exact hz
    · exact Db.has_apply.mpr (Or.inr ⟨hz, fun hx => hother id (hzkey.symm.trans hx)⟩)

/-- A statement about the run writes and shows only rows of the run. -/
theorem Query.confined (hK : Known A K v) (hr : Referential v) {β : Type} {op : Query β}
    (hop : op.Concerns A K) {d : Draw} (hadm : op.admits d v = true) :
    OnOk (op.exec d v) (fun r => Confined A v r.2 (op.names r.1) (op.shows r.1)) := by
  cases op with
  | newUUID => exact hop.elim
  | createWorkflowDefinition => exact hop.elim
  | createWorkflowRun =>
    obtain rfl := hop
    simp only [Query.exec]
    split_ifs <;> try trivial
    exact ⟨⟨.ofRun rfl, trivial⟩, by simp [Query.names, newRun], by simp [Query.shows]⟩
  | getWorkflowRun =>
    obtain rfl := hop
    refine ⟨trivial, fun id hid => ?_, by simp [Query.shows]⟩
    simp only [Query.names, List.mem_map, Option.mem_toList] at hid
    obtain ⟨r, hrun, rfl⟩ := hid
    exact Table.key_of_get? hrun
  | updateWorkflowRunStatus =>
    obtain rfl := hop
    refine onOk_bind (fun output _ => ?_)
    split
    · exact .nothing
    · rename_i r hget
      have hid : r.id = _ := Table.key_of_get? hget
      split_ifs
      · exact .write (.ofRun hid)
      · exact .nothing
  | createStep runID step =>
    obtain rfl := hop
    simp only [Query.exec]
    split_ifs <;> try trivial
    refine onOk_bind (fun _ _ => .created (.insert rfl ?_ (fun id hid => by cases hid)))
    exact Option.isNone_iff_eq_none.mp hadm
  | getSteps runID =>
    obtain rfl := hop
    refine .list .step ((List.perm_insertionSort _ _).trans (d.shuffle_perm _)) (fun t ht => ?_)
    obtain ⟨ht, hrun⟩ := List.mem_filter.mp ht
    exact ⟨ht, congrArg some (of_decide_eq_true hrun)⟩
  | getStep id =>
    obtain ⟨t, ht, hrun⟩ := hK.step hop
    simp only [Query.exec, ht]
    refine .read (fun l hl => ?_)
    obtain rfl := List.mem_singleton.mp hl
    exact ⟨.step t, Table.mem_of_get? ht, rfl, congrArg some hrun⟩
  | updateStepStatus id =>
    obtain ⟨t, ht, hrun⟩ := hK.step hop
    refine onOk_bind (fun output _ => ?_)
    simp only [ht]
    split_ifs
    · exact .write (.update (y := .step t) hr (Table.mem_of_get? ht) (congrArg some hrun) rfl rfl
        rfl)
    · exact .nothing
  | createTaskAttempt stepID runID n =>
    obtain ⟨hstep, rfl⟩ := hop
    obtain ⟨t, ht, hrun⟩ := hK.step hstep
    simp only [Query.exec]
    split_ifs <;> try trivial
    refine .write (.insert rfl (Option.isNone_iff_eq_none.mp hadm) (fun id hid => ?_))
    obtain rfl := Option.some.inj hid
    exact ⟨t, Table.mem_of_get? ht, Table.key_of_get? ht, hrun⟩
  | claimTaskAttempt id key workerID leaseFor =>
    obtain ⟨a, ha, hrun⟩ := hK.attempt hop
    have hhas : v.Has (.attempt a) := Table.mem_of_get? ha
    simp only [Query.exec, ha]
    split_ifs
    · exact .found (x := .attempt (a.lease workerID leaseFor d.now)) hr hhas (congrArg some hrun)
        rfl rfl rfl (fun _ => by simp [Write.key]) (Or.inr rfl)
    · exact .found (x := .attempt a) hr hhas (congrArg some hrun) rfl rfl rfl
        (fun _ => by simp [Write.key]) (Or.inl rfl)
  | heartbeatTaskAttempt id =>
    obtain ⟨a, ha, hrun⟩ := hK.attempt hop
    simp only [Query.exec, ha]
    split_ifs
    · exact .write (.update (y := .attempt a) hr (Table.mem_of_get? ha) (congrArg some hrun) rfl
        rfl rfl)
    · exact .nothing
  | completeTaskAttempt id workerID success result errMsg =>
    obtain ⟨a, ha, hrun⟩ := hK.attempt hop
    have hhas : v.Has (.attempt a) := Table.mem_of_get? ha
    refine onOk_bind (fun result _ => ?_)
    simp only [ha]
    split_ifs
    · exact .found (x := .attempt (a.complete success result errMsg d.now)) hr hhas
        (congrArg some hrun) rfl rfl rfl (fun _ => by simp [Write.key]) (Or.inr rfl)
    · exact .found (x := .attempt a) hr hhas (congrArg some hrun) rfl rfl rfl
        (fun _ => by simp [Write.key]) (Or.inl rfl)
  | reapExpiredAttempts => exact hop.elim
  | fetchAndLockPendingOutbox => exact hop.elim
  | markOutboxPublished => exact hop.elim
  | insertOutboxMessage =>
    exact .write (.insert (congrArg some hop) (Option.isNone_iff_eq_none.mp hadm)
      (fun id hid => by cases hid))
  | insertTimer timer =>
    obtain ⟨rfl, hstep⟩ := hop
    simp only [Query.exec]
    split_ifs <;> try trivial
    refine .write (.insert rfl (Option.isNone_iff_eq_none.mp hadm) (fun id hid => ?_))
    obtain ⟨t, ht, hrun⟩ := hK.step (hstep id hid)
    exact ⟨t, Table.mem_of_get? ht, Table.key_of_get? ht, hrun⟩
  | fireTimerCAS id =>
    obtain ⟨tm, htm, hrun⟩ := hK.timer hop
    have hhas : v.Has (.timer tm) := Table.mem_of_get? htm
    simp only [Query.exec, htm]
    split_ifs
    · exact .found (x := .timer { tm with status := .fired, firedAt := some d.now }) hr hhas
        (congrArg some hrun) rfl rfl rfl (fun _ => by simp [Write.key]) (Or.inr rfl)
    · exact .nothing
  | pendingTimersForRun runID =>
    obtain rfl := hop
    change Confined runID v [] [] (List.map .timer (List.map Timer.id _))
    rw [List.map_map]
    refine .list .timer (d.shuffle_perm _) (fun tm htm => ?_)
    obtain ⟨htm, hrun⟩ := List.mem_filter.mp htm
    exact ⟨htm, congrArg some (of_decide_eq_true hrun).1⟩
  | cancelTimer id =>
    obtain ⟨tm, htm, hrun⟩ := hK.timer hop
    simp only [Query.exec, htm]
    split_ifs
    · exact .write (.update (y := .timer tm) hr (Table.mem_of_get? htm) (congrArg some hrun) rfl
        rfl rfl)
    · exact .nothing
  | insertSignal =>
    obtain rfl := hop
    simp only [Query.exec]
    split_ifs <;> try trivial
    exact onOk_bind (fun payload _ => .write (.insert rfl (Option.isNone_iff_eq_none.mp hadm)
      (fun id hid => by cases hid)))
  | listUnprocessedSignals runID =>
    obtain rfl := hop
    refine .list .signal ((List.perm_insertionSort _ _).trans (d.shuffle_perm _)) (fun s hs => ?_)
    obtain ⟨hs, hrun⟩ := List.mem_filter.mp hs
    exact ⟨hs, congrArg some (of_decide_eq_true hrun).1⟩
  | markSignalProcessed id =>
    obtain ⟨s, hs, hrun⟩ := hK.signal hop
    simp only [Query.exec, hs]
    split_ifs
    · exact .nothing
    · exact .write (.update (y := .signal s) hr (Table.mem_of_get? hs) (congrArg some hrun) rfl rfl
        rfl)
  | appendHistory =>
    obtain rfl := hop
    simp only [Query.exec]
    split
    · exact .nothing
    · rename_i r hget
      have hid := Table.key_of_get? hget
      exact ⟨⟨.ofRun hid, .ofHistory hid, trivial⟩, by simp [Query.names], by simp [Query.shows]⟩
  | _ => exact .nothing

end Writes

/-- Two stores have the same rows of the run, what is known holds in both, and each
differs from its first state in rows of the run only. -/
structure Alike (A : UUID) (v₀ v₀' : Db) (K : Set Lock) (v v' : Db) : Prop where
  same : SameRun A v v'
  refs : Referential v ∧ Referential v'
  known : Known A K v ∧ Known A K v'
  others : SameOthers A v v₀ ∧ SameOthers A v' v₀'

theorem SameOthers.trans {A : UUID} {v v' v'' : Db} (h : SameOthers A v v')
    (h' : SameOthers A v' v'') : SameOthers A v v'' :=
  fun x hx => (h x hx).trans (h' x hx)

/-- What is known after a statement about the run. -/
theorem Confined.known {A : UUID} {K : Set Lock} {v : Db} {ws : List Write} {names : List UUID}
    {shows : List Lock} (h : Confined A v ws names shows) (hK : Known A K v) :
    Known A (K ∪ { l | l ∈ shows }) (backend.applyAll v ws) := by
  rintro l (hl | hl)
  · exact h.owned.keep hK (fun _ _ hx hK => hx.known hK) l hl
  · exact h.shown l hl

/-- Statements about the run keep two stores alike. -/
theorem Alike.tracks (A : UUID) (v₀ v₀' : Db) : (runScope A).Tracks backend (Alike A v₀ v₀') := by
  intro β K op d v v' hop h hadm hadm'
  have hexec := h.same.exec h.known.1 h.known.2 h.refs.1 h.refs.2 hop d
  have hconf := Query.confined h.known.1 h.refs.1 hop hadm
  have hconf' := Query.confined h.known.2 h.refs.2 hop hadm'
  refine ⟨hexec, ?_⟩
  rw [hexec] at hconf'
  rw [backend_exec]
  cases hr : op.exec d v with
  | error e => trivial
  | ok r =>
    rw [hr] at hconf hconf'
    refine ⟨_, ⟨hconf.named, rfl⟩, ?_⟩
    refine ⟨h.same.applyAll r.2, ⟨?_, ?_⟩, ⟨hconf.known h.known.1, hconf'.known h.known.2⟩, ?_, ?_⟩
    · exact hconf.owned.keep h.refs.1 (fun _ _ hx => hx.referential)
    · exact hconf'.owned.keep h.refs.2 (fun _ _ hx => hx.referential)
    · exact hconf.owned.keep h.others.1 (fun _ _ hx hv => hx.others.trans hv)
    · exact hconf'.owned.keep h.others.2 (fun _ _ hx hv => hx.others.trans hv)

end Orchestrator
