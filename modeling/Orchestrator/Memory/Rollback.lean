import Orchestrator.Memory.Evaluation

/-!
# Callbacks that fail on the memory store

`WithTx` of the memory store has no rollback. What a callback's calls have assigned
before it fails stays in the store. For the entry points that can fail after a write, it
is said which arguments and which states before the call this happens for: something that
the first write refers to is missing, or `Publish` fails for a row that is not the first
of the batch. In all other cases a call is all or nothing.
-/

namespace Orchestrator.Memory

open Lib Program

/-- A callback that fails leaves the store as it was. -/
def AllOrNothing {α : Type} (p : Prog α) (ω : ℕ → Draw) (s : Store) : Prop :=
  ∀ e, (withTx p ω s).1 = .error e → (withTx p ω s).2 = s

section Callbacks

variable {α : Type} {p : Prog α} {ω : ℕ → Draw} {s : Store}

/-- A callback that cannot fail is all or nothing. -/
theorem Sure.allOrNothing {Q : α → Store → Prop} (h : Sure p Q s)
    (hω : p.Admissible backend ω s []) : AllOrNothing p ω s := by
  intro e herr
  have hrun := Wp.run (w := []) h hω
  rw [withTx] at herr
  generalize p.run backend ω s [] = res at hrun herr
  obtain ⟨_ | _, w⟩ := res
  · exact hrun.elim
  · cases herr

/-- A callback that fails after its calls have led to another state is not. -/
theorem not_allOrNothing {e : Error} {w : List Change} (h : p.run backend ω s [] = (.error e, w))
    (hne : backend.applyAll s w ≠ s) : ¬ AllOrNothing p ω s := by
  intro hall
  refine hne ?_
  have hsame := hall e (by rw [withTx, h])
  rwa [withTx, h] at hsame

/-- A callback that fails before its first write is all or nothing. -/
theorem allOrNothing_of_run {e : Error} (h : p.run backend ω s [] = (.error e, [])) :
    AllOrNothing p ω s := by
  intro _ _
  rw [withTx, h]
  rfl

/-- A callback whose first call assigns to nothing is all or nothing if the rest of it is. -/
theorem AllOrNothing.read {β : Type} {op : Query β} {next : β → Prog α} {a : β}
    (hexec : backend.exec op (ω 0) s = .ok (a, []))
    (h : AllOrNothing (next a) (fun i => ω (i + 1)) s) : AllOrNothing (.call op next) ω s := by
  have hrun : (Program.call op next).run backend ω s [] =
      (next a).run backend (fun i => ω (i + 1)) s [] := run_call backend (w := []) hexec
  rw [AllOrNothing, withTx, hrun]
  exact h

end Callbacks

section Engine

variable {ω : ℕ → Draw} {s : Store} {runID : UUID}

/-- The lookup of a run that is there. -/
theorem sure_run {β : Type} {Q : β → Store → Prop} {f : WorkflowRun → Prog β} {r : WorkflowRun}
    (hr : s.rows.runs.get? runID = some r) (h : Sure (f r) Q s) :
    Sure (getWorkflowRun runID >>= f) Q s := by
  refine Wp.bind (Wp.bind (sure_read (fun _ => s.rows.runs.get? runID) (fun _ => rfl)
    (fun _ => ?_)))
  rw [hr]
  exact h

/-- The lookup of a step that is there. -/
theorem sure_step {β : Type} {Q : β → Store → Prop} {f : Step → Prog β} {id : UUID} {t : Step}
    (ht : s.rows.steps.get? id = some t) (h : Sure (f t) Q s) : Sure (getStep id >>= f) Q s := by
  refine Wp.bind (Wp.bind (sure_read (fun _ => s.rows.steps.get? id) (fun _ => rfl)
    (fun _ => ?_)))
  rw [ht]
  exact h

/-- What is known of a store with a run. -/
theorem known_of_get? (hs : Documents s) {r : WorkflowRun}
    (hr : s.rows.runs.get? runID = some r) : Known r.id s :=
  ⟨by rw [Table.key_of_get? hr, hr]; rfl, hs⟩

/-- `Reconcile` looks for the run before it writes. -/
theorem reconcile_allOrNothing (hs : Documents s)
    (hω : (reconcile runID).Admissible backend ω s []) : AllOrNothing (reconcile runID) ω s := by
  cases hr : s.rows.runs.get? runID with
  | none =>
    exact allOrNothing_of_run (e := .notFound) (by
      simp [reconcile, getWorkflowRun, orNotFound, run, backend, exec, hr])
  | some r =>
    obtain rfl : r.id = runID := Table.key_of_get? hr
    exact Sure.allOrNothing (sure_run hr (getSteps_sure (known_of_get? hs hr))) hω

/-- The loop of `CancelRun`. -/
theorem cancelSteps_sure (h : Known runID s) (steps : List Step) :
    Sure (steps.foldlM (fun _ t => cancelStep t) ()) (fun _ s' => Known runID s') s := by
  refine Wp.foldlM (I := fun _ _ s' => Known runID s') (fun _ t _ s' _ h' => ?_) h
  unfold cancelStep
  split_ifs
  · exact h'
  · exact Wp.bind ((sure_updateAny h' _ _ _ _ _ _).mono (fun _ _ h'' => h''))

/-- `CancelRun` looks for the run before it writes. -/
theorem cancelRun_allOrNothing (hs : Documents s)
    (hω : (cancelRun runID).Admissible backend ω s []) : AllOrNothing (cancelRun runID) ω s := by
  cases hr : s.rows.runs.get? runID with
  | none =>
    exact allOrNothing_of_run (e := .notFound) (by
      simp [cancelRun, getWorkflowRun, orNotFound, run, backend, exec, hr])
  | some r =>
    obtain rfl : r.id = runID := Table.key_of_get? hr
    refine Sure.allOrNothing (Q := fun _ _ => True) (sure_run hr ?_) hω
    split_ifs
    · exact trivial
    · refine Wp.bind (sure_read (fun d => ((d.shuffle s.rows.steps.rows).filter (fun st =>
        st.workflowRunID = r.id)).insertionSort (fun a b => a.createdAt ≤ b.createdAt))
        (fun _ => rfl) (fun d => Wp.bind ((cancelSteps_sure (known_of_get? hs hr) _).mono ?_)))
      intro _ s₁ h₁
      have hcopied : Copied r.id (newRunState []) s₁ := h₁.copied (by simp)
      exact Wp.bind ((cancelTimersForRun_sure hcopied).mono (fun _ _ h₂ =>
        Wp.bind ((sure_updateRun h₂ _ _ _ _).mono (fun _ _ h₃ =>
          (sure_appendHistory h₃ _ _).mono (fun _ _ _ => trivial)))))

/-- `ApplySignal` inserts the signal before it looks for the run. -/
theorem applySignal_allOrNothing_iff (hs : Documents s) {name : String}
    {payload : Option RawMessage}
    (hω : (applySignal runID name payload).Admissible backend ω s []) :
    AllOrNothing (applySignal runID name payload) ω s ↔
      name = "__cancel__" ∨ (s.rows.runs.get? runID).isSome := by
  by_cases hname : name = "__cancel__"
  · rw [applySignal, if_pos hname] at hω ⊢
    exact iff_of_true (cancelRun_allOrNothing hs hω) (Or.inl hname)
  rw [applySignal, if_neg hname] at hω ⊢
  cases hr : s.rows.runs.get? runID with
  | none =>
    refine iff_of_false (not_allOrNothing (e := .notFound) (w := [.row (.signal ⟨(ω 0).uuid,
      runID, name, payload.getD .emptyObject, false, (ω 0).now⟩)]) ?_ (fun heq => ?_))
      (by simp [hname])
    · simp [getWorkflowRun, orNotFound, run, backend, exec, assigns, hr]
    · -- The row of the signal is new.
      have hnew : s.rows.signals.get? (ω 0).uuid = none := by
        simpa [backend, Query.admits] using hω.1
      have hput := congrArg (fun st : Store => st.rows.signals.get? (ω 0).uuid) heq
      simp only [hnew] at hput
      exact absurd hput (by simp [backend, Db.apply])
  | some r =>
    obtain rfl : r.id = runID := Table.key_of_get? hr
    refine iff_of_true (Sure.allOrNothing (Q := fun _ _ => True) ?_ hω) (Or.inr rfl)
    refine Wp.bind (sure_assigns (fun d => (⟨d.uuid, r.id, name, payload.getD .emptyObject,
      false, d.now⟩, [.signal ⟨d.uuid, r.id, name, payload.getD .emptyObject, false, d.now⟩]))
      (fun _ => rfl) (fun d => sure_run hr ?_))
    have hcopied : Copied r.id (newRunState []) { s with rows := s.rows.apply (.signal
        ⟨d.uuid, r.id, name, payload.getD .emptyObject, false, d.now⟩) } :=
      ((known_of_get? hs hr).copied (by simp)).aside
        [.signal ⟨d.uuid, r.id, name, payload.getD .emptyObject, false, d.now⟩] rfl
    exact Wp.bind ((sure_appendHistory hcopied _ _).mono (fun _ _ h => getSteps_sure h.toKnown))

/-- What a timer refers to: its run, and the step if it is to be retried. A retry without a
step asks for nothing. -/
def Grounded (tm : Timer) (v : Db) : Prop :=
  match tm.kind, tm.stepID with
  | .retryBackoff, none => True
  | .retryBackoff, some id => (v.steps.get? id).isSome ∧ (v.runs.get? tm.workflowRunID).isSome
  | .stepTimeout, _ | .user, _ => (v.runs.get? tm.workflowRunID).isSome

/-- The row of a timer that `FireTimerCAS` has marked. -/
abbrev fired (tm : Timer) (now : Time) : Timer :=
  { tm with status := .fired, firedAt := some now }

/-- A timer that has been marked is not as before. -/
theorem applyAll_fired_ne {tm : Timer} (htm : s.rows.timers.get? tm.id = some tm)
    (hst : tm.status = .pending) (now : Time) :
    backend.applyAll s [.row (.timer (fired tm now))] ≠ s := by
  intro heq
  have hrow : s.rows.timers.get? tm.id = some (fired tm now) := by
    rw [← heq]
    exact Table.get?_put_self s.rows.timers (fired tm now)
  rw [Option.some.inj (htm.symm.trans hrow)] at hst
  cases hst

/-- An armed timer whose run or step is missing is marked, and then the call fails. -/
theorem run_handleFiredTimer {tm : Timer} (htm : s.rows.timers.get? tm.id = some tm)
    (hst : tm.status = .pending) (h : ¬ Grounded tm s.rows) :
    (handleFiredTimer tm.id).run backend ω s [] =
      (.error .notFound, [.row (.timer (fired tm (ω 0).now))]) := by
  have hfire : backend.exec (.fireTimerCAS tm.id) (ω 0) s =
      .ok (some (fired tm (ω 0).now), [.row (.timer (fired tm (ω 0).now))]) := by
    simp [backend, exec, Memory.fireTimerCAS, htm, hst, assigns]
  rw [handleFiredTimer, request_bind, run_call backend (w := []) hfire]
  unfold Grounded at h
  cases hkind : tm.kind with
  | retryBackoff =>
    cases hstep : tm.stepID with
    | none => simp [hkind, hstep] at h
    | some id =>
      simp only [hkind, hstep, handleRetryTimerFired] at h ⊢
      cases ht : s.rows.steps.get? id with
      | none => simp [getStep, orNotFound, run, backend, exec, ht, Db.apply]
      | some t =>
        have hr : s.rows.runs.get? tm.workflowRunID = none := by simpa [ht] using h
        simp [getStep, getWorkflowRun, orNotFound, run, backend, exec, ht, hr, Db.apply]
  | stepTimeout | user =>
    have hr : s.rows.runs.get? tm.workflowRunID = none := by simpa [hkind] using h
    simp [hkind, getWorkflowRun, orNotFound, run, backend, exec, hr, Db.apply]

/-- An armed timer whose run and step are there is applied without an error. -/
theorem handleFiredTimer_sure (hs : Documents s) {tm : Timer}
    (htm : s.rows.timers.get? tm.id = some tm) (hst : tm.status = .pending)
    (h : Grounded tm s.rows) : Sure (handleFiredTimer tm.id) (fun _ _ => True) s := by
  refine Wp.bind (sure_assigns (fun d => (some (fired tm d.now), [.timer (fired tm d.now)]))
    (fun d => by simp [exec, Memory.fireTimerCAS, htm, hst]) (fun d => ?_))
  unfold Grounded at h
  cases hkind : tm.kind with
  | retryBackoff =>
    cases hstep : tm.stepID with
    | none =>
      simp only [hkind, hstep, handleRetryTimerFired]
      exact trivial
    | some id =>
      simp only [hkind, hstep, handleRetryTimerFired] at h ⊢
      obtain ⟨t, ht⟩ := Option.isSome_iff_exists.mp h.1
      obtain ⟨r, hr⟩ := Option.isSome_iff_exists.mp h.2
      refine sure_step ht (sure_run hr ?_)
      split_ifs with hidle
      · exact trivial
      · have hcopied : Copied r.id (newRunState [t]) s :=
          (known_of_get? hs hr).copied (by simpa using Table.mem_of_get? ht)
        have hstatus : t.status ∈ [StepStatus.retryBackoff] := by
          simpa using (not_or.mp hidle).1
        exact Wp.bind ((dispatchStep_sure (hcopied.aside [.timer (fired tm d.now)] rfl)
          (Table.mem_put_self _ t) hstatus).mono (fun _ _ h' => getSteps_sure h'.toKnown))
  | stepTimeout | user =>
    simp only [hkind] at h ⊢
    obtain ⟨r, hr⟩ := Option.isSome_iff_exists.mp h
    exact sure_run hr (getSteps_sure ((known_of_get? hs hr).aside
      [.timer (fired tm d.now)] rfl))

/-- `HandleFiredTimer` marks the timer before it looks for what it refers to. -/
theorem handleFiredTimer_allOrNothing_iff (hs : Documents s) {timerID : UUID}
    (hω : (handleFiredTimer timerID).Admissible backend ω s []) :
    AllOrNothing (handleFiredTimer timerID) ω s ↔ ∀ tm, s.rows.timers.get? timerID = some tm →
      tm.status = .pending → Grounded tm s.rows := by
  by_cases harmed : ∃ tm, s.rows.timers.get? timerID = some tm ∧ tm.status = .pending
  · obtain ⟨tm, htm, hst⟩ := harmed
    obtain rfl : tm.id = timerID := Table.key_of_get? htm
    by_cases hground : Grounded tm s.rows
    · refine iff_of_true (Sure.allOrNothing (handleFiredTimer_sure hs htm hst hground) hω) ?_
      intro x hx _
      exact Option.some.inj (htm.symm.trans hx) ▸ hground
    · exact iff_of_false (not_allOrNothing (run_handleFiredTimer htm hst hground)
        (applyAll_fired_ne htm hst _)) (fun hall => hground (hall tm htm hst))
  · have hnone : ∀ d : Draw, Memory.fireTimerCAS s.rows timerID d.now = (none, []) := by
      intro d
      unfold Memory.fireTimerCAS
      cases htm : s.rows.timers.get? timerID with
      | none => rfl
      | some tm =>
        have hst : tm.status ≠ .pending := fun hst => harmed ⟨tm, htm, hst⟩
        simp [hst]
    refine iff_of_true (Sure.allOrNothing (Q := fun _ _ => True) ?_ hω)
      (fun tm htm hst => absurd ⟨tm, htm, hst⟩ harmed)
    refine Wp.bind (sure_assigns (fun d => Memory.fireTimerCAS s.rows timerID d.now)
      (fun _ => rfl) (fun d => ?_))
    rw [hnone d]
    exact trivial

/-- An attempt that the worker has leased. -/
def Leases (v : Db) (attemptID : UUID) (workerID : String) (a : TaskAttempt) : Prop :=
  v.attempts.get? attemptID = some a ∧ a.status = .leased ∧ a.leaseOwner = some workerID

/-- `CompleteTaskAttempt` on an attempt that the worker has leased. -/
theorem completeTaskAttempt_eq {attemptID : UUID} {workerID : String} {a : TaskAttempt}
    (h : Leases s.rows attemptID workerID a) (success : Bool) (output : Option RawMessage)
    (errMsg : Option String) (now : Time) :
    Memory.completeTaskAttempt s.rows attemptID workerID success output errMsg now =
      ((some (assignOutcome a success output errMsg now), true),
        [.attempt (assignOutcome a success output errMsg now)]) := by
  obtain ⟨ha, hst, howner⟩ := h
  simp [Memory.completeTaskAttempt, ha, hst, howner]

/-- It assigns to the outcome of the attempt, which is then over. -/
theorem assignOutcome_frame (a : TaskAttempt) (success : Bool) (output : Option RawMessage)
    (errMsg : Option String) (now : Time) :
    (assignOutcome a success output errMsg now).id = a.id ∧
      (assignOutcome a success output errMsg now).stepID = a.stepID ∧
      (assignOutcome a success output errMsg now).workflowRunID = a.workflowRunID ∧
      (assignOutcome a success output errMsg now).status ≠ .leased := by
  simp only [assignOutcome]
  cases success <;> split_ifs <;> exact ⟨rfl, rfl, rfl, fun h => by cases h⟩

/-- `handleAttemptOutcome` for an attempt whose step and run are there. -/
theorem handleAttemptOutcome_sure (h : Known runID s) {attempt : TaskAttempt}
    (hrun : attempt.workflowRunID = runID) (hstep : (s.rows.steps.get? attempt.stepID).isSome)
    (success : Bool) (output : Option RawMessage) (errMsg : Option String) :
    Sure (handleAttemptOutcome attempt success output errMsg) (fun _ _ => True) s := by
  obtain ⟨t, ht⟩ := Option.isSome_iff_exists.mp hstep
  obtain ⟨r, hr⟩ := Option.isSome_iff_exists.mp h.run
  have hid : r.id = runID := Table.key_of_get? hr
  have hjudge : ∀ {s' : Store} (_ : Known r.id s') (next : StepStatus)
      (output : Option RawMessage) (errMsg : Option String) (eventType : EventType)
      (payload : Option Json), Sure (do
        let ok ← (Query.updateStepStatus t.id [.queued, .running] next output errMsg false).issue
        if ok then appendHistory r.id eventType payload else pure ())
        (fun _ s'' => Known r.id s'') s' := by
    intro s' h' next output errMsg eventType payload
    refine Wp.bind ((sure_updateAny h' _ _ _ _ _ _).mono (fun ok s'' h'' => ?_))
    cases ok with
    | true =>
      have hnone : Copied r.id (newRunState []) s'' := h''.copied (by simp)
      exact (sure_appendHistory hnone _ _).mono (fun _ _ hc => hc.toKnown)
    | false => exact h''
  refine sure_step ht (sure_run (hrun ▸ hr) ?_)
  have hknown : Known r.id s := hid ▸ h
  split_ifs
  · exact Wp.bind ((hjudge hknown _ _ _ _ _).mono (fun _ _ h' => getSteps_sure h'))
  · refine Wp.bind (Wp.mono (Q := fun _ s' => Known r.id s') ?_ (fun _ _ h' => getSteps_sure h'))
    refine Wp.bind (sure_read (fun d => d.rand) (fun _ => rfl) (fun d => ?_))
    refine Wp.bind (sure_read (fun d => d.clock) (fun _ => rfl) (fun d => ?_))
    exact Wp.bind (sure_assigns (fun d' => (newTimerRow d'.uuid _ d'.now,
      [.timer (newTimerRow d'.uuid _ d'.now)])) (fun _ => rfl)
      (fun d' => hjudge (hknown.aside [.timer _] rfl) _ _ _ _ _))
  · exact Wp.bind ((hjudge hknown _ _ _ _ _).mono (fun _ _ h' => getSteps_sure h'))

/-- `handleAttemptOutcome`, which the reaper calls in a transaction of its own, looks for the
step and the run before it writes. -/
theorem handleAttemptOutcome_allOrNothing (hs : Documents s) {attempt : TaskAttempt}
    {success : Bool} {output : Option RawMessage} {errMsg : Option String}
    (hω : (handleAttemptOutcome attempt success output errMsg).Admissible backend ω s []) :
    AllOrNothing (handleAttemptOutcome attempt success output errMsg) ω s := by
  cases ht : s.rows.steps.get? attempt.stepID with
  | none =>
    exact allOrNothing_of_run (e := .notFound) (by
      simp [handleAttemptOutcome, getStep, orNotFound, run, backend, exec, ht])
  | some t =>
    cases hr : s.rows.runs.get? attempt.workflowRunID with
    | none =>
      exact allOrNothing_of_run (e := .notFound) (by
        simp [handleAttemptOutcome, getStep, getWorkflowRun, orNotFound, run, backend, exec, ht,
          hr])
    | some r =>
      refine Sure.allOrNothing (handleAttemptOutcome_sure (known_of_get? hs hr)
        (Table.key_of_get? hr).symm (by rw [ht]; rfl) success output errMsg) hω

/-- The step and the run of an attempt are there. -/
def Attached (a : TaskAttempt) (v : Db) : Prop :=
  (v.steps.get? a.stepID).isSome ∧ (v.runs.get? a.workflowRunID).isSome

/-- A report for an attempt whose step and run are there is applied without an error. -/
theorem handleTaskResult_sure (hs : Documents s) {attemptID : UUID} {workerID : String}
    {a : TaskAttempt} (ha : Leases s.rows attemptID workerID a) (h : Attached a s.rows)
    (success : Bool) (output : Option RawMessage) (errMsg : Option String) :
    Sure (handleTaskResult attemptID workerID success output errMsg) (fun _ _ => True) s := by
  refine Wp.bind (sure_assigns (fun d => ((assignOutcome a success output errMsg d.now, true),
    [.attempt (assignOutcome a success output errMsg d.now)]))
    (fun d => by simp [exec, completeTaskAttempt_eq ha]) (fun d => ?_))
  obtain ⟨-, hstep, hrun, -⟩ := assignOutcome_frame a success output errMsg d.now
  have hknown : Known a.workflowRunID s := ⟨h.2, hs⟩
  exact Wp.bind ((handleAttemptOutcome_sure (hknown.aside [.attempt _] rfl) hrun
    (by rw [hstep]; exact h.1) success output errMsg).mono (fun _ _ _ => trivial))

/-- An attempt whose step or run is missing is ended, and then the report fails. -/
theorem run_handleTaskResult {attemptID : UUID} {workerID : String} {a : TaskAttempt}
    (ha : Leases s.rows attemptID workerID a) (h : ¬ Attached a s.rows) (success : Bool)
    (output : Option RawMessage) (errMsg : Option String) :
    (handleTaskResult attemptID workerID success output errMsg).run backend ω s [] =
      (.error .notFound,
        [.row (.attempt (assignOutcome a success output errMsg (ω 0).now))]) := by
  obtain ⟨-, hstep, hrun, -⟩ := assignOutcome_frame a success output errMsg (ω 0).now
  have hcomplete : backend.exec (.completeTaskAttempt attemptID workerID success output errMsg)
      (ω 0) s = .ok ((assignOutcome a success output errMsg (ω 0).now, true),
        [.row (.attempt (assignOutcome a success output errMsg (ω 0).now))]) := by
    simp [backend, exec, completeTaskAttempt_eq ha, assigns]
  rw [handleTaskResult, request_bind, run_call backend (w := []) hcomplete]
  cases ht : s.rows.steps.get? a.stepID with
  | none =>
    simp [handleAttemptOutcome, getStep, orNotFound, run, backend, exec, hstep, ht, Db.apply]
  | some t =>
    have hr : s.rows.runs.get? a.workflowRunID = none := by simpa [Attached, ht] using h
    simp [handleAttemptOutcome, getStep, getWorkflowRun, orNotFound, run, backend, exec,
      hstep, hrun, ht, hr, Db.apply]

/-- An attempt that has been ended is not as before. -/
theorem applyAll_ended_ne {attemptID : UUID} {workerID : String} {a : TaskAttempt}
    (ha : Leases s.rows attemptID workerID a) (success : Bool) (output : Option RawMessage)
    (errMsg : Option String) (now : Time) :
    backend.applyAll s [.row (.attempt (assignOutcome a success output errMsg now))] ≠ s := by
  intro heq
  obtain ⟨hid, -, -, hover⟩ := assignOutcome_frame a success output errMsg now
  have hrow : s.rows.attempts.get? (assignOutcome a success output errMsg now).id =
      some (assignOutcome a success output errMsg now) := by
    rw [← heq]
    exact Table.get?_put_self s.rows.attempts _
  rw [hid, Table.get?_key ha.1] at hrow
  exact hover (Option.some.inj hrow ▸ ha.2.1)

/-- `HandleTaskResult` ends the attempt before it looks for the step and the run. -/
theorem handleTaskResult_allOrNothing_iff (hs : Documents s) {attemptID : UUID}
    {workerID : String} {success : Bool} {output : Option RawMessage} {errMsg : Option String}
    (hω : (handleTaskResult attemptID workerID success output errMsg).Admissible backend ω s []) :
    AllOrNothing (handleTaskResult attemptID workerID success output errMsg) ω s ↔
      ∀ a, Leases s.rows attemptID workerID a → Attached a s.rows := by
  by_cases hleased : ∃ a, Leases s.rows attemptID workerID a
  · obtain ⟨a, ha⟩ := hleased
    by_cases hattached : Attached a s.rows
    · refine iff_of_true (Sure.allOrNothing
        (handleTaskResult_sure hs ha hattached success output errMsg) hω) (fun x hx => ?_)
      exact Option.some.inj (ha.1.symm.trans hx.1) ▸ hattached
    · exact iff_of_false (not_allOrNothing
        (run_handleTaskResult ha hattached success output errMsg)
        (applyAll_ended_ne ha success output errMsg _)) (fun hall => hattached (hall a ha))
  · have hrefused : ∀ now, ∃ a, Memory.completeTaskAttempt s.rows attemptID workerID success
        output errMsg now = ((a, false), []) := by
      intro now
      unfold Memory.completeTaskAttempt
      cases ha : s.rows.attempts.get? attemptID with
      | none => exact ⟨none, rfl⟩
      | some a =>
        refine ⟨some a, if_pos ?_⟩
        by_contra hnot
        push Not at hnot
        exact hleased ⟨a, ha, hnot.1, hnot.2.2⟩
    refine iff_of_true (Sure.allOrNothing (Q := fun _ _ => True) ?_ hω)
      (fun a ha => absurd ⟨a, ha⟩ hleased)
    refine Wp.bind (Wp.request (fun d _ => ?_))
    obtain ⟨a, heq⟩ := hrefused d.now
    exact ⟨(a.getD default, false), [], by simp [backend, exec, heq, assigns], trivial⟩

/-- The inputs of the steps of all definitions are JSON documents, as `RegisterDefinition`
leaves them. -/
def Marshalled (s : Store) : Prop :=
  ∀ d ∈ s.rows.definitions, ∀ ns ∈ d.dag.toNewSteps, ∀ m, ns.input = some m → m.IsValid

/-- `CreateSteps` for a run that exists. -/
theorem createSteps_sure (h : Known runID s) {steps : List NewStep}
    (hvalid : ∀ ns ∈ steps, ∀ m, ns.input = some m → m.IsValid) :
    Sure (createSteps runID steps) (fun rows s' => Known runID s' ∧
      ∀ t ∈ rows, t ∈ s'.rows.steps) s := by
  refine Wp.foldlM (I := fun _ rows s' => Known runID s' ∧ ∀ t ∈ rows, t ∈ s'.rows.steps) ?_
    ⟨h, fun t ht => absurd ht List.not_mem_nil⟩
  rintro rows ns rest s' hsuffix ⟨hknown, hrows⟩
  have hns : ns ∈ steps := hsuffix.subset List.mem_cons_self
  refine Wp.bind (Wp.request (fun d hadm => ⟨newStepRow d.uuid runID ns d.now,
    [.row (.step (newStepRow d.uuid runID ns d.now))], rfl, ?_⟩))
  have hnew : s'.rows.steps.get? d.uuid = none := Option.isNone_iff_eq_none.mp hadm
  have hinput : (newStepRow d.uuid runID ns d.now).input.IsValid := by
    unfold newStepRow
    cases hin : ns.input with
    | none => trivial
    | some m => exact hvalid ns hns m hin
  refine ⟨hknown.put hinput, fun t ht => Table.mem_put.mpr ?_⟩
  rcases List.mem_append.mp ht with ht | ht
  · refine Or.inr ⟨hrows t ht, ?_⟩
    exact Table.get?_eq_none.mp hnew t (hrows t ht)
  · exact Or.inl (List.mem_singleton.mp ht)

/-- `CreateRun` with a definition that has been found. -/
theorem createRun_sure (hs : Documents s) (definition : WorkflowDefinition) (name : String)
    (hvalid : ∀ ns ∈ definition.dag.toNewSteps, ∀ m, ns.input = some m → m.IsValid)
    (input : RawMessage) :
    Sure (do
      let id ← Query.newUUID.issue
      let run ← (Query.createWorkflowRun id definition.id name definition.version (shardFor id)
        input).issue
      let steps ← createSteps run.id definition.dag.toNewSteps
      appendHistory run.id .runCreated (some (.obj
        [("name", .str name), ("steps", .num steps.length), ("version", .num definition.version)]))
      reconcileTx run steps
      pure run.id) (fun _ _ => True) s := by
  refine Wp.bind (sure_read (fun d => d.uuid) (fun _ => rfl) (fun d => ?_))
  refine Wp.bind (sure_assigns (fun d' =>
    (newRun d.uuid definition.id name definition.version (shardFor d.uuid) input d'.now,
      [.run (newRun d.uuid definition.id name definition.version (shardFor d.uuid) input d'.now)]))
    (fun _ => rfl) (fun d' => ?_))
  have hknown : Known d.uuid { s with rows := Orchestrator.backend.applyAll s.rows [.run (newRun
      d.uuid definition.id name definition.version (shardFor d.uuid) input d'.now)] } :=
    ⟨Option.isSome_iff_exists.mpr ⟨_, Table.get?_put_self s.rows.runs _⟩, hs⟩
  refine Wp.bind ((createSteps_sure hknown hvalid).mono ?_)
  rintro steps s' ⟨hknown', hrows⟩
  refine Wp.bind ((sure_appendHistory (hknown'.copied hrows) _ _).mono (fun _ s'' hcopied => ?_))
  exact Wp.bind ((reconcileTx_sure hcopied).mono (fun _ _ _ => trivial))

/-- The definition that `GetLatestWorkflowDefinition` finds is in the store. -/
theorem mem_of_getLatestWorkflowDefinition {v : Db} {name : String} {draw : Draw}
    {d : WorkflowDefinition} (h : getLatestWorkflowDefinition v name draw = some d) :
    d ∈ v.definitions := by
  -- Along the loop the best row so far is none or one of the rows.
  have hloop : ∀ (rows : List WorkflowDefinition) (best : Option WorkflowDefinition),
      (rows.foldl (fun best row =>
        if row.name = name ∧ best.all (fun b => decide (b.version < row.version)) then some row
        else best) best = some d) → d ∈ rows ∨ best = some d := by
    intro rows
    induction rows with
    | nil => exact fun best hd => Or.inr hd
    | cons row rows ih =>
      intro best hd
      rcases ih _ hd with hmem | hbest
      · exact Or.inl (List.mem_cons_of_mem row hmem)
      · dsimp only at hbest
        split_ifs at hbest with hbetter
        · exact Or.inl (Option.some.inj hbest ▸ List.mem_cons_self)
        · exact Or.inr hbest
  refine (draw.shuffle_perm _).mem_iff.mp ((hloop _ none h).resolve_right ?_)
  exact fun hnone => by cases hnone

/-- The lookup of `CreateRun` is all or nothing if what comes after it is. -/
theorem AllOrNothing.lookup {α : Type} {name : String} {version : ℤ}
    {f : WorkflowDefinition → Prog α}
    (hω : (lookupDefinition name version >>= f).Admissible backend ω s [])
    (h : ∀ d ∈ s.rows.definitions, ∀ ω', (f d).Admissible backend ω' s [] →
      AllOrNothing (f d) ω' s) : AllOrNothing (lookupDefinition name version >>= f) ω s := by
  have hanswer : ∀ op : Query (Option WorkflowDefinition), ∀ answer,
      backend.exec op (ω 0) s = .ok (answer, []) → (∀ d, answer = some d → d ∈ s.rows.definitions) →
      ((do orNotFound (← op.issue)) >>= f).Admissible backend ω s [] →
      AllOrNothing ((do orNotFound (← op.issue)) >>= f) ω s := by
    intro op answer hexec hmem hω
    refine AllOrNothing.read hexec ?_
    obtain ⟨-, hrest⟩ := hω
    have hsame : backend.exec op (ω 0) (backend.applyAll s []) = .ok (answer, []) := hexec
    rw [hsame, onOk_ok] at hrest
    cases answer with
    | none => exact allOrNothing_of_run (e := .notFound) rfl
    | some d => exact h d (hmem d rfl) _ hrest
  unfold lookupDefinition at hω ⊢
  split_ifs at hω ⊢ with hv
  · refine hanswer _ _ rfl (fun d hd => ?_) hω
    exact ((ω 0).shuffle_perm _).mem_iff.mp (List.mem_of_find?_eq_some hd)
  · exact hanswer _ _ rfl (fun d hd => mem_of_getLatestWorkflowDefinition hd) hω

/-- `CreateRun` looks for the definition before it writes. -/
theorem createRun_allOrNothing (hs : Documents s) (hdefs : Marshalled s) {name : String}
    {version : ℤ} {input : Option RawMessage}
    (hω : (createRun name version input).Admissible backend ω s []) :
    AllOrNothing (createRun name version input) ω s :=
  .lookup hω (fun d hd _ hω' =>
    Sure.allOrNothing (createRun_sure hs d name (hdefs d hd) _) hω')

end Engine

section Relay

variable {s : Store}

/-- The rows of a batch are pending rows of the outbox. -/
theorem mem_fetchAndLockPendingOutbox {shardIDs : Option (List ℕ)} {limit : ℕ} {v : Db} :
    ∀ m ∈ fetchAndLockPendingOutbox shardIDs limit v, m ∈ v.outbox ∧ m.status = .pending := by
  refine List.foldlRecOn (motive := fun out => ∀ m ∈ out, m ∈ v.outbox ∧
    OutboxMessage.status m = .pending) _ _ (fun m hm => absurd hm List.not_mem_nil)
    (fun out hout m hm => ?_)
  split_ifs with _ hst
  · exact hout
  · exact hout
  · exact hout
  · exact List.forall_mem_append.mpr ⟨hout, List.forall_mem_singleton.mpr ⟨hm, not_not.mp hst⟩⟩

/-- The row is there, and has been published. -/
def IsPublished (v : Db) (id : ℕ) : Prop :=
  ∃ m, v.outbox.get? id = some m ∧ m.status = .published

/-- The row of a message that `MarkOutboxPublished` has marked. -/
abbrev published (m : OutboxMessage) (now : Time) : OutboxMessage :=
  { m with status := .published, publishedAt := some now }

/-- The rows of a batch are marked one after the other, without an error. -/
theorem run_marks {α : Type} (rows : List OutboxMessage) (k : Prog α) (ω : ℕ → Draw)
    (w : List Change) (hrows : ∀ m ∈ rows, ((backend.applyAll s w).rows.outbox.get? m.id).isSome) :
    ∃ ω' w', (rows.foldlM (fun _ row => (Query.markOutboxPublished row.id).issue) () >>=
        fun _ => k).run backend ω s w = k.run backend ω' s (w ++ w') ∧
      ∀ id, IsPublished (backend.applyAll s w).rows id ∨ id ∈ rows.map (·.id) →
        IsPublished (backend.applyAll s (w ++ w')).rows id := by
  induction rows generalizing ω w with
  | nil => exact ⟨ω, [], by rw [List.append_nil]; rfl, fun id h => by simpa using h⟩
  | cons m rows ih =>
    obtain ⟨x, hx⟩ := Option.isSome_iff_exists.mp (hrows m List.mem_cons_self)
    have hkey : x.id = m.id := Table.key_of_get? hx
    have hmark : backend.exec (.markOutboxPublished m.id) (ω 0) (backend.applyAll s w) =
        .ok ((), [.row (.outbox (published x (ω 0).now))]) := by
      change exec (.markOutboxPublished m.id) (ω 0) (backend.applyAll s w) = _
      simp [exec, Memory.markOutboxPublished, assigns, hx]
    have hget : ∀ id, (backend.applyAll s
        (w ++ [.row (.outbox (published x (ω 0).now))])).rows.outbox.get? id =
        if m.id = id then some (published x (ω 0).now)
        else (backend.applyAll s w).rows.outbox.get? id := by
      intro id
      rw [Backend.applyAll_append, ← hkey]
      exact Table.get?_put _ (published x (ω 0).now) id
    obtain ⟨ω', w', hrun, hall⟩ := ih (fun i => ω (i + 1))
      (w ++ [.row (.outbox (published x (ω 0).now))]) (fun m' hm' => by
        rw [hget]
        split_ifs
        · rfl
        · exact hrows m' (List.mem_cons_of_mem m hm'))
    rw [List.append_assoc] at hrun hall
    refine ⟨ω', _, (run_call backend hmark).trans hrun, fun id hid => hall id ?_⟩
    by_cases hm : m.id = id
    · exact Or.inl ⟨published x (ω 0).now, by rw [hget, if_pos hm], rfl⟩
    · rcases hid with ⟨y, hy, hst⟩ | hid
      · exact Or.inl ⟨y, by rw [hget, if_neg hm, hy], hst⟩
      · rw [List.map_cons, List.mem_cons] at hid
        exact Or.inr (hid.resolve_left (fun h => hm h.symm))

/-- A tick marks a row when it has been published. When `Publish` fails, the rows before
stay marked, so that the tick is all or nothing only if it fails for the first row or not
at all. -/
theorem relayTickFailing_allOrNothing_iff {shardIDs : Option (List ℕ)} {batchSize position : ℕ}
    {ω : ℕ → Draw} : AllOrNothing (relayTickFailing shardIDs batchSize position) ω s ↔
      position = 0 ∨ (fetchAndLockPendingOutbox shardIDs batchSize s.rows).length ≤ position := by
  have hfetch : (relayTickFailing shardIDs batchSize position).run backend ω s [] = _ :=
    run_call backend (w := []) (a := fetchAndLockPendingOutbox shardIDs batchSize s.rows) rfl
  have hmem : ∀ m ∈ fetchAndLockPendingOutbox shardIDs batchSize s.rows,
      s.rows.outbox.get? m.id = some m ∧ m.status = .pending := fun m hm =>
    ⟨Table.mem_iff_get?.mp (mem_fetchAndLockPendingOutbox m hm).1,
      (mem_fetchAndLockPendingOutbox m hm).2⟩
  generalize fetchAndLockPendingOutbox shardIDs batchSize s.rows = rows at hfetch hmem ⊢
  obtain ⟨ω', w, hrun, hmarked⟩ := run_marks (s := s) (rows.take position)
    (if position < rows.length then .fail .publish else pure ()) (fun i => ω (i + 1)) []
    (fun m hm => by
      rw [Backend.applyAll_nil, (hmem m (List.mem_of_mem_take hm)).1]
      rfl)
  rw [List.nil_append] at hrun hmarked
  have hend := hfetch.trans hrun
  by_cases hlt : position < rows.length
  · rw [if_pos hlt] at hend
    by_cases hzero : position = 0
    · subst hzero
      refine iff_of_true (allOrNothing_of_run (e := .publish) (hfetch.trans ?_)) (Or.inl rfl)
      change (if 0 < rows.length then Program.fail .publish else .ret () : Prog Unit).run backend
        (fun i => ω (i + 1)) s [] = _
      rw [if_pos hlt]
      rfl
    · refine iff_of_false (not_allOrNothing (e := .publish) (w := w) hend (fun hsame => ?_))
        (not_or.mpr ⟨hzero, not_le.mpr hlt⟩)
      -- The first row of the batch was pending.
      obtain ⟨m, hm⟩ : ∃ m, m ∈ rows.take position :=
        List.exists_mem_of_length_pos (by rw [List.length_take]; omega)
      obtain ⟨x, hx, hst⟩ := hmarked m.id (Or.inr (List.mem_map_of_mem hm))
      obtain ⟨hrow, hpending⟩ := hmem m (List.mem_of_mem_take hm)
      rw [hsame, hrow] at hx
      rw [← Option.some.inj hx, hpending] at hst
      cases hst
  · rw [if_neg hlt] at hend
    refine iff_of_true (fun e herr => ?_) (Or.inr (not_lt.mp hlt))
    rw [withTx, hend] at herr
    cases herr

end Relay

/-- The answer of `WithTx` is the callback's, as on a store with a rollback, but a callback
that fails may leave writes behind. For the calls of the engine and the relay that can, in
a store whose inputs are documents, the writes stay exactly if something that the call
refers to is missing, or if `Publish` fails for a row after the first one. The other calls
of the engine are all or nothing. -/
theorem withTx_all_or_nothing_iff {s : Store} (hs : Documents s) :
    (∀ {α : Type} (p : Prog α) (ω : ℕ → Draw),
      (withTx p ω s).1 = (p.withTx backend ω s []).1) ∧
    (∀ runID name payload ω, (applySignal runID name payload).Admissible backend ω s [] →
      (AllOrNothing (applySignal runID name payload) ω s ↔
        name = "__cancel__" ∨ (s.rows.runs.get? runID).isSome)) ∧
    (∀ timerID ω, (handleFiredTimer timerID).Admissible backend ω s [] →
      (AllOrNothing (handleFiredTimer timerID) ω s ↔ ∀ tm, s.rows.timers.get? timerID = some tm →
        tm.status = .pending → Grounded tm s.rows)) ∧
    (∀ attemptID workerID success output errMsg ω,
      (handleTaskResult attemptID workerID success output errMsg).Admissible backend ω s [] →
      (AllOrNothing (handleTaskResult attemptID workerID success output errMsg) ω s ↔
        ∀ a, Leases s.rows attemptID workerID a → Attached a s.rows)) ∧
    (∀ runID ω, (reconcile runID).Admissible backend ω s [] → AllOrNothing (reconcile runID) ω s) ∧
    (∀ runID ω, (cancelRun runID).Admissible backend ω s [] → AllOrNothing (cancelRun runID) ω s) ∧
    (∀ attempt success output errMsg ω,
      (handleAttemptOutcome attempt success output errMsg).Admissible backend ω s [] →
      AllOrNothing (handleAttemptOutcome attempt success output errMsg) ω s) ∧
    (Marshalled s → ∀ name version input ω,
      (createRun name version input).Admissible backend ω s [] →
      AllOrNothing (createRun name version input) ω s) ∧
    ∀ shardIDs batchSize position ω,
      AllOrNothing (relayTickFailing shardIDs batchSize position) ω s ↔ position = 0 ∨
        (fetchAndLockPendingOutbox shardIDs batchSize s.rows).length ≤ position := by
  refine ⟨fun p ω => ?_, fun _ _ _ _ hω => applySignal_allOrNothing_iff hs hω,
    fun _ _ hω => handleFiredTimer_allOrNothing_iff hs hω,
    fun _ _ _ _ _ _ hω => handleTaskResult_allOrNothing_iff hs hω,
    fun _ _ hω => reconcile_allOrNothing hs hω, fun _ _ hω => cancelRun_allOrNothing hs hω,
    fun _ _ _ _ _ hω => handleAttemptOutcome_allOrNothing hs hω,
    fun hdefs _ _ _ _ hω => createRun_allOrNothing hs hdefs hω,
    fun _ _ _ _ => relayTickFailing_allOrNothing_iff⟩
  simp only [withTx, Program.withTx]
  rcases p.run backend ω s [] with ⟨_ | _, _⟩ <;> rfl

/-- Two rows in the outbox. -/
def twoMessages : Store :=
  (withTx (do
    let _ ← (Query.insertOutboxMessage default).issue
    let _ ← (Query.insertOutboxMessage default).issue
    pure ()) Draw.tick .new).2

/-- With two rows in the outbox, a tick is all or nothing unless `Publish` fails for the
second one. -/
theorem withTx_all_or_nothing_iff_two :
    (∀ t ∈ twoMessages.rows.steps.rows, t.input.IsValid) ∧
    ∀ position, AllOrNothing (relayTickFailing none 100 position) Draw.tick twoMessages ↔
      position = 0 ∨ 2 ≤ position := by
  have hs : Documents twoMessages := by
    have hnone : twoMessages.rows.steps.rows = [] := by decide +kernel
    intro t ht
    exact absurd (hnone ▸ ht : t ∈ ([] : List Step)) List.not_mem_nil
  refine ⟨hs, fun position => ?_⟩
  have hlength : (fetchAndLockPendingOutbox none 100 twoMessages.rows).length = 2 := by
    decide +kernel
  obtain ⟨-, -, -, -, -, -, -, -, hrelay⟩ := withTx_all_or_nothing_iff hs
  have h := hrelay none 100 position Draw.tick
  rwa [hlength] at h

/-- A signal for a run that does not exist stays when `ApplySignal` fails, and a row of
the outbox stays marked when the publication of the next one fails. Postgres keeps
neither. -/
theorem failed_callbacks_leave_writes :
    (withTx (applySignal 7 "go" none) Draw.tick .new).1 = .error .notFound ∧
    (withTx (applySignal 7 "go" none) Draw.tick .new).2.rows.signals.rows.map
      (fun sig => (sig.workflowRunID, sig.signalName)) = [(7, "go")] ∧
    ((applySignal 7 "go" none).withTx Orchestrator.backend Draw.tick Db.empty []).2.signals.rows
      = [] ∧
    twoMessages.rows.outbox.rows.map (·.status) = [.pending, .pending] ∧
    (withTx (relayTickFailing none 100 1) Draw.tick twoMessages).1 = .error .publish ∧
    (withTx (relayTickFailing none 100 1) Draw.tick twoMessages).2.rows.outbox.rows.map
      (·.status) = [.published, .pending] ∧
    ((relayTickFailing none 100 1).withTx Orchestrator.backend Draw.tick
      twoMessages.rows []).2.outbox.rows.map (·.status) = [.pending, .pending] := by
  decide +kernel

end Orchestrator.Memory
