import Orchestrator.Solo.Reconcile
import Orchestrator.Transactions.Create

/-!
# Entry points that run alone

Each entry point changes a few rows and then evaluates the run. What it did before
the evaluation is given by the actions it consists of.
-/

namespace Orchestrator

open Lib Program Actions

section Reconcile

variable {v : Db}

/-- `Reconcile` up to its call of `reconcileTx`. It fails only if there is no such run. -/
theorem reconcileArgs_solo {Err : Error → Prop} {R : UUID → Db → Db → Prop} (hb : Base v)
    (runID : UUID) (hnone : v.runs.get? runID = none → Err .notFound) :
    Solo Err (reconcileArgs runID) (Called R (fun v' =>
      ∃ r, v.runs.get? runID = some r ∧ ((runTerminal r.status = true ∧ v' = v) ∨
        (runTerminal r.status = false ∧ R runID v v')))) v := by
  cases hr : v.runs.get? runID with
  | none =>
    refine Wp.bind (Wp.bind (solo_read (fun _ v => v.runs.get? runID) (fun _ _ => rfl)
      (fun d => ?_)))
    rw [hr]
    exact hnone hr
  | some r =>
    obtain rfl : r.id = runID := Table.key_of_get? hr
    refine Wp.bind (solo_lookup (fun _ v => v.runs.get? r.id) (fun _ _ => rfl) (fun _ => hr) ?_)
    exact Wp.bind (getSteps_called hr rfl rfl (fun _ => hb)
      (fun hend => ⟨r, rfl, Or.inl ⟨hend, rfl⟩⟩)
      (fun hlive v' heval => ⟨r, rfl, Or.inr ⟨hlive, heval⟩⟩))

/-- `Reconcile`, where only some draws are considered. -/
theorem reconcile_wp {P : Draw → Prop} {R : UUID → Db → Db → Prop} (hR : Describes P R)
    (hb : Base v) (runID : UUID) :
    (reconcile runID).Wp (backend.restrict P) (fun _ => v.runs.get? runID = none) (fun _ v' =>
      ∃ r, v.runs.get? runID = some r ∧ ((runTerminal r.status = true ∧ v' = v) ∨
        (runTerminal r.status = false ∧ R runID v v'))) v := by
  rw [reconcile_eq]
  exact Wp.bind ((reconcileArgs_solo (R := R) hb runID id).restrict.mono (fun _ _ h => h.wp hR))

/-- `Reconcile`. -/
theorem reconcile_solo (hb : Base v) (runID : UUID) :
    Solo (fun _ => v.runs.get? runID = none) (reconcile runID) (fun _ v' =>
      ∃ r, v.runs.get? runID = some r ∧ ((runTerminal r.status = true ∧ v' = v) ∨
        (runTerminal r.status = false ∧ Evaluated runID v v'))) v :=
  (reconcile_wp describes_evaluated hb runID).of_restrict

end Reconcile

section Outcome

/-- The outcome of an attempt moves its step on. -/
structure MovesOn (v : Db) (a : TaskAttempt) (success : Bool) (ws : List Write) (v₀ : Db) :
    Prop where
  attempts : v₀.attempts = (backend.applyAll v ws).attempts
  handled : v₀.handled = (backend.applyAll v ws).handled
  signals : v₀.signals = v.signals
  step : ∃ t t', v.steps.get? a.stepID = some t ∧ (t.status = .queued ∨ t.status = .running) ∧
    Becomes v t t' v₀ ∧ (success = true ∧ t'.status = .completed ∨
      success = false ∧ (t'.status = .retryBackoff ∨ t'.status = .failed))

/-- How the outcome of an attempt is applied. The writes `ws` have ended the
attempt. What the evaluation of the run does is given by `R`. -/
inductive Applies (R : UUID → Db → Db → Prop) (v : Db) (a : TaskAttempt) (success : Bool)
    (ws : List Write) (v' : Db) : Prop
  /-- The step changes, and the run is evaluated. -/
  | change {k : Kind} {rest : List Write} : k = .succeed ∨ k = .retry ∨ k = .giveUp →
      Act ⟨a.workflowRunID, k⟩ v (ws ++ rest) →
      MovesOn v a success ws (backend.applyAll v (ws ++ rest)) →
      R a.workflowRunID (backend.applyAll v (ws ++ rest)) v' → Applies R v a success ws v'
  /-- The step has been cancelled. A timer is left behind if it could be retried. -/
  | late {t : Step} {tms : List Write} : v.steps.get? a.stepID = some t → t.status = .cancelled →
      (tms = [] ∨ success = false ∧ (t.attemptCount : ℤ) < t.maxAttempts ∧
        ∃ tm, tms = [.timer tm] ∧ IsRetryTimer tm t ∧
          tm.shardID = shardFor t.workflowRunID ∧ v.timers.get? tm.id = none) →
      v' = backend.applyAll v (ws ++ tms) → Applies R v a success ws v'

variable {Err : Error → Prop} {R : UUID → Db → Db → Prop} {v : Db} {a : TaskAttempt}
  {success : Bool} {result : Option RawMessage} {ws : List Write}

/-- The update of a step by the outcome of its attempt, and its event. -/
theorem judge_solo {w : Db} {id runID : UUID} {next : StepStatus} {output : Option RawMessage}
    {errMsg : Option String} {eventType : EventType} {payload : Option Json} {t : Step}
    {r : WorkflowRun} (ht : w.steps.get? id = some t) (hr : w.runs.get? runID = some r)
    (hvalid : ∀ o, output = some o → o.IsValid) :
    Solo Err (do
        let ok ← (Query.updateStepStatus id [.queued, .running] next output errMsg false).issue
        if ok then appendHistory runID eventType payload else pure ())
      (fun _ w' => ((t.status = .queued ∨ t.status = .running) ∧ ∃ now now',
          w' = backend.applyAll w (.step (t.transition next output errMsg false now) ::
            historyWrites r eventType payload now')) ∨
        (t.status ≠ .queued ∧ t.status ≠ .running ∧ w' = w)) w := by
  by_cases hst : t.status ∈ [StepStatus.queued, .running]
  · refine Wp.bind (solo_updateStep ht hst hvalid (fun now => ?_))
    simp only [if_true]
    refine solo_appendHistory (r := r) hr (fun now' => Or.inl ⟨by simpa using hst, now, now', rfl⟩)
  · refine Wp.bind (Wp.request (fun d _ => ⟨false, [], ?_, ?_⟩))
    · simp [Query.exec, jsonb_of_valid hvalid, ht, hst]
      rfl
    · simp only [List.mem_cons, List.not_mem_nil, or_false, not_or] at hst
      exact Or.inr ⟨hst.1, hst.2, rfl⟩

/-- The step and the run of an attempt that the writes `ws` have ended. The run goes
on exactly as long as the step has not been cancelled. -/
structure Ending (v : Db) (a : TaskAttempt) (ws : List Write) (t : Step) (r : WorkflowRun) :
    Prop where
  step : v.steps.get? a.stepID = some t
  run : v.runs.get? a.workflowRunID = some r
  parent : t.workflowRunID = a.workflowRunID
  status : t.status = .queued ∨ t.status = .running ∨ t.status = .cancelled
  live : t.status = .queued ∨ t.status = .running → runTerminal r.status = false
  ended : t.status = .cancelled → runTerminal r.status = true
  steps : (backend.applyAll v ws).steps = v.steps
  runs : (backend.applyAll v ws).runs = v.runs
  signals : (backend.applyAll v ws).signals = v.signals

theorem Closes.ending (hclose : Closes v a success result ws) (hb : Base v)
    (hup : Upright a.workflowRunID v) : ∃ t r, Ending v a ws t r := by
  obtain ⟨hsteps, hruns, -⟩ := hclose.frame
  have hmem := Table.mem_of_get? hclose.mem
  obtain ⟨t, ht, hid, hparent, -⟩ := hb.ledger.parent a hmem
  have hget : v.steps.get? a.stepID = some t := hid ▸ Table.mem_iff_get?.mp ht
  obtain ⟨-, hst⟩ := hb.ledger.latest_of_open hmem hclose.isOpen hget
  obtain ⟨r, hr, hrid⟩ := hb.graph.run t ht
  have hrget : v.runs.get? a.workflowRunID = some r :=
    hrid.trans hparent.symm ▸ Table.mem_iff_get?.mp hr
  refine ⟨t, r, hget, hrget, hparent.symm, hst, fun hfly => ?_, fun hcancelled => ?_, hsteps, hruns,
    by cases hclose <;> rfl⟩
  · refine Bool.eq_false_iff.mpr (fun hend => ?_)
    have hdone := hup.ended r hrget hend t ht hparent.symm
    rw [stepTerminal_of_inFlight hfly] at hdone
    cases hdone
  · obtain ⟨r', hr', hend⟩ := hup.cancelled t ht hparent.symm hcancelled
    exact Option.some.inj (hrget.symm.trans hr') ▸ hend

/-- The step is updated if it has not been cancelled, and the run is evaluated. -/
theorem Ending.judge {t : Step} {r : WorkflowRun} (h : Ending v a ws t r) (hb : Base v) {k : Kind}
    {next : StepStatus} {output : Option RawMessage} {errMsg : Option String}
    {eventType : EventType} {payload : Option Json} {tms : List Write} {w : Db}
    (hk : k = .succeed ∨ k = .retry ∨ k = .giveUp) (hvalid : ∀ o, output = some o → o.IsValid)
    (hnext : success = true ∧ next = .completed ∨
      success = false ∧ (next = .retryBackoff ∨ next = .failed))
    (htms : tms = [] ∨ success = false ∧ (t.attemptCount : ℤ) < t.maxAttempts ∧
      ∃ tm, tms = [.timer tm] ∧ IsRetryTimer tm t ∧
        tm.shardID = shardFor t.workflowRunID ∧ v.timers.get? tm.id = none)
    (hw : w = backend.applyAll v (ws ++ tms))
    (hact : ∀ now now', t.status = .queued ∨ t.status = .running → Act ⟨a.workflowRunID, k⟩ v
      (ws ++ (tms ++ .step (t.transition next output errMsg false now) ::
        historyWrites r eventType payload now'))) :
    Solo Err (do
        let ok ← (Query.updateStepStatus t.id [.queued, .running] next output errMsg false).issue
        if ok then appendHistory r.id eventType payload else pure ())
      (fun _ w' => Solo Err (do
        let steps ← (Query.getSteps r.id).issue
        pure (r, steps)) (Called R (Applies R v a success ws)) w') w := by
  have hrid : r.id = a.workflowRunID := Table.key_of_get? h.run
  have haside : w.steps = v.steps ∧ w.runs = v.runs ∧
      w.attempts = (backend.applyAll v ws).attempts ∧
      w.handled = (backend.applyAll v ws).handled ∧ w.signals = v.signals := by
    rw [hw, Backend.applyAll_append]
    rcases htms with rfl | ⟨-, -, tm, rfl, -⟩ <;> exact ⟨h.steps, h.runs, rfl, rfl, h.signals⟩
  refine (judge_solo (t := t) (r := r) ?_ ?_ hvalid).mono ?_
  · rw [haside.1]
    exact Table.get?_key h.step
  · rw [haside.2.1, hrid]
    exact h.run
  · rintro - w' (⟨hfly, now, now', rfl⟩ | ⟨hnq, hnr, rfl⟩)
    · have hdone := hact now now' hfly
      have hr' := get?_stepEvent v (ws ++ tms) (t.transition next output errMsg false now) r
        eventType payload now'
      rw [List.append_assoc] at hr'
      rw [hw, ← Backend.applyAll_append, List.append_assoc]
      refine Wp.bind (getSteps_called hr' rfl rfl (fun _ => hdone.base hb) (fun hterm => ?_)
        (fun _ v' heval => .change hk hdone ?_ (hrid ▸ heval)))
      · rw [h.live hfly] at hterm
        cases hterm
      · rw [← List.append_assoc, Backend.applyAll_append, ← hw]
        obtain ⟨hsteps, -, hattempts, hhandled, hsignals⟩ := haside
        refine ⟨hattempts, hhandled, hsignals, t, t.transition next output errMsg false now, h.step,
          hfly, ⟨rfl, ?_⟩, hnext⟩
        rw [← hsteps]
        rfl
    · have hcancelled : t.status = .cancelled := (h.status.resolve_left hnq).resolve_left hnr
      have hended := h.ended hcancelled
      have hr' : w'.runs.get? r.id = some r := by
        rw [haside.2.1, hrid]
        exact h.run
      refine Wp.bind (getSteps_called hr' rfl rfl (fun hlive => ?_)
        (fun _ => .late h.step hcancelled htms hw) (fun hlive => ?_)) <;>
      · rw [hended] at hlive
        cases hlive

/-- `handleAttemptOutcome` up to its call of `reconcileTx`, when an attempt has been ended.
It does not fail. -/
theorem handleAttemptOutcomeArgs_solo (hb : Base v) (hclose : Closes v a success result ws)
    (hup : Upright a.workflowRunID v) (hvalid : ∀ o, result = some o → o.IsValid)
    {attempt : TaskAttempt} (hstep : attempt.stepID = a.stepID)
    (hrun : attempt.workflowRunID = a.workflowRunID) (errMsg : Option String) :
    Solo Err (handleAttemptOutcomeArgs attempt success result errMsg)
      (Called R (Applies R v a success ws)) (backend.applyAll v ws) := by
  obtain ⟨t, r, hending⟩ := hclose.ending hb hup
  have hrid : r.id = a.workflowRunID := Table.key_of_get? hending.run
  have hsame : backend.applyAll v ws = backend.applyAll v (ws ++ []) := by rw [List.append_nil]
  unfold handleAttemptOutcomeArgs
  have hget : (backend.applyAll v ws).steps.get? attempt.stepID = some t := by
    rw [hending.steps, hstep]
    exact hending.step
  have hrget : (backend.applyAll v ws).runs.get? attempt.workflowRunID = some r := by
    rw [hending.runs, hrun]
    exact hending.run
  refine Wp.bind (solo_lookup (fun _ v => v.steps.get? attempt.stepID) (fun _ _ => rfl)
    (fun _ => hget) ?_)
  refine Wp.bind (solo_lookup (fun _ v => v.runs.get? attempt.workflowRunID) (fun _ _ => rfl)
    (fun _ => hrget) ?_)
  cases success with
  | true =>
    simp only [if_true]
    exact Wp.bind (hending.judge hb (Or.inl rfl) hvalid (Or.inl ⟨rfl, rfl⟩) (Or.inl rfl) hsame
      (fun now now' hfly => .succeed hclose hending.step hfly hvalid hending.run))
  | false =>
    simp only [Bool.false_eq_true, if_false]
    by_cases hcount : (t.attemptCount : ℤ) < t.maxAttempts
    · rw [if_pos hcount]
      unfold retryStep
      refine Wp.bind (Wp.bind (solo_read (fun d _ => d.rand) (fun _ _ => rfl) (fun d => ?_)))
      dsimp only
      refine Wp.bind (solo_read (fun d _ => d.clock) (fun _ _ => rfl) (fun d => ?_))
      refine Wp.bind (Wp.request (fun d' hadm => ⟨newTimerRow d'.uuid _ d'.now,
        [.timer (newTimerRow d'.uuid _ d'.now)], by
          simp only [backend_exec, Query.exec]
          rw [if_neg]
          simp [hending.runs, hending.steps, hrid, hending.run, Table.get?_key hending.step], ?_⟩))
      have hnew : v.timers.get? d'.uuid = none := by
        simpa [Query.admits, hclose.frame.2.2] using hadm
      have hshard : r.shardID = shardFor t.workflowRunID := by
        rw [hb.shards r (Table.mem_of_get? hending.run), hrid, hending.parent]
      have hrun : r.id = t.workflowRunID := hrid.trans hending.parent.symm
      refine hending.judge hb (k := .retry) (Or.inr (Or.inl rfl)) RawMessage.isValid_of_none
        (Or.inr ⟨rfl, Or.inl rfl⟩)
        (Or.inr ⟨rfl, hcount, _, rfl, ⟨rfl, rfl, hrun, rfl⟩, hshard, hnew⟩)
        (Backend.applyAll_append _ _ _ _).symm (fun now now' hfly => ?_)
      exact .retry hclose hending.step hfly hcount
        ⟨rfl, rfl, hrun, rfl⟩ hshard hnew hending.run
    · rw [if_neg hcount]
      exact Wp.bind (hending.judge hb (Or.inr (Or.inr rfl)) RawMessage.isValid_of_none
        (Or.inr ⟨rfl, Or.inr rfl⟩) (Or.inl rfl) hsame
        (fun now now' hfly => .giveUp hclose hending.step hfly hcount hending.run))

/-- `handleAttemptOutcome`. -/
theorem handleAttemptOutcome_solo (hb : Base v) (hclose : Closes v a success result ws)
    (hup : Upright a.workflowRunID v) (hvalid : ∀ o, result = some o → o.IsValid)
    {attempt : TaskAttempt} (hstep : attempt.stepID = a.stepID)
    (hrun : attempt.workflowRunID = a.workflowRunID) (errMsg : Option String) :
    Solo Err (handleAttemptOutcome attempt success result errMsg)
      (fun _ v' => Applies Evaluated v a success ws v') (backend.applyAll v ws) := by
  rw [handleAttemptOutcome_eq]
  exact Wp.bind ((handleAttemptOutcomeArgs_solo (R := Evaluated) hb hclose hup hvalid hstep hrun
    errMsg).mono (fun _ _ h => h.solo))

/-- What the report of a worker leads to. One of a worker that has no lease is not accepted
and changes nothing. -/
def Reported (R : UUID → Db → Db → Prop) (v : Db) (attemptID : UUID) (workerID : String)
    (success : Bool) (output : Option RawMessage) (errMsg : Option String) (accepted : Bool)
    (v' : Db) : Prop :=
  (accepted = false ∧ v' = v ∧
    ∃ a, v.attempts.get? attemptID = some a ∧ a.leasedTo workerID = false) ∨ (accepted = true ∧
    ∃ a now, v.attempts.get? attemptID = some a ∧ a.leasedTo workerID = true ∧
      (∀ o, output = some o → o.IsValid) ∧
      Applies R v a success [.attempt (a.complete success output errMsg now)] v')

/-- `HandleTaskResult` up to its call of `reconcileTx`. -/
theorem handleTaskResultArgs_solo (hb : Base v) (hup : ∀ runID, Upright runID v)
    (attemptID : UUID) (workerID : String) (success : Bool) (output : Option RawMessage)
    (errMsg : Option String) (hnone : v.attempts.get? attemptID = none → Err .notFound)
    (hinvalid : (¬ ∀ o, output = some o → o.IsValid) → Err .invalidJSON) :
    Solo Err (handleTaskResultArgs attemptID workerID success output errMsg)
      (fun o => CalledIf R (Reported R v attemptID workerID success output errMsg o.isSome) o)
      v := by
  refine Wp.bind (fun d _ => ?_)
  simp only [backend_exec, Query.exec]
  cases hjson : jsonb output with
  | error e =>
    obtain rfl := jsonb_eq_error hjson
    refine hinvalid (fun hvalid => ?_)
    rw [jsonb_of_valid hvalid] at hjson
    cases hjson
  | ok output' =>
    obtain ⟨rfl, hvalid⟩ := jsonb_eq_ok hjson
    cases ha : v.attempts.get? attemptID with
    | none => exact hnone ha
    | some a =>
      by_cases hlease : a.leasedTo workerID = true
      · have hleased : a.status = .leased := by
          simp only [TaskAttempt.leasedTo, Bool.and_eq_true, beq_iff_eq] at hlease
          exact hlease.1
        simp only [Bind.bind, Except.bind, hlease, if_true]
        refine Wp.bind ((handleAttemptOutcomeArgs_solo (R := R) hb
          (.report (Table.get?_key ha) hleased) (hup a.workflowRunID) hvalid rfl rfl errMsg).mono
          (fun args w hcalled => ?_))
        exact hcalled.mono (fun v' h => Or.inr ⟨rfl, a, d.now, ha, hlease, hvalid, h⟩)
      · simp only [Bind.bind, Except.bind, hlease]
        exact Or.inl ⟨rfl, rfl, a, ha, Bool.eq_false_iff.mpr hlease⟩

/-- `HandleTaskResult`, where only some draws are considered. -/
theorem handleTaskResult_wp {E : Error → Prop} {P : Draw → Prop} (hR : Describes P R) (hb : Base v)
    (hup : ∀ runID, Upright runID v) (attemptID : UUID) (workerID : String) (success : Bool)
    (output : Option RawMessage) (errMsg : Option String)
    (hnone : v.attempts.get? attemptID = none → E .notFound)
    (hinvalid : (¬ ∀ o, output = some o → o.IsValid) → E .invalidJSON) :
    (handleTaskResult attemptID workerID success output errMsg).Wp (backend.restrict P) E
      (Reported R v attemptID workerID success output errMsg) v := by
  rw [handleTaskResult_eq]
  refine Wp.bind ((handleTaskResultArgs_solo (R := R) hb hup attemptID workerID success
    output errMsg hnone hinvalid).restrict.mono (fun o w h => ?_))
  exact Wp.bind ((h.wp hR).mono (fun _ _ hreported => hreported))

/-- `HandleTaskResult`. -/
theorem handleTaskResult_solo (hb : Base v) (hup : ∀ runID, Upright runID v) (attemptID : UUID)
    (workerID : String) (success : Bool) (output : Option RawMessage) (errMsg : Option String) :
    Solo (fun _ => True) (handleTaskResult attemptID workerID success output errMsg)
      (Reported Evaluated v attemptID workerID success output errMsg) v :=
  (handleTaskResult_wp describes_evaluated hb hup attemptID workerID success output errMsg
    (fun _ => trivial) (fun _ => trivial)).of_restrict

/-- The report of the worker that holds the lease is accepted. -/
theorem handleTaskResult_accepts (hb : Base v) (hup : ∀ runID, Upright runID v) {workerID : String}
    (ha : v.attempts.get? a.id = some a) (hlease : a.leasedTo workerID = true) (success : Bool)
    {output : Option RawMessage} (hvalid : ∀ o, output = some o → o.IsValid)
    (errMsg : Option String) :
    Solo (fun _ => False) (handleTaskResult a.id workerID success output errMsg)
      (fun accepted v' => accepted = true ∧ ∃ now,
        Applies Evaluated v a success [.attempt (a.complete success output errMsg now)] v') v := by
  refine (handleTaskResult_wp describes_evaluated hb hup a.id workerID success output errMsg
    (fun hnone => by cases ha.symm.trans hnone)
    (fun hinvalid => hinvalid hvalid)).of_restrict.mono ?_
  rintro accepted v' (⟨-, -, a', ha', hnot⟩ | ⟨rfl, a', now, ha', -, -, happ⟩)
  · rw [← Option.some.inj (ha.symm.trans ha'), hlease] at hnot
    cases hnot
  · obtain rfl := Option.some.inj (ha.symm.trans ha')
    exact ⟨rfl, now, happ⟩

end Outcome

section Timer

/-- The row of a timer that has been fired. -/
abbrev Timer.fire (tm : Timer) (now : Time) : Timer :=
  { tm with status := .fired, firedAt := some now }

/-- The writes dispatch the step, and touch no timer. -/
structure Redispatched (v : Db) (t : Step) (now : Time) (u : List Write) : Prop where
  steps : (backend.applyAll v u).steps =
    v.steps.put (t.transition .queued none none true now)
  signals : (backend.applyAll v u).signals = v.signals
  timers : (backend.applyAll v u).timers = v.timers

/-- What becomes of a timer that is to be fired. -/
inductive Fires (R : UUID → Db → Db → Prop) (v : Db) (timerID : UUID) (v' : Db) : Prop
  /-- It is not armed. -/
  | unarmed : (∀ tm, v.timers.get? timerID = some tm → tm.status ≠ .pending) → v' = v →
      Fires R v timerID v'
  /-- It is fired, but its step does not wait for it. -/
  | idle {tm : Timer} {t : Step} {r : WorkflowRun} {now : Time} :
      v.timers.get? timerID = some tm → tm.status = .pending → tm.stepID = some t.id →
      v.steps.get? t.id = some t → v.runs.get? tm.workflowRunID = some r →
      t.status ≠ .retryBackoff ∨ runTerminal r.status = true →
      v' = v.apply (.timer (tm.fire now)) →
      Fires R v timerID v'
  /-- It is fired, its step is dispatched, and the run is evaluated. -/
  | retry {tm : Timer} {t : Step} {r : WorkflowRun} {now now' : Time} {u : List Write} :
      v.timers.get? timerID = some tm → tm.status = .pending → tm.stepID = some t.id →
      v.steps.get? t.id = some t → v.runs.get? tm.workflowRunID = some r →
      t.status = .retryBackoff → runTerminal r.status = false →
      t.workflowRunID = tm.workflowRunID →
      Act ⟨tm.workflowRunID, .dispatch⟩
        (v.apply (.timer (tm.fire now))) u →
      Redispatched (v.apply (.timer (tm.fire now))) t now' u →
      R tm.workflowRunID (backend.applyAll
        (v.apply (.timer (tm.fire now))) u) v' →
      Fires R v timerID v'

/-- `HandleFiredTimer` up to its call of `reconcileTx`. It does not fail. -/
theorem handleFiredTimerArgs_solo {Err : Error → Prop} {R : UUID → Db → Db → Prop} {v : Db}
    (hb : Base v) (timerID : UUID) :
    Solo Err (handleFiredTimerArgs timerID) (CalledIf R (Fires R v timerID)) v := by
  unfold handleFiredTimerArgs
  cases htm : v.timers.get? timerID with
  | none =>
    refine Wp.bind (Wp.request (fun _ _ => ⟨none, [], by simp [Query.exec, htm], ?_⟩))
    exact .unarmed (fun _ h => by cases htm.symm.trans h) rfl
  | some tm =>
    by_cases hst : tm.status = .pending
    · refine Wp.bind (Wp.request (fun d _ => ⟨some (tm.fire d.now), [.timer (tm.fire d.now)],
        by simp [Query.exec, htm, hst], ?_⟩))
      have hfire : Act ⟨tm.workflowRunID, .fireTimer⟩ v
          [.timer (tm.fire d.now)] :=
        .fireTimer (Table.get?_key htm) hst
      have hb₁ : Base (v.apply (.timer (tm.fire d.now))) :=
        hfire.base hb
      obtain ⟨hkind, t, ht, hstep, hrun⟩ := hb.clocks tm (Table.mem_of_get? htm)
      have hget : v.steps.get? t.id = some t := Table.mem_iff_get?.mp ht
      obtain ⟨r, hr, hrid⟩ := hb.graph.run t ht
      have hrid : r.id = tm.workflowRunID := hrid.trans hrun
      have hrget : v.runs.get? tm.workflowRunID = some r := hrid ▸ Table.mem_iff_get?.mp hr
      simp only [hkind, handleRetryTimerFiredArgs, hstep]
      refine Wp.bind (solo_lookup (fun _ v => v.steps.get? t.id) (fun _ _ => rfl)
        (fun _ => hget) ?_)
      refine Wp.bind (solo_lookup (fun _ v => v.runs.get? tm.workflowRunID) (fun _ _ => rfl)
        (fun _ => hrget) ?_)
      by_cases hidle : t.status ≠ .retryBackoff ∨ runTerminal r.status = true
      · rw [if_pos hidle]
        exact .idle htm hst hstep hget hrget hidle rfl
      · rw [if_neg hidle]
        obtain ⟨hback, hlive⟩ := not_or.mp hidle
        have hback : t.status = .retryBackoff := not_not.mp hback
        have hlive : runTerminal r.status = false := by simpa using hlive
        refine Wp.bind (dispatchStep_solo hb₁ (t := t) (by exact hget) (.refl t)
          (hrun.trans hrid.symm) (by simp [hback]) (r := r) (by exact hrid ▸ hrget) rfl ?_)
        intro id key messageID now₀ now₁ now₂ now₃ hnew hslot hmsg
        have hact : Act ⟨t.workflowRunID, .dispatch⟩ (v.apply (.timer (tm.fire d.now)))
            (dispatchWrites t r id key messageID now₀ now₁ now₂ now₃) :=
          .dispatch (by exact hget) (Or.inr hback) hnew hslot hmsg (by exact hrun ▸ hrget)
        rw [hrun] at hact
        have hrow := get?_event (backend.applyAll (v.apply (.timer (tm.fire d.now)))
          [.attempt (newAttempt id t.id t.workflowRunID (t.attemptCount + 1) key
            (queueName t.taskType) now₀), .outbox (newMessage messageID (taskMessage r t
              (newAttempt id t.id t.workflowRunID (t.attemptCount + 1) key (queueName t.taskType)
                now₀)) now₁), .step (t.transition .queued none none true now₂)]) r
          .stepDispatched (some (dispatchedDocument t)) now₃
        refine Wp.bind (getSteps_called hrow rfl rfl (fun _ => hact.base hb₁) (fun hterm => ?_)
          (fun _ v' heval => .retry htm hst hstep hget hrget hback hlive hrun hact ⟨rfl, rfl, rfl⟩
            (hrid ▸ heval)))
        rw [hlive] at hterm
        cases hterm
    · refine Wp.bind (Wp.request (fun _ _ => ⟨none, [], by simp [Query.exec, htm, hst], ?_⟩))
      refine .unarmed (fun tm' h => ?_) rfl
      obtain rfl := Option.some.inj (htm.symm.trans h)
      exact hst

/-- `HandleFiredTimer`, where only some draws are considered. -/
theorem handleFiredTimer_wp {E : Error → Prop} {P : Draw → Prop} {R : UUID → Db → Db → Prop}
    (hR : Describes P R) {v : Db} (hb : Base v) (timerID : UUID) :
    (handleFiredTimer timerID).Wp (backend.restrict P) E (fun _ v' => Fires R v timerID v')
      v := by
  rw [handleFiredTimer_eq]
  exact Wp.bind ((handleFiredTimerArgs_solo (R := R) hb timerID).restrict.mono
    (fun _ _ h => h.wp hR))

/-- `HandleFiredTimer`. -/
theorem handleFiredTimer_solo {Err : Error → Prop} {v : Db} (hb : Base v) (timerID : UUID) :
    Solo Err (handleFiredTimer timerID) (fun _ v' => Fires Evaluated v timerID v') v :=
  (handleFiredTimer_wp describes_evaluated hb timerID).of_restrict

end Timer

end Orchestrator
