import Orchestrator.Invariant.Calm

/-!
# Runs with nothing left to do

What `reconcileTx` establishes for a run: a run that goes on has a step that goes
on, no step is left that should be skipped, and, if no step waits for a signal,
none that should be dispatched. Workers starting tasks do not disturb this.
-/

namespace Orchestrator

open Lib

/-- There is nothing to reconcile in the run. -/
structure Quiescent (runID : UUID) (v : Db) : Prop where
  busy : ∀ r, v.runs.get? runID = some r → runTerminal r.status = false →
    ∃ t ∈ v.steps, t.workflowRunID = runID ∧ stepTerminal t.status = false
  unblocked : ∀ t ∈ v.steps, t.workflowRunID = runID → t.status = .pending →
    ¬ Blocked v.steps t
  dispatched : (∀ t ∈ v.steps, t.workflowRunID = runID → t.taskType ≠ signalWaitTaskType) →
    ∀ t ∈ v.steps, t.workflowRunID = runID → t.status = .pending → ¬ DepsDone v.steps t

section Drift

variable {runID : UUID} {v v' : Db}

theorem Step.Drifts.terminal {t t' : Step} (h : t.Drifts t') :
    stepTerminal t'.status = stepTerminal t.status := by
  rcases h.status with hst | ⟨hst, hst'⟩
  · rw [hst]
  · rw [hst, hst']
    rfl

/-- A step that is not running has not been started by a worker. -/
theorem Step.Drifts.eq_of_ne {t t' : Step} (h : t.Drifts t') (hne : t'.status ≠ .running) :
    t' = t := by
  rcases h with rfl | ⟨-, now, rfl⟩
  · rfl
  · exact absurd rfl hne

/-- Dependencies that have completed had completed before. -/
theorem Calm.depsDone (h : Calm runID v v') {t : Step} (hrun : t.workflowRunID = runID)
    (hdeps : DepsDone v'.steps t) : DepsDone v.steps t := by
  intro dep hdep
  obtain ⟨d', hd', hdrun, hname, hst⟩ := hdeps dep hdep
  obtain ⟨d, hd, hdrift⟩ := h.back d' hd' (hdrun.trans hrun)
  obtain rfl := hdrift.eq_of_ne (by rw [hst]; decide)
  exact ⟨d', hd, hdrun, hname, hst⟩

/-- A step that is blocked was blocked before. -/
theorem Calm.blocked (h : Calm runID v v') {t : Step} (hrun : t.workflowRunID = runID)
    (hb : Blocked v'.steps t) : Blocked v.steps t := by
  obtain ⟨d', hd', hdrun, hname, hbad⟩ := hb
  obtain ⟨d, hd, hdrift⟩ := h.back d' hd' (hdrun.trans hrun)
  obtain rfl := hdrift.eq_of_ne (fun hst => by rw [hst] at hbad; cases hbad)
  exact ⟨d', hd, hdrun, hname, hbad⟩

/-- A pending step was pending before. -/
theorem Calm.pending (h : Calm runID v v') {t : Step} (ht : t ∈ v'.steps)
    (hrun : t.workflowRunID = runID) (hst : t.status = .pending) : t ∈ v.steps := by
  obtain ⟨t₀, ht₀, hdrift⟩ := h.back t ht hrun
  obtain rfl := hdrift.eq_of_ne (by rw [hst]; decide)
  exact ht₀

theorem Quiescent.calm (hquiet : Quiescent runID v) (h : Calm runID v v') :
    Quiescent runID v' where
  busy r' hr' hlive := by
    have hst := h.status
    rw [hr'] at hst
    obtain ⟨r, hr, hrst⟩ := Option.map_eq_some_iff.mp hst.symm
    obtain ⟨t, ht, hrun, ht'⟩ := hquiet.busy r hr (hrst ▸ hlive)
    obtain ⟨t', ht', hdrift⟩ := h.forth t ht hrun
    exact ⟨t', ht', (Step.run_of_info hdrift.info).trans hrun, by rwa [hdrift.terminal]⟩
  unblocked t ht hrun hst hb :=
    hquiet.unblocked t (h.pending ht hrun hst) hrun hst (h.blocked hrun hb)
  dispatched hno t ht hrun hst hdeps := by
    refine hquiet.dispatched (fun x hx hxrun => ?_) t (h.pending ht hrun hst) hrun hst
      (h.depsDone hrun hdeps)
    obtain ⟨x', hx', hdrift⟩ := h.forth x hx hxrun
    rw [← Step.type_of_info hdrift.info]
    exact hno x' hx' ((Step.run_of_info hdrift.info).trans hxrun)

/-- A run that has ended, with all of its steps. -/
theorem Quiescent.of_allDone {r : WorkflowRun} (hr : v.runs.get? runID = some r)
    (hend : runTerminal r.status = true) (hall : AllDone v.steps runID) : Quiescent runID v where
  busy q hq hlive := by
    obtain rfl := Option.some.inj (hr.symm.trans hq)
    rw [hend] at hlive
    cases hlive
  unblocked t ht hrun hst := by
    have hdone := hall t ht hrun
    rw [hst] at hdone
    cases hdone
  dispatched _ t ht hrun hst := by
    have hdone := hall t ht hrun
    rw [hst] at hdone
    cases hdone

end Drift

end Orchestrator
