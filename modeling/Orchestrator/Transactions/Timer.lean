import Orchestrator.Transactions.Outcome

/-!
# Timers that fire

`HandleFiredTimer` marks the timer as fired and dispatches the step that waits for
its next attempt. The event of the dispatch locks the run's row before the steps
are read again. If the step no longer waits, or the run has ended, nothing happens
but the firing of the timer.
-/

namespace Orchestrator

open Lib Actions

/-- A retry timer of a step of its run has fired. -/
def TimerFired (q : Prop) (timer : Timer) (v : Db) (ws : List Write) : Prop :=
  timer.kind = .retryBackoff ∧ ws = [] ∧ (q → Upright timer.workflowRunID v) ∧
    ∃ t ∈ v.steps, timer.stepID = some t.id ∧ t.workflowRunID = timer.workflowRunID

/-- The step of the timer has been read. A transaction that is alone knows its
row. -/
def Awaited (A : Label → Prop) (q : Prop) (runID : UUID) (step : Step) (v : Db) : Prop :=
  (q → Upright runID v) ∧
    (∃ t, v.steps.get? step.id = some t ∧ step.Copies t) ∧
    ((∀ l, ¬ A l) → v.steps.get? step.id = some step)

section

variable {A : Label → Prop} {Err : Error → Prop} {H : List Lock} {runID : UUID} {Q : Db → Prop}
  {q : Prop} {run : WorkflowRun} {timer : Timer} {step : Step}

theorem TimerFired.robust (hR : Regime A Err timer.workflowRunID Q q) :
    engine.Robust A H (TimerFired q timer) := by
  rintro v ws l u hb hl hact - - ⟨hkind, hws, hup, t, ht, hid, hrun⟩
  refine ⟨hkind, hws, fun hq => (hup hq).act hb hact (hR.loyal hq l hl).1 (hR.loyal hq l hl).2, ?_⟩
  obtain ⟨t', ht', hev⟩ := (Act.evolves hact).steps t ht
  exact ⟨t', ht', by rw [hid, Step.id_of_info hev.info], (Step.run_of_info hev.info).trans hrun⟩

theorem Awaited.robust (hR : Regime A Err runID Q q) :
    engine.Robust A H (fun v _ => Awaited A q runID step v) := by
  rintro v ws l u hb hl hact - - ⟨hup, ⟨t, ht, hcopy⟩, -⟩
  refine ⟨fun hq => (hup hq).act hb hact (hR.loyal hq l hl).1 (hR.loyal hq l hl).2, ?_,
    fun hno => absurd hl (hno l)⟩
  obtain ⟨t', ht', hev⟩ := (Act.evolves hact).step ht
  exact ⟨t', ht', hcopy.evolve hev⟩

/-- The dispatch of a step that waits for its next attempt. -/
theorem redispatch_spec (hR : Regime A Err run.id Q q) (hown : step.workflowRunID = run.id)
    (hst : step.status = .retryBackoff) :
    engine.Triple A (Works run.id) Err []
      (fun v ws => ws = [] ∧ Awaited A q run.id step v ∧ RowThere run v)
      (dispatchStep run step [.retryBackoff]) [Lock.run run.id]
      (fun _ v ws => ws = [] ∧ RowKnown Q run v) := by
  have hquiet : Quiet A [Lock.run run.id] run.id Q := hR.quiet List.mem_cons_self
  refine Triple.post (dispatchStep_spec (Q := fun _ => (∀ l, ¬ A l) ∧ ∀ v, Q v)
    (F := fun v => Awaited A q run.id step v ∧ RowThere run v) (G := RowKnown Q run)
    (fun _ h => h) (fun v hnot => hR.errors.resolve_right hnot)
    ((Awaited.robust hR).and RowThere.robust) (RowKnown.robust hquiet) ?_ ⟨rfl, rfl⟩
    (List.Subset.refl _) ?_) (fun _ v ws _ h => h.2)
  · refine ⟨hown, fun v _ hF => hF.2, fun v _ hF => ?_, fun v t _ _ _ hwait => Or.inr ?_⟩
    · obtain ⟨t, ht, hcopy⟩ := hF.1.2.1
      refine ⟨t, ht, hcopy, fun halone => ?_⟩
      obtain rfl := Option.some.inj (ht.symm.trans (hF.1.2.2 halone.1))
      exact ⟨.refl _, List.mem_singleton.mpr hst⟩
    · exact List.mem_singleton.mp hwait
  · intro v us t r now payload now' hb hF ht hwait hr _ _
    obtain ⟨⟨hup, ⟨t₀, ht₀, hcopy⟩, -⟩, r₀, hr₀, hshard⟩ := hF
    obtain rfl := Option.some.inj (ht₀.symm.trans ht)
    obtain rfl := Option.some.inj (hr₀.symm.trans hr)
    have hid : r₀.id = run.id := Table.key_of_get? hr
    have hrow := get?_stepEvent v us (t₀.transition .queued none none true now) r₀ .stepDispatched
      payload now'
    rw [hid] at hrow
    refine ⟨_, hrow, hshard, fun hQ => Bool.eq_false_iff.mpr (fun hend => ?_)⟩
    have hdone := (hup (hR.known _ hQ)).ended r₀ hr hend t₀ (Table.mem_of_get? ht)
      ((Step.run_of_info hcopy.info).trans hown)
    rw [List.mem_singleton.mp hwait] at hdone
    cases hdone

/-- `handleRetryTimerFired`. -/
theorem handleRetryTimerFired_spec (hR : Regime A Err timer.workflowRunID Q q) :
    Serves A Err (engine.Holds (Idles timer.workflowRunID) [] (TimerFired q timer))
      (handleRetryTimerFired timer) (fun _ => Concluded Q timer.workflowRunID) := by
  unfold handleRetryTimerFired
  cases hid : timer.stepID with
  | none =>
    exact Safe.ret (fun s w hs h => .idle (h.mono hs (fun _ hl => hl) (List.Subset.refl _)
      (fun _ _ _ hF => hF.2.1)))
  | some stepID =>
    have hstep : engine.Triple A (Idles timer.workflowRunID) Err [] (TimerFired q timer)
        (getStep stepID) [] (fun step v ws => step.workflowRunID = timer.workflowRunID ∧ ws = [] ∧
          Awaited A q timer.workflowRunID step v) := by
      refine lookup_rule (fun _ v => v.steps.get? stepID) (fun _ _ => rfl) (fun step =>
        (Robust.pure (fun _ => _ = _)).and ((Robust.pure (· = [])).and (Awaited.robust hR))) ?_
      rintro v ws - - ⟨-, rfl, hup, t, ht, htid, hrun⟩
      obtain rfl : stepID = t.id := Option.some.inj (hid.symm.trans htid)
      have hget : v.steps.get? t.id = some t := Table.mem_iff_get?.mp ht
      exact Or.inr ⟨t, hget, hrun, rfl, hup, ⟨t, hget, .refl t⟩, fun _ => hget⟩
    refine Safe.bind hstep (fun step => Holds.assume (fun hown => ?_))
    have hrun : engine.Triple A (Idles timer.workflowRunID) Err []
        (fun v ws => ws = [] ∧ Awaited A q timer.workflowRunID step v)
        (getWorkflowRun timer.workflowRunID) [] (fun run v ws => run.id = timer.workflowRunID ∧
          ws = [] ∧ Awaited A q timer.workflowRunID step v ∧ RowThere run v) := by
      refine lookup_rule (fun _ v => v.runs.get? timer.workflowRunID) (fun _ _ => rfl) (fun run =>
        (Robust.pure (fun _ => _ = _)).and ((Robust.pure (· = [])).and
          ((Awaited.robust hR).and RowThere.robust))) ?_
      rintro v ws - hb ⟨rfl, hwait⟩
      obtain ⟨t, ht, hcopy⟩ := hwait.2.1
      obtain ⟨r, hr, hrid⟩ := hb.graph.run t (Table.mem_of_get? ht)
      have hrid : r.id = timer.workflowRunID :=
        hrid.trans ((Step.run_of_info hcopy.info).trans hown)
      have hget : v.runs.get? r.id = some r := Table.mem_iff_get?.mp hr
      exact Or.inr ⟨r, hrid ▸ hget, hrid, rfl, hwait, r, hget, rfl⟩
    refine Safe.bind hrun (fun run => Holds.assume (fun hrid => ?_))
    by_cases hskip : step.status ≠ .retryBackoff ∨ runTerminal run.status = true
    · rw [if_pos hskip]
      exact Safe.ret (fun s w hs h => .idle (h.mono hs (fun _ hl => hl) (List.Subset.refl _)
        (fun _ _ _ hF => hF.1)))
    · rw [if_neg hskip]
      obtain ⟨hst, hlive⟩ := not_or.mp hskip
      rw [← hrid] at hR hown ⊢
      have hquiet : Quiet A [Lock.run run.id] run.id Q := hR.quiet List.mem_cons_self
      refine Safe.bind (Safe.pre (redispatch_spec hR hown (not_not.mp hst)) (fun s w hs h =>
        h.mono hs (fun _ hl => hl.1) (List.Subset.refl _) (fun _ _ _ hF => hF))) (fun _ => ?_)
      exact Safe.post (reload_spec hR hquiet (fun _ => by simpa using hlive))
        (fun _ s w _ h => .settled h)

end

/-- `HandleFiredTimer`. -/
theorem handleFiredTimer_spec {A : Label → Prop} {Err : Error → Prop} {Q : UUID → Db → Prop}
    {q : UUID → Prop} (hR : ∀ runID, Regime A Err runID (Q runID) (q runID)) (timerID : UUID) :
    Serves A Err (Beginning (Fresh q)) (handleFiredTimer timerID)
      (fun _ s w => ∃ runID, Concluded (Q runID) runID s w) := by
  have hfire : Serves A Err (Beginning (Fresh q)) (Query.fireTimerCAS timerID).issue
      (fun answer => engine.Holds (fun l => ∃ tm, answer = some tm ∧ Idles tm.workflowRunID l) []
        (fun v ws => answer.elim (ws = [])
          (fun timer => TimerFired (q timer.workflowRunID) timer v ws))) := by
    refine Safe.of_under (Holds.call (φ := fun _ _ => True) (fun answer => ?_)
      (fun _ _ hl => hl.elim) ?_) (fun _ _ => trivial)
    · cases answer with
      | none => exact Robust.pure (· = [])
      | some timer => exact TimerFired.robust (hR _)
    · rintro v ws d hb ⟨rfl, hup⟩ - -
      cases htm : v.timers.get? timerID with
      | none =>
        simp only [backend_exec, Query.exec, Backend.applyAll_nil, htm]
        exact .begin rfl
      | some tm =>
        by_cases hst : tm.status = .pending
        · simp only [backend_exec, Query.exec, Backend.applyAll_nil, htm, hst, if_true]
          have hact : Act ⟨tm.workflowRunID, .fireTimer⟩ v
              [.timer { tm with status := .fired, firedAt := some d.now }] :=
            .fireTimer (Table.get?_key htm) hst
          obtain ⟨hkind, t, ht, hid, hrun⟩ := hb.clocks tm (Table.mem_of_get? htm)
          refine .act ⟨_, rfl, ⟨rfl, rfl⟩, rfl⟩ hact ⟨hkind, rfl, fun hq => ?_, t, ht, hid, hrun⟩
          exact (hup _ hq).act hb hact (by simp) (by simp)
        · simp only [backend_exec, Query.exec, Backend.applyAll_nil, htm, hst, if_false]
          exact .begin rfl
  refine Safe.bind hfire (fun answer => ?_)
  cases answer with
  | none =>
    refine Safe.ret (fun s w hs h => ⟨0, .idle (h.mono hs ?_ (List.Subset.refl _)
      (fun _ _ _ hF => hF))⟩)
    rintro l ⟨tm, htm, -⟩
    cases htm
  | some timer =>
    have hstart : ∀ s w, Base s →
        engine.Holds (fun l => ∃ tm, some timer = some tm ∧ Idles tm.workflowRunID l) []
          (TimerFired (q timer.workflowRunID) timer) s w →
        engine.Holds (Idles timer.workflowRunID) [] (TimerFired (q timer.workflowRunID) timer)
          s w := by
      intro s w hs h
      refine h.mono hs ?_ (List.Subset.refl _) (fun _ _ _ hF => hF)
      rintro l ⟨tm, htm, hl⟩
      cases htm
      exact hl
    refine Safe.pre ?_ hstart
    refine Holds.assume (fun hkind => ?_)
    simp only [hkind]
    exact Safe.pre ((handleRetryTimerFired_spec (hR _)).post (fun _ s w _ h => ⟨_, h⟩))
      (fun s w hs h => h.mono hs (fun _ hl => hl) (List.Subset.refl _)
        (fun _ _ _ hF => ⟨hkind, hF⟩))

end Orchestrator
