import Orchestrator.Invariant.Interference

/-!
# Actions keep the dependency graph, the timers and the history

These parts of the invariant follow from the fact that actions only lead to later
states, and from what an action says about the one row that it changes.
-/

namespace Orchestrator

open Lib

/-- What a run's row says about its steps. -/
structure WorkflowRun.RowOK (T : Table Step.id) (r : WorkflowRun) : Prop where
  finished : r.status = .completed ∨ r.status = .failed →
    AllDone T r.id ∧ Outcome T r.id r.status ∧ r.output = marshalOutputs (completedOutputs T r.id)
  unfinished : runTerminal r.status = false → r.output = none

/-- What a step's row says about its dependencies. -/
structure Step.DepsOK (T : Table Step.id) (t : Step) : Prop where
  started : t.Started → DepsDone T t
  skipped : t.status = .skipped → Blocked T t

variable {v v' : Db}

theorem Graph.rowOK {D : Table WorkflowDefinition.id} {R : Table WorkflowRun.id}
    {T : Table Step.id} (hg : Graph D R T) {r : WorkflowRun} (hr : r ∈ R) : r.RowOK T :=
  ⟨hg.finished r hr, hg.unfinished r hr⟩

/-- A status that is final and stops nothing. -/
theorem StepStatus.eq_completed {st : StepStatus} :
    stepTerminal st = true → st.isBad = false → st = .completed := by
  cases st <;> decide

/-- The definition that the run of a step is made from. -/
theorem Graph.instance_of {D : Table WorkflowDefinition.id} {R : Table WorkflowRun.id}
    {T : Table Step.id} (hg : Graph D R T) {t : Step} (ht : t ∈ T) :
    ∃ d ∈ D, Instance T t.workflowRunID d.dag := by
  obtain ⟨r, hr, hid⟩ := hg.run t ht
  obtain ⟨d, hd, hinst⟩ := hg.shape r hr
  exact ⟨d, hd, hid ▸ hinst⟩

/-- The steps of a run have different names. -/
theorem Graph.name_unique {D : Table WorkflowDefinition.id} {R : Table WorkflowRun.id}
    {T : Table Step.id} (hg : Graph D R T) {t t' : Step} (ht : t ∈ T) (ht' : t' ∈ T)
    (hrun : t'.workflowRunID = t.workflowRunID) (hname : t'.stepName = t.stepName) : t' = t := by
  obtain ⟨d, -, hinst⟩ := hg.instance_of ht
  exact hinst.unique t' ht' t ht hrun rfl hname

/-- What a step depends on is a step of its run. -/
theorem Graph.dep_exists {D : Table WorkflowDefinition.id} {R : Table WorkflowRun.id}
    {T : Table Step.id} (hg : Graph D R T) {t : Step} (ht : t ∈ T) {dep : String}
    (hdep : dep ∈ t.dependsOn) :
    ∃ d ∈ T, d.workflowRunID = t.workflowRunID ∧ d.stepName = dep := by
  obtain ⟨d, hd, hinst⟩ := hg.instance_of ht
  obtain ⟨spec, hspec, -, -, hdeps, -⟩ := hinst.forth t ht rfl
  obtain ⟨spec', hspec', hname⟩ := (hg.definitions d hd).declared spec hspec dep (hdeps ▸ hdep)
  obtain ⟨t', ht', hrun, hname'⟩ := hinst.back spec' hspec'
  exact ⟨t', ht', hrun, hname'.trans hname⟩

/-- The steps of a run can be ranked so that dependencies come first. -/
theorem Graph.exists_rank {D : Table WorkflowDefinition.id} {R : Table WorkflowRun.id}
    {T : Table Step.id} (hg : Graph D R T) {t : Step} (ht : t ∈ T) :
    ∃ rank : String → ℕ, ∀ x ∈ T, x.workflowRunID = t.workflowRunID →
      ∀ dep ∈ x.dependsOn, rank dep < rank x.stepName := by
  obtain ⟨d, hd, hinst⟩ := hg.instance_of ht
  obtain ⟨rank, hrank⟩ := (hg.definitions d hd).acyclic
  refine ⟨rank, fun x hx hrun dep hdep => ?_⟩
  obtain ⟨spec, hspec, hname, -, hdeps, -⟩ := hinst.forth x hx hrun
  rw [hname]
  exact hrank spec hspec dep (hdeps ▸ hdep)

/-- A step whose dependencies have completed is not blocked. -/
theorem Graph.not_blocked {D : Table WorkflowDefinition.id} {R : Table WorkflowRun.id}
    {T : Table Step.id} (hg : Graph D R T) {t : Step} (hdeps : DepsDone T t) : ¬ Blocked T t := by
  rintro ⟨d, hd, hrun, hname, hbad⟩
  obtain ⟨d', hd', hrun', hname', hst⟩ := hdeps d.stepName hname
  obtain rfl := hg.name_unique hd hd' (hrun'.trans hrun.symm) hname'
  rw [hst] at hbad
  cases hbad

/-- The facts about a run's row stay true as long as its status and output do. -/
theorem WorkflowRun.RowOK.evolve {r r' : WorkflowRun} (h : r.RowOK v.steps) (hr : r ∈ v.runs)
    (hev : v.Evolves v') (hid : r'.id = r.id) (hst : r'.status = r.status)
    (hout : r'.output = r.output) : r'.RowOK v'.steps := by
  have hget : v.runs.get? r.id = some r := Table.mem_iff_get?.mp hr
  refine ⟨fun hfin => ?_, fun hrun => ?_⟩
  · rw [hst] at hfin
    obtain ⟨hall, houtcome, houtput⟩ := h.finished hfin
    rw [hid, hst, hout, hev.completedOutputs hget hall]
    exact ⟨hev.allDone hget hall, hev.outcome hget hall houtcome, houtput⟩
  · rw [hout]
    exact h.unfinished (hst ▸ hrun)

theorem Step.DepsOK.evolve {t : Step} (h : t.DepsOK v.steps) (hev : v.Evolves v') :
    t.DepsOK v'.steps :=
  ⟨fun hst => hev.depsDone (h.started hst), fun hst => hev.blocked (h.skipped hst)⟩

theorem Instance.evolve {runID : UUID} {dag : Definition} (h : Instance v.steps runID dag)
    (hev : v.Evolves v') (hfrom : ∀ t' ∈ v'.steps, ∃ t ∈ v.steps, t.Evolves t') :
    Instance v'.steps runID dag where
  forth t' ht' hrun := by
    obtain ⟨t, ht, htt'⟩ := hfrom t' ht'
    obtain ⟨spec, hspec, hname, htype, hdeps, hmax⟩ :=
      h.forth t ht ((Step.run_of_info htt'.info).symm.trans hrun)
    exact ⟨spec, hspec, (Step.name_of_info htt'.info).trans hname,
      (Step.type_of_info htt'.info).trans htype, (Step.deps_of_info htt'.info).trans hdeps,
      (Step.max_of_info htt'.info).trans hmax⟩
  back spec hspec := by
    obtain ⟨t, ht, hrun, hname⟩ := h.back spec hspec
    obtain ⟨t', ht', htt'⟩ := hev.steps t ht
    exact ⟨t', ht', (Step.run_of_info htt'.info).trans hrun,
      (Step.name_of_info htt'.info).trans hname⟩
  unique t' ht' u' hu' hrun hrun' hname := by
    obtain ⟨t, ht, htt'⟩ := hfrom t' ht'
    obtain ⟨u, hu, huu'⟩ := hfrom u' hu'
    have heq : t = u := h.unique t ht u hu ((Step.run_of_info htt'.info).symm.trans hrun)
      ((Step.run_of_info huu'.info).symm.trans hrun')
      ((Step.name_of_info htt'.info).symm.trans (hname.trans (Step.name_of_info huu'.info)))
    refine Table.eq_of_key_eq ht' hu' ?_
    rw [Step.id_of_info htt'.info, Step.id_of_info huu'.info, heq]

/-- An action that creates no run keeps the graph if the changed rows fit. -/
theorem Graph.evolve (hg : Graph v.definitions v.runs v.steps) (hev : v.Evolves v')
    (hdef : ∀ d ∈ v'.definitions, d ∈ v.definitions ∨ d.dag.WellFormed)
    (hfrom : ∀ t' ∈ v'.steps, ∃ t ∈ v.steps, t.Evolves t')
    (hsteps : ∀ t' ∈ v'.steps, t' ∈ v.steps ∨ t'.DepsOK v.steps)
    (hruns : ∀ r' ∈ v'.runs, ∃ r ∈ v.runs, r'.id = r.id ∧
      ((r'.status = r.status ∧ r'.output = r.output) ∨ r'.RowOK v'.steps)) :
    Graph v'.definitions v'.runs v'.steps := by
  have hdeps : ∀ t' ∈ v'.steps, t'.DepsOK v'.steps := by
    intro t' ht'
    rcases hsteps t' ht' with hold | hok
    · exact Step.DepsOK.evolve ⟨hg.deps t' hold, hg.skipped t' hold⟩ hev
    · exact hok.evolve hev
  have hrow : ∀ r' ∈ v'.runs, r'.RowOK v'.steps := by
    intro r' hr'
    obtain ⟨r, hr, hid, ⟨hst, hout⟩ | hok⟩ := hruns r' hr'
    · exact (hg.rowOK hr).evolve hr hev hid hst hout
    · exact hok
  refine ⟨fun d hd => (hdef d hd).elim (hg.definitions d) id, fun t' ht' => ?_, fun r' hr' => ?_,
    fun t' ht' => (hdeps t' ht').started, fun t' ht' => (hdeps t' ht').skipped,
    fun r' hr' => (hrow r' hr').finished, fun r' hr' => (hrow r' hr').unfinished⟩
  · obtain ⟨t, ht, htt'⟩ := hfrom t' ht'
    obtain ⟨r, hr, hid⟩ := hg.run t ht
    obtain ⟨r', hr', hrr'⟩ := hev.runs r hr
    exact ⟨r', hr', hrr'.id.trans (hid.trans (Step.run_of_info htt'.info).symm)⟩
  · obtain ⟨r, hr, hid, -⟩ := hruns r' hr'
    obtain ⟨d, hd, hinst⟩ := hg.shape r hr
    obtain ⟨d', hd', rfl⟩ := hev.definitions d hd
    exact ⟨d, hd', hid ▸ hinst.evolve hev hfrom⟩

/-- Timers keep their steps. -/
theorem Clocks.evolve (hc : Clocks v.steps v.timers) (hev : v.Evolves v')
    (htimers : ∀ tm' ∈ v'.timers, (∃ tm ∈ v.timers, tm.Evolves tm') ∨
      ∃ t ∈ v.steps, IsRetryTimer tm' t) : Clocks v'.steps v'.timers := by
  intro tm' htm'
  have hstep : tm'.kind = .retryBackoff ∧ ∃ t ∈ v.steps, tm'.stepID = some t.id ∧
      t.workflowRunID = tm'.workflowRunID := by
    rcases htimers tm' htm' with ⟨tm, htm, hev'⟩ | ⟨t, ht, hkind, hid, hrun, -⟩
    · obtain ⟨hkind, t, ht, hid, hrun⟩ := hc tm htm
      exact ⟨hev'.kind.trans hkind, t, ht, hev'.stepID.trans hid, hrun.trans hev'.run.symm⟩
    · exact ⟨hkind, t, ht, hid, hrun.symm⟩
  obtain ⟨hkind, t, ht, hid, hrun⟩ := hstep
  obtain ⟨t', ht', htt'⟩ := hev.steps t ht
  exact ⟨hkind, t', ht', by rw [hid, Step.id_of_info htt'.info],
    (Step.run_of_info htt'.info).trans hrun⟩

/-- Events stay within the counters of their runs. -/
theorem Chronicle.evolve (hc : Chronicle v.runs v.history) (hev : v.Evolves v')
    (hevents : ∀ e ∈ v'.history, e ∈ v.history ∨
      ∃ r ∈ v'.runs, r.id = e.workflowRunID ∧ e.seq ≤ r.historySeq ∧
        (e.eventType = .runCancelled → runTerminal r.status = true)) :
    Chronicle v'.runs v'.history := by
  intro e he
  rcases hevents e he with he | hnew
  · obtain ⟨r, hr, hid, hseq, hend⟩ := hc e he
    obtain ⟨r', hr', hrr'⟩ := hev.runs r hr
    refine ⟨r', hr', hrr'.id.trans hid, hseq.trans hrr'.seq, fun hcancel => ?_⟩
    rw [(hrr'.done (hend hcancel)).1]
    exact hend hcancel
  · exact hnew

end Orchestrator
