import Orchestrator.System.Outcomes
import Orchestrator.Widths

/-!
# What a definition means

A definition and the verdicts on the steps that are tried say which steps complete: those
that do well after everything they depend on has completed. Every run follows its
definition in this sense, whatever the order of events. In particular the end of a run
that is not cancelled depends on the verdicts alone.
-/

namespace Orchestrator

open Lib

/-- The steps that complete if those in `good` succeed when they are tried. -/
def Definition.Completes (d : Definition) (good : String → Prop) : String → Prop :=
  GoesThrough (dependenciesOf d.steps) good

/-- What is known of the steps of a run agrees with the verdicts. -/
def Verdicts (v : Db) (runID : UUID) (good : String → Prop) : Prop :=
  ∀ t ∈ v.steps, t.workflowRunID = runID →
    (t.status = .completed → good t.stepName) ∧ (t.status = .failed → ¬ good t.stepName)

section Steps

variable {v : Db} {r : WorkflowRun} {d : WorkflowDefinition}

/-- A step depends on what its definition says. -/
theorem dependsOn_of_spec (hwf : d.dag.WellFormed) {t : Step}
    (hspec : t.info.spec ∈ d.dag.toNewSteps) :
    dependenciesOf d.dag.steps t.stepName = t.dependsOn := by
  obtain ⟨spec, hmem, heq⟩ := List.mem_map.mp hspec
  have hname : spec.name = t.stepName := congrArg NewStep.stepName heq
  have hdeps : spec.dependsOn = t.dependsOn := congrArg NewStep.dependsOn heq
  rw [← hname, dependenciesOf_eq hwf.nodup hmem, hdeps]

/-- The steps of a run that have ended without being cancelled are as the definition and
the verdicts say. -/
theorem Orderly.follows (h : Orderly v) {runID : UUID} (hwf : d.dag.WellFormed)
    (hspecs : ∀ t ∈ v.steps, t.workflowRunID = runID → t.info.spec ∈ d.dag.toNewSteps)
    {good : String → Prop} (hgood : Verdicts v runID good) {t : Step} (ht : t ∈ v.steps)
    (hrun : t.workflowRunID = runID) :
    (t.status = .completed → d.dag.Completes good t.stepName) ∧
      (t.status = .failed ∨ t.status = .skipped → ¬ d.dag.Completes good t.stepName) := by
  obtain ⟨rank, hrank⟩ := h.base.graph.exists_rank ht
  induction hn : rank t.stepName using Nat.strong_induction_on generalizing t with
  | _ n ih =>
    have hdeps := dependsOn_of_spec hwf (hspecs t ht hrun)
    -- What holds of the steps that this one depends on.
    have hbelow : ∀ x ∈ v.steps, x.workflowRunID = t.workflowRunID → x.stepName ∈ t.dependsOn →
        (x.status = .completed → d.dag.Completes good x.stepName) ∧
        (x.status = .failed ∨ x.status = .skipped → ¬ d.dag.Completes good x.stepName) := by
      intro x hx hxrun hname
      have hlt := hrank t ht rfl x.stepName hname
      exact ih _ (hn ▸ hlt) hx (hxrun.trans hrun)
        (fun y hy hyrun => hrank y hy (hyrun.trans hxrun)) rfl
    refine ⟨fun hst => ?_, fun hst hcompletes => ?_⟩
    · refine .intro (fun dep hdep => ?_) ((hgood t ht hrun).1 hst)
      rw [hdeps] at hdep
      obtain ⟨x, hx, hxrun, rfl, hdone⟩ :=
        h.base.graph.deps t ht (Or.inl (by simp [hst])) dep hdep
      exact (hbelow x hx hxrun hdep).1 hdone
    · obtain ⟨hall, hgood'⟩ := goesThrough_iff.mp hcompletes
      rcases hst with hst | hst
      · exact (hgood t ht hrun).2 hst hgood'
      · obtain ⟨x, hx, hxrun, hname, hcut⟩ := (h.tidy _).skipped t ht rfl hst
        exact (hbelow x hx hxrun hname).2 hcut (hall x.stepName (hdeps ▸ hname))

end Steps

/-- Every run follows its definition: whatever has happened, a step has completed only if
the definition says so for the verdicts, and has failed or was skipped only if it says
that the step does not complete. A run that ends without being cancelled has completed
just if all of its steps do. -/
theorem run_follows_definition {S : System} (h : System.Reachable System.Any S)
    {r : WorkflowRun} (hr : r ∈ S.db.runs) :
    ∃ d ∈ S.db.definitions, d.id = r.definitionID ∧ ∀ good, Verdicts S.db r.id good →
      (∀ t ∈ S.db.steps, t.workflowRunID = r.id →
        (t.status = .completed → d.dag.Completes good t.stepName) ∧
        (t.status = .failed → (∀ dep ∈ t.dependsOn, d.dag.Completes good dep) ∧
          ¬ d.dag.Completes good t.stepName) ∧
        (t.status = .skipped → ∃ dep ∈ t.dependsOn, ¬ d.dag.Completes good dep)) ∧
      (r.status = .completed ∨ r.status = .failed → (r.status = .completed ↔
        ∀ t ∈ S.db.steps, t.workflowRunID = r.id → d.dag.Completes good t.stepName)) := by
  have horderly := h.ok.orderly
  have hdeclared : Declared S.db := h.induct_db (fun r hr => absurd hr (Table.not_mem_empty r))
    (fun _ _ _ hb hact hd => hd.act hb hact)
  obtain ⟨d, hd, hid, -, hspecs⟩ := hdeclared r hr
  have hwf := horderly.base.graph.definitions d hd
  refine ⟨d, hd, hid, fun good hgood => ⟨fun t ht hrun => ?_, fun hend => ?_⟩⟩
  · have hfollows := fun {x : Step} (hx : x ∈ S.db.steps) (hxrun : x.workflowRunID = r.id) =>
      horderly.follows hwf hspecs hgood hx hxrun
    refine ⟨(hfollows ht hrun).1, fun hst => ⟨fun dep hdep => ?_, ?_⟩, fun hst => ?_⟩
    · obtain ⟨x, hx, hxrun, rfl, hdone⟩ :=
        horderly.base.graph.deps t ht (Or.inl (by simp [hst])) dep hdep
      exact (hfollows hx (hxrun.trans hrun)).1 hdone
    · exact (hfollows ht hrun).2 (Or.inl hst)
    · obtain ⟨x, hx, hxrun, hname, hcut⟩ := (horderly.tidy _).skipped t ht rfl hst
      exact ⟨x.stepName, hname, (hfollows hx (hxrun.trans hrun)).2 hcut⟩
  · have hget := Table.mem_iff_get?.mp hr
    constructor
    · intro hst t ht hrun
      exact (horderly.follows hwf hspecs hgood ht hrun).1
        ((horderly.completed_iff hget).mp hst t ht hrun)
    · intro hall
      refine hend.resolve_right (fun hst => ?_)
      obtain ⟨-, ⟨t, ht, hrun, hfailed⟩, -⟩ := (horderly.failed_iff hget).mp hst
      exact (horderly.follows hwf hspecs hgood ht hrun).2 (Or.inl hfailed) (hall t ht hrun)

/-- The first step of a chain has failed, so the second does not complete. -/
theorem run_follows_definition_failed :
    ∃ r ∈ failedSystem.db.runs, r.status = .failed ∧ ∃ d ∈ failedSystem.db.definitions,
      d.id = r.definitionID ∧ ∃ t ∈ failedSystem.db.steps, t.status = .skipped ∧
        ∃ dep ∈ t.dependsOn, ¬ d.dag.Completes (· ≠ "a") dep := by
  have hreach : System.Reachable System.Any failedSystem :=
    .run .init (fun _ _ _ => trivial) (Option.some_get _).symm
  have hfailed : ∃ r ∈ failedSystem.db.runs.rows, r.status = .failed ∧
      (∀ t ∈ failedSystem.db.steps.rows, (t.status = .completed → t.stepName ≠ "a") ∧
        (t.status = .failed → t.stepName = "a")) ∧
      ∃ t ∈ failedSystem.db.steps.rows, t.workflowRunID = r.id ∧ t.status = .skipped := by
    decide +kernel
  obtain ⟨r, hr, hst, hverdicts, t, ht, hrun, hskipped⟩ := hfailed
  obtain ⟨d, hd, hid, hfollows⟩ := run_follows_definition hreach hr
  have hgood : Verdicts failedSystem.db r.id (· ≠ "a") := by
    intro x hx _
    exact ⟨(hverdicts x hx).1, fun hfail hne => hne ((hverdicts x hx).2 hfail)⟩
  exact ⟨r, hr, hst, d, hd, hid, t, ht, hskipped, ((hfollows _ hgood).1 t ht hrun).2.2 hskipped⟩

end Orchestrator
