import Orchestrator.System.Dependencies

/-!
# Runs and their steps

The status of a run is a function of the statuses of its steps once they have all
ended, and the output of a run that has completed or failed holds the outputs of
the steps that have completed.
-/

namespace Orchestrator

open Lib

section Store

variable {v : Db} {r : WorkflowRun}

/-- What a step depends on belongs to its run. -/
theorem dependsOn_run {T : Table Step.id} {t f : Step}
    (h : Relation.TransGen (DependsOn T) t f) : f ∈ T ∧ f.workflowRunID = t.workflowRunID := by
  induction h with
  | single hdep => exact ⟨hdep.1, hdep.2.1⟩
  | tail _ hdep ih => exact ⟨hdep.1, hdep.2.1.trans ih.2⟩

/-- A run has ended exactly if all of its steps have. -/
theorem Orderly.ended_iff (h : Orderly v) (hr : v.runs.get? r.id = some r) :
    runTerminal r.status = true ↔ AllDone v.steps r.id := by
  refine ⟨(h.upright r.id).ended r hr, fun hall => Bool.of_not_eq_false (fun hlive => ?_)⟩
  obtain ⟨t, ht, hrun, hgoes⟩ := (h.quiescent r.id).busy r hr hlive
  rw [hall t ht hrun] at hgoes
  cases hgoes

/-- A run is cancelled exactly if one of its steps is. -/
theorem Orderly.cancelled_iff (h : Orderly v) (hr : v.runs.get? r.id = some r) :
    r.status = .cancelled ↔ ∃ t ∈ v.steps, t.workflowRunID = r.id ∧ t.status = .cancelled := by
  refine ⟨(h.tidy r.id).cut r hr, ?_⟩
  rintro ⟨t, ht, hrun, hst⟩
  by_contra hne
  exact (h.sound r.id).steps r hr hne t ht hrun hst

/-- A run has completed exactly if all of its steps have. -/
theorem Orderly.completed_iff (h : Orderly v) (hr : v.runs.get? r.id = some r) :
    r.status = .completed ↔
      ∀ t ∈ v.steps, t.workflowRunID = r.id → t.status = .completed := by
  have hmem := Table.mem_of_get? hr
  constructor
  · intro hst t ht hrun
    obtain ⟨hall, hout, -⟩ := h.base.graph.finished r hmem (Or.inl hst)
    rw [hst] at hout
    obtain ⟨hnf, hnc⟩ := hout t ht hrun
    have hended := hall t ht hrun
    -- A skipped step would have a failed one above it.
    have hns : t.status ≠ .skipped := by
      intro hskipped
      obtain ⟨f, hpath, hfailed⟩ := h.failed_above ht hskipped
      obtain ⟨hf, hfrun⟩ := dependsOn_run hpath
      exact (hout f hf (hfrun.trans hrun)).1 hfailed
    cases hs : t.status <;> simp_all [stepTerminal]
  · intro hall
    have hended : runTerminal r.status = true := (h.ended_iff hr).mpr (fun t ht hrun => by
      rw [hall t ht hrun]; rfl)
    cases hst : r.status with
    | completed => rfl
    | failed =>
      obtain ⟨-, hout, -⟩ := h.base.graph.finished r hmem (Or.inr hst)
      rw [hst] at hout
      obtain ⟨t, ht, hrun, hfailed⟩ := hout
      rw [hall t ht hrun] at hfailed
      cases hfailed
    | cancelled =>
      obtain ⟨t, ht, hrun, hcancelled⟩ := (h.cancelled_iff hr).mp hst
      rw [hall t ht hrun] at hcancelled
      cases hcancelled
    | pending =>
      rw [hst] at hended
      cases hended
    | running =>
      rw [hst] at hended
      cases hended

/-- A run has failed exactly if its steps have ended, one has failed and none was
cancelled. -/
theorem Orderly.failed_iff (h : Orderly v) (hr : v.runs.get? r.id = some r) :
    r.status = .failed ↔ AllDone v.steps r.id ∧
      (∃ t ∈ v.steps, t.workflowRunID = r.id ∧ t.status = .failed) ∧
      ∀ t ∈ v.steps, t.workflowRunID = r.id → t.status ≠ .cancelled := by
  have hmem := Table.mem_of_get? hr
  constructor
  · intro hst
    obtain ⟨hall, hout, -⟩ := h.base.graph.finished r hmem (Or.inr hst)
    rw [hst] at hout
    exact ⟨hall, hout, (h.sound r.id).steps r hr (by rw [hst]; decide)⟩
  · rintro ⟨hall, ⟨t, ht, hrun, hfailed⟩, hnone⟩
    have hended := (h.ended_iff hr).mpr hall
    cases hst : r.status with
    | failed => rfl
    | completed =>
      rw [(h.completed_iff hr).mp hst t ht hrun] at hfailed
      cases hfailed
    | cancelled =>
      obtain ⟨t', ht', hrun', hcancelled⟩ := (h.cancelled_iff hr).mp hst
      exact absurd hcancelled (hnone t' ht' hrun')
    | pending =>
      rw [hst] at hended
      cases hended
    | running =>
      rw [hst] at hended
      cases hended

/-- The output of a run holds the outputs of the steps that have completed. -/
theorem Base.output_decodes (hb : Base v) (hr : v.runs.get? r.id = some r)
    (hst : r.status = .completed ∨ r.status = .failed) :
    ∃ out members, r.output = some out ∧ unmarshalMembers out = some members ∧
      (∀ t ∈ v.steps, t.workflowRunID = r.id → t.status = .completed →
        members t.stepName = marshalMember t.output) ∧
      ∀ name, (∀ t ∈ v.steps, t.workflowRunID = r.id → t.status = .completed →
        t.stepName ≠ name) → members name = none := by
  have hmem : ∀ o, o ∈ completedOutputs v.steps r.id ↔ ∃ t ∈ v.steps,
      t.workflowRunID = r.id ∧ t.status = .completed ∧ o = (t.stepName, t.output) := by
    intro o
    simp only [completedOutputs, List.mem_map, List.mem_filter, decide_eq_true_eq]
    constructor
    · rintro ⟨t, ⟨ht, hrun, hst⟩, ho⟩
      exact ⟨t, ht, hrun, hst, ho.symm⟩
    · rintro ⟨t, ht, hrun, hst, ho⟩
      exact ⟨t, ⟨ht, hrun, hst⟩, ho.symm⟩
  have hvalid : ∀ o ∈ completedOutputs v.steps r.id, ∀ m, o.2 = some m → m.IsValid := by
    intro o ho m hm
    obtain ⟨t, ht, -, -, rfl⟩ := (hmem o).mp ho
    exact (hb.ledger.row t ht).valid m hm
  obtain ⟨out, members, hout, hdecode, hthere, hnone⟩ :=
    unmarshalMembers_marshalOutputs hvalid (nodup_completedOutputs hb r.id)
  refine ⟨out, members, ?_, hdecode, fun t ht hrun hst => ?_, fun name hno => hnone name ?_⟩
  · rw [(hb.graph.finished r (Table.mem_of_get? hr) hst).2.2, hout]
  · exact hthere (t.stepName, t.output) ((hmem _).mpr ⟨t, ht, hrun, hst, rfl⟩)
  · intro o ho
    obtain ⟨t, ht, hrun, hst, rfl⟩ := (hmem o).mp ho
    exact hno t ht hrun hst

end Store

/-- The status and the output of a run are those that its steps determine. -/
theorem run_determined_by_steps {S : System} (h : System.Reachable System.Any S) {r : WorkflowRun}
    (hr : r ∈ S.db.runs) :
    (runTerminal r.status = true ↔
      ∀ t ∈ S.db.steps, t.workflowRunID = r.id → stepTerminal t.status = true) ∧
    (r.status = .completed ↔
      ∀ t ∈ S.db.steps, t.workflowRunID = r.id → t.status = .completed) ∧
    (r.status = .failed ↔
      (∀ t ∈ S.db.steps, t.workflowRunID = r.id → stepTerminal t.status = true) ∧
      (∃ t ∈ S.db.steps, t.workflowRunID = r.id ∧ t.status = .failed) ∧
      ∀ t ∈ S.db.steps, t.workflowRunID = r.id → t.status ≠ .cancelled) ∧
    (r.status = .cancelled ↔
      ∃ t ∈ S.db.steps, t.workflowRunID = r.id ∧ t.status = .cancelled) ∧
    (r.status = .completed ∨ r.status = .failed →
      ∃ out members, r.output = some out ∧ unmarshalMembers out = some members ∧
        (∀ t ∈ S.db.steps, t.workflowRunID = r.id → t.status = .completed →
          members t.stepName = marshalMember t.output) ∧
        ∀ name, (∀ t ∈ S.db.steps, t.workflowRunID = r.id → t.status = .completed →
          t.stepName ≠ name) → members name = none) := by
  have horderly := h.ok.orderly
  have hget := Table.mem_iff_get?.mp hr
  exact ⟨horderly.ended_iff hget, horderly.completed_iff hget, horderly.failed_iff hget,
    horderly.cancelled_iff hget, horderly.base.output_decodes hget⟩

/-- The run of a chain whose first step has failed has failed. -/
theorem run_determined_by_steps_failed :
    ∃ r ∈ failedSystem.db.runs, r.status = .failed ∧
      ∃ t ∈ failedSystem.db.steps, t.workflowRunID = r.id ∧ t.status = .failed := by
  have hreach : System.Reachable System.Any failedSystem :=
    .run .init (fun _ _ _ => trivial) (Option.some_get _).symm
  have hfailed : ∃ r ∈ failedSystem.db.runs.rows, r.status = .failed := by decide +kernel
  obtain ⟨r, hr, hst⟩ := hfailed
  exact ⟨r, hr, hst, ((run_determined_by_steps hreach hr).2.2.1.mp hst).2.1⟩

end Orchestrator
