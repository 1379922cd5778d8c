import Orchestrator.System.Dependencies

/-!
# Attempts and their steps

The numbers of a step's attempts are those up to its count, and the count is within
the limit and fits the status. An attempt that waits for a worker or is with one is
the latest of its step, and its step is in flight or was cancelled with its run.
-/

namespace Orchestrator

open Lib

section Counts

variable {v : Db} {t : Step}

/-- A step that has not been dispatched has made no attempt. -/
theorem Base.count_zero (hb : Base v) (ht : t ∈ v.steps)
    (hst : t.status ∈ [StepStatus.pending, .waiting, .skipped]) : t.attemptCount = 0 := by
  have hrow := hb.ledger.row t ht
  have hcount := hrow.count
  simp only [List.mem_cons, List.not_mem_nil, or_false] at hst
  rcases hst with hst | hst | hst <;> simp only [Step.CountOK, hst] at hcount
  · exact hcount
  · exact hrow.signal hcount
  · exact hcount

/-- Every attempt of a step that has failed has failed or expired. -/
theorem Base.failed_attempts (hb : Base v) (ht : t ∈ v.steps) (hst : t.status = .failed)
    {a : TaskAttempt} (ha : a ∈ v.attempts) (hid : a.stepID = t.id) :
    a.status = .failed ∨ a.status = .expired := by
  have hget : v.steps.get? a.stepID = some t := hid ▸ Table.mem_iff_get?.mp ht
  obtain ⟨-, hearlier, hlast⟩ := hb.ledger.parent_of_get? ha hget
  have hdead : Dead v.handled a := by
    rcases (hb.ledger.number_bounds ha hget).2.lt_or_eq with hlt | heq
    · exact hearlier hlt
    · have hdead := hlast heq
      rwa [LastOK, hst] at hdead
  exact hdead.imp id And.left

/-- The attempts of a step are numbered up to its count, which is within its limit
and fits its status. -/
theorem attempts_accounted {S : System} (h : System.Reachable System.Any S) {t : Step}
    (ht : t ∈ S.db.steps) :
    ((S.db.attempts.rows.filter (fun a => a.stepID = t.id)).map (·.attemptNumber)).Perm
      (List.range' 1 t.attemptCount) ∧
    (t.attemptCount : ℤ) ≤ t.maxAttempts ∧
    (t.status ∈ [StepStatus.pending, .waiting, .skipped] → t.attemptCount = 0) ∧
    (t.status = .retryBackoff → 1 ≤ t.attemptCount ∧ (t.attemptCount : ℤ) < t.maxAttempts) ∧
    (t.status = .failed → (t.attemptCount : ℤ) = t.maxAttempts ∧
      ∀ a ∈ S.db.attempts, a.stepID = t.id → a.status = .failed ∨ a.status = .expired) := by
  have hb := h.ok.orderly.base
  have hrow := hb.ledger.row t ht
  have hcount := hrow.count
  refine ⟨hb.ledger.numbers_perm ht, hrow.bound, hb.count_zero ht, fun hst => ?_, fun hst =>
    ⟨?_, fun a ha hid => hb.failed_attempts ht hst ha hid⟩⟩
  · simpa only [Step.CountOK, hst] using hcount
  · simpa only [Step.CountOK, hst] using hcount

/-- A step has failed after both of its attempts. -/
theorem attempts_accounted_failed :
    ∃ t ∈ failedSystem.db.steps, t.status = .failed ∧ (t.attemptCount : ℤ) = t.maxAttempts ∧
      ((failedSystem.db.attempts.rows.filter (fun a => a.stepID = t.id)).map
        (·.attemptNumber)).Perm [1, 2] := by
  have hreach : System.Reachable System.Any failedSystem :=
    .run .init (fun _ _ _ => trivial) (Option.some_get _).symm
  have hfailed : ∃ t ∈ failedSystem.db.steps.rows, t.status = .failed ∧ t.attemptCount = 2 := by
    decide +kernel
  obtain ⟨t, ht, hst, hcount⟩ := hfailed
  obtain ⟨hperm, -, -, -, hmax⟩ := attempts_accounted hreach ht
  rw [hcount] at hperm
  exact ⟨t, ht, hst, (hmax hst).1, hperm⟩

end Counts

/-- An attempt that can still produce an outcome is the latest of its step, and its
step is in flight in a run that goes on, or cancelled in a cancelled run. -/
theorem Orderly.of_open {v : Db} (h : Orderly v) {a : TaskAttempt} (ha : a ∈ v.attempts)
    (hopen : Open v.handled a) :
    ∃ t ∈ v.steps, t.id = a.stepID ∧ a.attemptNumber = t.attemptCount ∧
      a.workflowRunID = t.workflowRunID ∧
      ∃ r ∈ v.runs, r.id = t.workflowRunID ∧
        (((t.status = .queued ∨ t.status = .running) ∧ runTerminal r.status = false) ∨
          (t.status = .cancelled ∧ r.status = .cancelled)) := by
  have hb := h.base
  obtain ⟨t, ht, hid, hrun, -⟩ := hb.ledger.parent a ha
  have hget : v.steps.get? a.stepID = some t := hid ▸ Table.mem_iff_get?.mp ht
  obtain ⟨hnum, hst⟩ := hb.ledger.latest_of_open ha hopen hget
  obtain ⟨r, hr, hrid⟩ := hb.graph.run t ht
  have hrget : v.runs.get? t.workflowRunID = some r := hrid ▸ Table.mem_iff_get?.mp hr
  refine ⟨t, ht, hid, hnum, hrun, r, hr, hrid, ?_⟩
  rw [← or_assoc] at hst
  refine hst.imp (fun hfly => ⟨hfly, Bool.eq_false_iff.mpr (fun hend => ?_)⟩)
    (fun hcancelled => ⟨hcancelled, not_not.mp (fun hne => ?_)⟩)
  · have hdone := (h.upright _).ended r hrget hend t ht rfl
    rw [stepTerminal_of_inFlight hfly] at hdone
    cases hdone
  · exact (h.sound _).steps r hrget hne t ht rfl hcancelled

/-- An attempt that waits for a worker or is with one is the only such attempt of
its step and the latest one, and its step is in flight in a run that goes on, or
cancelled in a cancelled run. -/
theorem live_attempts_in_flight {S : System} (h : System.Reachable System.Any S) {a : TaskAttempt}
    (ha : a ∈ S.db.attempts) (hlive : a.status = .queued ∨ a.status = .leased) :
    ∃ t ∈ S.db.steps, t.id = a.stepID ∧ a.attemptNumber = t.attemptCount ∧
      a.workflowRunID = t.workflowRunID ∧
      (∀ a' ∈ S.db.attempts, a'.stepID = a.stepID → a'.status = .queued ∨ a'.status = .leased →
        a' = a) ∧
      ∃ r ∈ S.db.runs, r.id = t.workflowRunID ∧
        (((t.status = .queued ∨ t.status = .running) ∧ runTerminal r.status = false) ∨
          (t.status = .cancelled ∧ r.status = .cancelled)) := by
  have hopen : ∀ {x : TaskAttempt}, x.status = .queued ∨ x.status = .leased →
      Open S.db.handled x := fun hx => hx.imp id Or.inl
  obtain ⟨t, ht, hid, hnum, hrun, hstate⟩ := h.ok.orderly.of_open ha (hopen hlive)
  exact ⟨t, ht, hid, hnum, hrun, fun a' ha' hstep hlive' =>
    h.ok.orderly.base.ledger.open_unique ha' ha hstep (hopen hlive') (hopen hlive), hstate⟩

/-- The attempt of the second step of a chain waits for a worker. -/
theorem live_attempts_in_flight_chain :
    ∃ a ∈ chainSystem.db.attempts, a.status = .queued ∧
      ∃ t ∈ chainSystem.db.steps, t.id = a.stepID ∧ a.attemptNumber = t.attemptCount := by
  have hreach : System.Reachable System.Any chainSystem :=
    .run .init (fun _ _ _ => trivial) (Option.some_get _).symm
  have hqueued : ∃ a ∈ chainSystem.db.attempts.rows, a.status = .queued := by decide +kernel
  obtain ⟨a, ha, hst⟩ := hqueued
  obtain ⟨t, ht, hid, hnum, -⟩ := live_attempts_in_flight hreach ha (Or.inl hst)
  exact ⟨a, ha, hst, t, ht, hid, hnum⟩

end Orchestrator
