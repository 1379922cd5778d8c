import Orchestrator.Engine.Entry

/-!
# Workers

What `ClaimTask` of `internal/grpcapi/server.go` tells a worker, and what
`Worker.process` of `internal/worker/worker.go` makes of it. The numbers of the answer
are 32 bits wide, and a conversion to them wraps around.
-/

namespace Orchestrator

open Lib Program

/-- The message `ClaimTaskResponse`. A field that is not set has its zero value. -/
structure ClaimTaskResponse where
  status : ClaimStatus
  stepName : String := ""
  taskType : String := ""
  inputJson : RawMessage := .invalid ""
  attemptNumber : Int32 := 0
  timeoutSeconds : Int32 := 0
  leaseExpiresAt : Option Time := none

/-- The response for an attempt that has been claimed. -/
def claimedResponse (attempt : TaskAttempt) (step : Step) : ClaimTaskResponse where
  status := .claimed
  stepName := step.stepName
  taskType := step.taskType
  inputJson := step.input
  attemptNumber := Int32.ofInt attempt.attemptNumber
  timeoutSeconds := Int32.ofInt step.timeoutSeconds
  leaseExpiresAt := attempt.leaseExpiresAt

/-- `ClaimTask` with its whole response. -/
def claimTaskResponse (leaseDuration : ℕ) (attemptID idempotencyKey : UUID) (workerID : String) :
    Prog ClaimTaskResponse :=
  if workerID = "" then .fail .invalidArgument
  else do
    let (attempt, result) ← (Query.claimTaskAttempt attemptID idempotencyKey workerID
      leaseDuration).issue
    match result, attempt with
    | .notFound, _ | .ok, none => pure { status := .notFound }
    | .alreadyClaimed, _ => pure { status := .alreadyClaimed }
    | .ok, some attempt => do
      let step ← getStep attempt.stepID
      let run ← getWorkflowRun attempt.workflowRunID
      if run.status = .cancelled then pure { status := .cancelled }
      else do
        let _ ← (Query.updateStepStatus step.id [.queued] .running none none false).issue
        pure (claimedResponse attempt step)

/-- `claimTask` is `ClaimTask` as far as the status of its response goes. -/
theorem claimTask_eq (leaseDuration : ℕ) (attemptID key : UUID) (workerID : String) :
    claimTask leaseDuration attemptID key workerID =
      claimTaskResponse leaseDuration attemptID key workerID >>= fun r => .ret r.status := by
  unfold claimTask claimTaskResponse
  split_ifs with hworker
  · rfl
  · refine congrArg (Program.call _) (funext (fun answer => ?_))
    rcases answer with ⟨attempt, result⟩
    cases result with
    | ok =>
      cases attempt with
      | none => rfl
      | some attempt =>
        refine congrArg (Program.call _) (funext (fun step => ?_))
        cases step with
        | none => rfl
        | some step =>
          refine congrArg (Program.call _) (funext (fun run => ?_))
          cases run with
          | none => rfl
          | some run =>
            change (if run.status = .cancelled then _ else _) =
              Program.bind (if run.status = .cancelled then _ else _) _
            split_ifs <;> rfl
    | alreadyClaimed => rfl
    | notFound => rfl

/-- A claim for an attempt that is there is answered, and what it is answered about the
task type is what the step says. -/
theorem claimTaskResponse_answered (leaseDuration : ℕ) {attemptID : UUID} (key : UUID)
    {workerID : String}
    (ω : ℕ → Draw) {s : ℕ → Db} {a : TaskAttempt} {t : Step} {r : WorkflowRun}
    (hworker : workerID ≠ "") (ha : (s 0).attempts.get? attemptID = some a)
    (ht : (s 1).steps.get? a.stepID = some t)
    (hr : (s 2).runs.get? a.workflowRunID = some r) :
    ∃ resp, (claimTaskResponse leaseDuration attemptID key workerID).runAmong backend ω s =
        .ok resp ∧
      resp.status ≠ .notFound ∧ (resp.status = .claimed → resp.taskType = t.taskType) := by
  -- The error of the last statement, which the source ignores, does not occur.
  have hstarts : ∀ d v id, ∃ r, backend.exec
      (.updateStepStatus id [.queued] .running none none false) d v = .ok r := by
    intro d v id
    simp only [backend_exec, Query.exec, jsonb]
    cases v.steps.get? id with
    | none => exact ⟨_, rfl⟩
    | some t =>
      by_cases hqueued : t.status ∈ [StepStatus.queued]
      · exact ⟨_, if_pos hqueued⟩
      · exact ⟨_, if_neg hqueued⟩
  rw [claimTaskResponse, if_neg hworker]
  change ∃ resp, Program.runAmong backend (.call (Query.claimTaskAttempt ..) _) ω s = _ ∧ _
  rw [runAmong]
  simp only [backend_exec, Query.exec, ha]
  split_ifs with hqueued
  · change ∃ resp, Program.runAmong backend (.call (Query.getStep a.stepID) _) _ _ = _ ∧ _
    rw [runAmong]
    simp only [backend_exec, Query.exec, ht]
    change ∃ resp, Program.runAmong backend (.call (Query.getWorkflowRun a.workflowRunID) _) _ _ =
      _ ∧ _
    rw [runAmong]
    simp only [backend_exec, Query.exec, hr]
    change ∃ resp, Program.runAmong backend (if r.status = .cancelled then .ret _ else
      .call (Query.updateStepStatus ..) _) _ _ = _ ∧ _
    split_ifs with hcancelled
    · exact ⟨_, rfl, by decide, fun h => by cases h⟩
    · rw [runAmong]
      split
      · rename_i e hexec
        obtain ⟨r, hr⟩ := hstarts _ _ t.id
        rw [hr] at hexec
        cases hexec
      · exact ⟨_, rfl, (fun h => by cases h), fun _ => rfl⟩
  · exact ⟨_, rfl, by decide, fun h => by cases h⟩

/-- A worker with the task types of the handlers that it has registered. -/
structure Worker where
  id : String
  handlers : List String

/-- The streams that `Worker.Run` consumes. -/
def Worker.streams (w : Worker) : List String := w.handlers.map queueName

/-- What `Worker.process` does with the response to its claim. -/
inductive Processing
  /-- The message is acknowledged and nothing is run. -/
  | notGranted (status : ClaimStatus)
  /-- A failure is reported because no handler is registered for the task type. -/
  | noHandler (taskType : String)
  /-- The handler is run, within the given seconds if there is a deadline. -/
  | handle (taskType : String) (deadline : Option ℤ)
  deriving DecidableEq

/-- The branches of `Worker.process` once `ClaimTask` has answered. -/
def Worker.process (w : Worker) (claim : ClaimTaskResponse) : Processing :=
  if claim.status ≠ .claimed then .notGranted claim.status
  else if claim.taskType ∉ w.handlers then .noHandler claim.taskType
  else .handle claim.taskType
    (if 0 < claim.timeoutSeconds then some claim.timeoutSeconds.toInt else none)

/-- A worker that has a handler for what it is granted finds it. -/
theorem process_ne_noHandler {w : Worker} {claim : ClaimTaskResponse}
    (h : claim.status = .claimed → claim.taskType ∈ w.handlers) (taskType : String) :
    w.process claim ≠ .noHandler taskType := by
  rw [Worker.process]
  by_cases hgranted : claim.status = .claimed
  · rw [if_neg (not_not.mpr hgranted), if_neg (not_not.mpr (h hgranted))]
    exact fun heq => by cases heq
  · rw [if_pos hgranted]
    exact fun heq => by cases heq

end Orchestrator
