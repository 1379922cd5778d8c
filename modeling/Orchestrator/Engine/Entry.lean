import Orchestrator.Engine.Reconcile

/-!
# Entry points of the engine

The exported functions of `internal/engine`, each the program of one
transaction, and the worker calls of `internal/grpcapi`, whose statements commit
one by one.
-/

namespace Orchestrator

open Lib Program

/-- The value found, or `store.ErrNotFound`. -/
def orNotFound {α : Type} : Option α → Prog α
  | none => .fail .notFound
  | some a => pure a

/-- `GetWorkflowRun`. -/
def getWorkflowRun (id : UUID) : Prog WorkflowRun := do
  orNotFound (← (Query.getWorkflowRun id).issue)

/-- `GetStep`. -/
def getStep (id : UUID) : Prog Step := do
  orNotFound (← (Query.getStep id).issue)

/-- The number of shards. -/
def numShards : ℕ := 256

/-- The sixteen bytes of a UUID. -/
def UUID.bytes (id : UUID) : List ℕ := (List.range 16).map (fun i => id / 256 ^ (15 - i) % 256)

/-- `ShardFor`: 32-bit FNV-1a of the bytes of the identifier. -/
def shardFor (id : UUID) : ℕ :=
  (UUID.bytes id).foldl (fun h byte => (h ^^^ byte) * 16777619 % 2 ^ 32) 2166136261 % numShards

/-- `RegisterDefinition`. -/
def registerDefinition (d : Definition) : Prog WorkflowDefinition :=
  match d.validate with
  | .error e => .fail (.validation e)
  | .ok d =>
    match d.toJSON with
    | none => .fail .marshal
    | some dag => (Query.createWorkflowDefinition d.name d.version dag).issue

/-- The lookup of `CreateRun`. -/
def lookupDefinition (name : String) (version : ℤ) : Prog WorkflowDefinition := do
  if 0 < version then orNotFound (← (Query.getWorkflowDefinition name version).issue)
  else orNotFound (← (Query.getLatestWorkflowDefinition name).issue)

/-- `CreateSteps`. -/
def createSteps (runID : UUID) (steps : List NewStep) : Prog (List Step) :=
  steps.foldlM (fun rows step => do
    let row ← (Query.createStep runID step).issue
    pure (rows ++ [row])) []

/-- `CreateRun`. The answer is the identifier of the run. -/
def createRun (name : String) (version : ℤ) (input : Option RawMessage) : Prog UUID := do
  let definition ← lookupDefinition name version
  let id ← Query.newUUID.issue
  let run ← (Query.createWorkflowRun id definition.id name definition.version (shardFor id)
    (input.getD .emptyObject)).issue
  let steps ← createSteps run.id definition.dag.toNewSteps
  appendHistory run.id .runCreated (some (.obj
    [("name", .str name), ("steps", .num steps.length), ("version", .num definition.version)]))
  reconcileTx run steps
  pure run.id

/-- `Reconcile`. -/
def reconcile (runID : UUID) : Prog Unit := do
  let run ← getWorkflowRun runID
  let steps ← (Query.getSteps runID).issue
  reconcileTx run steps

/-- The conversion of a floating point number to an `int64`, which cuts off its fraction. A
number out of range becomes the least one, as on amd64. -/
def toInt64 (x : ℚ) : ℤ :=
  let n := if 0 ≤ x then x.floor else x.ceil
  if -9223372036854775808 ≤ n ∧ n ≤ 9223372036854775807 then n else -9223372036854775808

/-- `time.Millisecond` is a duration of so many nanoseconds. -/
def timeMillisecond : ℤ := 1000000

/-- `computeBackoff`. The duration is in nanoseconds, and the product that yields it is taken
of two `int64`, so that it may overflow. -/
def computeBackoff (step : Step) (attemptsMade : ℕ) (rand : ℚ) : ℤ :=
  let base : ℚ := step.initialBackoffMS * step.backoffMultiplier ^ ((attemptsMade : ℤ) - 1)
  let base : ℚ := if step.maxBackoffMS < base then step.maxBackoffMS else base
  let jitter := base * (4 / 5 + 2 / 5 * rand)
  (toInt64 jitter * timeMillisecond).bmod (2 ^ 64)

/-- `Time.Add`, for times in milliseconds. No time lies before the first one. -/
def addDuration (now : Time) (duration : ℤ) : Time :=
  ((now : ℤ) + duration / timeMillisecond).toNat

/-- The part of `handleAttemptOutcome` that applies a success. -/
def completeStep (run : WorkflowRun) (step : Step) (attempt : TaskAttempt)
    (output : Option RawMessage) : Prog Unit := do
  let ok ← (Query.updateStepStatus step.id [.queued, .running] .completed output none false).issue
  if ok then
    appendHistory run.id .stepCompleted (some (.obj
      [("attempt", .num attempt.attemptNumber), ("step", .str step.stepName)]))
  else pure ()

/-- The part of `handleAttemptOutcome` that schedules a retry. -/
def retryStep (run : WorkflowRun) (step : Step) (attempt : TaskAttempt)
    (errMsg : Option String) : Prog Unit := do
  let rand ← Query.randFloat.issue
  let backoff := computeBackoff step step.attemptCount rand
  let now ← Query.timeNow.issue
  let _ ← (Query.insertTimer
    { workflowRunID := run.id
      stepID := some step.id
      shardID := run.shardID
      kind := .retryBackoff
      payload := .obj [("step_id", .num step.id)]
      fireAt := addDuration now backoff }).issue
  let ok ← (Query.updateStepStatus step.id [.queued, .running] .retryBackoff none errMsg
    false).issue
  if ok then
    appendHistory run.id .stepRetryScheduled (some (.obj
      [("attempt", .num attempt.attemptNumber),
        ("backoff_ms", .num (backoff.tdiv timeMillisecond)),
        ("step", .str step.stepName)]))
  else pure ()

/-- The part of `handleAttemptOutcome` that fails the step. -/
def failStep (run : WorkflowRun) (step : Step) (attempt : TaskAttempt)
    (errMsg : Option String) : Prog Unit := do
  let ok ← (Query.updateStepStatus step.id [.queued, .running] .failed none errMsg false).issue
  if ok then
    appendHistory run.id .stepFailed (some (.obj
      [("attempt", .num attempt.attemptNumber), ("step", .str step.stepName)]))
  else pure ()

/-- `handleAttemptOutcome`. -/
def handleAttemptOutcome (attempt : TaskAttempt) (success : Bool) (output : Option RawMessage)
    (errMsg : Option String) : Prog Unit := do
  let step ← getStep attempt.stepID
  let run ← getWorkflowRun attempt.workflowRunID
  if success then completeStep run step attempt output
  else if (step.attemptCount : ℤ) < step.maxAttempts then retryStep run step attempt errMsg
  else failStep run step attempt errMsg
  let steps ← (Query.getSteps run.id).issue
  reconcileTx run steps

/-- `HandleTaskResult`. The answer is `accepted`. -/
def handleTaskResult (attemptID : UUID) (workerID : String) (success : Bool)
    (output : Option RawMessage) (errMsg : Option String) : Prog Bool := do
  let (attempt, applied) ← (Query.completeTaskAttempt attemptID workerID success output
    errMsg).issue
  if ¬ applied then pure false
  else do
    handleAttemptOutcome attempt success output errMsg
    pure true

/-- The error message of an expired lease. -/
def leaseExpiredMessage : String := "task lease expired (worker unresponsive)"

/-- The transaction of `ReapExpiredLeases` for one attempt that was reaped. -/
def handleExpiredAttempt (attempt : TaskAttempt) : Prog Unit :=
  handleAttemptOutcome attempt false none (some leaseExpiredMessage)

/-- `handleRetryTimerFired`. -/
def handleRetryTimerFired (timer : Timer) : Prog Unit :=
  match timer.stepID with
  | none => pure ()
  | some stepID => do
    let step ← getStep stepID
    let run ← getWorkflowRun timer.workflowRunID
    if step.status ≠ .retryBackoff ∨ runTerminal run.status then pure ()
    else do
      let _ ← dispatchStep run step [.retryBackoff]
      let steps ← (Query.getSteps run.id).issue
      reconcileTx run steps

/-- `HandleFiredTimer`. -/
def handleFiredTimer (timerID : UUID) : Prog Unit := do
  match ← (Query.fireTimerCAS timerID).issue with
  | none => pure ()
  | some timer =>
    match timer.kind with
    | .retryBackoff => handleRetryTimerFired timer
    | .stepTimeout | .user => do
      let run ← getWorkflowRun timer.workflowRunID
      let steps ← (Query.getSteps run.id).issue
      reconcileTx run steps

/-- The body of the loop of `CancelRun`. -/
def cancelStep (s : Step) : Prog Unit :=
  if stepTerminal s.status then pure ()
  else (Query.updateStepStatus s.id [s.status] .cancelled none none false).issue.discard

/-- `CancelRun`. -/
def cancelRun (runID : UUID) : Prog Unit := do
  let run ← getWorkflowRun runID
  if runTerminal run.status then pure ()
  else do
    let steps ← (Query.getSteps runID).issue
    steps.foldlM (fun _ s => cancelStep s) ()
    cancelTimersForRun runID
    let _ ← (Query.updateWorkflowRunStatus runID [.pending, .running] .cancelled none none).issue
    appendHistory runID .runCancelled none

/-- `ApplySignal`. -/
def applySignal (runID : UUID) (name : String) (payload : Option RawMessage) : Prog Unit :=
  if name = "__cancel__" then cancelRun runID
  else do
    let _ ← (Query.insertSignal runID name payload).issue
    let run ← getWorkflowRun runID
    appendHistory runID .signalReceived (some (.obj [("name", .str name)]))
    let steps ← (Query.getSteps runID).issue
    reconcileTx run steps

/-- `DefaultLeaseDuration`, in milliseconds. A server is given another one by its
configuration. -/
def defaultLeaseDuration : ℕ := 30000

/-- The answer of `ClaimTask`. -/
inductive ClaimStatus
  | claimed | alreadyClaimed | notFound | cancelled
  deriving DecidableEq, Repr, Inhabited

/-- `ClaimTask` of a server with the given `LeaseDuration`. Its statements commit one by one,
and the error of the last one is ignored. -/
def claimTask (leaseDuration : ℕ) (attemptID idempotencyKey : UUID) (workerID : String) :
    Prog ClaimStatus :=
  if workerID = "" then .fail .invalidArgument
  else do
    let (attempt, result) ← (Query.claimTaskAttempt attemptID idempotencyKey workerID
      leaseDuration).issue
    match result, attempt with
    | .notFound, _ | .ok, none => pure .notFound
    | .alreadyClaimed, _ => pure .alreadyClaimed
    | .ok, some attempt => do
      let step ← getStep attempt.stepID
      let run ← getWorkflowRun attempt.workflowRunID
      if run.status = .cancelled then pure .cancelled
      else do
        let _ ← (Query.updateStepStatus step.id [.queued] .running none none false).issue
        pure .claimed

end Orchestrator
