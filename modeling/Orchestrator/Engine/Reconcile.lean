import Mathlib.Data.String.Basic
import Orchestrator.Store.Queries

/-!
# DAG evaluation

`reconcileTx` of `internal/engine/reconcile.go` and what it calls. Each function
is the program of statements that the Go function issues inside its transaction.
The local view of a run's steps is passed from statement to statement.
-/

namespace Orchestrator

open Lib Program

/-- The task type of steps that wait for a signal. -/
def signalWaitTaskType : String := "signal_wait"

/-- The local view of a run's steps: the map `byName` of `runState`. -/
abbrev RunState := Table Step.stepName

/-- `newRunState`. A later step replaces an earlier one of the same name. -/
def newRunState (steps : List Step) : RunState := steps.foldl Table.put .empty

/-- `allTerminal`. -/
def RunState.allTerminal (rs : RunState) : Bool := rs.rows.all (fun s => stepTerminal s.status)

/-- `anyDispatchedOrRunning`. -/
def RunState.anyDispatchedOrRunning (rs : RunState) : Bool :=
  rs.rows.any (fun s => s.status ∈
    [StepStatus.queued, .running, .retryBackoff, .waiting, .completed])

/-- The names of the steps in the order in which a `range` statement meets them. -/
def RunState.range (rs : RunState) : Prog (List String) :=
  (Query.mapOrder (rs.rows.map (·.stepName))).issue

/-- `AppendHistory` where an error is passed on. -/
def appendHistory (runID : UUID) (eventType : EventType) (payload : Option Json) : Prog Unit := do
  match ← (Query.appendHistory runID eventType payload).issue with
  | none => .fail .notFound
  | some _ => pure ()

/-- `CancelTimersForRun`: the rows found are updated one after the other. -/
def cancelTimersForRun (runID : UUID) : Prog Unit := do
  let ids ← (Query.pendingTimersForRun runID).issue
  ids.foldlM (fun _ id => (Query.cancelTimer id).issue) ()

/-- A step that has not been dispatched. -/
def Step.isFresh (s : Step) : Bool := s.status == .pending || s.status == .ready

/-- A status that stops the steps depending on it. -/
def StepStatus.isBad (st : StepStatus) : Bool :=
  st == .failed || st == .skipped || st == .cancelled

/-- The test `blocked` of `propagateSkips`. -/
def RunState.blocked (rs : RunState) (s : Step) : Bool :=
  s.dependsOn.any (fun dep => (rs.get? dep).any (fun d => d.status.isBad))

/-- The body of the loop of one pass of `propagateSkips`. The flag is `changed`. -/
def skipStep (run : WorkflowRun) (acc : RunState × Bool) (name : String) :
    Prog (RunState × Bool) :=
  match acc.1.get? name with
  | none => pure acc
  | some s =>
    if s.isFresh && acc.1.blocked s then do
      let ok ← (Query.updateStepStatus s.id [s.status] .skipped none none false).issue
      if ok then do
        appendHistory run.id .stepSkipped (some (.obj [("step", .str s.stepName)]))
        pure (acc.1.put { s with status := .skipped }, true)
      else pure acc
    else pure acc

/-- The passes of `propagateSkips`, at most as many as the first argument. -/
def skipPasses (run : WorkflowRun) : ℕ → RunState → Prog RunState
  | 0, rs => pure rs
  | passes + 1, rs => do
    let names ← rs.range
    let (rs, changed) ← names.foldlM (skipStep run) (rs, false)
    if changed then skipPasses run passes rs else pure rs

/-- `propagateSkips`. -/
def propagateSkips (run : WorkflowRun) (rs : RunState) : Prog RunState :=
  skipPasses run (rs.rows.length + 1) rs

/-- The name of the signal that a `signal_wait` step waits for. -/
def Step.wantName (s : Step) : String :=
  let signalName := unmarshalStringField "signal_name" s.input
  if signalName ≠ "" then signalName else s.stepName

/-- The loop of `tryResolveSignalWait` over the unprocessed signals. The answer
is the result with the local copy of the step. -/
def resolveSignalWait (run : WorkflowRun) (s : Step) : List Signal → Prog (Bool × Step)
  | [] => pure (false, s)
  | sig :: signals =>
    if sig.signalName ≠ s.wantName then resolveSignalWait run s signals
    else do
      let applied ← (Query.markSignalProcessed sig.id).issue
      if ¬ applied then resolveSignalWait run s signals
      else do
        let ok ← (Query.updateStepStatus s.id [s.status] .completed (some sig.payload) none
          false).issue
        if ok then do
          appendHistory run.id .stepCompletedBySignal
            (some (.obj [("signal", .str sig.signalName), ("step", .str s.stepName)]))
          pure (true, { s with status := .completed, output := some sig.payload })
        else pure (true, s)

/-- `tryResolveSignalWait`. -/
def tryResolveSignalWait (run : WorkflowRun) (s : Step) : Prog (Bool × Step) := do
  let signals ← (Query.listUnprocessedSignals run.id).issue
  resolveSignalWait run s signals

/-- The stream of a task type. -/
def queueName (taskType : String) : String := "wf:tasks:" ++ taskType

/-- `dispatchStep`. The answer is the local copy of the step. -/
def dispatchStep (run : WorkflowRun) (s : Step) (expected : List StepStatus) : Prog Step := do
  let attemptNumber := s.attemptCount + 1
  let attempt ← (Query.createTaskAttempt s.id run.id attemptNumber (queueName s.taskType)).issue
  -- `json.Marshal` of the payload fails only on its one raw member.
  if ¬ s.input.IsValid then .fail .marshal
  else do
    let _ ← (Query.insertOutboxMessage
      { aggregateType := .taskAttempt
        aggregateID := attempt.id
        shardID := run.shardID
        streamName := queueName s.taskType
        payload :=
          { taskAttemptID := attempt.id
            stepID := s.id
            workflowRunID := run.id
            stepName := s.stepName
            taskType := s.taskType
            input := s.input
            attemptNumber := attemptNumber
            idempotencyKey := attempt.idempotencyKey
            timeoutSeconds := s.timeoutSeconds } }).issue
    let ok ← (Query.updateStepStatus s.id expected .queued none none true).issue
    if ¬ ok then .fail (.stepChanged s.stepName)
    else do
      appendHistory run.id .stepDispatched (some (.obj
        [("attempt", .num attemptNumber), ("step", .str s.stepName),
          ("task_type", .str s.taskType)]))
      pure { s with status := .queued, attemptCount := attemptNumber }

/-- The body of the first loop of `dispatchReady`: a parked step looks for its
signal. -/
def resolveWaiting (run : WorkflowRun) (rs : RunState) (name : String) : Prog RunState :=
  match rs.get? name with
  | none => pure rs
  | some s =>
    if s.status = .waiting then do
      let (_, s) ← tryResolveSignalWait run s
      pure (rs.put s)
    else pure rs

/-- The test `ready` of `dispatchReady`. -/
def RunState.ready (rs : RunState) (s : Step) : Bool :=
  s.dependsOn.all (fun dep => (rs.get? dep).any (fun d => d.status == .completed))

/-- The body of the second loop of `dispatchReady`. -/
def dispatchOne (run : WorkflowRun) (rs : RunState) (name : String) : Prog RunState :=
  match rs.get? name with
  | none => pure rs
  | some s =>
    if s.isFresh && rs.ready s then
      if s.taskType = signalWaitTaskType then do
        let (resolved, s) ← tryResolveSignalWait run s
        if resolved then pure (rs.put s)
        else do
          let ok ← (Query.updateStepStatus s.id [s.status] .waiting none none false).issue
          if ok then pure (rs.put { s with status := .waiting }) else pure rs
      else do
        let s ← dispatchStep run s [s.status]
        pure (rs.put s)
    else pure rs

/-- `dispatchReady`. -/
def dispatchReady (run : WorkflowRun) (rs : RunState) : Prog RunState := do
  let names ← rs.range
  let rs ← names.foldlM (resolveWaiting run) rs
  let names ← rs.range
  names.foldlM (dispatchOne run) rs

/-- The first part of `checkRunCompletion`: a pending run with a step in flight
is running. -/
def startRun (run : WorkflowRun) (rs : RunState) : Prog Unit :=
  if run.status = .pending ∧ rs.anyDispatchedOrRunning then do
    let ok ← (Query.updateWorkflowRunStatus run.id [.pending] .running none none).issue
    if ok then appendHistory run.id .runStarted none else pure ()
  else pure ()

/-- The map `outputs` of `checkRunCompletion`. -/
def RunState.outputs (rs : RunState) : List (String × Option RawMessage) :=
  (rs.rows.filter (fun s => s.status == .completed)).map (fun s => (s.stepName, s.output))

/-- A character as `%q` writes it. Every character beyond ASCII counts as printable. -/
def quoteChar (c : Char) : String :=
  match c.toNat with
  | 7 => "\\a"
  | 8 => "\\b"
  | 9 => "\\t"
  | 10 => "\\n"
  | 11 => "\\v"
  | 12 => "\\f"
  | 13 => "\\r"
  | 34 => "\\\""
  | 92 => "\\\\"
  | n =>
    if n < 32 ∨ n = 127 then
      "\\x" ++ String.ofList [Nat.digitChar (n / 16), Nat.digitChar (n % 16)]
    else String.ofList [c]

/-- A text as `%q` writes it. -/
def quote (s : String) : String := "\"" ++ String.join (s.toList.map quoteChar) ++ "\""

/-- The error message of a failed run. -/
def failureMessage (s : Step) : String :=
  match s.error with
  | none => "step " ++ quote s.stepName ++ " failed"
  | some e => "step " ++ quote s.stepName ++ " failed: " ++ e

/-- The update of the run's row in `checkRunCompletion` with its event, whose
error is ignored. -/
def finishRun (run : WorkflowRun) (next : RunStatus) (output : Option RawMessage)
    (errMsg : Option String) (eventType : EventType) (payload : Option Json) : Prog Unit := do
  let ok ← (Query.updateWorkflowRunStatus run.id [.pending, .running] next output errMsg).issue
  if ok then (Query.appendHistory run.id eventType payload).issue.discard else pure ()

/-- `checkRunCompletion`. -/
def checkRunCompletion (run : WorkflowRun) (rs : RunState) : Prog Unit := do
  startRun run rs
  if ¬ rs.allTerminal then pure ()
  else do
    let names ← rs.range
    let steps := names.filterMap rs.get?
    let output := marshalOutputs rs.outputs
    match steps.find? (fun s => s.status == .failed) with
    | some failedStep =>
      finishRun run .failed output (some (failureMessage failedStep)) .runFailed
        (some (.obj [("error", .str (failureMessage failedStep))]))
    | none =>
      if steps.any (fun s => s.status == .cancelled) then
        finishRun run .cancelled output none .runCancelled none
      else finishRun run .completed output none .runCompleted none
    cancelTimersForRun run.id

/-- `reconcileTx`, the evaluation that every entry point ends with. -/
def reconcileTx (run : WorkflowRun) (steps : List Step) : Prog Unit :=
  if runTerminal run.status then pure ()
  else do
    let rs ← propagateSkips run (newRunState steps)
    let rs ← dispatchReady run rs
    checkRunCompletion run rs

end Orchestrator
