import Orchestrator.Engine.Maps

/-!
# The calls of `reconcileTx`

Each entry point of the engine up to the point where it calls `reconcileTx`. The answer is
what it calls it with, if it does.
-/

namespace Orchestrator

open Lib Program

/-- What `reconcileTx` is called with. -/
abbrev Arguments := WorkflowRun × List Step

/-- `CreateRun`. -/
def createRunArgs (name : String) (version : ℤ) (input : Option RawMessage) :
    Prog Arguments := do
  let definition ← lookupDefinition name version
  let id ← Query.newUUID.issue
  let run ← (Query.createWorkflowRun id definition.id name definition.version (shardFor id)
    (input.getD .emptyObject)).issue
  let steps ← createSteps run.id definition.dag.toNewSteps
  appendHistory run.id .runCreated (some (.obj
    [("name", .str name), ("steps", .num steps.length), ("version", .num definition.version)]))
  pure (run, steps)

/-- `Reconcile`. -/
def reconcileArgs (runID : UUID) : Prog Arguments := do
  let run ← getWorkflowRun runID
  let steps ← (Query.getSteps runID).issue
  pure (run, steps)

/-- `handleAttemptOutcome`. -/
def handleAttemptOutcomeArgs (attempt : TaskAttempt) (success : Bool) (output : Option RawMessage)
    (errMsg : Option String) : Prog Arguments := do
  let step ← getStep attempt.stepID
  let run ← getWorkflowRun attempt.workflowRunID
  if success then completeStep run step attempt output
  else if (step.attemptCount : ℤ) < step.maxAttempts then retryStep run step attempt errMsg
  else failStep run step attempt errMsg
  let steps ← (Query.getSteps run.id).issue
  pure (run, steps)

/-- `HandleTaskResult`. -/
def handleTaskResultArgs (attemptID : UUID) (workerID : String) (success : Bool)
    (output : Option RawMessage) (errMsg : Option String) : Prog (Option Arguments) := do
  let (attempt, applied) ← (Query.completeTaskAttempt attemptID workerID success output
    errMsg).issue
  if ¬ applied then pure none
  else do
    let a ← handleAttemptOutcomeArgs attempt success output errMsg
    pure (some a)

/-- `handleRetryTimerFired`. -/
def handleRetryTimerFiredArgs (timer : Timer) : Prog (Option Arguments) :=
  match timer.stepID with
  | none => pure none
  | some stepID => do
    let step ← getStep stepID
    let run ← getWorkflowRun timer.workflowRunID
    if step.status ≠ .retryBackoff ∨ runTerminal run.status then pure none
    else do
      let _ ← dispatchStep run step [.retryBackoff]
      let steps ← (Query.getSteps run.id).issue
      pure (some (run, steps))

/-- `HandleFiredTimer`. -/
def handleFiredTimerArgs (timerID : UUID) : Prog (Option Arguments) := do
  match ← (Query.fireTimerCAS timerID).issue with
  | none => pure none
  | some timer =>
    match timer.kind with
    | .retryBackoff => handleRetryTimerFiredArgs timer
    | .stepTimeout | .user => do
      let run ← getWorkflowRun timer.workflowRunID
      let steps ← (Query.getSteps run.id).issue
      pure (some (run, steps))

/-- `ApplySignal`, when the signal has been inserted. -/
def signalledArgs (runID : UUID) (name : String) : Prog Arguments := do
  let run ← getWorkflowRun runID
  appendHistory runID .signalReceived (some (.obj [("name", .str name)]))
  let steps ← (Query.getSteps runID).issue
  pure (run, steps)

/-- `ApplySignal` for a signal that does not ask for a cancellation. -/
def applySignalArgs (runID : UUID) (name : String) (payload : Option RawMessage) :
    Prog Arguments := do
  let _ ← (Query.insertSignal runID name payload).issue
  signalledArgs runID name

/-- The call, if there is one. -/
def evaluate : Option Arguments → Prog Unit
  | none => pure ()
  | some a => reconcileTx a.1 a.2

section Cuts

theorem createRun_eq (name : String) (version : ℤ) (input : Option RawMessage) :
    createRun name version input = createRunArgs name version input >>= fun a =>
      reconcileTx a.1 a.2 >>= fun _ => .ret a.1.id := by
  simp only [createRun, createRunArgs, Program.bind_assoc]
  rfl

theorem reconcile_eq (runID : UUID) :
    reconcile runID = reconcileArgs runID >>= fun a => reconcileTx a.1 a.2 := by
  simp only [reconcile, reconcileArgs, Program.bind_assoc]
  rfl

theorem handleAttemptOutcome_eq (attempt : TaskAttempt) (success : Bool)
    (output : Option RawMessage) (errMsg : Option String) :
    handleAttemptOutcome attempt success output errMsg =
      handleAttemptOutcomeArgs attempt success output errMsg >>= fun a =>
        reconcileTx a.1 a.2 := by
  simp only [handleAttemptOutcome, handleAttemptOutcomeArgs, Program.bind_assoc]
  congr 1
  funext step
  congr 1
  funext run
  split_ifs <;> rw [Program.bind_assoc] <;> rfl

theorem handleTaskResult_eq (attemptID : UUID) (workerID : String) (success : Bool)
    (output : Option RawMessage) (errMsg : Option String) :
    handleTaskResult attemptID workerID success output errMsg =
      handleTaskResultArgs attemptID workerID success output errMsg >>= fun o =>
        evaluate o >>= fun _ => .ret o.isSome := by
  simp only [handleTaskResult, handleTaskResultArgs, Program.bind_assoc]
  congr 1
  funext res
  obtain ⟨attempt, applied⟩ := res
  cases applied with
  | false => rfl
  | true =>
    simp only [not_true_eq_false, if_false, handleAttemptOutcome_eq, Program.bind_assoc]
    rfl

theorem handleFiredTimer_eq (timerID : UUID) :
    handleFiredTimer timerID = handleFiredTimerArgs timerID >>= evaluate := by
  simp only [handleFiredTimer, handleFiredTimerArgs, Program.bind_assoc]
  congr 1
  funext answer
  cases answer with
  | none => rfl
  | some timer =>
    cases hkind : timer.kind with
    | retryBackoff =>
      simp only [hkind, handleRetryTimerFired, handleRetryTimerFiredArgs]
      cases timer.stepID with
      | none => rfl
      | some stepID =>
        simp only [Program.bind_assoc]
        congr 1
        funext step
        congr 1
        funext run
        split_ifs
        · rfl
        · simp only [Program.bind_assoc]
          rfl
    | stepTimeout =>
      simp only [hkind, Program.bind_assoc]
      rfl
    | user =>
      simp only [hkind, Program.bind_assoc]
      rfl

theorem applySignal_eq (runID : UUID) {name : String} (hname : name ≠ "__cancel__")
    (payload : Option RawMessage) :
    applySignal runID name payload = applySignalArgs runID name payload >>= fun a =>
      reconcileTx a.1 a.2 := by
  rw [applySignal, if_neg hname]
  simp only [applySignalArgs, signalledArgs, Program.bind_assoc]
  rfl

end Cuts

end Orchestrator
