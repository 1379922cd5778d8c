import Orchestrator.Engine.Entry
import Orchestrator.Validation

/-!
# What holds of the committed rows

The invariant is stated table by table. `Graph` relates the steps of a run to its
definition and to each other, `Ledger` relates steps to their attempts,
`Mailbox` attempts to outbox rows, and `Clocks` timers to steps. Each part names
only the tables it depends on, so writes of other tables leave it alone.
-/

namespace Orchestrator

open Lib

/-- The columns of a step that no update sets. -/
structure StepInfo where
  id : UUID
  workflowRunID : UUID
  spec : NewStep

/-- The columns of a step that no update sets. -/
def Step.info (s : Step) : StepInfo where
  id := s.id
  workflowRunID := s.workflowRunID
  spec :=
    { stepName := s.stepName, taskType := s.taskType, dependsOn := s.dependsOn,
      input := some s.input, maxAttempts := s.maxAttempts,
      initialBackoffMS := s.initialBackoffMS, backoffMultiplier := s.backoffMultiplier,
      maxBackoffMS := s.maxBackoffMS, timeoutSeconds := s.timeoutSeconds }

section Info

variable {s t : Step} (h : t.info = s.info)

include h

theorem Step.id_of_info : t.id = s.id := congrArg StepInfo.id h

theorem Step.run_of_info : t.workflowRunID = s.workflowRunID := congrArg StepInfo.workflowRunID h

theorem Step.name_of_info : t.stepName = s.stepName :=
  congrArg (fun i : StepInfo => i.spec.stepName) h

theorem Step.type_of_info : t.taskType = s.taskType :=
  congrArg (fun i : StepInfo => i.spec.taskType) h

theorem Step.deps_of_info : t.dependsOn = s.dependsOn :=
  congrArg (fun i : StepInfo => i.spec.dependsOn) h

theorem Step.max_of_info : t.maxAttempts = s.maxAttempts :=
  congrArg (fun i : StepInfo => i.spec.maxAttempts) h

theorem Step.input_of_info : t.input = s.input :=
  Option.some.inj (congrArg (fun i : StepInfo => i.spec.input) h)

theorem Step.timeout_of_info : t.timeoutSeconds = s.timeoutSeconds :=
  congrArg (fun i : StepInfo => i.spec.timeoutSeconds) h

end Info

@[simp] theorem Step.info_transition (s : Step) (next : StepStatus) (output : Option RawMessage)
    (errMsg : Option String) (bump : Bool) (now : Time) :
    (s.transition next output errMsg bump now).info = s.info := rfl

/-- The steps of a run that a step depends on have completed. -/
def DepsDone (T : Table Step.id) (t : Step) : Prop :=
  ∀ dep ∈ t.dependsOn, ∃ d ∈ T, d.workflowRunID = t.workflowRunID ∧ d.stepName = dep ∧
    d.status = .completed

/-- A step of the run that the step depends on has failed, or was skipped or
cancelled. -/
def Blocked (T : Table Step.id) (t : Step) : Prop :=
  ∃ d ∈ T, d.workflowRunID = t.workflowRunID ∧ d.stepName ∈ t.dependsOn ∧ d.status.isBad = true

/-- The step has been dispatched, or parked, or has ended other than by a skip or
a cancellation before its dispatch. -/
def Step.Started (t : Step) : Prop :=
  t.status ∈ [StepStatus.queued, .running, .retryBackoff, .waiting, .completed, .failed] ∨
    0 < t.attemptCount

/-- Every step of the run has ended. -/
def AllDone (T : Table Step.id) (runID : UUID) : Prop :=
  ∀ t ∈ T, t.workflowRunID = runID → stepTerminal t.status = true

/-- The outputs of the completed steps of a run. -/
def completedOutputs (T : Table Step.id) (runID : UUID) : List (String × Option RawMessage) :=
  (T.rows.filter (fun t => t.workflowRunID = runID ∧ t.status = .completed)).map
    (fun t => (t.stepName, t.output))

/-- What `checkRunCompletion` makes of the steps of a run. -/
def Outcome (T : Table Step.id) (runID : UUID) : RunStatus → Prop
  | .failed => ∃ t ∈ T, t.workflowRunID = runID ∧ t.status = .failed
  | .cancelled => (∀ t ∈ T, t.workflowRunID = runID → t.status ≠ .failed) ∧
      ∃ t ∈ T, t.workflowRunID = runID ∧ t.status = .cancelled
  | .completed => ∀ t ∈ T, t.workflowRunID = runID → t.status ≠ .failed ∧ t.status ≠ .cancelled
  | .pending | .running => False

/-- The steps of a run are those of its definition. -/
structure Instance (T : Table Step.id) (runID : UUID) (dag : Definition) : Prop where
  forth : ∀ t ∈ T, t.workflowRunID = runID → ∃ spec ∈ dag.steps, t.stepName = spec.name ∧
    t.taskType = spec.type ∧ t.dependsOn = spec.dependsOn ∧ t.maxAttempts = spec.maxAttempts
  back : ∀ spec ∈ dag.steps, ∃ t ∈ T, t.workflowRunID = runID ∧ t.stepName = spec.name
  unique : ∀ t ∈ T, ∀ t' ∈ T, t.workflowRunID = runID → t'.workflowRunID = runID →
    t.stepName = t'.stepName → t = t'

/-- Definitions, runs and steps. -/
structure Graph (D : Table WorkflowDefinition.id) (R : Table WorkflowRun.id) (T : Table Step.id) :
    Prop where
  definitions : ∀ d ∈ D, d.dag.WellFormed
  run : ∀ t ∈ T, ∃ r ∈ R, r.id = t.workflowRunID
  shape : ∀ r ∈ R, ∃ d ∈ D, Instance T r.id d.dag
  deps : ∀ t ∈ T, t.Started → DepsDone T t
  skipped : ∀ t ∈ T, t.status = .skipped → Blocked T t
  /-- A run that has completed or failed agrees with its steps. -/
  finished : ∀ r ∈ R, r.status = .completed ∨ r.status = .failed →
    AllDone T r.id ∧ Outcome T r.id r.status ∧ r.output = marshalOutputs (completedOutputs T r.id)
  /-- A run that has not ended has no output. -/
  unfinished : ∀ r ∈ R, runTerminal r.status = false → r.output = none

/-- How many attempts a step in a given status has made. -/
def Step.CountOK (t : Step) : Prop :=
  match t.status with
  | .pending | .skipped => t.attemptCount = 0
  | .waiting => t.taskType = signalWaitTaskType
  | .ready => False
  | .queued | .running => 1 ≤ t.attemptCount
  | .retryBackoff => 1 ≤ t.attemptCount ∧ (t.attemptCount : ℤ) < t.maxAttempts
  | .completed => t.taskType ≠ signalWaitTaskType → 1 ≤ t.attemptCount
  | .failed => (t.attemptCount : ℤ) = t.maxAttempts
  | .cancelled => True

/-- What holds of a step's row by itself. -/
structure Step.RowOK (t : Step) : Prop where
  input : t.input.IsValid
  attempts : 1 ≤ t.maxAttempts
  count : t.CountOK
  bound : (t.attemptCount : ℤ) ≤ t.maxAttempts
  signal : t.taskType = signalWaitTaskType → t.attemptCount = 0
  output : t.status ≠ .completed → t.output = none
  valid : ∀ o, t.output = some o → o.IsValid

/-- The failure of the attempt has been dealt with. -/
def Dead (H : Table (fun id : UUID => id)) (a : TaskAttempt) : Prop :=
  a.status = .failed ∨ (a.status = .expired ∧ (H.get? a.id).isSome = true)

/-- The attempt can still produce an outcome for its step. -/
def Open (H : Table (fun id : UUID => id)) (a : TaskAttempt) : Prop :=
  a.status = .queued ∨ a.status = .leased ∨ (a.status = .expired ∧ H.get? a.id = none)

/-- What the latest attempt of a step looks like. -/
def LastOK (H : Table (fun id : UUID => id)) (t : Step) (a : TaskAttempt) : Prop :=
  match t.status with
  | .queued | .running => Open H a
  | .retryBackoff | .failed => Dead H a
  | .completed => a.status = .succeeded ∧ a.result = t.output
  | _ => True

/-- An attempt fits its step. -/
def AttemptOK (H : Table (fun id : UUID => id)) (t : Step) (a : TaskAttempt) : Prop :=
  (a.attemptNumber < t.attemptCount → Dead H a) ∧
    (a.attemptNumber = t.attemptCount → LastOK H t a)

/-- Steps and their attempts. -/
structure Ledger (T : Table Step.id) (A : Table TaskAttempt.id)
    (H : Table (fun id : UUID => id)) : Prop where
  row : ∀ t ∈ T, t.RowOK
  parent : ∀ a ∈ A, ∃ t ∈ T, t.id = a.stepID ∧ a.workflowRunID = t.workflowRunID ∧
    AttemptOK H t a
  slot : ∀ a ∈ A, ∀ a' ∈ A, a.stepID = a'.stepID → a.attemptNumber = a'.attemptNumber → a = a'
  numbers : ∀ t ∈ T, ∀ n, (∃ a ∈ A, a.stepID = t.id ∧ a.attemptNumber = n) ↔
    1 ≤ n ∧ n ≤ t.attemptCount
  handled : ∀ id, (H.get? id).isSome = true → ∃ a ∈ A, a.id = id ∧ a.status = .expired

/-- Attempts and outbox rows. -/
structure Mailbox (A : Table TaskAttempt.id) (O : Table OutboxMessage.id) : Prop where
  sent : ∀ a ∈ A, ∃ m ∈ O, m.aggregateID = a.id
  once : ∀ m ∈ O, ∀ m' ∈ O, m.aggregateID = m'.aggregateID → m = m'
  about : ∀ m ∈ O, ∃ a ∈ A, a.id = m.aggregateID

/-- Every timer is a retry timer of a step. -/
def Clocks (T : Table Step.id) (M : Table Timer.id) : Prop :=
  ∀ tm ∈ M, tm.kind = .retryBackoff ∧ ∃ t ∈ T, tm.stepID = some t.id ∧
    t.workflowRunID = tm.workflowRunID

/-- The events of a run are numbered up to its counter, and only a run that has
ended is recorded as cancelled. -/
def Chronicle (R : Table WorkflowRun.id) (E : Table HistoryEvent.key) : Prop :=
  ∀ e ∈ E, ∃ r ∈ R, r.id = e.workflowRunID ∧ e.seq ≤ r.historySeq ∧
    (e.eventType = .runCancelled → runTerminal r.status = true)

/-- The invariant of the committed rows. -/
structure Base (v : Db) : Prop where
  graph : Graph v.definitions v.runs v.steps
  ledger : Ledger v.steps v.attempts v.handled
  mailbox : Mailbox v.attempts v.outbox
  clocks : Clocks v.steps v.timers
  chronicle : Chronicle v.runs v.history
  signals : ∀ s ∈ v.signals, s.payload.IsValid
  shards : ∀ r ∈ v.runs, r.shardID = shardFor r.id

end Orchestrator
