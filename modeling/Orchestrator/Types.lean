import Orchestrator.Json

/-!
# Rows of the store

The record types and status enumerations of `internal/store/types.go`.
Identifiers are natural numbers: a UUID is used only for equality and for the
shard of a run, and fresh ones never collide. Times are natural numbers too.
-/

namespace Orchestrator

/-- A generated identifier. -/
abbrev UUID := ℕ

/-- A point in time. -/
abbrev Time := ℕ

/-- The status of a run. -/
inductive RunStatus
  | pending | running | completed | failed | cancelled
  deriving DecidableEq, Repr, Inhabited

/-- The status of a step. -/
inductive StepStatus
  | pending | ready | queued | running | retryBackoff
  | completed | failed | skipped | cancelled | waiting
  deriving DecidableEq, Repr, Inhabited

/-- `StepTerminal` reports whether a step will never transition again. -/
def stepTerminal : StepStatus → Bool
  | .completed | .failed | .skipped | .cancelled => true
  | _ => false

/-- `RunTerminal` reports whether a run will never transition again. -/
def runTerminal : RunStatus → Bool
  | .completed | .failed | .cancelled => true
  | _ => false

/-- The status of one dispatch of a step. -/
inductive AttemptStatus
  | queued | leased | succeeded | failed | expired | abandoned
  deriving DecidableEq, Repr, Inhabited

/-- What a timer is for. -/
inductive TimerKind
  | retryBackoff | stepTimeout | user
  deriving DecidableEq, Repr, Inhabited

/-- The status of a timer. -/
inductive TimerStatus
  | pending | fired | cancelled
  deriving DecidableEq, Repr, Inhabited

/-- The status of an outbox row. -/
inductive OutboxStatus
  | pending | published | failed
  deriving DecidableEq, Repr, Inhabited

/-- The event types that the engine appends to a run's history. -/
inductive EventType
  | runCreated | runStarted | runCompleted | runFailed | runCancelled
  | stepDispatched | stepCompleted | stepCompletedBySignal | stepRetryScheduled
  | stepFailed | stepSkipped | signalReceived
  deriving DecidableEq, Repr, Inhabited

/-- A row of `workflow_runs`. -/
structure WorkflowRun where
  id : UUID
  definitionID : UUID
  name : String
  version : ℤ
  status : RunStatus
  shardID : ℕ
  input : RawMessage
  output : Option RawMessage
  error : Option String
  historySeq : ℕ
  createdAt : Time
  startedAt : Option Time
  completedAt : Option Time
  deriving Repr, Inhabited

/-- A row of `steps`. -/
structure Step where
  id : UUID
  workflowRunID : UUID
  stepName : String
  taskType : String
  dependsOn : List String
  status : StepStatus
  attemptCount : ℕ
  maxAttempts : ℤ
  input : RawMessage
  output : Option RawMessage
  error : Option String
  initialBackoffMS : ℤ
  backoffMultiplier : ℚ
  maxBackoffMS : ℤ
  timeoutSeconds : ℤ
  createdAt : Time
  startedAt : Option Time
  completedAt : Option Time
  deriving Repr, Inhabited

/-- What `CreateSteps` needs to know about a step. -/
structure NewStep where
  stepName : String
  taskType : String
  dependsOn : List String
  input : Option RawMessage
  maxAttempts : ℤ
  initialBackoffMS : ℤ
  backoffMultiplier : ℚ
  maxBackoffMS : ℤ
  timeoutSeconds : ℤ
  deriving Repr, Inhabited

/-- A row of `task_attempts`. -/
structure TaskAttempt where
  id : UUID
  stepID : UUID
  workflowRunID : UUID
  attemptNumber : ℕ
  idempotencyKey : UUID
  status : AttemptStatus
  queueName : String
  leaseOwner : Option String
  leaseExpiresAt : Option Time
  result : Option RawMessage
  error : Option String
  queuedAt : Time
  startedAt : Option Time
  completedAt : Option Time
  deriving Repr, Inhabited

/-- What a worker learns from a stream message. -/
structure TaskPayload where
  taskAttemptID : UUID
  stepID : UUID
  workflowRunID : UUID
  stepName : String
  taskType : String
  input : RawMessage
  attemptNumber : ℕ
  idempotencyKey : UUID
  timeoutSeconds : ℤ
  deriving Repr, Inhabited

/-- The kind of row an outbox message speaks about. -/
inductive AggregateType
  | taskAttempt
  deriving DecidableEq, Repr, Inhabited

/-- A row of `outbox`. The payload is the value that its JSON text denotes. -/
structure OutboxMessage where
  id : ℕ
  aggregateType : AggregateType
  aggregateID : UUID
  shardID : ℕ
  streamName : String
  payload : TaskPayload
  status : OutboxStatus
  createdAt : Time
  publishedAt : Option Time
  deriving Repr, Inhabited

/-- What `InsertOutboxMessage` needs to know about a message. -/
structure NewOutboxMessage where
  aggregateType : AggregateType
  aggregateID : UUID
  shardID : ℕ
  streamName : String
  payload : TaskPayload
  deriving Repr, Inhabited

/-- A row of `timers`. -/
structure Timer where
  id : UUID
  workflowRunID : UUID
  stepID : Option UUID
  shardID : ℕ
  kind : TimerKind
  status : TimerStatus
  payload : Json
  fireAt : Time
  createdAt : Time
  firedAt : Option Time
  deriving Repr, Inhabited

/-- What `InsertTimer` needs to know about a timer. -/
structure NewTimer where
  workflowRunID : UUID
  stepID : Option UUID
  shardID : ℕ
  kind : TimerKind
  payload : Json
  /-- The time for which the engine sets it, by the clock of its node. -/
  fireAt : Time
  deriving Repr, Inhabited

/-- A row of `signals`. -/
structure Signal where
  id : UUID
  workflowRunID : UUID
  signalName : String
  payload : RawMessage
  processed : Bool
  receivedAt : Time
  deriving Repr, Inhabited

/-- A row of `workflow_run_history`. -/
structure HistoryEvent where
  workflowRunID : UUID
  seq : ℕ
  eventType : EventType
  payload : Json
  createdAt : Time
  deriving Repr, Inhabited

/-- What the caller of `ClaimTaskAttempt` is told. -/
inductive ClaimResult
  | ok | alreadyClaimed | notFound
  deriving DecidableEq, Repr, Inhabited

end Orchestrator
