import Mathlib.Data.Fintype.Perm
import Mathlib.Data.List.FinRange
import Mathlib.GroupTheory.Perm.Basic
import Orchestrator.Lib.Actions
import Orchestrator.Store.Database

/-!
# Statements

The statements of `internal/store/postgres/queries.go` that the engine and the
worker API issue, with what each answers and which rows it writes. A statement
is executed against the rows that its transaction can see.

Three further calls stand for answers that do not come from the store: the
iteration order of a Go map, a new UUID, and a random number.
-/

namespace Orchestrator

open Lib

/-- What a call meets besides the rows it sees. -/
structure Draw where
  /-- The current time, as the database has it. -/
  now : Time
  /-- The time that `time.Now` reads on the node that makes the call. -/
  clock : Time
  /-- A generated identifier. -/
  uuid : UUID
  /-- A second generated identifier. -/
  key : UUID
  /-- The order in which unordered rows or map entries are met. -/
  order : (n : ℕ) → Equiv.Perm (Fin n)
  /-- The value of `rand.Float64`. -/
  rand : ℚ

/-- A draw in which the time and the identifiers are one number. -/
def Draw.tick (n : ℕ) : Draw := ⟨n, n, n, n, fun _ => 1, 1 / 2⟩

/-- The items in the order drawn. -/
def Draw.shuffle {α : Type} (d : Draw) (items : List α) : List α :=
  List.ofFn (fun i => items.get (d.order items.length i))

/-- A shuffle loses and adds nothing. -/
theorem Draw.shuffle_perm {α : Type} (d : Draw) (items : List α) :
    (d.shuffle items).Perm items := by
  have h := (d.order items.length).ofFn_comp_perm items.get
  rwa [List.ofFn_get] at h

/-- Why a call of the engine fails. -/
inductive Error
  /-- `store.ErrNotFound`. -/
  | notFound
  /-- `store.ErrConflict`: a unique or primary key exists already. -/
  | conflict
  /-- A reference to a row that does not exist. -/
  | foreignKey
  /-- Text that is no document for a `JSONB` column. -/
  | invalidJSON
  /-- `json.Marshal` failed. -/
  | marshal
  /-- The definition was rejected. -/
  | validation (e : ValidationError)
  /-- A request without a worker. -/
  | invalidArgument
  /-- The step changed status concurrently during dispatch. -/
  | stepChanged (step : String)
  /-- A number that is no value of its `INT` column. -/
  | outOfRange
  /-- `Publish` failed. -/
  | publish
  deriving DecidableEq, Repr

/-- The calls that programs make, with the type of their answers. -/
inductive Query : Type → Type
  /-- The order in which `range` visits the keys of a map. -/
  | mapOrder (keys : List String) : Query (List String)
  /-- `uuid.New`. -/
  | newUUID : Query UUID
  /-- `rand.Float64`. -/
  | randFloat : Query ℚ
  /-- `time.Now`. -/
  | timeNow : Query Time
  | createWorkflowDefinition (name : String) (version : ℤ) (dag : Definition) :
      Query WorkflowDefinition
  | getWorkflowDefinition (name : String) (version : ℤ) : Query (Option WorkflowDefinition)
  | getLatestWorkflowDefinition (name : String) : Query (Option WorkflowDefinition)
  | createWorkflowRun (id definitionID : UUID) (name : String) (version : ℤ) (shardID : ℕ)
      (input : RawMessage) : Query WorkflowRun
  | getWorkflowRun (id : UUID) : Query (Option WorkflowRun)
  | updateWorkflowRunStatus (id : UUID) (expected : List RunStatus) (next : RunStatus)
      (output : Option RawMessage) (errMsg : Option String) : Query Bool
  /-- One insertion of the loop of `CreateSteps`. -/
  | createStep (runID : UUID) (step : NewStep) : Query Step
  | getSteps (runID : UUID) : Query (List Step)
  | getStep (id : UUID) : Query (Option Step)
  | updateStepStatus (id : UUID) (expected : List StepStatus) (next : StepStatus)
      (output : Option RawMessage) (errMsg : Option String) (bumpAttempt : Bool) : Query Bool
  | createTaskAttempt (stepID runID : UUID) (attemptNumber : ℕ) (queueName : String) :
      Query TaskAttempt
  | claimTaskAttempt (attemptID idempotencyKey : UUID) (workerID : String) (leaseFor : ℕ) :
      Query (Option TaskAttempt × ClaimResult)
  | heartbeatTaskAttempt (attemptID : UUID) (workerID : String) (leaseFor : ℕ) :
      Query (Option Time)
  | completeTaskAttempt (attemptID : UUID) (workerID : String) (success : Bool)
      (result : Option RawMessage) (errMsg : Option String) : Query (TaskAttempt × Bool)
  | reapExpiredAttempts (limit : ℕ) : Query (List TaskAttempt)
  | insertOutboxMessage (msg : NewOutboxMessage) : Query ℕ
  | fetchAndLockPendingOutbox (shardIDs : Option (List ℕ)) (limit : ℕ) :
      Query (List OutboxMessage)
  | markOutboxPublished (id : ℕ) : Query Unit
  | insertTimer (timer : NewTimer) : Query Timer
  | fireTimerCAS (timerID : UUID) : Query (Option Timer)
  /-- The rows that the update of `CancelTimersForRun` finds. -/
  | pendingTimersForRun (runID : UUID) : Query (List UUID)
  /-- The update of one such row, whose condition is tested again. -/
  | cancelTimer (timerID : UUID) : Query Unit
  | insertSignal (runID : UUID) (name : String) (payload : Option RawMessage) : Query Signal
  | listUnprocessedSignals (runID : UUID) : Query (List Signal)
  | markSignalProcessed (id : UUID) : Query Bool
  /-- The answer is empty when the run does not exist. -/
  | appendHistory (runID : UUID) (eventType : EventType) (payload : Option Json) :
      Query (Option HistoryEvent)

/-- `COALESCE(new, old)`. -/
def coalesce {α : Type} (new old : Option α) : Option α := new.orElse (fun _ => old)

@[simp] theorem coalesce_none {α : Type} (new : Option α) : coalesce new none = new := by
  cases new <;> rfl

/-- What a `JSONB` column stores. -/
def jsonb : Option RawMessage → Except Error (Option RawMessage)
  | some (.invalid _) => .error .invalidJSON
  | m => .ok m

/-- The row that `UpdateStepStatus` writes. -/
def Step.transition (s : Step) (next : StepStatus) (output : Option RawMessage)
    (errMsg : Option String) (bumpAttempt : Bool) (now : Time) : Step :=
  { s with
    status := next
    output := coalesce output s.output
    error := coalesce errMsg s.error
    attemptCount := s.attemptCount + if bumpAttempt then 1 else 0
    startedAt := if (next = .queued ∨ next = .running) ∧ s.startedAt = none then some now
      else s.startedAt
    completedAt := if stepTerminal next then some now else s.completedAt }

/-- The row that `UpdateWorkflowRunStatus` writes. -/
def WorkflowRun.transition (r : WorkflowRun) (next : RunStatus) (output : Option RawMessage)
    (errMsg : Option String) (now : Time) : WorkflowRun :=
  { r with
    status := next
    output := coalesce output r.output
    error := coalesce errMsg r.error
    startedAt := if next = .running ∧ r.startedAt = none then some now else r.startedAt
    completedAt := if runTerminal next then some now else r.completedAt }

/-- The row that `ReapExpiredAttempts` writes. -/
def TaskAttempt.expire (a : TaskAttempt) (now : Time) : TaskAttempt :=
  { a with status := .expired, completedAt := some now, error := some "lease expired" }

/-- Whether the lease of an attempt has run out. -/
def TaskAttempt.leaseExpired (a : TaskAttempt) (now : Time) : Bool :=
  a.status == .leased && a.leaseExpiresAt.any (fun t => decide (t < now))

/-- The filter `$1::int[] IS NULL OR shard_id = ANY($1)`. -/
def shardSelected (shardIDs : Option (List ℕ)) (shardID : ℕ) : Bool :=
  shardIDs.all (fun ids => ids.contains shardID)

/-- The step rows of a run. -/
def Db.stepsOf (v : Db) (runID : UUID) : List Step :=
  v.steps.rows.filter (fun s => s.workflowRunID = runID)

/-- `GetLatestWorkflowDefinition`: the row of the largest version. -/
def latestDefinition (rows : List WorkflowDefinition) : Option WorkflowDefinition :=
  rows.foldl (fun best d =>
    match best with
    | none => some d
    | some b => if b.version < d.version then some d else some b) none

/-- `AppendHistory`: the counter of the run and the new event. -/
def historyWrites (r : WorkflowRun) (eventType : EventType) (payload : Option Json) (now : Time) :
    List Write :=
  [.run { r with historySeq := r.historySeq + 1 },
   .history
    { workflowRunID := r.id
      seq := r.historySeq + 1
      eventType := eventType
      payload := payload.getD (.obj [])
      createdAt := now }]

/-- The new row of `CreateWorkflowRun`. -/
def newRun (id definitionID : UUID) (name : String) (version : ℤ) (shardID : ℕ)
    (input : RawMessage) (now : Time) : WorkflowRun :=
  { id, definitionID, name, version, status := .pending, shardID, input, output := none,
    error := none, historySeq := 0, createdAt := now, startedAt := none, completedAt := none }

/-- The new row of `CreateSteps`. -/
def newStepRow (id runID : UUID) (step : NewStep) (now : Time) : Step :=
  { id, workflowRunID := runID, stepName := step.stepName, taskType := step.taskType,
    dependsOn := step.dependsOn, status := .pending, attemptCount := 0,
    maxAttempts := step.maxAttempts, input := step.input.getD .emptyObject, output := none,
    error := none, initialBackoffMS := step.initialBackoffMS,
    backoffMultiplier := step.backoffMultiplier, maxBackoffMS := step.maxBackoffMS,
    timeoutSeconds := step.timeoutSeconds, createdAt := now, startedAt := none,
    completedAt := none }

/-- The new row of `CreateTaskAttempt`. -/
def newAttempt (id stepID runID : UUID) (attemptNumber : ℕ) (key : UUID) (queueName : String)
    (now : Time) : TaskAttempt :=
  { id, stepID, workflowRunID := runID, attemptNumber, idempotencyKey := key, status := .queued,
    queueName, leaseOwner := none, leaseExpiresAt := none, result := none, error := none,
    queuedAt := now, startedAt := none, completedAt := none }

/-- The new row of `InsertOutboxMessage`. -/
def newMessage (id : ℕ) (msg : NewOutboxMessage) (now : Time) : OutboxMessage :=
  { id, aggregateType := msg.aggregateType, aggregateID := msg.aggregateID,
    shardID := msg.shardID, streamName := msg.streamName, payload := msg.payload,
    status := .pending, createdAt := now, publishedAt := none }

/-- The new row of `InsertTimer`. -/
def newTimerRow (id : UUID) (timer : NewTimer) (now : Time) : Timer :=
  { id, workflowRunID := timer.workflowRunID, stepID := timer.stepID, shardID := timer.shardID,
    kind := timer.kind, status := .pending, payload := timer.payload,
    fireAt := timer.fireAt, createdAt := now, firedAt := none }

/-- The row that `ClaimTaskAttempt` writes. -/
def TaskAttempt.lease (a : TaskAttempt) (workerID : String) (leaseFor : ℕ) (now : Time) :
    TaskAttempt :=
  { a with
    status := .leased
    leaseOwner := some workerID
    leaseExpiresAt := some (now + leaseFor)
    startedAt := some now }

/-- The row that `CompleteTaskAttempt` writes. -/
def TaskAttempt.complete (a : TaskAttempt) (success : Bool) (result : Option RawMessage)
    (errMsg : Option String) (now : Time) : TaskAttempt :=
  { a with
    status := if success then .succeeded else .failed
    result := result
    error := errMsg
    completedAt := some now }

/-- The condition of `CompleteTaskAttempt` and `HeartbeatTaskAttempt`: the
attempt is leased to the worker. -/
def TaskAttempt.leasedTo (a : TaskAttempt) (workerID : String) : Bool :=
  a.status == .leased && a.leaseOwner == some workerID

/-- A statement's answer and the rows it writes, from the rows it sees. -/
def Query.exec : {β : Type} → Query β → Draw → Db → Except Error (β × List Write)
  | _, .mapOrder keys, d, _ => .ok (d.shuffle keys, [])
  | _, .newUUID, d, _ => .ok (d.uuid, [])
  | _, .randFloat, d, _ => .ok (d.rand, [])
  | _, .timeNow, d, _ => .ok (d.clock, [])
  | _, .createWorkflowDefinition name version dag, d, v =>
    if v.definitions.rows.any (fun r => r.name == name && r.version == version) then
      .error .conflict
    else
      let row : WorkflowDefinition := ⟨d.uuid, name, version, dag, d.now⟩
      .ok (row, [.definition row])
  | _, .getWorkflowDefinition name version, _, v =>
    .ok (v.definitions.rows.find? (fun r => r.name = name ∧ r.version = version), [])
  | _, .getLatestWorkflowDefinition name, d, v =>
    .ok (latestDefinition (d.shuffle (v.definitions.rows.filter (fun r => r.name = name))), [])
  | _, .createWorkflowRun id definitionID name version shardID input, d, v =>
    if (v.runs.get? id).isSome then .error .conflict
    else if (v.definitions.get? definitionID).isNone then .error .foreignKey
    else if ¬ input.IsValid then .error .invalidJSON
    else
      let row := newRun id definitionID name version shardID input d.now
      .ok (row, [.run row])
  | _, .getWorkflowRun id, _, v => .ok (v.runs.get? id, [])
  | _, .updateWorkflowRunStatus id expected next output errMsg, d, v => do
    let output ← jsonb output
    match v.runs.get? id with
    | none => .ok (false, [])
    | some r =>
      if r.status ∈ expected then .ok (true, [.run (r.transition next output errMsg d.now)])
      else .ok (false, [])
  | _, .createStep runID step, d, v =>
    if v.steps.rows.any (fun s => s.workflowRunID == runID && s.stepName == step.stepName) then
      .error .conflict
    else if (v.runs.get? runID).isNone then .error .foreignKey
    else do
      let _ ← jsonb step.input
      let row := newStepRow d.uuid runID step d.now
      .ok (row, [.step row])
  | _, .getSteps runID, d, v =>
    .ok ((d.shuffle (v.stepsOf runID)).insertionSort (fun a b => a.createdAt ≤ b.createdAt), [])
  | _, .getStep id, _, v => .ok (v.steps.get? id, [])
  | _, .updateStepStatus id expected next output errMsg bumpAttempt, d, v => do
    let output ← jsonb output
    match v.steps.get? id with
    | none => .ok (false, [])
    | some s =>
      if s.status ∈ expected then
        .ok (true, [.step (s.transition next output errMsg bumpAttempt d.now)])
      else .ok (false, [])
  | _, .createTaskAttempt stepID runID attemptNumber queueName, d, v =>
    if ¬ v.NoAttempt stepID attemptNumber then .error .conflict
    else if (v.steps.get? stepID).isNone ∨ (v.runs.get? runID).isNone then .error .foreignKey
    else
      let row := newAttempt d.uuid stepID runID attemptNumber d.key queueName d.now
      .ok (row, [.attempt row])
  | _, .claimTaskAttempt attemptID key workerID leaseFor, d, v =>
    match v.attempts.get? attemptID with
    | none => .ok ((none, .notFound), [])
    | some a =>
      if a.status = .queued ∧ a.idempotencyKey = key then
        let row := a.lease workerID leaseFor d.now
        .ok ((some row, .ok), [.attempt row])
      else .ok ((some a, .alreadyClaimed), [])
  | _, .heartbeatTaskAttempt attemptID workerID leaseFor, d, v =>
    match v.attempts.get? attemptID with
    | none => .ok (none, [])
    | some a =>
      if a.leasedTo workerID then
        .ok (some (d.now + leaseFor),
          [.attempt { a with leaseExpiresAt := some (d.now + leaseFor) }])
      else .ok (none, [])
  | _, .completeTaskAttempt attemptID workerID success result errMsg, d, v => do
    let result ← jsonb result
    match v.attempts.get? attemptID with
    | none => .error .notFound
    | some a =>
      if a.leasedTo workerID then
        let row := a.complete success result errMsg d.now
        .ok ((row, true), [.attempt row])
      else .ok ((a, false), [])
  | _, .reapExpiredAttempts limit, d, v =>
    let due := (d.shuffle (v.attempts.rows.filter (fun a => a.leaseExpired d.now))).take limit
    let expired := due.map (fun a => a.expire d.now)
    .ok (expired, expired.map .attempt)
  | _, .insertOutboxMessage msg, d, _ =>
    .ok (d.uuid, [.outbox (newMessage d.uuid msg d.now)])
  | _, .fetchAndLockPendingOutbox shardIDs limit, _, v =>
    .ok ((v.outbox.rows.filter (fun m =>
      m.status == .pending && shardSelected shardIDs m.shardID)).take limit, [])
  | _, .markOutboxPublished id, d, v =>
    match v.outbox.get? id with
    | none => .ok ((), [])
    | some m => .ok ((), [.outbox { m with status := .published, publishedAt := some d.now }])
  | _, .insertTimer timer, d, v =>
    if (v.runs.get? timer.workflowRunID).isNone ∨
        timer.stepID.any (fun id => (v.steps.get? id).isNone) then
      .error .foreignKey
    else
      let row := newTimerRow d.uuid timer d.now
      .ok (row, [.timer row])
  | _, .fireTimerCAS timerID, d, v =>
    match v.timers.get? timerID with
    | none => .ok (none, [])
    | some t =>
      if t.status = .pending then
        let row := { t with status := .fired, firedAt := some d.now }
        .ok (some row, [.timer row])
      else .ok (none, [])
  | _, .pendingTimersForRun runID, d, v =>
    .ok ((d.shuffle (v.timers.rows.filter (fun t =>
      t.workflowRunID = runID ∧ t.status = .pending))).map (·.id), [])
  | _, .cancelTimer timerID, _, v =>
    match v.timers.get? timerID with
    | none => .ok ((), [])
    | some t =>
      if t.status = .pending then .ok ((), [.timer { t with status := .cancelled }])
      else .ok ((), [])
  | _, .insertSignal runID name payload, d, v =>
    if (v.runs.get? runID).isNone then .error .foreignKey
    else do
      let payload ← jsonb payload
      let row : Signal :=
        { id := d.uuid, workflowRunID := runID, signalName := name,
          payload := payload.getD .emptyObject, processed := false, receivedAt := d.now }
      .ok (row, [.signal row])
  | _, .listUnprocessedSignals runID, d, v =>
    .ok ((d.shuffle (v.signals.rows.filter (fun s =>
      s.workflowRunID = runID ∧ s.processed = false))).insertionSort
        (fun a b => a.receivedAt ≤ b.receivedAt), [])
  | _, .markSignalProcessed id, _, v =>
    match v.signals.get? id with
    | none => .ok (false, [])
    | some s =>
      if s.processed then .ok (false, []) else .ok (true, [.signal { s with processed := true }])
  | _, .appendHistory runID eventType payload, d, v =>
    match v.runs.get? runID with
    | none => .ok (none, [])
    | some r =>
      .ok (some ⟨r.id, r.historySeq + 1, eventType, payload.getD (.obj []), d.now⟩,
        historyWrites r eventType payload d.now)

/-- Generated identifiers are new: `gen_random_uuid()` and `BIGSERIAL` do not
repeat a value. -/
def Query.admits : {β : Type} → Query β → Draw → Db → Bool
  | _, .newUUID, d, v => (v.runs.get? d.uuid).isNone
  | _, .createWorkflowDefinition .., d, v => (v.definitions.get? d.uuid).isNone
  | _, .createStep .., d, v => (v.steps.get? d.uuid).isNone
  | _, .createTaskAttempt .., d, v => (v.attempts.get? d.uuid).isNone
  | _, .insertOutboxMessage _, d, v => (v.outbox.get? d.uuid).isNone
  | _, .insertTimer _, d, v => (v.timers.get? d.uuid).isNone
  | _, .insertSignal .., d, v => (v.signals.get? d.uuid).isNone
  | _, _, _, _ => true

/-- The Postgres store. -/
def backend : Backend Query Error Db Write Lock Draw where
  exec := Query.exec
  admits := fun q d v => q.admits d v = true
  apply := Db.apply
  locks := Write.locks

instance {β : Type} (q : Query β) (d : Draw) (v : Db) : Decidable (backend.admits q d v) :=
  inferInstanceAs (Decidable (q.admits d v = true))

@[simp] theorem backend_exec {β : Type} (q : Query β) (d : Draw) (v : Db) :
    backend.exec q d v = q.exec d v := rfl

@[simp] theorem backend_admits {β : Type} (q : Query β) (d : Draw) (v : Db) :
    backend.admits q d v ↔ q.admits d v = true := Iff.rfl

@[simp] theorem backend_apply (v : Db) (w : Write) : backend.apply v w = v.apply w := rfl

@[simp] theorem backend_locks (w : Write) : backend.locks w = w.locks := rfl

/-- A program of the engine. -/
abbrev Prog (α : Type) : Type 1 := Program Query Error α

/-- Issue a statement. -/
abbrev Query.issue {β : Type} (q : Query β) : Prog β := Program.request q

end Orchestrator
