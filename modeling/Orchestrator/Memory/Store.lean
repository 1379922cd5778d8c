import Orchestrator.Engine.Background

/-!
# The memory store

`internal/store/memory/memory.go`. Its maps are tables, and its methods assign to the
fields of rows one after the other. There are no constraints as in the schema: a row may
refer to one that does not exist, and a document column may hold any bytes.
One mutex serializes all calls, and `WithTx` holds it while the callback runs.
-/

namespace Orchestrator.Memory

open Lib Program

/-- The state of a `Store`: the rows, and the last identifier given to an outbox row. -/
structure Store where
  rows : Db
  nextOutboxID : ℕ
  deriving Inhabited

/-- `New`. -/
def Store.new : Store := ⟨Db.empty, 0⟩

/-- An assignment to a field of the store. -/
inductive Change
  | row (w : Write)
  | nextOutboxID (id : ℕ)

/-- Perform an assignment. -/
@[simp] def Store.apply (s : Store) : Change → Store
  | .row w => { s with rows := s.rows.apply w }
  | .nextOutboxID id => { s with nextOutboxID := id }

/-- The assignments of `UpdateWorkflowRunStatus`. -/
def assignRun (r : WorkflowRun) (next : RunStatus) (output : Option RawMessage)
    (errMsg : Option String) (now : Time) : WorkflowRun :=
  let r := { r with status := next }
  let r := if output.isSome then { r with output := output } else r
  let r := if errMsg.isSome then { r with error := errMsg } else r
  let r := if next = .running ∧ r.startedAt = none then { r with startedAt := some now } else r
  if next = .completed ∨ next = .failed ∨ next = .cancelled then
    { r with completedAt := some now }
  else r

/-- `UpdateWorkflowRunStatus`. -/
def updateWorkflowRunStatus (v : Db) (id : UUID) (expected : List RunStatus) (next : RunStatus)
    (output : Option RawMessage) (errMsg : Option String) (now : Time) : Bool × List Write :=
  match v.runs.get? id with
  | none => (false, [])
  | some r =>
    if ¬ r.status ∈ expected then (false, [])
    else (true, [.run (assignRun r next output errMsg now)])

/-- The assignments of `UpdateStepStatus`. -/
def assignStep (st : Step) (next : StepStatus) (output : Option RawMessage)
    (errMsg : Option String) (bumpAttempt : Bool) (now : Time) : Step :=
  let st := { st with status := next }
  let st := if output.isSome then { st with output := output } else st
  let st := if errMsg.isSome then { st with error := errMsg } else st
  let st := if bumpAttempt then { st with attemptCount := st.attemptCount + 1 } else st
  let st := if (next = .queued ∨ next = .running) ∧ st.startedAt = none then
    { st with startedAt := some now } else st
  if stepTerminal next then { st with completedAt := some now } else st

/-- `UpdateStepStatus`. -/
def updateStepStatus (v : Db) (id : UUID) (expected : List StepStatus) (next : StepStatus)
    (output : Option RawMessage) (errMsg : Option String) (bumpAttempt : Bool) (now : Time) :
    Bool × List Write :=
  match v.steps.get? id with
  | none => (false, [])
  | some st =>
    if ¬ st.status ∈ expected then (false, [])
    else (true, [.step (assignStep st next output errMsg bumpAttempt now)])

/-- `ClaimTaskAttempt`. -/
def claimTaskAttempt (v : Db) (attemptID idempotencyKey : UUID) (workerID : String)
    (leaseFor : ℕ) (now : Time) : (Option TaskAttempt × ClaimResult) × List Write :=
  match v.attempts.get? attemptID with
  | none => ((none, .notFound), [])
  | some a =>
    if a.status ≠ .queued ∨ a.idempotencyKey ≠ idempotencyKey then
      ((some a, .alreadyClaimed), [])
    else
      let a := { a with status := .leased }
      let a := { a with leaseOwner := some workerID }
      let a := { a with leaseExpiresAt := some (now + leaseFor) }
      let a := { a with startedAt := some now }
      ((some a, .ok), [.attempt a])

/-- `HeartbeatTaskAttempt`. -/
def heartbeatTaskAttempt (v : Db) (attemptID : UUID) (workerID : String) (leaseFor : ℕ)
    (now : Time) : Option Time × List Write :=
  match v.attempts.get? attemptID with
  | none => (none, [])
  | some a =>
    if a.status ≠ .leased ∨ a.leaseOwner = none ∨ a.leaseOwner ≠ some workerID then (none, [])
    else (some (now + leaseFor), [.attempt { a with leaseExpiresAt := some (now + leaseFor) }])

/-- The assignments of `CompleteTaskAttempt`. A nil result leaves the field as it is. -/
def assignOutcome (a : TaskAttempt) (success : Bool) (result : Option RawMessage)
    (errMsg : Option String) (now : Time) : TaskAttempt :=
  let a := if success then { a with status := .succeeded } else { a with status := .failed }
  let a := if result.isSome then { a with result := result } else a
  let a := { a with error := errMsg }
  { a with completedAt := some now }

/-- `CompleteTaskAttempt`. -/
def completeTaskAttempt (v : Db) (attemptID : UUID) (workerID : String) (success : Bool)
    (result : Option RawMessage) (errMsg : Option String) (now : Time) :
    (Option TaskAttempt × Bool) × List Write :=
  match v.attempts.get? attemptID with
  | none => ((none, false), [])
  | some a =>
    if a.status ≠ .leased ∨ a.leaseOwner = none ∨ a.leaseOwner ≠ some workerID then
      ((some a, false), [])
    else
      let a := assignOutcome a success result errMsg now
      ((some a, true), [.attempt a])

/-- `ReapExpiredAttempts`, which goes through the map of attempts. -/
def reapExpiredAttempts (v : Db) (limit : ℕ) (d : Draw) : List TaskAttempt :=
  (d.shuffle v.attempts.rows).foldl (fun out a =>
    if limit ≤ out.length then out
    else if a.status = .leased ∧ a.leaseExpiresAt.any (fun t => decide (t < d.now)) then
      out ++ [{ a with
        status := .expired, error := some "lease expired", completedAt := some d.now }]
    else out) []

/-- `MarkOutboxPublished`. -/
def markOutboxPublished (v : Db) (id : ℕ) (now : Time) : List Write :=
  match v.outbox.get? id with
  | none => []
  | some m => [.outbox { m with status := .published, publishedAt := some now }]

/-- `FireTimerCAS`. -/
def fireTimerCAS (v : Db) (timerID : UUID) (now : Time) : Option Timer × List Write :=
  match v.timers.get? timerID with
  | none => (none, [])
  | some tm =>
    if tm.status ≠ .pending then (none, [])
    else
      let tm := { tm with status := .fired }
      let tm := { tm with firedAt := some now }
      (some tm, [.timer tm])

/-- The timers that `CancelTimersForRun` finds as it goes through the map. -/
def pendingTimersForRun (v : Db) (runID : UUID) (d : Draw) : List Timer :=
  (d.shuffle v.timers.rows).filter (fun tm => tm.workflowRunID = runID ∧ tm.status = .pending)

/-- `CancelTimersForRun`. -/
def cancelTimersForRun (v : Db) (runID : UUID) (d : Draw) : List Write :=
  (pendingTimersForRun v runID d).map (fun tm => .timer { tm with status := .cancelled })

/-- `MarkSignalProcessed`. -/
def markSignalProcessed (v : Db) (id : UUID) : Bool × List Write :=
  match v.signals.get? id with
  | none => (false, [])
  | some sig =>
    if sig.processed then (false, []) else (true, [.signal { sig with processed := true }])

/-- `GetLatestWorkflowDefinition`, which goes through the map of definitions. -/
def getLatestWorkflowDefinition (v : Db) (name : String) (d : Draw) : Option WorkflowDefinition :=
  (d.shuffle v.definitions.rows).foldl (fun best row =>
    if row.name = name ∧ best.all (fun b => decide (b.version < row.version)) then some row
    else best) none

/-- A call's answer with the rows that it assigns to. -/
def assigns {β : Type} (r : β × List Write) : Except Error (β × List Change) :=
  .ok (r.1, r.2.map .row)

/-- A method of `txQueries`: its answer, and what it assigns to. -/
def exec : {β : Type} → Query β → Draw → Store → Except Error (β × List Change)
  | _, .mapOrder keys, d, _ => .ok (d.shuffle keys, [])
  | _, .newUUID, d, _ => .ok (d.uuid, [])
  | _, .randFloat, d, _ => .ok (d.rand, [])
  | _, .timeNow, d, _ => .ok (d.clock, [])
  | _, .createWorkflowDefinition name version dag, d, s =>
    if s.rows.definitions.rows.any (fun r => r.name == name && r.version == version) then
      .error .conflict
    else
      let row : WorkflowDefinition := ⟨d.uuid, name, version, dag, d.now⟩
      assigns (row, [.definition row])
  | _, .getWorkflowDefinition name version, d, s =>
    .ok ((d.shuffle s.rows.definitions.rows).find?
      (fun r => r.name = name ∧ r.version = version), [])
  | _, .getLatestWorkflowDefinition name, d, s =>
    .ok (getLatestWorkflowDefinition s.rows name d, [])
  | _, .createWorkflowRun id definitionID name version shardID input, d, _ =>
    let row := newRun id definitionID name version shardID input d.now
    assigns (row, [.run row])
  | _, .getWorkflowRun id, _, s => .ok (s.rows.runs.get? id, [])
  | _, .updateWorkflowRunStatus id expected next output errMsg, d, s =>
    assigns (updateWorkflowRunStatus s.rows id expected next output errMsg d.now)
  | _, .createStep runID step, d, _ =>
    let row := newStepRow d.uuid runID step d.now
    assigns (row, [.step row])
  | _, .getSteps runID, d, s =>
    .ok (((d.shuffle s.rows.steps.rows).filter (fun st => st.workflowRunID = runID)).insertionSort
      (fun a b => a.createdAt ≤ b.createdAt), [])
  | _, .getStep id, _, s => .ok (s.rows.steps.get? id, [])
  | _, .updateStepStatus id expected next output errMsg bumpAttempt, d, s =>
    assigns (updateStepStatus s.rows id expected next output errMsg bumpAttempt d.now)
  | _, .createTaskAttempt stepID runID attemptNumber queueName, d, _ =>
    let row := newAttempt d.uuid stepID runID attemptNumber d.key queueName d.now
    assigns (row, [.attempt row])
  | _, .claimTaskAttempt attemptID key workerID leaseFor, d, s =>
    assigns (claimTaskAttempt s.rows attemptID key workerID leaseFor d.now)
  | _, .heartbeatTaskAttempt attemptID workerID leaseFor, d, s =>
    assigns (heartbeatTaskAttempt s.rows attemptID workerID leaseFor d.now)
  | _, .completeTaskAttempt attemptID workerID success result errMsg, d, s =>
    -- No caller reads the row that is nil.
    let r := completeTaskAttempt s.rows attemptID workerID success result errMsg d.now
    assigns ((r.1.1.getD default, r.1.2), r.2)
  | _, .reapExpiredAttempts limit, d, s =>
    let out := reapExpiredAttempts s.rows limit d
    assigns (out, out.map .attempt)
  | _, .insertOutboxMessage msg, d, s =>
    let id := s.nextOutboxID + 1
    .ok (id, [.nextOutboxID id, .row (.outbox (newMessage id msg d.now))])
  | _, .fetchAndLockPendingOutbox shardIDs limit, _, s =>
    .ok (fetchAndLockPendingOutbox shardIDs limit s.rows, [])
  | _, .markOutboxPublished id, d, s => assigns ((), markOutboxPublished s.rows id d.now)
  | _, .insertTimer timer, d, _ =>
    let row := newTimerRow d.uuid timer d.now
    assigns (row, [.timer row])
  | _, .fireTimerCAS timerID, d, s => assigns (fireTimerCAS s.rows timerID d.now)
  | _, .pendingTimersForRun runID, d, s =>
    .ok ((pendingTimersForRun s.rows runID d).map (·.id), [])
  | _, .cancelTimer timerID, _, s =>
    match s.rows.timers.get? timerID with
    | none => .ok ((), [])
    | some tm =>
      if tm.status = .pending then assigns ((), [.timer { tm with status := .cancelled }])
      else .ok ((), [])
  | _, .insertSignal runID name payload, d, _ =>
    let row : Signal :=
      { id := d.uuid, workflowRunID := runID, signalName := name,
        payload := payload.getD .emptyObject, processed := false, receivedAt := d.now }
    assigns (row, [.signal row])
  | _, .listUnprocessedSignals runID, d, s =>
    .ok (((d.shuffle s.rows.signals.rows).filter
      (fun sig => sig.workflowRunID = runID ∧ sig.processed = false)).insertionSort
        (fun a b => a.receivedAt ≤ b.receivedAt), [])
  | _, .markSignalProcessed id, _, s => assigns (markSignalProcessed s.rows id)
  | _, .appendHistory runID eventType payload, d, s =>
    match s.rows.runs.get? runID with
    | none => .ok (none, [])
    | some r =>
      assigns (some ⟨runID, r.historySeq + 1, eventType, payload.getD (.obj []), d.now⟩,
        historyWrites r eventType payload d.now)

/-- The memory store. It takes no locks of rows. -/
def backend : Backend Query Error Store Change Lock Draw where
  exec := exec
  admits := fun q d s => q.admits d s.rows = true
  apply := Store.apply
  locks := fun _ => []

/-- `WithTx`: the answer is the callback's, and what its calls have assigned stays. -/
def withTx {α : Type} (p : Prog α) (ω : ℕ → Draw) (s : Store) : Except Error α × Store :=
  ((p.run backend ω s []).1, backend.applyAll s (p.run backend ω s []).2)

/-- The rows of the store after assignments to rows. -/
theorem rows_applyAll (s : Store) (ws : List Write) :
    backend.applyAll s (ws.map .row) =
      { s with rows := Orchestrator.backend.applyAll s.rows ws } := by
  induction ws generalizing s with
  | nil => rfl
  | cons w ws ih => exact ih (s.apply (.row w))

end Orchestrator.Memory
