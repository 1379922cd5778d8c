import Orchestrator.Invariant.Base

/-!
# The actions that transactions are made of

Every transaction of the engine, and every statement of the worker calls, is a
sequence of the actions listed here. An action comprises the rows that have to
change together and the history event that records the change. Its conditions
mention only rows that its writes lock, and facts that never cease to hold.
-/

namespace Orchestrator

open Lib

/-- Every element of the second list has a partner in the first. -/
theorem forall₂_right {α β : Type} {ρ : α → β → Prop} {l : List α} {m : List β}
    (h : List.Forall₂ ρ l m) : ∀ b ∈ m, ∃ a ∈ l, ρ a b := by
  induction h with
  | nil => exact fun b hb => absurd hb List.not_mem_nil
  | @cons a b l m hab _ ih =>
    refine List.forall_mem_cons.mpr ⟨⟨a, List.mem_cons_self, hab⟩, fun b' hb' => ?_⟩
    obtain ⟨a', ha', hab'⟩ := ih b' hb'
    exact ⟨a', List.mem_cons_of_mem _ ha', hab'⟩

/-- The kinds of actions. -/
inductive Kind
  | define | create | skip | park | resolve | burn | dispatch | succeed | retry | giveUp | late
  | start | finish (next : RunStatus) | cancelStep | cancelRun | cancelEvent | signal | log
  | claim | heartbeat | expire | running | fireTimer | cancelTimer | publish
  deriving DecidableEq

/-- The run that an action is about, and its kind. -/
structure Label where
  run : UUID
  kind : Kind
  deriving DecidableEq

/-- The writes that end an attempt: the report of the worker that holds its
lease, or the note that its expiry is being dealt with. -/
inductive Closes (v : Db) (a : TaskAttempt) : Bool → Option RawMessage → List Write → Prop
  | report {success : Bool} {result : Option RawMessage} {errMsg : Option String} {now : Time} :
      v.attempts.get? a.id = some a → a.status = .leased →
      Closes v a success result [.attempt (a.complete success result errMsg now)]
  | expiry : v.attempts.get? a.id = some a → a.status = .expired → v.handled.get? a.id = none →
      Closes v a false none [.handled a.id]

/-- The event of a run that ends. -/
def finishEvent : RunStatus → EventType
  | .failed => .runFailed
  | .cancelled => .runCancelled
  | _ => .runCompleted

/-- The outbox row of an attempt of a step. -/
def taskMessage (r : WorkflowRun) (t : Step) (a : TaskAttempt) : NewOutboxMessage where
  aggregateType := .taskAttempt
  aggregateID := a.id
  shardID := r.shardID
  streamName := queueName t.taskType
  payload :=
    { taskAttemptID := a.id, stepID := t.id, workflowRunID := t.workflowRunID,
      stepName := t.stepName, taskType := t.taskType, input := t.input,
      attemptNumber := a.attemptNumber, idempotencyKey := a.idempotencyKey,
      timeoutSeconds := t.timeoutSeconds }

/-- The document of the event that a step was skipped. -/
def skippedDocument (t : Step) : Json := .obj [("step", .str t.stepName)]

/-- The document of the event that a signal has completed a step. -/
def signalledDocument (t : Step) (sig : Signal) : Json :=
  .obj [("signal", .str sig.signalName), ("step", .str t.stepName)]

/-- The document of the event that a step was dispatched. -/
def dispatchedDocument (t : Step) : Json :=
  .obj [("attempt", .num ((t.attemptCount + 1 : ℕ) : ℚ)), ("step", .str t.stepName),
    ("task_type", .str t.taskType)]

/-- The document of the event that an attempt has completed or failed its step. -/
def outcomeDocument (t : Step) (attemptNumber : ℕ) : Json :=
  .obj [("attempt", .num attemptNumber), ("step", .str t.stepName)]

/-- A retry timer of a step. -/
def IsRetryTimer (tm : Timer) (t : Step) : Prop :=
  tm.kind = .retryBackoff ∧ tm.stepID = some t.id ∧ tm.workflowRunID = t.workflowRunID ∧
    tm.status = .pending

/-- A step may be dispatched: its dependencies have completed, or it is waiting
for its next attempt. -/
def Dispatchable (T : Table Step.id) (t : Step) : Prop :=
  (t.status = .pending ∧ t.taskType ≠ signalWaitTaskType ∧ DepsDone T t) ∨
    t.status = .retryBackoff

/-- The writes perform an action in a state. -/
inductive Act : Label → Db → List Write → Prop
  | define {v d} : d.dag.WellFormed → v.definitions.get? d.id = none →
      v.NoDefinition d.name d.version → Act ⟨d.id, .define⟩ v [.definition d]
  | create {v d id name input now steps payload now'} :
      d ∈ v.definitions → v.runs.get? id = none →
      List.Forall₂ (fun ns t => ∃ stepID now, t = newStepRow stepID id ns now)
        d.dag.toNewSteps steps →
      (∀ t ∈ steps, v.steps.get? t.id = none) → (steps.map (·.id)).Nodup →
      Act ⟨id, .create⟩ v (.run (newRun id d.id name d.version (shardFor id) input now) ::
        (steps.map .step ++
          historyWrites (newRun id d.id name d.version (shardFor id) input now) .runCreated payload
            now'))
  | skip {v t r now now'} : v.steps.get? t.id = some t → t.status = .pending →
      Blocked v.steps t → v.runs.get? t.workflowRunID = some r →
      Act ⟨t.workflowRunID, .skip⟩ v (.step (t.transition .skipped none none false now) ::
        historyWrites r .stepSkipped (some (skippedDocument t)) now')
  | park {v t now} : v.steps.get? t.id = some t → t.status = .pending →
      t.taskType = signalWaitTaskType → DepsDone v.steps t →
      Act ⟨t.workflowRunID, .park⟩ v [.step (t.transition .waiting none none false now)]
  | resolve {v t sig r now now'} : v.signals.get? sig.id = some sig →
      sig.processed = false → sig.workflowRunID = t.workflowRunID →
      sig.signalName = t.wantName → v.steps.get? t.id = some t →
      t.status = .pending ∨ t.status = .waiting → t.taskType = signalWaitTaskType →
      DepsDone v.steps t → v.runs.get? t.workflowRunID = some r →
      Act ⟨t.workflowRunID, .resolve⟩ v (.signal { sig with processed := true } ::
        .step (t.transition .completed (some sig.payload) none false now) ::
        historyWrites r .stepCompletedBySignal (some (signalledDocument t sig)) now')
  | burn {v sig} : v.signals.get? sig.id = some sig → sig.processed = false →
      Act ⟨sig.workflowRunID, .burn⟩ v [.signal { sig with processed := true }]
  | dispatch {v t r id key messageID now now₁ now₂ now₃} :
      v.steps.get? t.id = some t → Dispatchable v.steps t →
      v.attempts.get? id = none → v.NoAttempt t.id (t.attemptCount + 1) →
      v.outbox.get? messageID = none → v.runs.get? t.workflowRunID = some r →
      Act ⟨t.workflowRunID, .dispatch⟩ v
        (.attempt (newAttempt id t.id t.workflowRunID (t.attemptCount + 1) key
            (queueName t.taskType) now) ::
          .outbox (newMessage messageID (taskMessage r t (newAttempt id t.id t.workflowRunID
            (t.attemptCount + 1) key (queueName t.taskType) now)) now₁) ::
          .step (t.transition .queued none none true now₂) ::
          historyWrites r .stepDispatched (some (dispatchedDocument t)) now₃)
  | succeed {v a t r result ws number now now'} : Closes v a true result ws →
      v.steps.get? a.stepID = some t → t.status = .queued ∨ t.status = .running →
      (∀ o, result = some o → o.IsValid) → v.runs.get? a.workflowRunID = some r →
      Act ⟨a.workflowRunID, .succeed⟩ v (ws ++
        .step (t.transition .completed result none false now) ::
        historyWrites r .stepCompleted (some (outcomeDocument t number)) now')
  | retry {v a t r result ws tm errMsg payload now now'} : Closes v a false result ws →
      v.steps.get? a.stepID = some t → t.status = .queued ∨ t.status = .running →
      (t.attemptCount : ℤ) < t.maxAttempts → IsRetryTimer tm t →
      tm.shardID = shardFor t.workflowRunID → v.timers.get? tm.id = none →
      v.runs.get? a.workflowRunID = some r →
      Act ⟨a.workflowRunID, .retry⟩ v (ws ++ .timer tm ::
        .step (t.transition .retryBackoff none errMsg false now) ::
        historyWrites r .stepRetryScheduled payload now')
  | giveUp {v a t r result ws errMsg number now now'} : Closes v a false result ws →
      v.steps.get? a.stepID = some t → t.status = .queued ∨ t.status = .running →
      ¬ (t.attemptCount : ℤ) < t.maxAttempts → v.runs.get? a.workflowRunID = some r →
      Act ⟨a.workflowRunID, .giveUp⟩ v (ws ++
        .step (t.transition .failed none errMsg false now) ::
        historyWrites r .stepFailed (some (outcomeDocument t number)) now')
  | late {v a t success result ws tms} : Closes v a success result ws →
      v.steps.get? a.stepID = some t → t.status = .cancelled →
      (tms = [] ∨ ∃ tm, tms = [.timer tm] ∧ IsRetryTimer tm t ∧
        tm.shardID = shardFor t.workflowRunID ∧ v.timers.get? tm.id = none) →
      Act ⟨a.workflowRunID, .late⟩ v (ws ++ tms)
  | start {v r now now'} : v.runs.get? r.id = some r → r.status = .pending →
      Act ⟨r.id, .start⟩ v (.run (r.transition .running none none now) ::
        historyWrites (r.transition .running none none now) .runStarted none now')
  | finish {v r next errMsg payload now now'} : v.runs.get? r.id = some r →
      runTerminal r.status = false → AllDone v.steps r.id → Outcome v.steps r.id next →
      Act ⟨r.id, .finish next⟩ v
        (.run (r.transition next (marshalOutputs (completedOutputs v.steps r.id)) errMsg now) ::
          historyWrites
            (r.transition next (marshalOutputs (completedOutputs v.steps r.id)) errMsg now)
            (finishEvent next) payload now')
  | cancelStep {v t now} : v.steps.get? t.id = some t → stepTerminal t.status = false →
      Act ⟨t.workflowRunID, .cancelStep⟩ v [.step (t.transition .cancelled none none false now)]
  | cancelRun {v r now} : v.runs.get? r.id = some r → runTerminal r.status = false →
      Act ⟨r.id, .cancelRun⟩ v [.run (r.transition .cancelled none none now)]
  | cancelEvent {v r now} : v.runs.get? r.id = some r → runTerminal r.status = true →
      Act ⟨r.id, .cancelEvent⟩ v (historyWrites r .runCancelled none now)
  | signal {v sig r} : v.signals.get? sig.id = none → sig.payload.IsValid →
      v.runs.get? sig.workflowRunID = some r → Act ⟨sig.workflowRunID, .signal⟩ v [.signal sig]
  | log {v r payload now} : v.runs.get? r.id = some r →
      Act ⟨r.id, .log⟩ v (historyWrites r .signalReceived payload now)
  | claim {v a workerID leaseFor now} : v.attempts.get? a.id = some a → a.status = .queued →
      Act ⟨a.workflowRunID, .claim⟩ v [.attempt (a.lease workerID leaseFor now)]
  | heartbeat {v a expiry} : v.attempts.get? a.id = some a → a.status = .leased →
      Act ⟨a.workflowRunID, .heartbeat⟩ v [.attempt { a with leaseExpiresAt := expiry }]
  | expire {v a now} : v.attempts.get? a.id = some a → a.status = .leased →
      Act ⟨a.workflowRunID, .expire⟩ v [.attempt (a.expire now)]
  | running {v t now} : v.steps.get? t.id = some t → t.status = .queued →
      Act ⟨t.workflowRunID, .running⟩ v [.step (t.transition .running none none false now)]
  | fireTimer {v tm now} : v.timers.get? tm.id = some tm → tm.status = .pending →
      Act ⟨tm.workflowRunID, .fireTimer⟩ v
        [.timer { tm with status := .fired, firedAt := some now }]
  | cancelTimer {v tm} : v.timers.get? tm.id = some tm → tm.status = .pending →
      Act ⟨tm.workflowRunID, .cancelTimer⟩ v [.timer { tm with status := .cancelled }]
  | publish {v m now} : v.outbox.get? m.id = some m →
      Act ⟨m.payload.workflowRunID, .publish⟩ v
        [.outbox { m with status := .published, publishedAt := some now }]

end Orchestrator
