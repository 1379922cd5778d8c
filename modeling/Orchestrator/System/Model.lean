import Mathlib.Order.Nat
import Orchestrator.Engine.Background

/-!
# The system

The store together with what is under way around it: the attempts that the reaper
has marked as expired and whose outcome it has not handled yet, the `ClaimTask`
calls being served, and the messages in the streams. Every transaction is one move.
The statements of `ClaimTask` are moves of their own, and so are the reaping of
attempts and the outcome of each one.

The server and the workers may crash at any point, so a call may be lost and an
outcome may never be handled. Messages stay in the streams and may be delivered
any number of times.
-/

namespace Orchestrator

open Lib Program

/-- A `ClaimTask` call being served. -/
structure ClaimCall : Type 1 where
  /-- The `LeaseDuration` of the server that serves it. -/
  leaseDuration : ℕ
  attemptID : UUID
  workerID : String
  /-- The store as the first statement met it. -/
  seen : Option Db
  /-- The statements that remain. -/
  prog : Prog ClaimStatus

/-- What has happened to an attempt. -/
inductive Notice
  /-- `ClaimTaskAttempt` gave the lease to a worker. -/
  | claimed (attemptID : UUID) (workerID : String)
  /-- A worker was told so and started its handler. -/
  | started (attemptID : UUID) (workerID : String)
  /-- `HandleTaskResult` accepted the report of a worker. -/
  | accepted (attemptID : UUID) (workerID : String)
  /-- `ReapExpiredAttempts` marked the attempt as expired. -/
  | reaped (attemptID : UUID)
  deriving DecidableEq, Repr

/-- The state of the system. -/
structure System : Type 1 where
  /-- The committed rows. -/
  db : Db
  /-- The attempts reaped whose outcome has not been handled. -/
  owed : List TaskAttempt
  /-- The `ClaimTask` calls being served. -/
  claims : List ClaimCall
  /-- The messages published, with their streams. -/
  stream : List (String × TaskPayload)
  /-- What has happened to attempts, latest first. -/
  notices : List Notice
  /-- When the last signal was received. -/
  clock : Time

/-- What may happen. The draws are those of the statements in their order. -/
inductive Move
  | registerDefinition (d : Definition) (ω : ℕ → Draw)
  | createRun (name : String) (version : ℤ) (input : Option RawMessage) (ω : ℕ → Draw)
  | reconcile (runID : UUID) (ω : ℕ → Draw)
  | report (attemptID : UUID) (workerID : String) (success : Bool) (output : Option RawMessage)
      (errMsg : Option String) (ω : ℕ → Draw)
  | fireTimer (timerID : UUID) (ω : ℕ → Draw)
  /-- A signal is received after the ones before. -/
  | signal (runID : UUID) (name : String) (payload : Option RawMessage) (ω : ℕ → Draw)
  | cancel (runID : UUID) (ω : ℕ → Draw)
  /-- The first statement of `ReapExpiredLeases`. -/
  | reap (limit : ℕ) (d : Draw)
  /-- The transaction of `ReapExpiredLeases` for an attempt. -/
  | outcome (i : ℕ) (ω : ℕ → Draw)
  /-- The server crashes before that transaction, or it fails and is logged. -/
  | lose (i : ℕ)
  /-- A `Heartbeat` call, at a server with the given `LeaseDuration`. -/
  | heartbeat (leaseDuration : ℕ) (attemptID : UUID) (workerID : String) (d : Draw)
  /-- A `ClaimTask` call arrives at a server with the given `LeaseDuration`. -/
  | claim (leaseDuration : ℕ) (attemptID idempotencyKey : UUID) (workerID : String)
  /-- A worker receives a message and makes the call for it. -/
  | deliver (leaseDuration i : ℕ) (workerID : String)
  /-- The next statement of a `ClaimTask` call. -/
  | claimNext (i : ℕ) (d : Draw)
  /-- A `ClaimTask` call returns, and the worker acts on the answer. -/
  | claimReturn (i : ℕ)
  /-- A `ClaimTask` call or its answer is lost. -/
  | claimLost (i : ℕ)
  /-- A tick of the relay. -/
  | relay (shardIDs : Option (List ℕ)) (batchSize : ℕ) (ω : ℕ → Draw)
  /-- A tick of the relay that fails or is cut short after some publications. -/
  | relayFails (shardIDs : Option (List ℕ)) (batchSize : ℕ) (published : ℕ)

/-- The statement gives a lease. -/
def Query.grants : {β : Type} → Query β → β → Bool
  | _, .claimTaskAttempt .., answer => answer.2 == .ok
  | _, _, _ => false

namespace System

/-- The system at the start. -/
def init : System := ⟨Db.empty, [], [], [], [], 0⟩

/-- Run a transaction, and go on with its answer and the store it leaves. -/
def tx {α : Type} (S : System) (p : Prog α) (ω : ℕ → Draw) (w : List Write)
    (next : Except Error α → Db → System) : Option System :=
  if p.Admissible backend ω S.db w then
    some (next (p.withTx backend ω S.db w).1 (p.withTx backend ω S.db w).2)
  else none

/-- Run a statement by itself. -/
def statement {β : Type} (S : System) (op : Query β) (d : Draw) (next : β → Db → System) :
    Option System :=
  if backend.admits op d S.db then
    match backend.exec op d S.db with
    | .error _ => some S
    | .ok (a, ws) => some (next a (backend.applyAll S.db ws))
  else none

/-- A `ClaimTask` call arrives at a server with the given `LeaseDuration`. -/
def arrive (S : System) (leaseDuration : ℕ) (attemptID idempotencyKey : UUID)
    (workerID : String) : System :=
  { S with claims := S.claims ++
      [⟨leaseDuration, attemptID, workerID, none,
        claimTask leaseDuration attemptID idempotencyKey workerID⟩] }

/-- The next statement of a `ClaimTask` call. A call whose statement fails ends. -/
def claimNext (S : System) (i : ℕ) (c : ClaimCall) (d : Draw) : Option System :=
  match c.prog with
  | .call op next =>
    if backend.admits op d S.db then
      match backend.exec op d S.db with
      | .error _ => some { S with claims := S.claims.eraseIdx i }
      | .ok (a, ws) =>
        some { S with
          db := backend.applyAll S.db ws
          claims := S.claims.set i { c with seen := c.seen <|> some S.db, prog := next a }
          notices := if op.grants a then .claimed c.attemptID c.workerID :: S.notices
            else S.notices }
    else none
  | _ => none

/-- A `ClaimTask` call returns. A worker that is told that it has the task starts
its handler. -/
def claimReturn (S : System) (i : ℕ) (c : ClaimCall) : Option System :=
  match c.prog with
  | .ret answer =>
    some { S with
      claims := S.claims.eraseIdx i
      notices := if answer = .claimed then .started c.attemptID c.workerID :: S.notices
        else S.notices }
  | _ => none

/-- What a message is in a stream. -/
def published (m : OutboxMessage) : String × TaskPayload := (m.streamName, m.payload)

/-- The outbox rows that a tick of the relay finds. -/
def pendingOutbox (S : System) (shardIDs : Option (List ℕ)) (batchSize : ℕ) :
    List OutboxMessage :=
  (S.db.outbox.rows.filter (fun m =>
    m.status == .pending && shardSelected shardIDs m.shardID)).take batchSize

/-- The effect of a move, if it is possible. -/
def next (S : System) : Move → Option System
  | .registerDefinition d ω =>
    S.tx (Orchestrator.registerDefinition d) ω [] (fun _ db => { S with db })
  | .createRun name version input ω =>
    S.tx (Orchestrator.createRun name version input) ω [] (fun _ db => { S with db })
  | .reconcile runID ω => S.tx (Orchestrator.reconcile runID) ω [] (fun _ db => { S with db })
  | .report attemptID workerID success output errMsg ω =>
    S.tx (handleTaskResult attemptID workerID success output errMsg) ω [] (fun answer db =>
      { S with
        db
        notices := match answer with
          | .ok true => .accepted attemptID workerID :: S.notices
          | _ => S.notices })
  | .fireTimer timerID ω => S.tx (handleFiredTimer timerID) ω [] (fun _ db => { S with db })
  | .signal runID name payload ω =>
    if S.clock ≤ (ω 0).now then
      S.tx (applySignal runID name payload) ω [] (fun _ db =>
        { S with db, clock := (ω 0).now })
    else none
  | .cancel runID ω => S.tx (cancelRun runID) ω [] (fun _ db => { S with db })
  | .reap limit d =>
    S.statement (.reapExpiredAttempts limit) d (fun expired db =>
      { S with
        db
        owed := S.owed ++ expired
        notices := expired.map (fun a => .reaped a.id) ++ S.notices })
  | .outcome i ω =>
    match S.owed[i]? with
    | none => none
    | some a =>
      S.tx (handleExpiredAttempt a) ω [.handled a.id] (fun _ db =>
        { S with db, owed := S.owed.eraseIdx i })
  | .lose i => if i < S.owed.length then some { S with owed := S.owed.eraseIdx i } else none
  | .heartbeat leaseDuration attemptID workerID d =>
    S.statement (.heartbeatTaskAttempt attemptID workerID leaseDuration) d
      (fun _ db => { S with db })
  | .claim leaseDuration attemptID key workerID =>
    some (S.arrive leaseDuration attemptID key workerID)
  | .deliver leaseDuration i workerID =>
    S.stream[i]?.map (fun m =>
      S.arrive leaseDuration m.2.taskAttemptID m.2.idempotencyKey workerID)
  | .claimNext i d => S.claims[i]?.bind (fun c => S.claimNext i c d)
  | .claimReturn i => S.claims[i]?.bind (fun c => S.claimReturn i c)
  | .claimLost i =>
    if i < S.claims.length then some { S with claims := S.claims.eraseIdx i } else none
  | .relay shardIDs batchSize ω =>
    S.tx (relayTick shardIDs batchSize) ω [] (fun answer db =>
      match answer with
      | .ok rows => { S with db, stream := S.stream ++ rows.map published }
      | .error _ => S)
  | .relayFails shardIDs batchSize n =>
    some { S with
      stream := S.stream ++ ((S.pendingOutbox shardIDs batchSize).take n).map published }

/-- A transaction that has been possible. -/
theorem tx_inv {S S' : System} {α : Type} {p : Prog α} {ω : ℕ → Draw} {w : List Write}
    {f : Except Error α → Db → System} (h : S.tx p ω w f = some S') :
    p.Admissible backend ω S.db w ∧
      S' = f (p.withTx backend ω S.db w).1 (p.withTx backend ω S.db w).2 := by
  unfold System.tx at h
  split_ifs at h with hω
  exact ⟨hω, (Option.some.inj h).symm⟩

/-- Every statement can meet a draw, also a late one and with any orders. -/
theorem exists_draw (now : Time) (σ : (n : ℕ) → Equiv.Perm (Fin n)) {β : Type} (op : Query β)
    (v : Db) : ∃ d, backend.admits op d v ∧ now ≤ d.now ∧ d.order = σ := by
  have hfree : ∀ {α : Type} {key : α → ℕ} (T : Table key), ∃ d : Draw,
      (T.get? d.uuid).isNone = true ∧ now ≤ d.now ∧ d.order = σ := by
    intro α key T
    obtain ⟨k, hk, hnone⟩ := T.exists_get?_none now
    exact ⟨{ Draw.tick k with order := σ }, by simp [Draw.tick, hnone], hk, rfl⟩
  cases op with
  | newUUID => exact hfree v.runs
  | createWorkflowDefinition => exact hfree v.definitions
  | createStep => exact hfree v.steps
  | createTaskAttempt => exact hfree v.attempts
  | insertOutboxMessage => exact hfree v.outbox
  | insertTimer => exact hfree v.timers
  | insertSignal => exact hfree v.signals
  | _ => exact ⟨{ Draw.tick now with order := σ }, rfl, le_rfl, rfl⟩

/-- A transaction can be executed, also late and with any orders. -/
theorem exists_draws {α : Type} (S : System) (p : Prog α) (w : List Write) (now : Time)
    (σ : (n : ℕ) → Equiv.Perm (Fin n) := fun _ => 1) :
    ∃ ω, p.Admissible backend ω S.db w ∧ ∀ i, now ≤ (ω i).now ∧ (ω i).order = σ :=
  p.exists_admissible backend (fun op s => exists_draw now σ op s) S.db w
    { Draw.tick now with order := σ } ⟨le_rfl, rfl⟩

/-- Perform a list of moves, if each of them is possible. -/
def run : List Move → System → Option System
  | [], S => some S
  | m :: ms, S => (S.next m).bind (run ms)

/-- The states that are reached by moves that meet a condition. -/
inductive Reachable (C : System → Move → Prop) : System → Prop
  | init : Reachable C init
  | step {S S' : System} {m : Move} : Reachable C S → C S m → S.next m = some S' → Reachable C S'

/-- Any move, in any state. -/
def Any (_ : System) (_ : Move) : Prop := True

theorem Reachable.mono {C C' : System → Move → Prop} {S : System} (h : Reachable C S)
    (hC : ∀ S m, C S m → C' S m) : Reachable C' S := by
  induction h with
  | init => exact .init
  | step _ hm hnext ih => exact .step ih (hC _ _ hm) hnext

/-- What a list of moves leads to is reachable. -/
theorem Reachable.run {C : System → Move → Prop} {S S' : System} {ms : List Move}
    (h : Reachable C S) (hC : ∀ S m, m ∈ ms → C S m) (hrun : System.run ms S = some S') :
    Reachable C S' := by
  induction ms generalizing S with
  | nil => exact Option.some.inj hrun ▸ h
  | cons m ms ih =>
    obtain ⟨S₁, hnext, hrest⟩ := Option.bind_eq_some_iff.mp hrun
    exact ih (h.step (hC S m List.mem_cons_self) hnext)
      (fun S m' hm' => hC S m' (List.mem_cons_of_mem m hm')) hrest

end System

end Orchestrator
