import Orchestrator.Store.Queries

/-!
# The relay

`Relay.tick` of `internal/outbox/relay.go`, call by call. The rows that it fetches stay
locked until its transaction ends. What it publishes goes to a stream at once, and no
rollback takes it back.
-/

namespace Orchestrator

open Lib Program

/-- The calls of a tick, two to the store and one to the queue. -/
inductive RelayCall : Type → Type
  | fetchAndLockPendingOutbox (shardIDs : Option (List ℕ)) (limit : ℕ) :
      RelayCall (List OutboxMessage)
  | publish (streamName : String) (payload : TaskPayload) : RelayCall Unit
  | markOutboxPublished (id : ℕ) : RelayCall Unit

/-- A program of the relay. -/
abbrev RelayProg (α : Type) : Type 1 := Program RelayCall Error α

/-- The body of the loop of `Relay.tick`. The number is `published`. -/
def publishRow (published : ℕ) (row : OutboxMessage) : RelayProg ℕ := do
  Program.request (.publish row.streamName row.payload)
  Program.request (.markOutboxPublished row.id)
  pure (published + 1)

/-- `Relay.tick`, for the shards that the relay has at the moment. -/
def Relay.tick (shardIDs : Option (List ℕ)) (batchSize : ℕ) : RelayProg ℕ := do
  let rows ← Program.request (.fetchAndLockPendingOutbox shardIDs batchSize)
  rows.foldlM publishRow 0

/-- `FetchAndLockPendingOutbox` where others hold locks: `FOR UPDATE SKIP LOCKED` passes
over their rows. -/
def fetchSkippingLocked (taken : List Lock) (shardIDs : Option (List ℕ)) (limit : ℕ) (v : Db) :
    List OutboxMessage :=
  (v.outbox.rows.filter (fun m => m.status == .pending && shardSelected shardIDs m.shardID &&
    decide (Lock.outbox m.id ∉ taken))).take limit

theorem mem_of_mem_fetch {taken : List Lock} {shardIDs : Option (List ℕ)} {limit : ℕ} {v : Db}
    {m : OutboxMessage} (h : m ∈ fetchSkippingLocked taken shardIDs limit v) : m ∈ v.outbox :=
  (List.mem_filter.mp (List.mem_of_mem_take h)).1

end Orchestrator
