import Orchestrator.Engine.Entry

/-!
# Background work

The tick of the outbox relay, the recovery sweep, and the shard filters that the
two stores apply for them. SQL conditions are three-valued: a row is selected when
its condition is true, not when it is unknown.
-/

namespace Orchestrator

open Lib Program

/-- The transaction of `Relay.tick`. Each row fetched is published, which no
rollback undoes, and marked. The answer is the rows. -/
def relayTick (shardIDs : Option (List ℕ)) (batchSize : ℕ) : Prog (List OutboxMessage) := do
  let rows ← (Query.fetchAndLockPendingOutbox shardIDs batchSize).issue
  rows.foldlM (fun _ row => (Query.markOutboxPublished row.id).issue) ()
  pure rows

/-- The transaction of `Relay.tick` when `Publish` fails for the row at a position of
the batch, if there is one. -/
def relayTickFailing (shardIDs : Option (List ℕ)) (batchSize position : ℕ) : Prog Unit := do
  let rows ← (Query.fetchAndLockPendingOutbox shardIDs batchSize).issue
  (rows.take position).foldlM (fun _ row => (Query.markOutboxPublished row.id).issue) ()
  if position < rows.length then .fail .publish else pure ()

/-- `x = ANY(array)`, which is unknown for a `NULL` array. -/
def sqlAny (x : ℕ) : Option (List ℕ) → Option Bool
  | none => none
  | some ids => some (ids.contains x)

/-- The `OR` of two conditions. -/
def sqlOr : Option Bool → Option Bool → Option Bool
  | some true, _ => some true
  | _, some true => some true
  | some false, some false => some false
  | _, _ => none

/-- How a slice of integers arrives as a statement's argument. A nil slice arrives
as `NULL` or as an empty array. -/
def pgxInts (nilAsNull : Bool) : Option (List ℕ) → Option (List ℕ)
  | none => if nilAsNull then none else some []
  | some ids => some ids

/-- `intSliceOrNil`: a nil slice arrives as `NULL`. -/
def intSliceOrNil (xs : Option (List ℕ)) : Option (List ℕ) := xs

/-- The filter `shard_id = ANY($1)` of the Postgres `ListRunningRunsForShards`. -/
def runsShardFilter (nilAsNull : Bool) (shardIDs : Option (List ℕ)) (shardID : ℕ) : Option Bool :=
  sqlAny shardID (pgxInts nilAsNull shardIDs)

/-- The filter `$1::int[] IS NULL OR shard_id = ANY($1)` of the Postgres
`FetchAndLockPendingOutbox` and `ListDueTimers`. -/
def rowsShardFilter (shardIDs : Option (List ℕ)) (shardID : ℕ) : Option Bool :=
  sqlOr (some (intSliceOrNil shardIDs).isNone) (sqlAny shardID (intSliceOrNil shardIDs))

namespace Postgres

/-- `ListRunningRunsForShards`. -/
def listRunningRunsForShards (nilAsNull : Bool) (shardIDs : Option (List ℕ)) (v : Db) :
    List WorkflowRun :=
  v.runs.rows.filter (fun r => r.status ∈ [RunStatus.pending, .running] ∧
    runsShardFilter nilAsNull shardIDs r.shardID = some true)

/-- `FetchAndLockPendingOutbox`, when no row is locked. -/
def fetchAndLockPendingOutbox (shardIDs : Option (List ℕ)) (limit : ℕ) (v : Db) :
    List OutboxMessage :=
  (v.outbox.rows.filter (fun m => m.status = .pending ∧
    rowsShardFilter shardIDs m.shardID = some true)).take limit

/-- `ListDueTimers`. -/
def listDueTimers (shardIDs : Option (List ℕ)) (limit : ℕ) (d : Draw) (v : Db) : List Timer :=
  ((d.shuffle (v.timers.rows.filter (fun tm => tm.status = .pending ∧ tm.fireAt ≤ d.now ∧
    rowsShardFilter shardIDs tm.shardID = some true))).insertionSort
      (fun a b => a.fireAt ≤ b.fireAt)).take limit

end Postgres

namespace Memory

/-- `ListRunningRunsForShards`. -/
def listRunningRunsForShards (shardIDs : Option (List ℕ)) (v : Db) : List WorkflowRun :=
  v.runs.rows.filter (fun r =>
    if r.status ≠ .pending ∧ r.status ≠ .running then false
    else if shardIDs.isSome && !(shardIDs.getD []).contains r.shardID then false
    else true)

/-- `FetchAndLockPendingOutbox`, which goes through the rows by their identifiers. -/
def fetchAndLockPendingOutbox (shardIDs : Option (List ℕ)) (limit : ℕ) (v : Db) :
    List OutboxMessage :=
  v.outbox.rows.foldl (fun out m =>
    if limit ≤ out.length then out
    else if m.status ≠ .pending then out
    else if shardIDs.isSome && !(shardIDs.getD []).contains m.shardID then out
    else out ++ [m]) []

/-- `ListDueTimers`, which goes through the map of timers. -/
def listDueTimers (shardIDs : Option (List ℕ)) (limit : ℕ) (d : Draw) (v : Db) : List Timer :=
  (d.shuffle v.timers.rows).foldl (fun out tm =>
    if limit ≤ out.length then out
    else if tm.status ≠ .pending ∨ d.now < tm.fireAt then out
    else if shardIDs.isSome && !(shardIDs.getD []).contains tm.shardID then out
    else out ++ [tm]) []

end Memory

/-- `RecoverShards` on a store that lists runs in a given way. The answer is the
runs on which `Reconcile` was called, and the store in the end. Its errors are
only logged. -/
def recoverShards (list : Option (List ℕ) → Db → List WorkflowRun) (shardIDs : Option (List ℕ))
    (ω : UUID → ℕ → Draw) (v : Db) : List UUID × Db :=
  (list shardIDs v).foldl (fun acc r =>
    (acc.1 ++ [r.id], ((reconcile r.id).withTx backend (ω r.id) acc.2 []).2)) ([], v)

end Orchestrator
