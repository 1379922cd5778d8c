import Orchestrator.Concurrent.Nodes
import Orchestrator.Invariant.Address
import Orchestrator.Recovery
import Orchestrator.Scheduler

/-!
# The shards that nodes own

A leader publishes the assignment of shards to the live members, and every member
keeps the shards that it finds under its own name. The lists divide the shards among
the members, so that every run, its pending messages and its due timers are met by
the queries of one member, and of no other.
-/

namespace Orchestrator

open Lib

/-- `json.Marshal` of a `[]string`. -/
def marshalStrings (items : List String) : RawMessage := .valid (.arr (items.map .str))

/-- One item of a `[]string` as `json.Unmarshal` decodes it. -/
def unmarshalString : Json → Option String
  | .str s => some s
  | .null => some ""
  | _ => none

/-- `json.Unmarshal` into a nil `[]string`. -/
def unmarshalStrings : RawMessage → Option (List String)
  | .valid (.arr items) => items.mapM unmarshalString
  | .valid .null => some []
  | _ => none

/-- `publishShardMap`: what it stores for the live members, which may not be found. -/
def publishShardMap (members : Option (List String)) : Option RawMessage :=
  match members with
  | none | some [] => none
  | some members => some (marshalStrings (assignShards members numShards))

/-- The part of a `Scheduler` that says what its node owns. -/
structure Node where
  nodeID : String
  /-- The pointer to the slice of shards, which is nil at first. -/
  owned : Option (Option (List ℕ))

/-- `OwnedShards`. -/
def Node.ownedShards (n : Node) : Option (List ℕ) := n.owned.join

/-- The loop of `refreshOwnedShards`, which appends to a nil slice. -/
def Node.mine (n : Node) (assignment : List String) : Option (List ℕ) :=
  assignment.zipIdx.foldl (fun mine p =>
    if p.1 = n.nodeID then some (mine.getD [] ++ [p.2]) else mine) none

/-- `refreshOwnedShards`, for what is stored as the shard map. -/
def Node.refreshOwnedShards (n : Node) (raw : Option RawMessage) : Node :=
  match raw.bind unmarshalStrings with
  | none => n
  | some assignment => { n with owned := some (some ((n.mine assignment).getD [])) }

/-- What was published is read as it was. -/
theorem unmarshalStrings_marshalStrings (items : List String) :
    unmarshalStrings (marshalStrings items) = some items := by
  have hloop : (items.map Json.str).mapM unmarshalString = some items := by
    induction items with
    | nil => rfl
    | cons s items ih =>
      rw [List.map_cons, List.mapM_cons, ih]
      rfl
  exact hloop

/-- A node keeps the positions at which it finds its name. -/
theorem Node.mem_mine (n : Node) (assignment : List String) (i : ℕ) :
    i ∈ (n.mine assignment).getD [] ↔ assignment[i]? = some n.nodeID := by
  have hfold : ∀ (l : List (String × ℕ)) (mine : Option (List ℕ)),
      i ∈ (l.foldl (fun mine p =>
        if p.1 = n.nodeID then some (mine.getD [] ++ [p.2]) else mine) mine).getD [] ↔
      i ∈ mine.getD [] ∨ (n.nodeID, i) ∈ l := by
    intro l
    induction l with
    | nil => simp
    | cons p l ih =>
      intro mine
      rw [List.foldl_cons, ih, List.mem_cons, Prod.ext_iff]
      split_ifs with hp
      · simp [hp, or_assoc]
      · simp [Ne.symm hp]
  rw [mine, hfold]
  simp [List.mem_zipIdx_iff_getElem?]

/-- A member after it has read the map published for the members. -/
def Node.afterRefresh (ids : List String) (n : Node) : Node :=
  n.refreshOwnedShards (publishShardMap (some ids))

/-- What a member owns is what the assignment gives it. -/
theorem Node.ownedShards_afterRefresh {ids : List String} (hne : ids ≠ []) (n : Node) :
    ∃ shards, (n.afterRefresh ids).ownedShards = some shards ∧
      ∀ i, i ∈ shards ↔ (assignShards ids numShards)[i]? = some n.nodeID := by
  obtain ⟨id, ids, rfl⟩ := List.exists_cons_of_ne_nil hne
  have hmap : (publishShardMap (some (id :: ids))).bind unmarshalStrings =
      some (assignShards (id :: ids) numShards) := by
    rw [publishShardMap, Option.bind_some, unmarshalStrings_marshalStrings]
    simp
  rw [afterRefresh, refreshOwnedShards, hmap]
  exact ⟨_, rfl, n.mem_mine _⟩

/-- Every shard is given to a member. -/
theorem exists_owner {ids : List String} (hne : ids ≠ []) {i : ℕ} (hi : i < numShards) :
    ∃ id ∈ ids, (assignShards ids numShards)[i]? = some id := by
  obtain ⟨-, n, -, -, hn, hget⟩ := get_newRing hne (by decide : 0 < defaultVirtualReplicas)
    (checksumIEEE ("shard#" ++ Nat.repr i))
  refine ⟨n, hn, ?_⟩
  rw [getElem?_assignShards ids hi, ringGet, hget]
  rfl

section Filters

/-- A loop that collects up to a number of items. -/
theorem foldl_collect {α : Type} (p : α → Bool) (limit : ℕ) {f : List α → α → List α}
    (hf : ∀ out x, f out x = if limit ≤ out.length then out else if p x then out ++ [x] else out)
    (items out : List α) :
    items.foldl f out = out ++ (items.filter p).take (limit - out.length) := by
  induction items generalizing out with
  | nil => simp
  | cons x items ih =>
    rw [List.foldl_cons, ih, hf]
    split_ifs with hlimit hp
    · have hzero : limit - out.length = 0 := by omega
      simp [hzero]
    · obtain ⟨k, hk⟩ : ∃ k, limit - out.length = k + 1 := ⟨limit - out.length - 1, by omega⟩
      have hrest : limit - (out ++ [x]).length = k := by
        rw [List.length_append, List.length_singleton]
        omega
      rw [hrest, hk, List.filter_cons_of_pos hp, List.take_succ_cons, List.append_assoc,
        List.singleton_append]
    · rw [List.filter_cons_of_neg hp]

theorem exists_mem_take {α : Type} {l : List α} {x : α} : (∃ n, x ∈ l.take n) ↔ x ∈ l := by
  constructor
  · rintro ⟨n, hx⟩
    exact List.mem_of_mem_take hx
  · intro hx
    exact ⟨l.length, by rwa [List.take_length]⟩

theorem Memory.fetchAndLockPendingOutbox_eq (shardIDs : Option (List ℕ)) (limit : ℕ) (v : Db) :
    Memory.fetchAndLockPendingOutbox shardIDs limit v =
      Postgres.fetchAndLockPendingOutbox shardIDs limit v := by
  refine foldl_collect (fun m : OutboxMessage => m.status = .pending ∧
    rowsShardFilter shardIDs m.shardID = some true) limit (fun out m => ?_) v.outbox.rows []
  simp only [rowsShardFilter_eq_true]
  cases shardIDs <;> by_cases hst : m.status = .pending <;> simp [shardSelected, hst]

/-- The timers that the memory store lists, in the order in which it meets them. -/
theorem Memory.listDueTimers_eq (shardIDs : Option (List ℕ)) (limit : ℕ) (d : Draw) (v : Db) :
    Memory.listDueTimers shardIDs limit d v = ((d.shuffle v.timers.rows).filter (fun tm =>
      tm.status = .pending ∧ tm.fireAt ≤ d.now ∧
        rowsShardFilter shardIDs tm.shardID = some true)).take limit := by
  refine foldl_collect (fun tm : Timer => tm.status = .pending ∧ tm.fireAt ≤ d.now ∧
    rowsShardFilter shardIDs tm.shardID = some true) limit (fun out tm => ?_)
    (d.shuffle v.timers.rows) []
  have hlt : d.now < tm.fireAt ↔ ¬ tm.fireAt ≤ d.now := Nat.not_le.symm
  simp only [rowsShardFilter_eq_true, hlt]
  cases shardIDs <;> by_cases hst : tm.status = .pending <;>
    by_cases hdue : tm.fireAt ≤ d.now <;> simp [shardSelected, hst, hdue]

end Filters

/-- The queries of a member return what belongs to a run and is due, just if the
member is the one that should. Messages and timers beyond the limit wait for a later
query. -/
structure Selection (shardIDs : Option (List ℕ)) (r : WorkflowRun) (v : Db) (should : Prop) :
    Prop where
  run : runTerminal r.status = false → (r ∈ Memory.listRunningRunsForShards shardIDs v ↔ should) ∧
    ∀ nilAsNull, r ∈ Postgres.listRunningRunsForShards nilAsNull shardIDs v ↔ should
  outbox : ∀ m ∈ v.outbox, m.payload.workflowRunID = r.id → m.status = .pending →
    ((∃ limit, m ∈ Memory.fetchAndLockPendingOutbox shardIDs limit v) ↔ should) ∧
      ((∃ limit, m ∈ Postgres.fetchAndLockPendingOutbox shardIDs limit v) ↔ should)
  timers : ∀ tm ∈ v.timers, tm.workflowRunID = r.id → tm.status = .pending →
    ∀ d : Draw, tm.fireAt ≤ d.now →
      ((∃ limit, tm ∈ Memory.listDueTimers shardIDs limit d v) ↔ should) ∧
        ((∃ limit, tm ∈ Postgres.listDueTimers shardIDs limit d v) ↔ should)

/-- The rows of a run are in its shard. -/
structure InShard (r : WorkflowRun) (v : Db) : Prop where
  run : r.shardID = shardFor r.id
  outbox : ∀ m ∈ v.outbox, m.payload.workflowRunID = r.id → m.shardID = shardFor r.id
  timers : ∀ tm ∈ v.timers, tm.workflowRunID = r.id → tm.shardID = shardFor r.id

theorem shardFor_lt (id : UUID) : shardFor id < numShards := Nat.mod_lt _ (by decide)

theorem Addressed.inShard {v : Db} (h : Addressed v) (hb : Base v) {r : WorkflowRun}
    (hr : r ∈ v.runs) : InShard r v where
  run := hb.shards r hr
  outbox m hm hrun := by
    obtain ⟨q, hq, t, -, a, -, hid, -, hcontent⟩ := h.messages m hm
    have hshard : m.shardID = q.shardID := congrArg NewOutboxMessage.shardID hcontent
    have hpayload : m.payload.workflowRunID = t.workflowRunID :=
      congrArg (fun c => c.payload.workflowRunID) hcontent
    rw [hshard, hb.shards q hq, hid, ← hpayload, hrun]
  timers tm htm hrun := by rw [h.timers tm htm, hrun]

/-- A list of shards decides about everything that belongs to a run at once. -/
theorem InShard.selection {r : WorkflowRun} {v : Db} (h : InShard r v) (hr : r ∈ v.runs)
    (shards : List ℕ) : Selection (some shards) r v (shardFor r.id ∈ shards) := by
  have hrow : ∀ shardID, rowsShardFilter (some shards) shardID = some true ↔ shardID ∈ shards := by
    intro shardID
    rw [rowsShardFilter_eq_true]
    simp [shardSelected]
  refine ⟨fun hlive => ?_, fun m hm hrun hst => ?_, fun tm htm hrun hst d hdue => ?_⟩
  · have hst : r.status = .pending ∨ r.status = .running := by
      cases hs : r.status <;> simp_all [runTerminal]
    have hiff : ∀ nilAsNull, r ∈ Postgres.listRunningRunsForShards nilAsNull (some shards) v ↔
        shardFor r.id ∈ shards := by
      intro nilAsNull
      have hcovers := (covers_iff nilAsNull (some shards) v).mpr (by simp)
      rw [hcovers.exact_runs, ← h.run]
      simp only [hr, hst, true_and, Option.some.injEq, forall_eq']
    have hcovers := (covers_iff true (some shards) v).mpr (by simp)
    exact ⟨(hcovers.memory r).symm.trans (hiff true), hiff⟩
  · have hiff : (∃ limit, m ∈ Postgres.fetchAndLockPendingOutbox (some shards) limit v) ↔
        shardFor r.id ∈ shards := by
      simp only [Postgres.fetchAndLockPendingOutbox, exists_mem_take, List.mem_filter, hrow,
        decide_eq_true_eq, hst, true_and, h.outbox m hm hrun]
      exact and_iff_right hm
    simp only [Memory.fetchAndLockPendingOutbox_eq]
    exact ⟨hiff, hiff⟩
  · have hiff : tm ∈ v.timers.rows ∧ tm.status = .pending ∧ tm.fireAt ≤ d.now ∧
        tm.shardID ∈ shards ↔ shardFor r.id ∈ shards := by
      rw [h.timers tm htm hrun]
      exact ⟨fun hx => hx.2.2.2, fun hx => ⟨htm, hst, hdue, hx⟩⟩
    constructor
    · simp only [Memory.listDueTimers_eq, exists_mem_take, List.mem_filter, hrow,
        decide_eq_true_eq, (d.shuffle_perm _).mem_iff]
      exact hiff
    · simp only [Postgres.listDueTimers, exists_mem_take, List.mem_insertionSort, hrow,
        (d.shuffle_perm _).mem_iff, List.mem_filter, decide_eq_true_eq]
      exact hiff

theorem Stored.inShard {v : Db} (h : Stored v) {r : WorkflowRun} (hr : r ∈ v.runs) :
    InShard r v := by
  exact (h.induct Addressed.empty (fun _ _ _ _ hact hadr => hadr.act hact)).inShard h.base hr

/-- Members that have read the map published for them divide the shards: each shard
is given to a member, no two members own the same, and none owns everything for want
of a list. In every state of the store a run and its rows are in one shard, and one
member selects them. -/
theorem members_divide_shards (ids : List String) (hne : ids ≠ [])
    (owned : String → Option (Option (List ℕ))) {v : Db} (hv : Stored v) :
    (∀ i < numShards, ∃ id ∈ ids, (assignShards ids numShards)[i]? = some id) ∧
    (∃ shards : String → List ℕ,
      (∀ id ∈ ids, (Node.afterRefresh ids ⟨id, owned id⟩).ownedShards = some (shards id)) ∧
      (∀ id ∈ ids, ∀ id' ∈ ids, id ≠ id' → (shards id).Disjoint (shards id')) ∧
      ∀ i, i < numShards ↔ ∃ id ∈ ids, i ∈ shards id) ∧
    ∀ r ∈ v.runs, InShard r v ∧ shardFor r.id < numShards ∧
      ∃ owner ∈ ids, ∀ id ∈ ids,
        Selection (Node.afterRefresh ids ⟨id, owned id⟩).ownedShards r v (id = owner) := by
  choose shards hshards hmem using
    fun id => Node.ownedShards_afterRefresh hne (⟨id, owned id⟩ : Node)
  refine ⟨fun i hi => exists_owner hne hi, ⟨shards, fun id _ => hshards id, ?_, fun i => ?_⟩,
    fun r hr => ⟨hv.inShard hr, shardFor_lt r.id, ?_⟩⟩
  · intro id _ id' _ hdiff i hi hi'
    exact hdiff (Option.some.inj (((hmem id i).mp hi).symm.trans ((hmem id' i).mp hi')))
  · constructor
    · intro hi
      obtain ⟨id, hid, howner⟩ := exists_owner hne hi
      exact ⟨id, hid, (hmem id i).mpr howner⟩
    · rintro ⟨id, -, hi⟩
      have hlt := (List.getElem?_eq_some_iff.mp ((hmem id i).mp hi)).1
      rwa [length_assignShards] at hlt
  · obtain ⟨owner, howner, hgiven⟩ := exists_owner hne (shardFor_lt r.id)
    refine ⟨owner, howner, fun id _ => ?_⟩
    have hiff : shardFor r.id ∈ shards id ↔ id = owner := by
      rw [hmem, hgiven, Option.some.injEq]
      exact eq_comm
    rw [hshards, ← propext hiff]
    exact (hv.inShard hr).selection hr (shards id)

/-- Two members and a store with a run. -/
theorem members_divide_shards_join :
    ["node-a", "node-b"] ≠ [] ∧ Stored joinWorld.db ∧
    joinWorld.db.runs.rows.map (·.id) = [201] ∧
    ∀ r ∈ joinWorld.db.runs, ∃ owner ∈ ["node-a", "node-b"], ∀ id ∈ ["node-a", "node-b"],
      Selection (Node.afterRefresh ["node-a", "node-b"] ⟨id, none⟩).ownedShards r joinWorld.db
        (id = owner) := by
  have hstored : Stored joinWorld.db :=
    Or.inr ⟨joinWorld, .run .init (Option.some_get _).symm, rfl⟩
  have h := members_divide_shards ["node-a", "node-b"] (by decide) (fun _ => none) hstored
  exact ⟨by decide, hstored, by decide +kernel, fun r hr => (h.2.2 r hr).2.2⟩


end Orchestrator
