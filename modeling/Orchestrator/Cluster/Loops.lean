import Mathlib.Data.List.Sort
import Orchestrator.Lib.Fleet
import Orchestrator.Ownership
import Orchestrator.Redislock

/-!
# The loops of the scheduler

`internal/scheduler/scheduler.go`. Every node runs three loops: it notes that it is alive,
it tries to become the leader and publishes the shard map if it is, and it looks up its
own shards in the map. A pass of a loop is a sequence of commands to Redis, and of reads of
the node's clock and accesses to its variables. The commands of different passes
interleave. A command may fail before or after Redis has executed it.
-/

namespace Orchestrator.Cluster

open Lib Program
open Redislock (Command Key millisecond)

/-- `staleAfter`, in milliseconds. -/
def staleAfter : ℕ := 12000

/-- The time to live of the leader lock, in nanoseconds. -/
def leaderTTL : ℕ := 15000 * millisecond

/-- The requests of the loops. A command that fails answers nothing. -/
inductive Request : Type → Type
  | zadd (score : ℕ) (member : String) : Request (Option Unit)
  /-- `ZREMRANGEBYSCORE` from minus infinity up to the cutoff, which is not included. -/
  | zremrangebyscore (cutoff : ℤ) : Request (Option Unit)
  /-- `ZRANGE BYSCORE` from the cutoff, which is included, to infinity. -/
  | zrangebyscore (cutoff : ℤ) : Request (Option (List String))
  | set (value : RawMessage) : Request (Option Unit)
  /-- `GET`. It is an error if there is no map. -/
  | get : Request (Option RawMessage)
  | setNX (holderID : String) (expiration : ℕ) : Request (Option Bool)
  | renewScript (holderID : String) (ms : ℕ) : Request (Option ℤ)
  | releaseScript (holderID : String) : Request (Option ℤ)
  /-- `time.Now().UnixMilli()`. -/
  | unixMilli : Request ℕ
  | loadLeader : Request Bool
  | swapLeader (ok : Bool) : Request Bool
  | storeOwned (shards : List ℕ) : Request Unit

/-- The commands of the leader lock. -/
def Request.ofLock : {β : Type} → Command β → Request (Option β)
  | _, .setNX holderID expiration => .setNX holderID expiration
  | _, .renewScript holderID ms => .renewScript holderID ms
  | _, .releaseScript holderID => .releaseScript holderID

/-- A pass of a loop. -/
abbrev Pass (α : Type) : Type 1 := Program Request Empty α

/-- `heartbeat`. -/
def heartbeat (nodeID : String) : Pass Unit := do
  let now ← request .unixMilli
  let _ ← request (.zadd now nodeID)
  pure ()

/-- `liveMembers`. The error of the first command is ignored. -/
def liveMembers : Pass (Option (List String)) := do
  let now ← request .unixMilli
  let cutoff : ℤ := now - staleAfter
  let _ ← request (.zremrangebyscore cutoff)
  request (.zrangebyscore cutoff)

/-- `publishShardMap`. -/
def publishShardMap : Pass Unit := do
  let members ← liveMembers
  match Orchestrator.publishShardMap members with
  | none => pure ()
  | some b => do
    let _ ← request (.set b)
    pure ()

/-- The lock that the scheduler of a node uses. -/
def leaderLk (nodeID : String) : Redislock.Lock := ⟨nodeID, leaderTTL⟩

/-- A pass of `leaderLoop`. -/
def leaderTick (nodeID : String) : Pass Unit := do
  let ok ← (leaderLk nodeID).tryAcquire.attempt Request.ofLock
  match ok with
  | none => pure ()
  | some ok => do
    let _ ← request (.swapLeader ok)
    if ok then publishShardMap else pure ()

/-- The end of `leaderLoop`. -/
def leaderDone (nodeID : String) : Pass Unit := do
  let isLeader ← request .loadLeader
  if isLeader then do
    let _ ← ((leaderLk nodeID).release.attempt Request.ofLock : Pass (Option Unit))
    pure ()
  else pure ()

/-- The shards that a node finds under its name. -/
def mine (nodeID : String) (assignment : List String) : List ℕ :=
  ((⟨nodeID, none⟩ : Node).mine assignment).getD []

/-- `refreshOwnedShards`. -/
def refreshOwnedShards (nodeID : String) : Pass Unit := do
  let raw ← request .get
  match raw.bind unmarshalStrings with
  | none => pure ()
  | some assignment => request (.storeOwned (mine nodeID assignment))

/-- The loops. -/
inductive Loop
  | heartbeat | leader | refresh | done
  deriving DecidableEq

/-- The pass that a node starts. -/
def Loop.pass (nodeID : String) : Loop → Pass Unit
  | .heartbeat => Cluster.heartbeat nodeID
  | .leader => leaderTick nodeID
  | .refresh => refreshOwnedShards nodeID
  | .done => leaderDone nodeID

/-- The variables of a node. -/
structure Vars where
  isLeader : Bool
  owned : Option (Option (List ℕ))

/-- Redis, the variables of the nodes, and the time in nanoseconds. -/
structure State where
  now : ℕ
  /-- The key of the leader lock. -/
  key : Option Key
  /-- The sorted set of members with their scores. -/
  members : List (String × ℕ)
  shardMap : Option RawMessage
  vars : String → Vars

/-- Nothing is in Redis, and the nodes have just been created. -/
def State.init (now : ℕ) : State := ⟨now, none, [], none, fun _ => ⟨false, none⟩⟩

/-- The variables of a node are set. -/
def State.put (s : State) (nodeID : String) (vars : Vars) : State :=
  { s with vars := Function.update s.vars nodeID vars }

/-- `ZADD`. A member has one score. -/
def zadd (members : List (String × ℕ)) (score : ℕ) (member : String) : List (String × ℕ) :=
  (member, score) :: members.filter (fun m => m.1 ≠ member)

/-- The members from a score on, in the order of their scores and names. -/
def zrange (members : List (String × ℕ)) (cutoff : ℤ) : List String :=
  ((members.filter (fun m => cutoff ≤ m.2)).insertionSort
    (fun a b => a.2 < b.2 ∨ (a.2 = b.2 ∧ a.1 ≤ b.1))).map (·.1)

/-- The clock of a node, in milliseconds. It is ahead of Redis by some time. -/
def clock (skew : String → ℕ) (s : State) (nodeID : String) : ℕ :=
  (s.now + skew nodeID) / millisecond

/-- What a request of a node does. -/
def Request.exec (skew : String → ℕ) :
    {β : Type} → String → Request β → Reply → State → β × State
  | _, _, .zadd score member, d, s =>
    d.result s () { s with members := Cluster.zadd s.members score member }
  | _, _, .zremrangebyscore cutoff, d, s =>
    d.result s () { s with members := s.members.filter (fun m => cutoff ≤ m.2) }
  | _, _, .zrangebyscore cutoff, d, s => d.result s (zrange s.members cutoff) s
  | _, _, .set value, d, s => d.result s () { s with shardMap := some value }
  | _, _, .get, d, s => ((d.result s s.shardMap s).1.join, s)
  | _, _, .setNX holderID expiration, d, s =>
    let r := (Command.setNX holderID expiration).exec s.now s.key
    d.result s r.1 { s with key := r.2 }
  | _, _, .renewScript holderID ms, d, s =>
    let r := (Command.renewScript holderID ms).exec s.now s.key
    d.result s r.1 { s with key := r.2 }
  | _, _, .releaseScript holderID, d, s =>
    let r := (Command.releaseScript holderID).exec s.now s.key
    d.result s r.1 { s with key := r.2 }
  | _, nodeID, .unixMilli, _, s => (clock skew s nodeID, s)
  | _, nodeID, .loadLeader, _, s => ((s.vars nodeID).isLeader, s)
  | _, nodeID, .swapLeader ok, _, s =>
    ((s.vars nodeID).isLeader, s.put nodeID ⟨ok, (s.vars nodeID).owned⟩)
  | _, nodeID, .storeOwned shards, _, s =>
    ((), s.put nodeID ⟨(s.vars nodeID).isLeader, some (some shards)⟩)

/-- The schedulers of a cluster. Time passes between requests. -/
def schedulers (skew : String → ℕ) : Protocol Request String State Reply ℕ Loop where
  exec := Request.exec skew
  drift := fun duration s => { s with now := s.now + duration }
  prog nodeID loop := loop.pass nodeID

/-- `OwnedShards` of a node. -/
def ownedShards (s : State) (nodeID : String) : Option (List ℕ) := (s.vars nodeID).owned.join

section Rows

variable {members : List (String × ℕ)}

/-- No two entries have the same member. -/
def Distinct (members : List (String × ℕ)) : Prop := (members.map (·.1)).Nodup

theorem Distinct.filter (h : Distinct members) (p : String × ℕ → Bool) :
    Distinct (members.filter p) :=
  List.Nodup.sublist (List.filter_sublist.map _) h

theorem Distinct.zadd (h : Distinct members) (score : ℕ) (member : String) :
    Distinct (zadd members score member) := by
  refine List.nodup_cons.mpr ⟨fun hmem => ?_, h.filter _⟩
  obtain ⟨m, hm, rfl⟩ := List.mem_map.mp hmem
  simp at hm

theorem mem_zadd {m : String × ℕ} {score : ℕ} {member : String} :
    m ∈ zadd members score member ↔ m = (member, score) ∨ (m ∈ members ∧ m.1 ≠ member) := by
  simp [zadd]

theorem mem_zrange {name : String} {cutoff : ℤ} :
    name ∈ zrange members cutoff ↔ ∃ score : ℕ, (name, score) ∈ members ∧ cutoff ≤ score := by
  simp [zrange]

theorem Distinct.zrange (h : Distinct members) (cutoff : ℤ) : (zrange members cutoff).Nodup :=
  ((List.perm_insertionSort _ _).map _).nodup_iff.mpr (h.filter _)

end Rows

end Orchestrator.Cluster
