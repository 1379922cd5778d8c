import Orchestrator.Concurrent.Nodes
import Orchestrator.Engine.Relay

/-!
# Delivery through the outbox

Nodes serve calls at once, statement by statement, and any number of relays tick beside
them, call by call. All of them share the committed rows and the locks on them. What a
relay publishes is in its stream from then on, whether the tick commits or not.
-/

namespace Orchestrator

open Lib

/-- A tick under way. -/
structure Tick : Type 1 where
  /-- What remains to be executed. -/
  prog : RelayProg ℕ
  /-- The uncommitted writes, in order. -/
  writes : List Write
  /-- The rows locked by reading them. -/
  locked : List Lock

/-- The locks that a tick holds. -/
def Tick.locks (t : Tick) : List Lock := t.locked ++ backend.locksOf t.writes

/-- The message that a tick is about to publish. -/
def Tick.sending (t : Tick) : List (String × TaskPayload) :=
  match t.prog with
  | .call (.publish streamName payload) _ => [(streamName, payload)]
  | _ => []

/-- The nodes with the committed rows, the ticks under way, and every message ever in a
stream. -/
structure Delivery : Type 1 where
  world : World Query Error Db Write Call
  ticks : List Tick
  stream : List (String × TaskPayload)

namespace Delivery

/-- The start, with an empty store and empty streams. -/
def init : Delivery := ⟨.init Db.empty, [], []⟩

/-- The committed rows. -/
def db (D : Delivery) : Db := D.world.db

/-- The locks of each session. -/
def sessionLocks (D : Delivery) : List (List Lock) :=
  D.world.sessions.filterMap (Option.map (fun σ => backend.locksOf σ.writes))

/-- No lock is held twice. -/
def Apart (D : Delivery) : Prop :=
  (D.sessionLocks ++ D.ticks.map Tick.locks).Pairwise (fun l l' => ∀ x ∈ l, x ∉ l')

instance (D : Delivery) : Decidable D.Apart :=
  inferInstanceAs (Decidable (List.Pairwise (fun l l' => ∀ x ∈ l, x ∉ l')
    (D.sessionLocks ++ D.ticks.map Tick.locks)))

/-- The locks that others than a tick hold. -/
def taken (D : Delivery) (i : ℕ) : List Lock :=
  (D.sessionLocks ++ (D.ticks.eraseIdx i).map Tick.locks).flatten

/-- The next call of a tick. -/
def exec (D : Delivery) (i : ℕ) (t : Tick) (d : Draw) : Option Delivery :=
  match t.prog with
  | .call (.fetchAndLockPendingOutbox shardIDs limit) next =>
    let rows := fetchSkippingLocked (D.taken i) shardIDs limit (backend.applyAll D.db t.writes)
    some { D with
      ticks := D.ticks.set i
        ⟨next rows, t.writes, t.locked ++ rows.map (fun m => .outbox m.id)⟩ }
  | .call (.publish streamName payload) next =>
    some { D with
      ticks := D.ticks.set i { t with prog := next () }
      stream := D.stream ++ [(streamName, payload)] }
  | .call (.markOutboxPublished id) next =>
    match backend.exec (.markOutboxPublished id) d (backend.applyAll D.db t.writes) with
    | .error _ => some { D with ticks := D.ticks.eraseIdx i }
    | .ok (_, ws) =>
      some { D with ticks := D.ticks.set i { t with prog := next (), writes := t.writes ++ ws } }
  | _ => none

/-- A tick that has returned commits. -/
def commit (D : Delivery) (i : ℕ) (t : Tick) : Option Delivery :=
  match t.prog with
  | .ret _ =>
    some { D with
      world := { D.world with db := backend.applyAll D.db t.writes }
      ticks := D.ticks.eraseIdx i }
  | _ => none

/-- What may happen. -/
inductive Event
  /-- The nodes go on. -/
  | node (act : Action Call Draw)
  /-- A relay begins a tick. -/
  | tick (shardIDs : Option (List ℕ)) (batchSize : ℕ)
  /-- A tick makes its next call. -/
  | exec (i : ℕ) (d : Draw)
  /-- A tick that has returned commits. -/
  | commit (i : ℕ)
  /-- A tick ends without committing, because its next call fails or its relay crashes. If
  the call is `Publish`, its message may have arrived all the same. -/
  | stop (i : ℕ) (arrived : Bool)

/-- The effect of an event, as far as locks are left aside. -/
def move (D : Delivery) : Event → Option Delivery
  | .node act => (World.next backend nodes act D.world).map (fun W => { D with world := W })
  | .tick shardIDs batchSize =>
    some { D with ticks := D.ticks ++ [⟨Relay.tick shardIDs batchSize, [], []⟩] }
  | .exec i d => D.ticks[i]?.bind (fun t => D.exec i t d)
  | .commit i => D.ticks[i]?.bind (fun t => D.commit i t)
  | .stop i arrived => D.ticks[i]?.map (fun t =>
      { D with
        ticks := D.ticks.eraseIdx i
        stream := D.stream ++ if arrived then t.sending else [] })

/-- The effect of an event, if it is possible. A call that would take a lock which another
holds has to wait. -/
def next (D : Delivery) (ev : Event) : Option Delivery :=
  (D.move ev).filter (fun D' => decide D'.Apart)

/-- One state comes right after another. -/
def Next (D D' : Delivery) : Prop := ∃ ev, D.next ev = some D'

/-- One state is another one, or comes later. -/
def Later (D D' : Delivery) : Prop := Relation.ReflTransGen Next D D'

/-- The states that events lead to from the start. -/
def Reachable (D : Delivery) : Prop := init.Later D

/-- Let a list of events happen, if each of them is possible. -/
def run : List Event → Delivery → Option Delivery
  | [], D => some D
  | ev :: evs, D => (D.next ev).bind (run evs)

/-- What a list of events leads to comes later. -/
theorem later_of_run {evs : List Event} {D D' : Delivery} (h : run evs D = some D') :
    D.Later D' := by
  induction evs generalizing D with
  | nil =>
    obtain rfl := Option.some.inj h
    exact .refl
  | cons ev evs ih =>
    obtain ⟨D₁, hnext, hrest⟩ := Option.bind_eq_some_iff.mp h
    exact .head ⟨ev, hnext⟩ (ih hrest)

end Delivery

end Orchestrator
