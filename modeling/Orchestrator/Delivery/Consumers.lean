import Mathlib.Logic.Function.Basic
import Orchestrator.Delivery.Model
import Orchestrator.Lib.ConsumerGroup

/-!
# Workers that consume the streams

`Consume` of `internal/queue/redisstream/redisstream.go` and `Worker.process` of
`internal/worker/worker.go`, beside the nodes and the relays. All workers belong to one
group of each stream. A worker holds the messages that it has been handed until it has
acknowledged them or is lost, and the group keeps them as pending meanwhile.
-/

namespace Orchestrator

open Lib

/-- The most entries that `readLoop` asks for at once. -/
def readCount : ℕ := 16

/-- The most entries that `reclaimLoop` asks for at once. -/
def reclaimCount : ℕ := 32

/-- Redis looks at ten times as many pending entries as `XAUTOCLAIM` asks for. -/
def reclaimBudget : ℕ := 10 * reclaimCount

/-- The two loops of `Consume`. -/
structure Consumer where
  worker : String
  stream : String
  idleTimeout : Time
  /-- The cursor of `reclaimLoop`, which is zero for `0-0`. -/
  cursor : ℕ
  deriving DecidableEq

/-- How far `Worker.process` has got with a message. -/
inductive Phase
  /-- The message waits to be processed. -/
  | held
  /-- `ClaimTask` is being served on a connection. -/
  | claiming (i : ℕ)
  /-- `ClaimTask` has answered. -/
  | answered
  deriving DecidableEq

/-- A message in the hands of a worker. -/
structure Handling where
  worker : String
  stream : String
  id : ℕ
  payload : TaskPayload
  phase : Phase

/-- The store with its nodes and relays, the group of each stream, and the workers. -/
structure Consumption : Type 1 where
  delivery : Delivery
  /-- The group `workers` of each stream, once it has been created. -/
  groups : String → Option (ConsumerGroup String)
  /-- The consumers; an entry is empty once its worker has stopped. -/
  consumers : List (Option Consumer)
  handlings : List Handling
  /-- Every entry that has been handed out, in order. -/
  delivered : List (String × ℕ)
  /-- Every entry that has been acknowledged. -/
  acked : List (String × ℕ)

namespace Consumption

/-- The start, without any workers. -/
def init : Consumption := ⟨.init, fun _ => none, [], [], [], []⟩

/-- The committed rows. -/
def db (C : Consumption) : Db := C.delivery.db

/-- The entries of a stream. The first one has the number one. -/
def log (C : Consumption) (stream : String) : List TaskPayload :=
  (C.delivery.stream.filter (fun x => x.1 = stream)).map (·.2)

/-- The messages of some entries, as a consumer passes them on. -/
def messages (C : Consumption) (c : Consumer) (ids : List ℕ) : List Handling :=
  ids.filterMap (fun id =>
    ((C.log c.stream)[id - 1]?).map (fun x => ⟨c.worker, c.stream, id, x, .held⟩))

/-- A consumer gets some entries of its group. -/
def deliver (C : Consumption) (c : Consumer) (g : ConsumerGroup String) (ids : List ℕ) :
    Consumption :=
  { C with
    groups := Function.update C.groups c.stream (some g)
    handlings := C.handlings ++ C.messages c ids
    delivered := C.delivered ++ ids.map (fun id => (c.stream, id)) }

/-- How many entries `XREADGROUP` hands out. -/
def available (C : Consumption) (c : Consumer) (g : ConsumerGroup String) : ℕ :=
  min readCount ((C.log c.stream).length - g.last)

/-- What may happen. -/
inductive Event
  /-- The nodes or the relays go on. -/
  | delivery (ev : Delivery.Event)
  /-- A worker begins to consume a stream, whose group is created if there is none. -/
  | consume (worker stream : String) (idleTimeout : Time)
  /-- A consumer reads new entries. -/
  | read (k : ℕ) (now : Time)
  /-- A consumer takes over entries that have been pending for its idle timeout. -/
  | reclaim (k : ℕ) (now : Time)
  /-- A consumer stops. -/
  | stop (k : ℕ)
  /-- A worker calls `ClaimTask` for a message, at a server with the given `LeaseDuration`. -/
  | claim (leaseDuration j : ℕ)
  /-- The answer to `ClaimTask` arrives. -/
  | answer (j : ℕ)
  /-- A worker acknowledges a message. -/
  | ack (j : ℕ)
  /-- A worker is done with a message without acknowledging it: `ClaimTask` or the
  acknowledgement has failed, or the worker is lost. -/
  | drop (j : ℕ)

/-- The next call of `XREADGROUP`. -/
def read (C : Consumption) (c : Consumer) (g : ConsumerGroup String) (now : Time) : Consumption :=
  C.deliver c (g.read c.worker now (C.available c g))
    ((g.fresh c.worker now (C.available c g)).map (·.id))

/-- The next call of `XAUTOCLAIM`: the entries that it finds, and the next cursor. -/
def found (c : Consumer) (g : ConsumerGroup String) (now : Time) : List ℕ × ℕ :=
  g.search c.idleTimeout now c.cursor reclaimBudget reclaimCount

/-- One round of `reclaimLoop`. -/
def reclaim (C : Consumption) (k : ℕ) (c : Consumer) (g : ConsumerGroup String) (now : Time) :
    Consumption :=
  { C.deliver c (g.claim (found c g now).1 c.worker now) (found c g now).1 with
    consumers := C.consumers.set k (some { c with cursor := (found c g now).2 }) }

/-- A worker calls `ClaimTask` for a message that it holds, at a server with the given
`LeaseDuration`. -/
def claim (C : Consumption) (leaseDuration j : ℕ) (h : Handling) : Option Consumption :=
  match h.phase with
  | .held =>
    (C.delivery.next (.node (.start (.claimTask leaseDuration h.payload.taskAttemptID
      h.payload.idempotencyKey h.worker)))).map (fun D =>
        { C with
          delivery := D
          handlings := C.handlings.set j
            { h with phase := .claiming C.delivery.world.sessions.length } })
  | _ => none

/-- The call has returned, and its answer arrives. -/
def answer (C : Consumption) (j : ℕ) (h : Handling) : Option Consumption :=
  match h.phase with
  | .claiming i =>
    (C.delivery.next (.node (.commit i))).map (fun D =>
      { C with delivery := D, handlings := C.handlings.set j { h with phase := .answered } })
  | _ => none

/-- The deferred `Ack` of `Worker.process`. -/
def ack (C : Consumption) (j : ℕ) (h : Handling) : Option Consumption :=
  match h.phase with
  | .answered =>
    (C.groups h.stream).map (fun g =>
      { C with
        groups := Function.update C.groups h.stream (some (g.ack h.id))
        handlings := C.handlings.eraseIdx j
        acked := C.acked ++ [(h.stream, h.id)] })
  | _ => none

/-- The effect of an event, if it is possible. -/
def next (C : Consumption) : Event → Option Consumption
  | .delivery ev => (C.delivery.next ev).map (fun D => { C with delivery := D })
  | .consume worker stream idleTimeout =>
    some { C with
      groups := Function.update C.groups stream (some ((C.groups stream).getD .start))
      consumers := C.consumers ++ [some ⟨worker, stream, idleTimeout, 0⟩] }
  | .read k now =>
    (C.consumers[k]?).join.bind (fun c => (C.groups c.stream).map (fun g => C.read c g now))
  | .reclaim k now =>
    (C.consumers[k]?).join.bind (fun c => (C.groups c.stream).map (fun g => C.reclaim k c g now))
  | .stop k => some { C with consumers := C.consumers.set k none }
  | .claim leaseDuration j => C.handlings[j]?.bind (C.claim leaseDuration j)
  | .answer j => C.handlings[j]?.bind (C.answer j)
  | .ack j => C.handlings[j]?.bind (C.ack j)
  | .drop j => some { C with handlings := C.handlings.eraseIdx j }

/-- Let a list of events happen, if each of them is possible. -/
def run : List Event → Consumption → Option Consumption
  | [], C => some C
  | ev :: evs, C => (C.next ev).bind (run evs)

theorem run_append (evs evs' : List Event) (C : Consumption) :
    run (evs ++ evs') C = (run evs C).bind (run evs') := by
  induction evs generalizing C with
  | nil => rfl
  | cons ev evs ih =>
    rw [List.cons_append, run, run, Option.bind_assoc]
    exact congrArg _ (funext ih)

/-- The states that events lead to from the start. -/
def Reachable (C : Consumption) : Prop := ∃ evs, run evs init = some C

/-- What every event keeps holds at the end of a list of events. -/
theorem run_keeps {I : Consumption → Prop}
    (hstep : ∀ C ev C', I C → C.next ev = some C' → I C') {evs : List Event} {C C' : Consumption}
    (hrun : run evs C = some C') (h : I C) : I C' := by
  induction evs generalizing C with
  | nil => exact Option.some.inj hrun ▸ h
  | cons ev evs ih =>
    obtain ⟨C₁, hnext, hrest⟩ := Option.bind_eq_some_iff.mp hrun
    exact ih hrest (hstep C ev C₁ h hnext)

end Consumption

end Orchestrator
