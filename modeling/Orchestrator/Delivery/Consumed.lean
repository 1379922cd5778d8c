import Orchestrator.Delivery.Consumers
import Orchestrator.Delivery.Delivered

/-!
# No task is lost on its way to a worker

A worker acknowledges a message only after `ClaimTask` has answered, and then the attempt
has left the queue. So the message of an attempt that is queued waits in the outbox, or
is in its stream and will be handed out, for the first time or again. A consumer that goes
on reclaiming reaches every entry that stays pending, whatever the others do.
-/

namespace Orchestrator

open Lib Actions

/-- The attempt has been claimed, or has ended. -/
def Db.LeftQueue (v : Db) (id : UUID) : Prop := ∃ a ∈ v.attempts, a.id = id ∧ a.status ≠ .queued

/-- Attempts do not come back to the queue. -/
theorem Db.LeftQueue.evolves {v v' : Db} {id : UUID} (h : v.LeftQueue id) (hev : v.Evolves v') :
    v'.LeftQueue id := by
  obtain ⟨a, ha, hid, hleft⟩ := h
  obtain ⟨b, hb, hab⟩ := hev.attempts a ha
  exact ⟨b, hb, hab.id.trans hid, (hab.owner hleft).1⟩

/-- The first statement of `ClaimTask` finds the attempt gone from the queue, or takes it
from there. -/
theorem leftQueue_of_claim {v : Db} {a : TaskAttempt} (ha : a ∈ v.attempts) {workerID : String}
    {leaseFor : ℕ} {d : Draw} {r : Option TaskAttempt × ClaimResult} {ws : List Write}
    (h : backend.exec (.claimTaskAttempt a.id a.idempotencyKey workerID leaseFor) d v =
      .ok (r, ws)) : (backend.applyAll v ws).LeftQueue a.id := by
  simp only [backend_exec, Query.exec, Table.mem_iff_get?.mp ha, and_true] at h
  split_ifs at h with hqueued
  · obtain ⟨-, rfl⟩ := Prod.mk.inj (Except.ok.inj h)
    exact ⟨_, Table.mem_put_self _ _, rfl, (fun hstatus => by cases hstatus)⟩
  · obtain ⟨-, rfl⟩ := Prod.mk.inj (Except.ok.inj h)
    exact ⟨a, ha, rfl, hqueued⟩

namespace Delivery

variable {D D' : Delivery}

/-- What is in a stream stays there, and relays leave the sessions alone. -/
theorem next_cases {ev : Event} (h : D.next ev = some D') : D.stream <+: D'.stream ∧
    (D'.world.sessions = D.world.sessions ∨
      ∃ act, World.next backend nodes act D.world = some D'.world) := by
  obtain ⟨hmove, -⟩ := Option.filter_eq_some_iff.mp h
  cases ev with
  | node act =>
    obtain ⟨W, hW, rfl⟩ := Option.map_eq_some_iff.mp hmove
    exact ⟨List.prefix_refl _, Or.inr ⟨act, hW⟩⟩
  | tick shardIDs batchSize =>
    obtain rfl := Option.some.inj hmove
    exact ⟨List.prefix_refl _, Or.inl rfl⟩
  | exec i d =>
    obtain ⟨t, -, hexec⟩ := Option.bind_eq_some_iff.mp hmove
    simp only [exec] at hexec
    split at hexec
    · obtain rfl := Option.some.inj hexec
      exact ⟨List.prefix_refl _, Or.inl rfl⟩
    · obtain rfl := Option.some.inj hexec
      exact ⟨List.prefix_append _ _, Or.inl rfl⟩
    · split at hexec <;> obtain rfl := Option.some.inj hexec
      · exact ⟨List.prefix_refl _, Or.inl rfl⟩
      · exact ⟨List.prefix_refl _, Or.inl rfl⟩
    · cases hexec
  | commit i =>
    obtain ⟨t, -, hcommit⟩ := Option.bind_eq_some_iff.mp hmove
    unfold Delivery.commit at hcommit
    split at hcommit
    · obtain rfl := Option.some.inj hcommit
      exact ⟨List.prefix_refl _, Or.inl rfl⟩
    · cases hcommit
  | stop i arrived =>
    obtain ⟨t, -, rfl⟩ := Option.map_eq_some_iff.mp hmove
    exact ⟨List.prefix_append _ _, Or.inl rfl⟩

/-- The attempt of a message is there. -/
theorem Reachable.attempt (h : D.Reachable) {x : String × TaskPayload} (hx : x ∈ D.stream) :
    ∃ a ∈ D.db.attempts, x.2.taskAttemptID = a.id ∧ x.2.idempotencyKey = a.idempotencyKey := by
  obtain ⟨hok, hsound⟩ := h.sound
  obtain ⟨m, hm, rfl⟩ := hsound.visible x hx
  obtain ⟨a, t, -, hletter⟩ := letter_of_row hok.base h.addressed hm
  exact ⟨a, hletter.attempt, hletter.attemptID, hletter.key⟩

theorem Reachable.next (h : D.Reachable) {ev : Event} (hnext : D.next ev = some D') :
    D'.Reachable := h.tail ⟨ev, hnext⟩

theorem Reachable.evolves (h : D.Reachable) {ev : Event} (hnext : D.next ev = some D') :
    D.db.Evolves D'.db :=
  (h.sound.1.next ⟨ev, hnext⟩).2.through.evolves h.sound.1.base

/-- A `ClaimTask` for a message, served on a connection: it has not executed a statement yet,
or the attempt has left the queue. -/
structure Claiming (D : Delivery) (i : ℕ) (x : TaskPayload) (workerID : String) : Prop where
  begun : i < D.world.sessions.length
  session : ∀ σ, D.world.session? i = some σ → σ.auto = true ∧ σ.writes = [] ∧
    ((∃ leaseDuration, σ.prog =
        (claimTask leaseDuration x.taskAttemptID x.idempotencyKey workerID).discard) ∨
      D.db.LeftQueue x.taskAttemptID)

/-- A `ClaimTask` that begins. -/
theorem Claiming.start {leaseDuration : ℕ} {x : TaskPayload} {workerID : String}
    (h : D.next (.node (.start (.claimTask leaseDuration x.taskAttemptID x.idempotencyKey
      workerID))) = some D') :
    D'.Claiming D.world.sessions.length x workerID := by
  obtain ⟨hmove, -⟩ := Option.filter_eq_some_iff.mp h
  obtain ⟨W, hW, rfl⟩ := Option.map_eq_some_iff.mp hmove
  simp only [World.next, nodes, Call.session] at hW
  split_ifs at hW
  obtain rfl := Option.some.inj hW
  refine ⟨by simp, fun σ hσ => ?_⟩
  rcases World.session?_append hσ with ⟨-, rfl⟩ | ⟨hne, -⟩
  · exact ⟨rfl, rfl, Or.inl ⟨leaseDuration, rfl⟩⟩
  · exact absurd rfl hne

/-- A `ClaimTask` goes on, or others do. -/
theorem Claiming.next {i : ℕ} {s : String} {x : TaskPayload} {workerID : String}
    (h : D.Claiming i x workerID) (hreach : D.Reachable) (hx : (s, x) ∈ D.stream) {ev : Event}
    (hnext : D.next ev = some D') : D'.Claiming i x workerID := by
  have hev := hreach.evolves hnext
  have hkept : ∀ σ, D.world.session? i = some σ → σ.auto = true ∧ σ.writes = [] ∧
      ((∃ leaseDuration, σ.prog =
          (claimTask leaseDuration x.taskAttemptID x.idempotencyKey workerID).discard) ∨
        D'.db.LeftQueue x.taskAttemptID) := by
    intro σ hσ
    obtain ⟨hauto, hnil, hprog⟩ := h.session σ hσ
    exact ⟨hauto, hnil, hprog.imp_right (fun hleft => hleft.evolves hev)⟩
  rcases (next_cases hnext).2 with hsame | ⟨act, hact⟩
  · refine ⟨hsame ▸ h.begun, fun σ hσ => hkept σ ?_⟩
    rwa [World.session?, ← hsame]
  · refine ⟨lt_of_lt_of_le h.begun (World.length_le_of_next hact), fun σ hσ => ?_⟩
    rcases World.session?_of_next hact hσ with hold | ⟨tag, hi, -⟩ |
      ⟨d, tag, auto, β, op, next, w, r, ws, hold, hexec, rfl, hdb⟩
    · exact hkept σ hold
    · exact absurd hi (Nat.ne_of_lt h.begun)
    · obtain ⟨hauto, hnil, hprog⟩ := h.session _ hold
      dsimp only at hauto hnil hprog
      subst hauto hnil
      refine ⟨rfl, rfl, Or.inr ?_⟩
      rcases hprog with ⟨leaseDuration, hprog⟩ | hleft
      · obtain ⟨a, ha, hid, hkey⟩ := hreach.attempt hx
        dsimp only at hid hkey
        rw [hid, hkey, claimTask] at hprog
        split_ifs at hprog with hworker
        · cases hprog
        · cases hprog
          have hleft := leftQueue_of_claim ha hexec
          rwa [← hid, ← show D'.db = backend.applyAll D.db ws from hdb] at hleft
      · exact hleft.evolves hev

/-- A `ClaimTask` that has answered. -/
theorem Claiming.answered {i : ℕ} {x : TaskPayload} {workerID : String}
    (h : D.Claiming i x workerID) (hreach : D.Reachable)
    (hnext : D.next (.node (.commit i)) = some D') : D'.db.LeftQueue x.taskAttemptID := by
  have hev := hreach.evolves hnext
  obtain ⟨hmove, -⟩ := Option.filter_eq_some_iff.mp hnext
  obtain ⟨W, hW, rfl⟩ := Option.map_eq_some_iff.mp hmove
  simp only [World.next] at hW
  split at hW
  · rename_i tag auto w hsess
    obtain ⟨-, -, hprog⟩ := h.session _ hsess
    rcases hprog with ⟨leaseDuration, hprog⟩ | hleft
    · dsimp only at hprog
      rw [claimTask] at hprog
      split_ifs at hprog <;> cases hprog
    · exact hleft.evolves hev
  · cases hW

end Delivery

namespace Consumption

variable {C C' : Consumption}

/-- What a handling of a message relies on. -/
def Fits (C : Consumption) (h : Handling) : Prop :=
  match h.phase with
  | .held => True
  | .claiming i => C.delivery.Claiming i h.payload h.worker
  | .answered => C.db.LeftQueue h.payload.taskAttemptID

/-- What holds in every state: messages are those of the streams, calls for them are under
way or have been answered, and an entry that is settled is that of an attempt which has
left the queue. -/
structure Ok (C : Consumption) : Prop where
  reach : C.delivery.Reachable
  messages : ∀ h ∈ C.handlings, ∃ n, h.id = n + 1 ∧ (C.log h.stream)[n]? = some h.payload
  fits : ∀ h ∈ C.handlings, C.Fits h
  kept : ∀ s g, C.groups s = some g → ∀ n x, (C.log s)[n]? = some x →
    g.Open (n + 1) ∨ C.db.LeftQueue x.taskAttemptID
  bound : ∀ s g, C.groups s = some g → g.last ≤ (C.log s).length
  settled : ∀ y ∈ C.acked, ∃ n x, y.2 = n + 1 ∧ (C.log y.1)[n]? = some x ∧
    C.db.LeftQueue x.taskAttemptID

/-- The entries of a stream are messages. -/
theorem mem_stream_of_log {s : String} {n : ℕ} {x : TaskPayload} (h : (C.log s)[n]? = some x) :
    (s, x) ∈ C.delivery.stream := by
  obtain ⟨y, hy, rfl⟩ := List.mem_map.mp (List.mem_of_getElem? h)
  obtain ⟨hmem, hs⟩ := List.mem_filter.mp hy
  rw [← of_decide_eq_true hs]
  exact hmem

/-- Streams only grow, so entries keep their numbers. -/
theorem log_of_prefix (h : C.delivery.stream <+: C'.delivery.stream) {s : String} {n : ℕ}
    {x : TaskPayload} (hx : (C.log s)[n]? = some x) : (C'.log s)[n]? = some x := by
  obtain ⟨new, hnew⟩ : C.log s <+: C'.log s := (h.filter _).map _
  rw [← hnew, List.getElem?_append_left (List.getElem?_eq_some_iff.mp hx).1]
  exact hx

theorem Ok.init : init.Ok where
  reach := .refl
  messages h hh := absurd hh List.not_mem_nil
  fits h hh := absurd hh List.not_mem_nil
  kept s g hg := by cases hg
  bound s g hg := by cases hg
  settled y hy := absurd hy List.not_mem_nil

/-- The nodes or the relays go on. -/
theorem Ok.delivery (hok : C.Ok) {ev : Delivery.Event} {D : Delivery}
    (hnext : C.delivery.next ev = some D) : ({ C with delivery := D } : Consumption).Ok := by
  have hev := hok.reach.evolves hnext
  have hstart : C.delivery.stream <+: D.stream := (Delivery.next_cases hnext).1
  have hlog : ∀ {s n x}, (C.log s)[n]? = some x →
      (({ C with delivery := D } : Consumption).log s)[n]? = some x :=
    fun hx => log_of_prefix hstart hx
  refine ⟨hok.reach.next hnext, fun h hh => ?_, fun h hh => ?_, fun s g hg n x hx => ?_,
    fun s g hg => ?_, fun y hy => ?_⟩
  · obtain ⟨n, hn, hx⟩ := hok.messages h hh
    exact ⟨n, hn, hlog hx⟩
  · have hfits := hok.fits h hh
    unfold Fits at hfits ⊢
    split
    · trivial
    · rename_i i hphase
      rw [hphase] at hfits
      obtain ⟨n, -, hx⟩ := hok.messages h hh
      exact Delivery.Claiming.next hfits hok.reach (mem_stream_of_log hx) hnext
    · rename_i hphase
      rw [hphase] at hfits
      exact Db.LeftQueue.evolves hfits hev
  · by_cases hn : n < (C.log s).length
    · have hold : (C.log s)[n]? = some (C.log s)[n] := List.getElem?_eq_getElem hn
      obtain rfl : (C.log s)[n] = x := Option.some.inj ((hlog hold).symm.trans hx)
      exact (hok.kept s g hg n _ hold).imp_right (fun hleft => hleft.evolves hev)
    · have hlast := hok.bound s g hg
      exact Or.inl (Or.inl (by omega))
  · exact (hok.bound s g hg).trans ((hstart.filter _).map _).length_le
  · obtain ⟨n, x, hn, hx, hleft⟩ := hok.settled y hy
    exact ⟨n, x, hn, hlog hx, hleft.evolves hev⟩

/-- A worker gets on with a message. -/
theorem Ok.set (hok : C.Ok) {j : ℕ} {h : Handling} (hj : C.handlings[j]? = some h) {phase : Phase}
    (hfits : C.Fits { h with phase := phase }) :
    ({ C with handlings := C.handlings.set j { h with phase := phase } } : Consumption).Ok := by
  refine ⟨hok.reach, fun h' hh' => ?_, fun h' hh' => ?_, hok.kept, hok.bound, hok.settled⟩
  · rcases List.mem_or_eq_of_mem_set hh' with hold | rfl
    · exact hok.messages h' hold
    · exact hok.messages h (List.mem_of_getElem? hj)
  · rcases List.mem_or_eq_of_mem_set hh' with hold | rfl
    · exact hok.fits h' hold
    · exact hfits

/-- A group changes in a way that settles nothing. -/
theorem Ok.update (hok : C.Ok) {s : String} {g g' : ConsumerGroup String}
    (hopen : ∀ n x, (C.log s)[n]? = some x → g.Open (n + 1) ∨ C.db.LeftQueue x.taskAttemptID)
    (hkeep : ∀ n, g.Open (n + 1) → g'.Open (n + 1)) (hbound : g'.last ≤ (C.log s).length) :
    ({ C with groups := Function.update C.groups s (some g') } : Consumption).Ok := by
  have hat : ∀ {s' g₁}, Function.update C.groups s (some g') s' = some g₁ →
      s' = s ∧ g₁ = g' ∨ C.groups s' = some g₁ := by
    intro s' g₁ hg₁
    by_cases hs : s' = s
    · rw [hs, Function.update_self] at hg₁
      exact Or.inl ⟨hs, (Option.some.inj hg₁).symm⟩
    · rw [Function.update_of_ne hs] at hg₁
      exact Or.inr hg₁
  refine ⟨hok.reach, hok.messages, hok.fits, fun s' g₁ hg₁ n x hx => ?_, fun s' g₁ hg₁ => ?_,
    hok.settled⟩
  · rcases hat hg₁ with ⟨rfl, rfl⟩ | hold
    · exact (hopen n x hx).imp_left (hkeep n)
    · exact hok.kept s' g₁ hold n x hx
  · rcases hat hg₁ with ⟨rfl, rfl⟩ | hold
    · exact hbound
    · exact hok.bound s' g₁ hold

/-- A consumer is handed entries that are there. -/
theorem Ok.deliver (hok : C.Ok) {c : Consumer} {g g' : ConsumerGroup String}
    (hg : C.groups c.stream = some g) (hkeep : ∀ n, g.Open (n + 1) → g'.Open (n + 1))
    (hbound : g'.last ≤ (C.log c.stream).length) {ids : List ℕ} (hids : ∀ id ∈ ids, 0 < id) :
    (C.deliver c g' ids).Ok := by
  have hgroup := hok.update (hok.kept c.stream g hg) hkeep hbound
  refine ⟨hok.reach, fun h hh => ?_, fun h hh => ?_, hgroup.kept, hgroup.bound, hok.settled⟩
  · rcases List.mem_append.mp hh with hold | hnew
    · exact hok.messages h hold
    · obtain ⟨id, hid, hmessage⟩ := List.mem_filterMap.mp hnew
      obtain ⟨x, hx, rfl⟩ := Option.map_eq_some_iff.mp hmessage
      have hpos := hids id hid
      exact ⟨id - 1, by dsimp only; omega, hx⟩
  · rcases List.mem_append.mp hh with hold | hnew
    · exact hok.fits h hold
    · obtain ⟨id, -, hmessage⟩ := List.mem_filterMap.mp hnew
      obtain ⟨x, -, rfl⟩ := Option.map_eq_some_iff.mp hmessage
      trivial

/-- A worker acknowledges a message whose attempt has left the queue. -/
theorem Ok.ack (hok : C.Ok) {j : ℕ} {h : Handling} (hj : C.handlings[j]? = some h)
    (hnext : C.ack j h = some C') : C'.Ok := by
  have hmem := List.mem_of_getElem? hj
  have hfits := hok.fits h hmem
  obtain ⟨n, hn, hx⟩ := hok.messages h hmem
  unfold Consumption.ack at hnext
  unfold Fits at hfits
  split at hnext
  · rename_i hphase
    rw [hphase] at hfits
    obtain ⟨g, hg, rfl⟩ := Option.map_eq_some_iff.mp hnext
    have hrest : ∀ n' x', (C.log h.stream)[n']? = some x' →
        (g.ack h.id).Open (n' + 1) ∨ C.db.LeftQueue x'.taskAttemptID := by
      intro n' x' hx'
      by_cases hsame : n' = n
      · subst hsame
        obtain rfl : h.payload = x' := Option.some.inj (hx.symm.trans hx')
        exact Or.inr hfits
      · exact (hok.kept h.stream g hg n' x' hx').imp_left (fun hopen => hopen.ack (by omega))
    have hgroup := hok.update (g := g.ack h.id) hrest (fun _ h => h) (hok.bound h.stream g hg)
    refine ⟨hok.reach, fun h' hh' => hok.messages h' (List.mem_of_mem_eraseIdx hh'),
      fun h' hh' => hok.fits h' (List.mem_of_mem_eraseIdx hh'), hgroup.kept, hgroup.bound,
      fun y hy => ?_⟩
    rcases List.mem_append.mp hy with hold | hnew
    · exact hok.settled y hold
    · obtain rfl := List.mem_singleton.mp hnew
      exact ⟨n, h.payload, hn, hx, hfits⟩
  · cases hnext

/-- One event keeps `Consumption.Ok`. -/
theorem Ok.next (hok : C.Ok) {ev : Event} (hnext : C.next ev = some C') : C'.Ok := by
  cases ev with
  | delivery ev =>
    obtain ⟨D, hD, rfl⟩ := Option.map_eq_some_iff.mp hnext
    exact hok.delivery hD
  | consume worker stream idleTimeout =>
    obtain rfl := Option.some.inj hnext
    cases hg : C.groups stream with
    | none =>
      have hgroup := hok.update (s := stream) (g := .start)
        (fun n _ _ => Or.inl (Or.inl (Nat.succ_pos n))) (fun _ h => h) (Nat.zero_le _)
      exact ⟨hok.reach, hok.messages, hok.fits, hgroup.kept, hgroup.bound, hok.settled⟩
    | some g =>
      have hgroup := hok.update (hok.kept stream g hg) (fun _ h => h) (hok.bound stream g hg)
      exact ⟨hok.reach, hok.messages, hok.fits, hgroup.kept, hgroup.bound, hok.settled⟩
  | read k now =>
    obtain ⟨c, -, hread⟩ := Option.bind_eq_some_iff.mp hnext
    obtain ⟨g, hg, rfl⟩ := Option.map_eq_some_iff.mp hread
    have hbound := hok.bound c.stream g hg
    refine hok.deliver hg (fun n hopen => hopen.read ..) ?_ (fun id hid => ?_)
    · change g.last + min _ ((C.log c.stream).length - g.last) ≤ _
      omega
    · obtain ⟨p, hp, rfl⟩ := List.mem_map.mp hid
      exact Nat.zero_lt_of_lt (ConsumerGroup.mem_fresh.mp hp).1.1
  | reclaim k now =>
    obtain ⟨c, -, hreclaim⟩ := Option.bind_eq_some_iff.mp hnext
    obtain ⟨g, hg, rfl⟩ := Option.map_eq_some_iff.mp hreclaim
    have hids : ∀ id ∈ (found c g now).1, 0 < id := by
      intro id hid
      obtain ⟨p, hp, rfl⟩ := ConsumerGroup.isPending_of_mem_search hid
      exact (g.handed p hp).1
    have hdeliver := hok.deliver hg (fun n hopen => hopen.claim (found c g now).1 c.worker now)
      (hok.bound c.stream g hg) hids
    exact ⟨hdeliver.reach, hdeliver.messages, hdeliver.fits, hdeliver.kept, hdeliver.bound,
      hdeliver.settled⟩
  | stop k =>
    obtain rfl := Option.some.inj hnext
    exact ⟨hok.reach, hok.messages, hok.fits, hok.kept, hok.bound, hok.settled⟩
  | claim leaseDuration j =>
    obtain ⟨h, hj, hclaim⟩ := Option.bind_eq_some_iff.mp hnext
    unfold Consumption.claim at hclaim
    split at hclaim
    · obtain ⟨D, hD, rfl⟩ := Option.map_eq_some_iff.mp hclaim
      exact (hok.delivery hD).set hj (Delivery.Claiming.start hD)
    · cases hclaim
  | answer j =>
    obtain ⟨h, hj, hanswer⟩ := Option.bind_eq_some_iff.mp hnext
    have hfits := hok.fits h (List.mem_of_getElem? hj)
    unfold Consumption.answer at hanswer
    unfold Fits at hfits
    split at hanswer
    · rename_i i hphase
      rw [hphase] at hfits
      obtain ⟨D, hD, rfl⟩ := Option.map_eq_some_iff.mp hanswer
      exact (hok.delivery hD).set hj (Delivery.Claiming.answered hfits hok.reach hD)
    · cases hanswer
  | ack j =>
    obtain ⟨h, hj, hack⟩ := Option.bind_eq_some_iff.mp hnext
    exact hok.ack hj hack
  | drop j =>
    obtain rfl := Option.some.inj hnext
    exact ⟨hok.reach, fun h hh => hok.messages h (List.mem_of_mem_eraseIdx hh),
      fun h hh => hok.fits h (List.mem_of_mem_eraseIdx hh), hok.kept, hok.bound, hok.settled⟩

theorem Reachable.ok (h : C.Reachable) : C.Ok := by
  obtain ⟨evs, hrun⟩ := h
  exact run_keeps (fun _ _ _ hok hnext => hok.next hnext) hrun .init

/-- What an event does to the groups, the consumers and the records. -/
inductive Effect (C C' : Consumption) : Event → Prop
  /-- The nodes and relays, or a worker with a message. -/
  | aside {ev : Event} : (∀ k now, ev ≠ .reclaim k now) → C'.groups = C.groups →
      C'.consumers = C.consumers → C'.delivered = C.delivered → C'.acked = C.acked →
      Effect C C' ev
  | consume {worker stream : String} {idleTimeout : Time} :
      C'.groups = Function.update C.groups stream (some ((C.groups stream).getD .start)) →
      C'.consumers = C.consumers ++ [some ⟨worker, stream, idleTimeout, 0⟩] →
      C'.delivered = C.delivered → C'.acked = C.acked →
      Effect C C' (.consume worker stream idleTimeout)
  | read {k : ℕ} {now : Time} {c : Consumer} {g : ConsumerGroup String} :
      C.groups c.stream = some g → C' = C.read c g now → Effect C C' (.read k now)
  | reclaim {k : ℕ} {now : Time} {c : Consumer} {g : ConsumerGroup String} :
      C.consumers[k]? = some (some c) → C.groups c.stream = some g →
      C' = C.reclaim k c g now → Effect C C' (.reclaim k now)
  | stop {k : ℕ} : C' = { C with consumers := C.consumers.set k none } → Effect C C' (.stop k)
  | ack {j id : ℕ} {stream : String} {g : ConsumerGroup String} : C.groups stream = some g →
      C'.groups = Function.update C.groups stream (some (g.ack id)) →
      C'.consumers = C.consumers → C'.delivered = C.delivered →
      C'.acked = C.acked ++ [(stream, id)] → Effect C C' (.ack j)

theorem effect_of_next {ev : Event} (hnext : C.next ev = some C') : C.Effect C' ev := by
  cases ev with
  | delivery ev =>
    obtain ⟨D, -, rfl⟩ := Option.map_eq_some_iff.mp hnext
    exact .aside (fun _ _ h => by cases h) rfl rfl rfl rfl
  | consume worker stream idleTimeout =>
    obtain rfl := Option.some.inj hnext
    exact .consume rfl rfl rfl rfl
  | read k now =>
    obtain ⟨c, -, hread⟩ := Option.bind_eq_some_iff.mp hnext
    obtain ⟨g, hg, rfl⟩ := Option.map_eq_some_iff.mp hread
    exact .read hg rfl
  | reclaim k now =>
    obtain ⟨c, hc, hreclaim⟩ := Option.bind_eq_some_iff.mp hnext
    obtain ⟨g, hg, rfl⟩ := Option.map_eq_some_iff.mp hreclaim
    exact .reclaim (Option.join_eq_some_iff.mp hc) hg rfl
  | stop k =>
    obtain rfl := Option.some.inj hnext
    exact .stop rfl
  | claim leaseDuration j =>
    obtain ⟨h, -, hclaim⟩ := Option.bind_eq_some_iff.mp hnext
    unfold Consumption.claim at hclaim
    split at hclaim
    · obtain ⟨D, -, rfl⟩ := Option.map_eq_some_iff.mp hclaim
      exact .aside (fun _ _ h => by cases h) rfl rfl rfl rfl
    · cases hclaim
  | answer j =>
    obtain ⟨h, -, hanswer⟩ := Option.bind_eq_some_iff.mp hnext
    unfold Consumption.answer at hanswer
    split at hanswer
    · obtain ⟨D, -, rfl⟩ := Option.map_eq_some_iff.mp hanswer
      exact .aside (fun _ _ h => by cases h) rfl rfl rfl rfl
    · cases hanswer
  | ack j =>
    obtain ⟨h, -, hack⟩ := Option.bind_eq_some_iff.mp hnext
    unfold Consumption.ack at hack
    split at hack
    · obtain ⟨g, hg, rfl⟩ := Option.map_eq_some_iff.mp hack
      exact .ack hg rfl rfl rfl rfl
    · cases hack
  | drop j =>
    obtain rfl := Option.some.inj hnext
    exact .aside (fun _ _ h => by cases h) rfl rfl rfl rfl

/-- How often an entry has been handed out or acknowledged. -/
def touches (C : Consumption) (y : String × ℕ) : ℕ := C.delivered.count y + C.acked.count y

theorem touches_deliver (c : Consumer) (g : ConsumerGroup String) (ids : List ℕ)
    (y : String × ℕ) : (C.deliver c g ids).touches y =
      C.touches y + (ids.map (fun id => (c.stream, id))).count y := by
  simp only [touches, deliver, List.count_append]
  omega

/-- An entry that is handed out has been touched. -/
theorem touches_deliver_of_mem {c : Consumer} (g : ConsumerGroup String) {ids : List ℕ} {id : ℕ}
    (h : id ∈ ids) : C.touches (c.stream, id) < (C.deliver c g ids).touches (c.stream, id) := by
  have hpos : 0 < (ids.map (fun id => (c.stream, id))).count (c.stream, id) :=
    List.count_pos_iff.mpr (List.mem_map_of_mem h)
  rw [touches_deliver]
  omega

/-- Nothing that has happened to an entry is undone. -/
theorem touches_le_of_next {ev : Event} (hnext : C.next ev = some C') (y : String × ℕ) :
    C.touches y ≤ C'.touches y := by
  cases effect_of_next hnext with
  | aside _ _ _ hdelivered hacked => rw [touches, touches, hdelivered, hacked]
  | consume _ _ hdelivered hacked => rw [touches, touches, hdelivered, hacked]
  | read _ heq =>
    rw [heq, read, touches_deliver]
    exact Nat.le_add_right _ _
  | @reclaim _ now c g _ _ heq =>
    rw [heq]
    exact (Nat.le_add_right _ _).trans_eq (touches_deliver c g (found c g now).1 y).symm
  | stop heq => rw [heq, touches, touches]
  | ack _ _ _ hdelivered hacked =>
    rw [touches, touches, hdelivered, hacked, List.count_append]
    omega

/-- An entry is pending, and at most so many entries are ahead of it. -/
def Listed (C : Consumption) (stream : String) (p : Pending String) (cursor n : ℕ) : Prop :=
  ∃ g, C.groups stream = some g ∧ p ∈ g.pending ∧ g.ahead cursor p.id ≤ n

section Listed

variable {stream : String} {p : Pending String} {cursor n : ℕ}

/-- The group of a stream changes, and the entry stays. -/
theorem Listed.update (h : C.Listed stream p cursor n) {s : String} {g' : ConsumerGroup String}
    (hgroups : C'.groups = Function.update C.groups s (some g'))
    (hg' : ∀ g, s = stream → C.groups s = some g → p ∈ g.pending →
      p ∈ g'.pending ∧ g'.ahead cursor p.id ≤ g.ahead cursor p.id) :
    C'.Listed stream p cursor n := by
  obtain ⟨g, hg, hp, hn⟩ := h
  by_cases hs : stream = s
  · subst hs
    obtain ⟨hmem, hle⟩ := hg' g rfl hg hp
    exact ⟨g', by rw [hgroups, Function.update_self], hmem, hle.trans hn⟩
  · exact ⟨g, by rw [hgroups, Function.update_of_ne hs, hg], hp, hn⟩

/-- Whatever happens, an entry stays listed until it is touched. -/
theorem Listed.next (h : C.Listed stream p cursor n) {ev : Event} (hnext : C.next ev = some C') :
    C'.Listed stream p cursor n ∨ C.touches (stream, p.id) < C'.touches (stream, p.id) := by
  cases effect_of_next hnext with
  | aside _ hgroups =>
    rw [Listed, hgroups]
    exact Or.inl h
  | consume hgroups =>
    refine Or.inl (h.update hgroups (fun g _ hg hp => ?_))
    rw [hg]
    exact ⟨hp, Nat.le_refl _⟩
  | read hg heq =>
    refine Or.inl (h.update (congrArg groups heq) (fun g₁ _ hg₁ hp => ?_))
    obtain rfl := Option.some.inj (hg.symm.trans hg₁)
    exact ⟨List.mem_append_left _ hp,
      Nat.le_of_eq (ConsumerGroup.ahead_read (ConsumerGroup.handed _ p hp).2 _ _ _)⟩
  | @reclaim k now c g _ hg heq =>
    by_cases htaken : c.stream = stream ∧ p.id ∈ (found c g now).1
    · obtain ⟨rfl, hid⟩ := htaken
      rw [heq]
      exact Or.inr (touches_deliver_of_mem g hid)
    · refine Or.inl (h.update (congrArg groups heq) (fun g₁ hs hg₁ hp => ?_))
      obtain rfl := Option.some.inj (hg.symm.trans hg₁)
      exact ⟨ConsumerGroup.mem_claim hp (fun hid => htaken ⟨hs, hid⟩) _ _,
        Nat.le_of_eq (ConsumerGroup.ahead_claim _ _ _)⟩
  | stop heq =>
    rw [heq]
    exact Or.inl h
  | @ack _ id s g hg hgroups _ hdelivered hacked =>
    by_cases htaken : s = stream ∧ p.id = id
    · obtain ⟨rfl, hid⟩ := htaken
      rw [touches, touches, hdelivered, hacked, List.count_append, hid, List.count_singleton_self]
      exact Or.inr (by omega)
    · refine Or.inl (h.update hgroups (fun g₁ hs hg₁ hp => ?_))
      obtain rfl := Option.some.inj (hg.symm.trans hg₁)
      exact ⟨List.mem_filter.mpr ⟨hp, decide_eq_true (fun hid => htaken ⟨hs, hid⟩)⟩,
        ConsumerGroup.ahead_ack id⟩

/-- One of the rounds of a consumer's `reclaimLoop`. -/
def Event.isReclaim (k : ℕ) : Event → Bool
  | .reclaim k' _ => k' = k
  | _ => false

theorem Event.eq_of_isReclaim {k : ℕ} {ev : Event} (h : ev.isReclaim k = true) :
    ∃ now, ev = .reclaim k now := by
  cases ev with
  | reclaim k' now =>
    obtain rfl := of_decide_eq_true h
    exact ⟨now, rfl⟩
  | _ => cases h

/-- A consumer goes on until it stops. -/
theorem consumer_of_next {k : ℕ} {c : Option Consumer} (hc : C.consumers[k]? = some c) {ev : Event}
    (hev : ev.isReclaim k = false) (hnext : C.next ev = some C') :
    C'.consumers[k]? = some c ∨ C'.consumers[k]? = some none := by
  have hlt := (List.getElem?_eq_some_iff.mp hc).1
  cases effect_of_next hnext with
  | aside _ _ hconsumers => exact Or.inl (hconsumers ▸ hc)
  | consume _ hconsumers =>
    rw [hconsumers]
    exact Or.inl ((List.getElem?_append_left hlt).trans hc)
  | read _ heq => exact Or.inl (heq ▸ hc)
  | reclaim _ _ heq =>
    rw [heq]
    exact Or.inl ((List.getElem?_set_ne (of_decide_eq_false hev)).trans hc)
  | @stop k' heq =>
    rw [heq]
    by_cases hk : k' = k
    · subst hk
      exact Or.inr (List.getElem?_set_self hlt)
    · exact Or.inl ((List.getElem?_set_ne hk).trans hc)
  | ack _ _ hconsumers => exact Or.inl (hconsumers ▸ hc)

/-- A round of `reclaimLoop`. -/
theorem reclaim_of_next {k : ℕ} {now : Time} (hnext : C.next (.reclaim k now) = some C') :
    ∃ c g, C.consumers[k]? = some (some c) ∧ C.groups c.stream = some g ∧
      C' = C.reclaim k c g now := by
  cases effect_of_next hnext with
  | aside hno => exact absurd rfl (hno k now)
  | reclaim hc hg heq => exact ⟨_, _, hc, hg, heq⟩

/-- A consumer that has stopped does not reclaim any more. -/
theorem stopped_of_run {evs : List Event} {k : ℕ} (hstopped : C.consumers[k]? = some none)
    (hrun : run evs C = some C') : evs.countP (Event.isReclaim k) = 0 := by
  induction evs generalizing C with
  | nil => rfl
  | cons ev evs ih =>
    obtain ⟨C₁, hnext, hrest⟩ := Option.bind_eq_some_iff.mp hrun
    cases hev : ev.isReclaim k with
    | true =>
      obtain ⟨now, rfl⟩ := Event.eq_of_isReclaim hev
      obtain ⟨c, g, hc, -, -⟩ := reclaim_of_next hnext
      rw [hstopped] at hc
      cases hc
    | false =>
      rw [List.countP_cons_of_neg (by simp [hev])]
      exact ih ((consumer_of_next hstopped hev hnext).elim id id) hrest

/-- A round of `reclaimLoop` hands out an entry that has been pending for long, or comes
closer to it. -/
theorem Listed.reclaim {k : ℕ} {c : Consumer} {now : Time}
    (h : C.Listed c.stream p c.cursor (n + reclaimCount)) (hc : C.consumers[k]? = some (some c))
    (hcursor : c.cursor ≤ p.id) (hlong : p.since + c.idleTimeout ≤ now)
    (hnext : C.next (.reclaim k now) = some C') :
    (∃ cursor ≤ p.id, C'.consumers[k]? = some (some { c with cursor := cursor }) ∧
      C'.Listed c.stream p cursor n) ∨
    C.touches (c.stream, p.id) < C'.touches (c.stream, p.id) := by
  obtain ⟨c', g, hc', hg, rfl⟩ := reclaim_of_next hnext
  obtain rfl : c = c' := Option.some.inj (Option.some.inj (hc.symm.trans hc'))
  obtain ⟨g', hg', hp, hn⟩ := h
  obtain rfl : g = g' := Option.some.inj (hg.symm.trans hg')
  by_cases hfound : p.id ∈ (found c g now).1
  · exact Or.inr (touches_deliver_of_mem g hfound)
  · obtain ⟨hle, hcloser⟩ := (g.search_reaches reclaimBudget reclaimCount hp hcursor
      hlong).resolve_left hfound
    refine Or.inl ⟨_, hle, List.getElem?_set_self (List.getElem?_eq_some_iff.mp hc).1,
      g.claim (found c g now).1 c.worker now, Function.update_self .., ?_, ?_⟩
    · exact ConsumerGroup.mem_claim hp hfound _ _
    · have hmin : min reclaimBudget reclaimCount = reclaimCount := rfl
      rw [hmin] at hcloser
      rw [ConsumerGroup.ahead_claim]
      omega

/-- A consumer reaches an entry with so many rounds. -/
theorem Listed.run {evs : List Event} (hrun : run evs C = some C') {k : ℕ} {c : Consumer}
    (hc : C.consumers[k]? = some (some c))
    (h : C.Listed c.stream p c.cursor (reclaimCount * evs.countP (Event.isReclaim k)))
    (hcursor : c.cursor ≤ p.id)
    (hlong : ∀ now, Event.reclaim k now ∈ evs → p.since + c.idleTimeout ≤ now) :
    C.touches (c.stream, p.id) < C'.touches (c.stream, p.id) := by
  induction evs generalizing C c with
  | nil =>
    obtain ⟨g, -, hp, hn⟩ := h
    have hpos := ConsumerGroup.ahead_pos hp hcursor
    exact absurd (lt_of_lt_of_le hpos hn) (Nat.lt_irrefl 0)
  | cons ev evs ih =>
    obtain ⟨C₁, hnext, hrest⟩ := Option.bind_eq_some_iff.mp hrun
    have hmono := run_keeps (I := fun C₂ => C₁.touches (c.stream, p.id) ≤
        C₂.touches (c.stream, p.id))
      (fun _ _ _ hle hstep => hle.trans (touches_le_of_next hstep _)) hrest (Nat.le_refl _)
    have hmono' := touches_le_of_next hnext (c.stream, p.id)
    have hlong' : ∀ now, Event.reclaim k now ∈ evs → p.since + c.idleTimeout ≤ now :=
      fun now hnow => hlong now (List.mem_cons_of_mem ev hnow)
    cases hev : ev.isReclaim k with
    | true =>
      obtain ⟨now, rfl⟩ := Event.eq_of_isReclaim hev
      rw [List.countP_cons_of_pos hev, Nat.mul_succ] at h
      rcases h.reclaim hc hcursor (hlong now List.mem_cons_self) hnext with
        ⟨cursor, hle, hc₁, hlisted⟩ | htouched
      · exact lt_of_le_of_lt hmono'
          (ih (c := { c with cursor := cursor }) hrest hc₁ hlisted hle hlong')
      · exact lt_of_lt_of_le htouched hmono
    | false =>
      rw [List.countP_cons_of_neg (by simp [hev])] at h
      rcases h.next hnext with hlisted | htouched
      · rcases consumer_of_next hc hev hnext with hc₁ | hstopped
        · exact lt_of_le_of_lt hmono' (ih hrest hc₁ hlisted hcursor hlong')
        · rw [stopped_of_run hstopped hrest] at hlisted
          obtain ⟨g, -, hp, hn⟩ := hlisted
          have hpos := ConsumerGroup.ahead_pos hp hcursor
          exact absurd (lt_of_lt_of_le hpos hn) (Nat.lt_irrefl 0)
      · exact lt_of_lt_of_le htouched hmono

end Listed

end Consumption

/-- Whatever nodes, relays and workers do, and wherever they crash: the message of an attempt
that is queued waits in the outbox, or is in its stream and has not been handed out yet, or is
pending there. An entry that has been acknowledged is that of an attempt that has left the
queue. -/
theorem queued_never_lost {C : Consumption} (h : C.Reachable) :
    (∀ a ∈ C.db.attempts, a.status = .queued → ∃ m ∈ C.db.outbox,
      m.payload.taskAttemptID = a.id ∧ (m.status = .pending ∨
        ∃ n, (C.log m.streamName)[n]? = some m.payload ∧
          ∀ g, C.groups m.streamName = some g → g.last < n + 1 ∨
            ∃ p ∈ g.pending, p.id = n + 1)) ∧
    ∀ y ∈ C.acked, ∃ n x, y.2 = n + 1 ∧ (C.log y.1)[n]? = some x ∧
      ∃ a ∈ C.db.attempts, a.id = x.taskAttemptID ∧ a.status ≠ .queued := by
  have hok := h.ok
  obtain ⟨hdelivery, hsound⟩ := hok.reach.sound
  refine ⟨fun a ha hqueued => ?_, hok.settled⟩
  obtain ⟨m, hm, -, ⟨t, hletter⟩, -⟩ :=
    Delivery.row_of_attempt hdelivery.base hok.reach.addressed ha
  refine ⟨m, hm, hletter.attemptID, or_iff_not_imp_left.mpr (fun hmarked => ?_)⟩
  have hsent : (m.streamName, m.payload) ∈ C.delivery.stream :=
    hsound.delivered _ ⟨m, hm, hmarked, rfl⟩
  have hlog : m.payload ∈ C.log m.streamName :=
    List.mem_map.mpr ⟨_, List.mem_filter.mpr ⟨hsent, decide_eq_true rfl⟩, rfl⟩
  obtain ⟨n, hn⟩ := List.getElem?_of_mem hlog
  refine ⟨n, hn, fun g hg => (hok.kept m.streamName g hg n _ hn).resolve_right ?_⟩
  rintro ⟨b, hb, hid, hleft⟩
  obtain rfl := Table.eq_of_key_eq hb ha (hid.trans hletter.attemptID)
  exact hleft hqueued

/-- A worker is handed both messages twice, calls `ClaimTask` for the first one and is lost
before a statement is executed. Another worker begins. -/
def lostWorkerEvents : List Consumption.Event :=
  resentEvents.map .delivery ++ [.consume "w1" "wf:tasks:work" 30, .read 0 1000,
    .claim defaultLeaseDuration 0] ++
  [.drop 0, .drop 0, .drop 0, .drop 0, .stop 0, .consume "w2" "wf:tasks:work" 30]

/-- The other worker takes over the messages, claims the first attempt and acknowledges. -/
def takeOverEvents : List Consumption.Event :=
  [.reclaim 1 1040, .claim defaultLeaseDuration 0] ++
  (Call.turns 3 400 4).map (fun act => .delivery (.node act)) ++ [.answer 0, .ack 0]

/-- The state before the other worker takes over. -/
def lostConsumption : Consumption :=
  (Consumption.run lostWorkerEvents .init).get (by decide +kernel)

/-- The state after that. -/
def takenConsumption : Consumption :=
  (Consumption.run takeOverEvents lostConsumption).get (by decide +kernel)

theorem run_takeOverEvents : Consumption.run takeOverEvents lostConsumption =
    some takenConsumption := by
  rw [takenConsumption, Option.some_get]

theorem takenConsumption_reachable : takenConsumption.Reachable := by
  refine ⟨lostWorkerEvents ++ takeOverEvents, ?_⟩
  have hlost : Consumption.run lostWorkerEvents .init = some lostConsumption := by
    rw [lostConsumption, Option.some_get]
  rw [Consumption.run_append, hlost, Option.bind_some, run_takeOverEvents]

/-- One attempt is with the other worker, and the message of the second one is pending. -/
theorem queued_never_lost_crash :
    takenConsumption.db.attempts.rows.map (fun a => (a.id, a.status, a.leaseOwner)) =
      [(210, .leased, some "w2"), (214, .queued, none)] ∧
    takenConsumption.acked = [("wf:tasks:work", 1)] ∧
    ∀ a ∈ takenConsumption.db.attempts, a.status = .queued →
      ∃ m ∈ takenConsumption.db.outbox, m.payload.taskAttemptID = a.id ∧
        (m.status = .pending ∨
          ∃ n, (takenConsumption.log m.streamName)[n]? = some m.payload ∧
            ∀ g, takenConsumption.groups m.streamName = some g → g.last < n + 1 ∨
              ∃ p ∈ g.pending, p.id = n + 1) :=
  ⟨by decide +kernel, by decide +kernel, (queued_never_lost takenConsumption_reachable).1⟩

/-- An entry that has been pending for the idle timeout of a consumer is handed out again or
acknowledged before the consumer has gone through the entries that are pending before it, 32
in a round, whatever else happens meanwhile. -/
theorem reclaim_reaches_pending {C C' : Consumption} {evs : List Consumption.Event}
    (hrun : Consumption.run evs C = some C') {k : ℕ} {c : Consumer}
    (hc : C.consumers[k]? = some (some c)) {g : ConsumerGroup String}
    (hg : C.groups c.stream = some g) {p : Pending String} (hp : p ∈ g.pending)
    (hcursor : c.cursor ≤ p.id)
    (hlong : ∀ now, Consumption.Event.reclaim k now ∈ evs → p.since + c.idleTimeout ≤ now)
    (hrounds : (g.pending.filter (fun q => c.cursor ≤ q.id ∧ q.id ≤ p.id)).length ≤
      32 * evs.countP (Consumption.Event.isReclaim k)) :
    C.delivered.count (c.stream, p.id) + C.acked.count (c.stream, p.id) <
      C'.delivered.count (c.stream, p.id) + C'.acked.count (c.stream, p.id) := by
  have hlisted : C.Listed c.stream p c.cursor
      (reclaimCount * evs.countP (Consumption.Event.isReclaim k)) :=
    ⟨g, hg, hp, (List.countP_eq_length_filter ..).trans_le hrounds⟩
  exact hlisted.run hrun hc hcursor hlong

/-- The first entry is handed out again after the first worker has been lost. -/
theorem reclaim_reaches_pending_lost :
    lostConsumption.delivered.count ("wf:tasks:work", 1) +
        lostConsumption.acked.count ("wf:tasks:work", 1) <
      takenConsumption.delivered.count ("wf:tasks:work", 1) +
        takenConsumption.acked.count ("wf:tasks:work", 1) := by
  have hpending : (lostConsumption.groups "wf:tasks:work").map (·.pending) =
      some [⟨1, "w1", 1000⟩, ⟨2, "w1", 1000⟩, ⟨3, "w1", 1000⟩, ⟨4, "w1", 1000⟩] := by
    decide +kernel
  obtain ⟨g, hg, hpending⟩ := Option.map_eq_some_iff.mp hpending
  refine reclaim_reaches_pending (k := 1) (c := ⟨"w2", "wf:tasks:work", 30, 0⟩)
    (p := ⟨1, "w1", 1000⟩) run_takeOverEvents (by decide +kernel) hg ?_ (Nat.zero_le 1) ?_ ?_
  · rw [hpending]
    exact List.mem_cons_self
  · intro now hnow
    simp only [takeOverEvents, List.mem_append, List.mem_cons, List.mem_map, reduceCtorEq,
      Consumption.Event.reclaim.injEq, List.not_mem_nil, and_false, true_and, or_false] at hnow
    obtain rfl := hnow.resolve_right (fun h => by obtain ⟨_, h⟩ := h; exact h)
    decide
  · rw [hpending]
    decide

end Orchestrator
