import Orchestrator.Delivery.Invariant
import Orchestrator.Engine.Worker
import Orchestrator.Invariant.Address

/-!
# Tasks reach their workers

Every attempt has one message, which says what the attempt is. A message is in a stream
only after the attempt has been committed, so it can be claimed, and a worker that listens
to the stream can handle it. A message whose row is marked is in its stream.
-/

namespace Orchestrator

open Lib Actions

namespace Delivery

variable {D D' : Delivery}

/-- What every action keeps holds of the rows in every state that is reached. -/
theorem Reachable.induct_db (h : D.Reachable) {I : Db → Prop} (h0 : I Db.empty)
    (hstep : ∀ v l u, Base v → Act l v u → I v → I (backend.applyAll v u)) : I D.db :=
  (Ok.init.later h).2.induct Base.empty h0 (fun v l u hb _ hact => hstep v l u hb hact)

/-- Messages are those of attempts. -/
theorem Reachable.addressed (h : D.Reachable) : Addressed D.db :=
  h.induct_db .empty (fun _ _ _ _ hact hadr => hadr.act hact)

/-- The message of an attempt, with the step that it is for. -/
structure Letter (v : Db) (a : TaskAttempt) (t : Step) (x : String × TaskPayload) : Prop where
  attempt : a ∈ v.attempts
  step : t ∈ v.steps
  of : t.id = a.stepID
  owned : ∃ r ∈ v.runs, r.id = a.workflowRunID
  attemptID : x.2.taskAttemptID = a.id
  key : x.2.idempotencyKey = a.idempotencyKey
  number : x.2.attemptNumber = a.attemptNumber
  stepID : x.2.stepID = a.stepID
  run : x.2.workflowRunID = a.workflowRunID
  stream : x.1 = queueName t.taskType

/-- The row of an attempt carries its message. -/
theorem letter_of_row (hb : Base D.db) (hadr : Addressed D.db) {m : OutboxMessage}
    (hm : m ∈ D.db.outbox) :
    ∃ a t, m.aggregateID = a.id ∧ Letter D.db a t (System.published m) := by
  obtain ⟨r, hr, t, ht, a, ha, hid, hstep, hcontent⟩ := hadr.messages m hm
  have hagg : m.aggregateID = a.id := congrArg NewOutboxMessage.aggregateID hcontent
  have hstream : m.streamName = queueName t.taskType :=
    congrArg NewOutboxMessage.streamName hcontent
  have hpayload : m.payload = (taskMessage r t a).payload :=
    congrArg NewOutboxMessage.payload hcontent
  obtain ⟨t', ht', hparent, hrun, -⟩ := hb.ledger.parent a ha
  obtain rfl := Table.eq_of_key_eq ht' ht (hparent.trans hstep.symm)
  refine ⟨a, t', hagg, ha, ht, hstep, ⟨r, hr, hid.trans hrun.symm⟩, ?_, ?_, ?_, ?_, ?_, hstream⟩
  all_goals rw [System.published, hpayload]
  · rfl
  · rfl
  · rfl
  · exact hstep
  · exact hrun.symm

/-- An attempt has one row. -/
theorem row_of_attempt (hb : Base D.db) (hadr : Addressed D.db) {a : TaskAttempt}
    (ha : a ∈ D.db.attempts) : ∃ m ∈ D.db.outbox, m.aggregateID = a.id ∧
      (∃ t, Letter D.db a t (System.published m)) ∧ ∀ m' ∈ D.db.outbox,
        m'.aggregateID = a.id ∨ m'.payload.taskAttemptID = a.id → m' = m := by
  obtain ⟨m, hm, hid⟩ := hb.mailbox.sent a ha
  obtain ⟨a', t, hid', hletter⟩ := letter_of_row hb hadr hm
  obtain rfl := Table.eq_of_key_eq hletter.attempt ha (hid'.symm.trans hid)
  refine ⟨m, hm, hid, ⟨t, hletter⟩, fun m' hm' hsame => ?_⟩
  obtain ⟨b, _, hb', hother⟩ := letter_of_row hb hadr hm'
  have hagg : m'.aggregateID = a'.id :=
    hsame.elim id (fun hpayload => (hb'.trans hother.attemptID.symm).trans hpayload)
  exact hb.mailbox.once m' hm' m hm (hagg.trans hid.symm)

/-- The stream of a task type is that of no other. -/
theorem queueName_injective : Function.Injective queueName := by
  intro a b h
  simpa [queueName] using h

/-- The answer to the claim that a worker makes for a message at a server with the given
`LeaseDuration`. Its statements meet the rows of the given states. -/
def claimFor (leaseDuration : ℕ) (x : String × TaskPayload) (workerID : String) (ω : ℕ → Draw)
    (E : ℕ → Delivery) : Except Error ClaimTaskResponse :=
  (claimTaskResponse leaseDuration x.2.taskAttemptID x.2.idempotencyKey workerID).runAmong backend ω
    (fun i => (E i).db)

/-- A claim for a message can be answered from any rows that come later, and a worker that
listens to its stream has a handler for it. -/
theorem Letter.answered {a : TaskAttempt} {t : Step} {x : String × TaskPayload}
    {E : ℕ → Delivery} (h : Letter D.db a t x) (leaseDuration : ℕ)
    (hev : ∀ i, D.db.Evolves (E i).db) (ω : ℕ → Draw) {workerID : String}
    (hworker : workerID ≠ "") :
    ∃ resp, claimFor leaseDuration x workerID ω E = .ok resp ∧ resp.status ≠ .notFound ∧
      ∀ w w' : Worker, x.1 ∈ w.streams → w.handlers ⊆ w'.handlers →
        ∀ taskType, w'.process resp ≠ .noHandler taskType := by
  obtain ⟨b, hattempt, hab⟩ := (hev 0).attempt (Table.mem_iff_get?.mp h.attempt)
  obtain ⟨t', ht', htt'⟩ := (hev 1).step (Table.mem_iff_get?.mp h.step)
  obtain ⟨r, hrun, hid⟩ := h.owned
  obtain ⟨r', hr', -⟩ := (hev 2).run (Table.mem_iff_get?.mp hrun)
  rw [h.of, ← hab.stepID] at ht'
  rw [hid, ← hab.run] at hr'
  obtain ⟨resp, hresp, hfound, htype⟩ := claimTaskResponse_answered (s := fun i => (E i).db)
    leaseDuration x.2.idempotencyKey ω hworker hattempt ht' hr'
  rw [claimFor, h.attemptID]
  refine ⟨resp, hresp, hfound, fun w w' hx hsub => process_ne_noHandler (fun hgranted => ?_)⟩
  obtain ⟨handler, hmem, heq⟩ := List.mem_map.mp hx
  rw [htype hgranted, Step.type_of_info htt'.info, ← queueName_injective (heq.trans h.stream)]
  exact hsub hmem

end Delivery

/-- Whatever nodes and relays do, and wherever ticks fail or crash: every attempt has one row
in the outbox, which carries the attempt and goes to the stream of its task type. Every
message in a stream is that of a committed attempt. A claim for it is answered, never with
`NOT_FOUND`, and a worker that listens to the stream has a handler for it, also if it has
registered more handlers since. Every row is pending, or its message is in its stream. -/
theorem outbox_delivers {D : Delivery} (h : D.Reachable) :
    (∀ a ∈ D.db.attempts, ∃ t ∈ D.db.steps, t.id = a.stepID ∧ ∃ m ∈ D.db.outbox,
      (∀ m' ∈ D.db.outbox, m'.aggregateID = a.id ∨ m'.payload.taskAttemptID = a.id → m' = m) ∧
      m.aggregateID = a.id ∧ m.payload.taskAttemptID = a.id ∧
      m.payload.idempotencyKey = a.idempotencyKey ∧
      m.payload.attemptNumber = a.attemptNumber ∧ m.payload.stepID = a.stepID ∧
      m.payload.workflowRunID = a.workflowRunID ∧ m.streamName = "wf:tasks:" ++ t.taskType) ∧
    (∀ x ∈ D.stream, ∃ a ∈ D.db.attempts, x.2.taskAttemptID = a.id ∧
      x.2.idempotencyKey = a.idempotencyKey) ∧
    (∀ x ∈ D.stream, ∀ E : ℕ → Delivery, D.Later (E 0) → (∀ i, (E i).Later (E (i + 1))) →
      ∀ leaseDuration workerID ω, workerID = "" ∧
          Delivery.claimFor leaseDuration x workerID ω E = .error .invalidArgument ∨
        ∃ resp, Delivery.claimFor leaseDuration x workerID ω E = .ok resp ∧
          resp.status ≠ .notFound ∧
          ∀ w w' : Worker, x.1 ∈ w.streams → w.handlers ⊆ w'.handlers →
            ∀ taskType, w'.process resp ≠ .noHandler taskType) ∧
    ∀ m ∈ D.db.outbox, m.status = .pending ∨ (m.streamName, m.payload) ∈ D.stream := by
  obtain ⟨hok, hsound⟩ := h.sound
  have hadr := h.addressed
  refine ⟨fun a ha => ?_, fun x hx => ?_, fun x hx E h0 hE leaseDuration workerID ω => ?_,
    fun m hm => ?_⟩
  · obtain ⟨m, hm, hagg, ⟨t, hletter⟩, honly⟩ := Delivery.row_of_attempt hok.base hadr ha
    exact ⟨t, hletter.step, hletter.of, m, hm, honly, hagg, hletter.attemptID, hletter.key,
      hletter.number, hletter.stepID, hletter.run, hletter.stream⟩
  · obtain ⟨m, hm, rfl⟩ := hsound.visible x hx
    obtain ⟨a, t, -, hletter⟩ := Delivery.letter_of_row hok.base hadr hm
    exact ⟨a, hletter.attempt, hletter.attemptID, hletter.key⟩
  · obtain ⟨m, hm, rfl⟩ := hsound.visible x hx
    obtain ⟨a, t, -, hletter⟩ := Delivery.letter_of_row hok.base hadr hm
    have hlater : ∀ i, D.Later (E i) := by
      intro i
      induction i with
      | zero => exact h0
      | succ i ih => exact ih.trans (hE i)
    by_cases hworker : workerID = ""
    · rw [Delivery.claimFor, claimTaskResponse, if_pos hworker]
      exact Or.inl ⟨hworker, rfl⟩
    · exact Or.inr (hletter.answered leaseDuration
        (fun i => (hok.later (hlater i)).2.evolves hok.base) ω hworker)
  · by_cases hpending : m.status = .pending
    · exact Or.inl hpending
    · exact Or.inr (hsound.delivered _ ⟨m, hm, hpending, rfl⟩)

/-- A number of calls of one tick. -/
def Delivery.calls (i first count : ℕ) : List Delivery.Event :=
  (List.range' first count).map (fun n => .exec i (.tick n))

/-- A run dispatches two steps. One relay publishes the first message, marks it, and gets an
error for the second one, which arrives all the same. Another one finds both rows locked
meanwhile. A third tick publishes both messages again. -/
def resentEvents : List Delivery.Event :=
  -- The run of `joinSchedule` is created, and nothing is claimed yet.
  (joinSchedule.take 25).map .node ++
  [.tick none 100] ++ Delivery.calls 0 300 3 ++
  [.tick none 100] ++ Delivery.calls 1 310 1 ++ [.commit 1, .stop 0 true] ++
  [.tick none 100] ++ Delivery.calls 0 320 5 ++ [.commit 0]

/-- The state at the end of the events. -/
def resentDelivery : Delivery := (Delivery.run resentEvents .init).get (by decide +kernel)

/-- Both messages are in the stream twice, and both rows are marked. -/
theorem outbox_delivers_resent :
    resentDelivery.stream.map (fun x => (x.1, x.2.taskAttemptID)) =
      [("wf:tasks:work", 210), ("wf:tasks:work", 214), ("wf:tasks:work", 210),
        ("wf:tasks:work", 214)] ∧
    resentDelivery.db.outbox.rows.map (·.status) = [.published, .published] ∧
    (∀ x ∈ resentDelivery.stream, ∃ a ∈ resentDelivery.db.attempts, x.2.taskAttemptID = a.id ∧
      x.2.idempotencyKey = a.idempotencyKey) ∧
    ∀ m ∈ resentDelivery.db.outbox, m.status = .pending ∨
      (m.streamName, m.payload) ∈ resentDelivery.stream := by
  have hreach : resentDelivery.Reachable := Delivery.later_of_run (Option.some_get _).symm
  obtain ⟨-, hvisible, -, hdelivered⟩ := outbox_delivers hreach
  exact ⟨by decide +kernel, by decide +kernel, hvisible, hdelivered⟩

end Orchestrator
