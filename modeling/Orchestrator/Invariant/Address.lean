import Orchestrator.Invariant.Preservation

/-!
# What messages, timers and signals say about their runs

The message of an attempt carries the attempt as it was dispatched, goes to the
stream of its step's task type and belongs to the shard of its run. A timer belongs
to the shard of its run as well. None of these columns is set again. A signal is for
a run that exists.
-/

namespace Orchestrator

open Lib

/-- What was inserted as a message. -/
def OutboxMessage.content (m : OutboxMessage) : NewOutboxMessage :=
  ⟨m.aggregateType, m.aggregateID, m.shardID, m.streamName, m.payload⟩

/-- Messages are those of attempts, and timers are in the shards of their runs. -/
structure Addressed (v : Db) : Prop where
  messages : ∀ m ∈ v.outbox, ∃ r ∈ v.runs, ∃ t ∈ v.steps, ∃ a ∈ v.attempts,
    r.id = t.workflowRunID ∧ t.id = a.stepID ∧ m.content = taskMessage r t a
  timers : ∀ tm ∈ v.timers, tm.shardID = shardFor tm.workflowRunID

/-- The message of an attempt is the same whenever it is asked for. -/
theorem taskMessage_evolves {r r' : WorkflowRun} {t t' : Step} {a a' : TaskAttempt}
    (hr : r.Evolves r') (ht : t.Evolves t') (ha : a.Evolves a') :
    taskMessage r' t' a' = taskMessage r t a := by
  simp only [taskMessage, hr.shardID, Step.id_of_info ht.info, Step.run_of_info ht.info,
    Step.name_of_info ht.info, Step.type_of_info ht.info, Step.input_of_info ht.info,
    Step.timeout_of_info ht.info, ha.id, ha.number, ha.key]

/-- What the message of an attempt says. -/
theorem Addressed.message {v : Db} (h : Addressed v) {m : OutboxMessage} (hm : m ∈ v.outbox)
    {a : TaskAttempt} (ha : a ∈ v.attempts) (hid : m.aggregateID = a.id) :
    ∃ r ∈ v.runs, ∃ t ∈ v.steps, r.id = t.workflowRunID ∧ t.id = a.stepID ∧
      m.content = taskMessage r t a := by
  obtain ⟨r, hr, t, ht, a', ha', hrun, hstep, hcontent⟩ := h.messages m hm
  have hagg : m.aggregateID = a'.id := congrArg NewOutboxMessage.aggregateID hcontent
  obtain rfl := Table.eq_of_key_eq ha' ha (hagg.symm.trans hid)
  exact ⟨r, hr, t, ht, hrun, hstep, hcontent⟩

/-- The end of an attempt leaves messages and timers alone. -/
theorem Closes.letters {v : Db} {a : TaskAttempt} {success : Bool}
    {result : Option RawMessage} {ws : List Write} (h : Closes v a success result ws) :
    (backend.applyAll v ws).outbox = v.outbox ∧ (backend.applyAll v ws).timers = v.timers := by
  cases h <;> exact ⟨rfl, rfl⟩

namespace Addressed

variable {v v' : Db} {l : Label} {u : List Write}

theorem empty : Addressed Db.empty :=
  ⟨fun m hm => absurd hm (Table.not_mem_empty m), fun tm htm => absurd htm (Table.not_mem_empty tm)⟩

/-- Messages and timers are those from before, or new ones in order. -/
theorem evolve (h : Addressed v) (hev : v.Evolves v')
    (hmessages : ∀ m ∈ v'.outbox, (∃ n ∈ v.outbox, n.content = m.content) ∨
      ∃ r ∈ v.runs, ∃ t ∈ v'.steps, ∃ a ∈ v'.attempts, r.id = t.workflowRunID ∧ t.id = a.stepID ∧
        m.content = taskMessage r t a)
    (htimers : ∀ tm ∈ v'.timers, (∃ tm₀ ∈ v.timers, tm₀.shardID = tm.shardID ∧
      tm₀.workflowRunID = tm.workflowRunID) ∨ tm.shardID = shardFor tm.workflowRunID) :
    Addressed v' where
  messages m hm := by
    rcases hmessages m hm with ⟨n, hn, hsame⟩ | ⟨r, hr, t, ht, a, ha, hrun, hstep, hm⟩
    · obtain ⟨r, hr, t, ht, a, ha, hrun, hstep, hcontent⟩ := h.messages n hn
      obtain ⟨r', hr', hrev⟩ := hev.runs r hr
      obtain ⟨t', ht', htev⟩ := hev.steps t ht
      obtain ⟨a', ha', haev⟩ := hev.attempts a ha
      refine ⟨r', hr', t', ht', a', ha', ?_, ?_, ?_⟩
      · rw [hrev.id, hrun, Step.run_of_info htev.info]
      · rw [Step.id_of_info htev.info, hstep, haev.stepID]
      · rw [← hsame, hcontent, taskMessage_evolves hrev htev haev]
    · obtain ⟨r', hr', hrev⟩ := hev.runs r hr
      refine ⟨r', hr', t, ht, a, ha, hrev.id.trans hrun, hstep, ?_⟩
      rw [hm, taskMessage_evolves hrev (.refl t) (.refl a)]
  timers tm htm := by
    rcases htimers tm htm with ⟨tm₀, htm₀, hshard, hrun⟩ | hshard
    · rw [← hshard, ← hrun]
      exact h.timers tm₀ htm₀
    · exact hshard

/-- Writes that leave messages and timers alone. -/
theorem same (h : Addressed v) (hev : v.Evolves v') (houtbox : v'.outbox = v.outbox)
    (htimers : v'.timers = v.timers) : Addressed v' :=
  h.evolve hev (fun m hm => Or.inl ⟨m, houtbox ▸ hm, rfl⟩)
    (fun tm htm => Or.inl ⟨tm, htimers ▸ htm, rfl, rfl⟩)

/-- Writes that leave messages alone and put a timer. -/
theorem putTimer (h : Addressed v) (hev : v.Evolves v')
    (houtbox : v'.outbox = v.outbox) (tm : Timer)
    (htimers : v'.timers = v.timers.put tm)
    (htm : (∃ tm₀ ∈ v.timers, tm₀.shardID = tm.shardID ∧ tm₀.workflowRunID = tm.workflowRunID) ∨
      tm.shardID = shardFor tm.workflowRunID) : Addressed v' := by
  refine h.evolve hev (fun m hm => Or.inl ⟨m, houtbox ▸ hm, rfl⟩) (fun x hx => ?_)
  rcases Table.mem_put.mp (htimers ▸ hx) with rfl | ⟨hx, -⟩
  · exact htm
  · exact Or.inl ⟨x, hx, rfl, rfl⟩

/-- Every action keeps messages and timers in order. -/
theorem act (h : Addressed v) (hact : Act l v u) : Addressed (backend.applyAll v u) := by
  have hev := hact.evolves
  cases hact with
  | create =>
    rw [applyAll_create] at hev ⊢
    exact h.same hev rfl rfl
  | @dispatch _ t r id key messageID now now₁ now₂ now₃ ht _ hnew _ _ hr =>
    refine h.evolve hev (fun m hm => ?_) (fun tm htm => Or.inl ⟨tm, htm, rfl, rfl⟩)
    rcases Table.mem_put.mp hm with rfl | ⟨hm, -⟩
    · refine Or.inr ⟨r, Table.mem_of_get? hr, t.transition .queued none none true now₂,
        Table.mem_put_self v.steps _, _, Table.mem_put_self v.attempts _,
        Table.key_of_get? hr, rfl, rfl⟩
    · exact Or.inl ⟨m, hm, rfl⟩
  | succeed hclose =>
    rw [Backend.applyAll_append] at hev ⊢
    exact h.same hev hclose.letters.1 hclose.letters.2
  | @retry _ a t r result ws tm errMsg payload now now' hclose _ _ _ htm hshard =>
    rw [Backend.applyAll_append] at hev ⊢
    refine h.putTimer hev hclose.letters.1 tm ?_ (Or.inr (htm.2.2.1 ▸ hshard))
    rw [← hclose.letters.2]
    rfl
  | giveUp hclose =>
    rw [Backend.applyAll_append] at hev ⊢
    exact h.same hev hclose.letters.1 hclose.letters.2
  | late hclose _ _ htms =>
    rw [Backend.applyAll_append] at hev ⊢
    rcases htms with rfl | ⟨tm, rfl, htm, hshard, -⟩
    · exact h.same hev hclose.letters.1 hclose.letters.2
    · refine h.putTimer hev hclose.letters.1 tm ?_ (Or.inr (htm.2.2.1 ▸ hshard))
      rw [← hclose.letters.2]
      rfl
  | fireTimer htm =>
    exact h.putTimer hev rfl _ rfl (Or.inl ⟨_, Table.mem_of_get? htm, rfl, rfl⟩)
  | cancelTimer htm =>
    exact h.putTimer hev rfl _ rfl (Or.inl ⟨_, Table.mem_of_get? htm, rfl, rfl⟩)
  | publish hm =>
    refine h.evolve hev (fun x hx => Or.inl ?_) (fun tm htm => Or.inl ⟨tm, htm, rfl, rfl⟩)
    rcases Table.mem_put.mp hx with rfl | ⟨hx, -⟩
    · exact ⟨_, Table.mem_of_get? hm, rfl⟩
    · exact ⟨x, hx, rfl⟩
  | _ => exact h.same hev rfl rfl

end Addressed

/-- Every signal is for a run. -/
def Posted (v : Db) : Prop := ∀ sig ∈ v.signals, ∃ r ∈ v.runs, r.id = sig.workflowRunID

namespace Posted

variable {v v' : Db} {l : Label} {u : List Write}

theorem empty : Posted Db.empty := fun sig hsig => absurd hsig (Table.not_mem_empty sig)

/-- Signals are for runs as before, or for one that is there. -/
theorem evolve (h : Posted v) (hev : v.Evolves v')
    (hsignals : ∀ sig ∈ v'.signals, (∃ sig₀ ∈ v.signals, sig₀.workflowRunID = sig.workflowRunID) ∨
      ∃ r ∈ v.runs, r.id = sig.workflowRunID) : Posted v' := by
  intro sig hsig
  obtain ⟨r, hr, hid⟩ : ∃ r ∈ v.runs, r.id = sig.workflowRunID := by
    rcases hsignals sig hsig with ⟨sig₀, hsig₀, hrun⟩ | hrun
    · exact hrun ▸ h sig₀ hsig₀
    · exact hrun
  obtain ⟨r', hr', hrev⟩ := hev.runs r hr
  exact ⟨r', hr', hrev.id.trans hid⟩

/-- Writes that put a signal for the same run, or for one that is there. -/
theorem put (h : Posted v) (hev : v.Evolves v') (sig : Signal)
    (hsignals : v'.signals = v.signals.put sig)
    (hsig : (∃ sig₀ ∈ v.signals, sig₀.workflowRunID = sig.workflowRunID) ∨
      ∃ r ∈ v.runs, r.id = sig.workflowRunID) : Posted v' := by
  refine h.evolve hev (fun x hx => ?_)
  rcases Table.mem_put.mp (hsignals ▸ hx) with rfl | ⟨hx, -⟩
  · exact hsig
  · exact Or.inl ⟨x, hx, rfl⟩

theorem same (h : Posted v) (hev : v.Evolves v') (hsignals : v'.signals = v.signals) :
    Posted v' :=
  h.evolve hev (fun sig hsig => Or.inl ⟨sig, hsignals ▸ hsig, rfl⟩)

/-- Every action keeps signals with their runs. -/
theorem act (h : Posted v) (hact : Act l v u) : Posted (backend.applyAll v u) := by
  have hev := hact.evolves
  cases hact with
  | create =>
    rw [applyAll_create] at hev ⊢
    exact h.same hev rfl
  | resolve hsig => exact h.put hev _ rfl (Or.inl ⟨_, Table.mem_of_get? hsig, rfl⟩)
  | burn hsig => exact h.put hev _ rfl (Or.inl ⟨_, Table.mem_of_get? hsig, rfl⟩)
  | signal _ _ hr =>
    exact h.put hev _ rfl (Or.inr ⟨_, Table.mem_of_get? hr, Table.key_of_get? hr⟩)
  | succeed hclose =>
    cases hclose
    exact h.same hev rfl
  | retry hclose => cases hclose <;> exact h.same hev rfl
  | giveUp hclose => cases hclose <;> exact h.same hev rfl
  | late hclose _ _ htms =>
    rcases htms with rfl | ⟨tm, rfl, -⟩ <;> cases hclose <;> exact h.same hev rfl
  | _ => exact h.same hev rfl

end Posted

end Orchestrator
