import Orchestrator.Invariant.Ledger

/-!
# Every action keeps the invariant

First the effect of single writes on the invariant, then of the pairs of writes
that only keep it together, and at last one case per action.
-/

namespace Orchestrator

open Lib

section Outbox

variable {A : Table TaskAttempt.id} {O : Table OutboxMessage.id}

/-- An update of an attempt. -/
theorem Mailbox.putAttempt (h : Mailbox A O) {a : TaskAttempt} (a' : TaskAttempt)
    (ha : A.get? a'.id = some a) :
    Mailbox (A.put a') O where
  sent x hx := by
    rcases Table.mem_put.mp hx with rfl | ⟨hx, -⟩
    · obtain ⟨m, hm, hmid⟩ := h.sent a (Table.mem_of_get? ha)
      exact ⟨m, hm, hmid.trans (Table.key_of_get? ha)⟩
    · exact h.sent x hx
  once := h.once
  about m hm := by
    obtain ⟨x, hx, hxid⟩ := h.about m hm
    by_cases hxa : x.id = a'.id
    · exact ⟨a', Table.mem_put_self A a', hxa.symm.trans hxid⟩
    · exact ⟨x, Table.mem_put.mpr (Or.inr ⟨hx, hxa⟩), hxid⟩

/-- A new attempt with its message. -/
theorem Mailbox.send (h : Mailbox A O) {a : TaskAttempt} {m : OutboxMessage}
    (ha : A.get? a.id = none) (hm : O.get? m.id = none) (habout : m.aggregateID = a.id) :
    Mailbox (A.put a) (O.put m) := by
  have hA : ∀ x, x ∈ A.put a ↔ x = a ∨ x ∈ A := fun x => by
    rw [Table.mem_put]
    exact ⟨Or.imp_right And.left, Or.imp_right (fun hx => ⟨hx, Table.get?_eq_none.mp ha x hx⟩)⟩
  have hO : ∀ x, x ∈ O.put m ↔ x = m ∨ x ∈ O := fun x => by
    rw [Table.mem_put]
    exact ⟨Or.imp_right And.left, Or.imp_right (fun hx => ⟨hx, Table.get?_eq_none.mp hm x hx⟩)⟩
  have hother : ∀ x ∈ O, x.aggregateID ≠ a.id := by
    intro x hx heq
    obtain ⟨y, hy, hyid⟩ := h.about x hx
    exact Table.get?_eq_none.mp ha y hy (hyid.trans heq)
  refine ⟨fun x hx => ?_, fun x hx y hy hxy => ?_, fun x hx => ?_⟩
  · rcases (hA x).mp hx with rfl | hx
    · exact ⟨m, Table.mem_put_self O m, habout⟩
    · obtain ⟨n, hn, hnid⟩ := h.sent x hx
      exact ⟨n, (hO n).mpr (Or.inr hn), hnid⟩
  · rcases (hO x).mp hx with rfl | hxO <;> rcases (hO y).mp hy with rfl | hyO
    · rfl
    · exact absurd (hxy.symm.trans habout) (hother y hyO)
    · exact absurd (hxy.trans habout) (hother x hxO)
    · exact h.once x hxO y hyO hxy
  · rcases (hO x).mp hx with rfl | hx
    · exact ⟨a, Table.mem_put_self A a, habout.symm⟩
    · obtain ⟨y, hy, hyid⟩ := h.about x hx
      exact ⟨y, (hA y).mpr (Or.inr hy), hyid⟩

/-- An update of a message. -/
theorem Mailbox.putMessage (h : Mailbox A O) {m m' : OutboxMessage} (hm : O.get? m'.id = some m)
    (habout : m'.aggregateID = m.aggregateID) : Mailbox A (O.put m') := by
  have hmem := Table.mem_of_get? hm
  have hid : m.id = m'.id := Table.key_of_get? hm
  have hold : ∀ x ∈ O.put m', ∃ y ∈ O, y.aggregateID = x.aggregateID ∧ y.id = x.id := by
    intro x hx
    rcases Table.mem_put.mp hx with rfl | ⟨hx, -⟩
    · exact ⟨m, hmem, habout.symm, hid⟩
    · exact ⟨x, hx, rfl, rfl⟩
  refine ⟨fun a ha => ?_, fun x hx y hy hxy => ?_, fun x hx => ?_⟩
  · obtain ⟨n, hn, hnid⟩ := h.sent a ha
    by_cases hnm : n.id = m'.id
    · obtain rfl : n = m := Table.eq_of_key_eq hn hmem (hnm.trans hid.symm)
      exact ⟨m', Table.mem_put_self O m', habout.trans hnid⟩
    · exact ⟨n, Table.mem_put.mpr (Or.inr ⟨hn, hnm⟩), hnid⟩
  · obtain ⟨x', hx', hxa, hxid⟩ := hold x hx
    obtain ⟨y', hy', hya, hyid⟩ := hold y hy
    have heq := h.once x' hx' y' hy' (hxa.trans (hxy.trans hya.symm))
    exact Table.eq_of_key_eq hx hy (hxid.symm.trans ((congrArg OutboxMessage.id heq).trans hyid))
  · obtain ⟨y, hy, hya, -⟩ := hold x hx
    obtain ⟨a, ha, haid⟩ := h.about y hy
    exact ⟨a, ha, haid.trans hya⟩

end Outbox

namespace Base

variable {v : Db}

/-- Rows of the runs table that a write leaves alone. -/
private theorem runs_same {R : Table WorkflowRun.id} {T : Table Step.id} :
    ∀ r' ∈ R, ∃ r ∈ R, r'.id = r.id ∧
      ((r'.status = r.status ∧ r'.output = r.output) ∨ r'.RowOK T) :=
  fun r hr => ⟨r, hr, rfl, Or.inl ⟨rfl, rfl⟩⟩

/-- An update of a run's row. -/
theorem putRun (hb : Base v) {r q : WorkflowRun} (hr : v.runs.get? q.id = some r)
    (hev : r.Evolves q)
    (hrow : (q.status = r.status ∧ q.output = r.output) ∨ q.RowOK v.steps) :
    Base (v.apply (.run q)) where
  graph := by
    have hlater : v.Evolves (v.apply (.run q)) :=
      .putRun (fun r' hr' => Option.some.inj (hr.symm.trans hr') ▸ hev)
    refine hb.graph.evolve hlater (fun d hd => Or.inl hd) (fun t ht => ⟨t, ht, .refl t⟩)
      (fun t ht => Or.inl ht) (fun r' hr' => ?_)
    rcases Table.mem_put.mp hr' with rfl | ⟨hr', -⟩
    · exact ⟨r, Table.mem_of_get? hr, hev.id, hrow⟩
    · exact ⟨r', hr', rfl, Or.inl ⟨rfl, rfl⟩⟩
  ledger := hb.ledger
  mailbox := hb.mailbox
  clocks := hb.clocks
  chronicle := by
    have hlater : v.Evolves (v.apply (.run q)) :=
      .putRun (fun r' hr' => Option.some.inj (hr.symm.trans hr') ▸ hev)
    exact Chronicle.evolve hb.chronicle hlater (fun e he => Or.inl he)
  signals := hb.signals
  shards := by
    intro x hx
    rcases Table.mem_put.mp hx with rfl | ⟨hx, -⟩
    · rw [hev.shardID, hev.id]
      exact hb.shards r (Table.mem_of_get? hr)
    · exact hb.shards x hx

/-- The record of an event. -/
theorem putEvent (hb : Base v) {r : WorkflowRun} (hr : v.runs.get? r.id = some r)
    {eventType : EventType} (hend : eventType = .runCancelled → runTerminal r.status = true)
    (payload : Option Json) (now : Time) :
    Base (backend.applyAll v (historyWrites r eventType payload now)) := by
  have hput : Base (v.apply (.run { r with historySeq := r.historySeq + 1 })) :=
    hb.putRun hr ⟨rfl, rfl, rfl, rfl, Nat.le_succ _, fun _ => ⟨rfl, rfl, rfl⟩⟩ (Or.inl ⟨rfl, rfl⟩)
  refine { hput with chronicle := ?_ }
  intro e he
  rcases Table.mem_put.mp he with rfl | ⟨he, -⟩
  · exact ⟨{ r with historySeq := r.historySeq + 1 }, Table.mem_put_self v.runs _, rfl, le_rfl,
      hend⟩
  · exact hput.chronicle e he

/-- A change of a step that leaves its count and its attempts alone. -/
theorem putStep (hb : Base v) {t : Step} (t' : Step) (ht : v.steps.get? t.id = some t)
    (hlive : stepTerminal t.status = false) (hinfo : t'.info = t.info)
    (hcount : t'.attemptCount = t.attemptCount) (hrow : t'.RowOK) (hdeps : t'.DepsOK v.steps)
    (hlast : ∀ a ∈ v.attempts, a.stepID = t.id → LastOK v.handled t a → LastOK v.handled t' a) :
    Base (v.apply (.step t')) := by
  have hev : t.Evolves t' := ⟨hinfo, hcount.ge, fun h => by rw [hlive] at h; cases h⟩
  have hlater : v.Evolves (v.apply (.step t')) :=
    .putStep ((Step.id_of_info hinfo).symm ▸ ht) hev
  refine ⟨?_, hb.ledger.putStep ht hinfo hcount hrow hlast, hb.mailbox,
    Clocks.evolve hb.clocks hlater (fun tm htm => Or.inl ⟨tm, htm, .refl tm⟩), hb.chronicle,
    hb.signals, hb.shards⟩
  refine hb.graph.evolve hlater (fun d hd => Or.inl hd) ?_ ?_ runs_same
  · intro x hx
    rcases Table.mem_put.mp hx with rfl | ⟨hx, -⟩
    · exact ⟨t, Table.mem_of_get? ht, hev⟩
    · exact ⟨x, hx, .refl x⟩
  · intro x hx
    rcases Table.mem_put.mp hx with rfl | ⟨hx, -⟩
    · exact Or.inr hdeps
    · exact Or.inl hx

/-- A change of the latest attempt of a step. -/
theorem putAttempt (hb : Base v) {a a' : TaskAttempt} {t : Step}
    (ha : v.attempts.get? a.id = some a) (ht : v.steps.get? a.stepID = some t)
    (hlatest : a.attemptNumber = t.attemptCount) (hev : a.Evolves a')
    (hlast : LastOK v.handled t a')
    (hnote : (v.handled.get? a.id).isSome = true → a'.status = .expired) :
    Base (v.apply (.attempt a')) := by
  have hput : v.steps.put t = v.steps := Table.put_eq_self (Table.get?_key ht)
  have hledger := hb.ledger.putLatest a' v.handled ha ht hlatest hev.id hev.stepID hev.run
    hev.number rfl rfl (hb.ledger.row t (Table.mem_of_get? ht)) (fun _ _ => rfl) hlast hnote
  rw [hput] at hledger
  exact ⟨hb.graph, hledger, hb.mailbox.putAttempt a' (hev.id ▸ ha), hb.clocks, hb.chronicle,
    hb.signals, hb.shards⟩

/-- A timer for a retry, or a change of its status. -/
theorem putTimer (hb : Base v) (tm : Timer)
    (h : (∃ tm₀, v.timers.get? tm.id = some tm₀ ∧ tm₀.Evolves tm) ∨
      ∃ t ∈ v.steps, IsRetryTimer tm t) : Base (v.apply (.timer tm)) := by
  refine { hb with clocks := ?_ }
  intro x hx
  rcases Table.mem_put.mp hx with rfl | ⟨hx, -⟩
  · rcases h with ⟨tm₀, htm₀, hev⟩ | ⟨t, ht, hkind, hid, hrun, -⟩
    · obtain ⟨hkind, t, ht, hid, hrun⟩ := hb.clocks tm₀ (Table.mem_of_get? htm₀)
      exact ⟨hev.kind.trans hkind, t, ht, hev.stepID.trans hid, hrun.trans hev.run.symm⟩
    · exact ⟨hkind, t, ht, hid, hrun.symm⟩
  · exact hb.clocks x hx

/-- A signal with a valid payload. -/
theorem putSignal (hb : Base v) {s : Signal} (h : s.payload.IsValid) :
    Base (v.apply (.signal s)) := by
  refine { hb with signals := ?_ }
  intro x hx
  rcases Table.mem_put.mp hx with rfl | ⟨hx, -⟩
  · exact h
  · exact hb.signals x hx

end Base

/-- What is known of an attempt that has ended. -/
def Ended (success : Bool) (result : Option RawMessage) (H : Table (fun id : UUID => id))
    (a : TaskAttempt) : Prop :=
  (success = true ∧ a.status = .succeeded ∧ a.result = result) ∨ (success = false ∧ Dead H a)

section Closing

variable {v : Db} {a : TaskAttempt} {success : Bool} {result : Option RawMessage}
  {ws : List Write}

theorem Closes.mem (hclose : Closes v a success result ws) : v.attempts.get? a.id = some a := by
  cases hclose <;> assumption

/-- An attempt that is being ended was open. -/
theorem Closes.isOpen (hclose : Closes v a success result ws) : Open v.handled a := by
  cases hclose with
  | report _ hst => exact Or.inr (Or.inl hst)
  | expiry _ hst hnot => exact Or.inr (Or.inr ⟨hst, hnot⟩)

/-- The end of an attempt, with the step row that goes with it. -/
theorem Closes.books (hb : Base v) (hclose : Closes v a success result ws) {t t' : Step}
    (ht : v.steps.get? a.stepID = some t) (hinfo : t'.info = t.info)
    (hcount : t'.attemptCount = t.attemptCount) (hrow : t'.RowOK)
    (hlast : ∀ H a', Ended success result H a' → LastOK H t' a') :
    Ledger (v.steps.put t') (backend.applyAll v ws).attempts (backend.applyAll v ws).handled ∧
      Mailbox (backend.applyAll v ws).attempts (backend.applyAll v ws).outbox := by
  have hmem := Table.mem_of_get? hclose.mem
  obtain ⟨hlatest, -⟩ := hb.ledger.latest_of_open hmem hclose.isOpen ht
  cases hclose with
  | @report _ _ errMsg now ha hst =>
    have hnot : ¬ (v.handled.get? a.id).isSome = true := by
      intro hsome
      obtain ⟨x, hx, hxid, hxst⟩ := hb.ledger.handled a.id hsome
      obtain rfl := Table.eq_of_key_eq hx hmem hxid
      rw [hst] at hxst
      cases hxst
    have hended : Ended success result v.handled (a.complete success result errMsg now) := by
      cases success
      · exact Or.inr ⟨rfl, Or.inl rfl⟩
      · exact Or.inl ⟨rfl, rfl, rfl⟩
    exact ⟨hb.ledger.putLatest (a.complete success result errMsg now) v.handled ha ht hlatest rfl
      rfl rfl rfl hinfo hcount hrow (fun _ _ => rfl) (hlast _ _ hended) (fun h => absurd h hnot),
      hb.mailbox.putAttempt (a.complete success result errMsg now) ha⟩
  | expiry ha hst hnot =>
    have hput : v.attempts.put a = v.attempts := Table.put_eq_self ha
    have hhandled : (v.handled.put a.id).get? a.id = some a.id := Table.get?_put_self _ _
    have hended : Ended false none (v.handled.put a.id) a :=
      Or.inr ⟨rfl, Or.inr ⟨hst, by rw [hhandled]; rfl⟩⟩
    have hledger := hb.ledger.putLatest a (v.handled.put a.id) ha ht hlatest rfl rfl
      rfl rfl hinfo hcount hrow (fun id hne => Table.get?_put_of_ne (Ne.symm hne))
      (hlast _ _ hended) (fun _ => hst)
    rw [hput] at hledger
    exact ⟨hledger, hb.mailbox⟩

/-- The end of an attempt that changes its step. -/
theorem Base.close (hb : Base v) (hclose : Closes v a success result ws) {t : Step} (t' : Step)
    (ht : v.steps.get? a.stepID = some t) (hlive : stepTerminal t.status = false)
    (hinfo : t'.info = t.info) (hcount : t'.attemptCount = t.attemptCount) (hrow : t'.RowOK)
    (hdeps : t'.DepsOK v.steps) (hlast : ∀ H a', Ended success result H a' → LastOK H t' a') :
    Base ((backend.applyAll v ws).apply (.step t')) := by
  have hev : t.Evolves t' := ⟨hinfo, hcount.ge, fun h => by rw [hlive] at h; cases h⟩
  obtain ⟨hsteps, hruns, htimers⟩ := hclose.frame
  have ht' : (backend.applyAll v ws).steps.get? t'.id = some t := by
    rw [hsteps, Step.id_of_info hinfo]
    exact Table.get?_key ht
  have hlater : v.Evolves ((backend.applyAll v ws).apply (.step t')) :=
    hclose.evolves.trans (.putStep ht' hev)
  obtain ⟨hledger, hmailbox⟩ := hclose.books hb ht hinfo hcount hrow hlast
  have hframe : ((backend.applyAll v ws).apply (.step t')).definitions = v.definitions ∧
      ((backend.applyAll v ws).apply (.step t')).runs = v.runs ∧
      ((backend.applyAll v ws).apply (.step t')).steps = v.steps.put t' ∧
      ((backend.applyAll v ws).apply (.step t')).timers = v.timers ∧
      ((backend.applyAll v ws).apply (.step t')).history = v.history ∧
      ((backend.applyAll v ws).apply (.step t')).signals = v.signals := by
    cases hclose <;> exact ⟨rfl, rfl, rfl, rfl, rfl, rfl⟩
  obtain ⟨hD, hR, hT, hM, hE, hS⟩ := hframe
  refine ⟨hb.graph.evolve hlater ?_ ?_ ?_ ?_, hT ▸ hledger, hmailbox,
    Clocks.evolve hb.clocks hlater ?_, Chronicle.evolve hb.chronicle hlater ?_, ?_, ?_⟩
  · exact fun d hd => Or.inl (hD ▸ hd)
  · intro x hx
    rcases Table.mem_put.mp (hT ▸ hx) with rfl | ⟨hx, -⟩
    · exact ⟨t, Table.mem_of_get? ht, hev⟩
    · exact ⟨x, hx, .refl x⟩
  · intro x hx
    rcases Table.mem_put.mp (hT ▸ hx) with rfl | ⟨hx, -⟩
    · exact Or.inr hdeps
    · exact Or.inl hx
  · exact fun r hr => ⟨r, hR ▸ hr, rfl, Or.inl ⟨rfl, rfl⟩⟩
  · exact fun tm htm => Or.inl ⟨tm, hM ▸ htm, .refl tm⟩
  · exact fun e he => Or.inl (hE ▸ he)
  · exact fun x hx => hb.signals x (hS ▸ hx)
  · exact fun r hr => hb.shards r (hR ▸ hr)

/-- The end of an attempt whose step has been cancelled. -/
theorem Base.closeLate (hb : Base v) (hclose : Closes v a success result ws) {t : Step}
    (ht : v.steps.get? a.stepID = some t) (hst : t.status = .cancelled) :
    Base (backend.applyAll v ws) := by
  obtain ⟨hledger, hmailbox⟩ := hclose.books hb ht rfl rfl
    (hb.ledger.row t (Table.mem_of_get? ht)) (fun H a' _ => by simp only [LastOK, hst])
  rw [Table.put_eq_self (Table.get?_key ht)] at hledger
  have hframe : (backend.applyAll v ws).definitions = v.definitions ∧
      (backend.applyAll v ws).runs = v.runs ∧ (backend.applyAll v ws).steps = v.steps ∧
      (backend.applyAll v ws).timers = v.timers ∧ (backend.applyAll v ws).history = v.history ∧
      (backend.applyAll v ws).signals = v.signals := by
    cases hclose <;> exact ⟨rfl, rfl, rfl, rfl, rfl, rfl⟩
  obtain ⟨hD, hR, hT, hM, hE, hS⟩ := hframe
  refine ⟨?_, ?_, hmailbox, ?_, ?_, ?_, ?_⟩
  · rw [hD, hR, hT]; exact hb.graph
  · rw [hT]; exact hledger
  · rw [hT, hM]; exact hb.clocks
  · rw [hR, hE]; exact hb.chronicle
  · rw [hS]; exact hb.signals
  · rw [hR]; exact hb.shards

end Closing

section Rows

variable {t : Step}

/-- A pending step has made no attempt. -/
theorem Step.RowOK.count_of_pending (h : t.RowOK) (hst : t.status = .pending) :
    t.attemptCount = 0 := by
  have hcount := h.count
  simpa only [Step.CountOK, hst] using hcount

/-- A change of status that sets no output and makes no attempt. -/
theorem Step.RowOK.move (h : t.RowOK) (hst : t.status ≠ .completed) {next : StepStatus}
    {errMsg : Option String} {now : Time}
    (hcount : (t.transition next none errMsg false now).CountOK) :
    (t.transition next none errMsg false now).RowOK :=
  ⟨h.input, h.attempts, hcount, h.bound, h.signal, fun _ => h.output hst, h.valid⟩

/-- The row of a step that a signal has completed. -/
theorem Step.RowOK.resolve (h : t.RowOK) (htype : t.taskType = signalWaitTaskType)
    {payload : RawMessage} (hvalid : payload.IsValid) (now : Time) :
    (t.transition .completed (some payload) none false now).RowOK where
  input := h.input
  attempts := h.attempts
  count := fun hne => absurd htype hne
  bound := h.bound
  signal := h.signal
  output := fun hne => absurd rfl hne
  valid := fun o ho => Option.some.inj (show some payload = some o from ho) ▸ hvalid

/-- A step in flight has made an attempt. -/
theorem Step.RowOK.count_of_inFlight (h : t.RowOK)
    (hst : t.status = .queued ∨ t.status = .running) : 1 ≤ t.attemptCount := by
  have hcount := h.count
  rcases hst with hst | hst <;> simpa only [Step.CountOK, hst] using hcount

/-- The output of a step in flight is not set yet. -/
theorem Step.RowOK.output_of_inFlight (h : t.RowOK)
    (hst : t.status = .queued ∨ t.status = .running) : t.output = none :=
  h.output (fun hc => by rcases hst with hst | hst <;> rw [hst] at hc <;> cases hc)

/-- The row of a step whose attempt has succeeded. -/
theorem Step.RowOK.complete (h : t.RowOK) (hst : t.status = .queued ∨ t.status = .running)
    {result : Option RawMessage} (hvalid : ∀ o, result = some o → o.IsValid) (now : Time) :
    (t.transition .completed result none false now).RowOK where
  input := h.input
  attempts := h.attempts
  count := fun _ => h.count_of_inFlight hst
  bound := h.bound
  signal := h.signal
  output := fun hne => absurd rfl hne
  valid := by
    intro o ho
    have hout : coalesce result t.output = some o := ho
    cases result with
    | some m => exact hvalid o hout
    | none => exact h.valid o hout

/-- The output of a step whose attempt has succeeded is the attempt's result. -/
theorem Step.RowOK.output_complete (h : t.RowOK)
    (hst : t.status = .queued ∨ t.status = .running) {result : Option RawMessage} (now : Time) :
    (t.transition .completed result none false now).output = result := by
  change coalesce result t.output = result
  rw [h.output_of_inFlight hst, coalesce_none]

/-- The row of a step with a new attempt. -/
theorem Step.RowOK.queue (h : t.RowOK)
    (hst : (t.status = .pending ∧ t.taskType ≠ signalWaitTaskType) ∨ t.status = .retryBackoff)
    (now : Time) : (t.transition .queued none none true now).RowOK where
  input := h.input
  attempts := h.attempts
  count := Nat.succ_le_succ (Nat.zero_le _)
  bound := by
    change ((t.attemptCount + 1 : ℕ) : ℤ) ≤ t.maxAttempts
    have hmax := h.attempts
    rcases hst with ⟨hst, -⟩ | hst
    · have hzero := h.count_of_pending hst
      omega
    · have hcount := h.count
      simp only [Step.CountOK, hst] at hcount
      omega
  signal := by
    intro htype
    rcases hst with ⟨-, hne⟩ | hst
    · exact absurd htype hne
    · have hcount := h.count
      have hzero := h.signal htype
      simp only [Step.CountOK, hst] at hcount
      omega
  output := by
    intro _
    refine h.output (fun hc => ?_)
    rcases hst with ⟨hst, -⟩ | hst <;> rw [hst] at hc <;> cases hc
  valid := h.valid

end Rows

section Creation

variable {v : Db} {id : UUID} {news : List NewStep} {steps : List Step}

/-- Step rows are made from the steps of a definition. -/
theorem stepNames_eq
    (h : List.Forall₂ (fun ns t => ∃ stepID now, t = newStepRow stepID id ns now) news steps) :
    steps.map (·.stepName) = news.map (·.stepName) := by
  induction h with
  | nil => rfl
  | cons hrow _ ih =>
    obtain ⟨stepID, now, rfl⟩ := hrow
    rw [List.map_cons, List.map_cons, ih]
    rfl

theorem forall₂_left {α β : Type} {ρ : α → β → Prop} {l : List α} {m : List β}
    (h : List.Forall₂ ρ l m) : ∀ a ∈ l, ∃ b ∈ m, ρ a b :=
  forall₂_right h.flip

/-- A new step row is in order. -/
theorem newStepRow_rowOK {dag : Definition} (hwf : dag.WellFormed) {ns : NewStep}
    (hns : ns ∈ dag.toNewSteps) (stepID id : UUID) (now : Time) :
    (newStepRow stepID id ns now).RowOK := by
  obtain ⟨spec, hspec, rfl⟩ := List.mem_map.mp hns
  obtain ⟨m, hm, hvalid⟩ := hwf.inputs spec hspec
  have hmax : 1 ≤ spec.maxAttempts := hwf.attempts spec hspec
  refine ⟨?_, hmax, rfl, ?_, fun _ => rfl, fun _ => rfl, fun o ho => by cases ho⟩
  · simpa [newStepRow, hm] using hvalid
  · change ((0 : ℕ) : ℤ) ≤ spec.maxAttempts
    omega

/-- The steps of a new run are those of its definition. -/
theorem instance_of_forall₂ {T : Table Step.id} {dag : Definition} (hwf : dag.WellFormed)
    (hsteps : List.Forall₂ (fun ns t => ∃ stepID now, t = newStepRow stepID id ns now)
      dag.toNewSteps steps) (hT : ∀ t, t ∈ T → t.workflowRunID = id → t ∈ steps)
    (hT' : ∀ t ∈ steps, t ∈ T) : Instance T id dag := by
  have hnames : (steps.map (·.stepName)).Nodup := by
    rw [stepNames_eq hsteps, Definition.toNewSteps, List.map_map]
    exact hwf.nodup
  refine ⟨fun t ht hrun => ?_, fun spec hspec => ?_, fun t ht t' ht' hrun hrun' hname => ?_⟩
  · obtain ⟨ns, hns, stepID, now, rfl⟩ := forall₂_right hsteps t (hT t ht hrun)
    obtain ⟨spec, hspec, rfl⟩ := List.mem_map.mp hns
    exact ⟨spec, hspec, rfl, rfl, rfl, rfl⟩
  · obtain ⟨t, ht, stepID, now, rfl⟩ := forall₂_left hsteps _ (List.mem_map_of_mem hspec)
    exact ⟨_, hT' _ ht, rfl, rfl⟩
  · exact List.inj_on_of_nodup_map hnames (hT t ht hrun) (hT t' ht' hrun') hname

/-- The creation of a run. -/
theorem Base.withRun (hb : Base v) {d : WorkflowDefinition} {r : WorkflowRun}
    (hd : d ∈ v.definitions) (hr : v.runs.get? r.id = none) (hst : r.status = .pending)
    (hout : r.output = none) (hshard : r.shardID = shardFor r.id)
    (hsteps : List.Forall₂ (fun ns t => ∃ stepID now, t = newStepRow stepID r.id ns now)
      d.dag.toNewSteps steps) (hnew : ∀ t ∈ steps, v.steps.get? t.id = none)
    (hnodup : (steps.map (·.id)).Nodup) : Base (v.withRun r steps) := by
  have hwf := hb.graph.definitions d hd
  have hrow : ∀ t ∈ steps, t.RowOK ∧ t.workflowRunID = r.id ∧ t.status = .pending ∧
      t.attemptCount = 0 := by
    intro t ht
    obtain ⟨ns, hns, stepID, now, rfl⟩ := forall₂_right hsteps t ht
    exact ⟨newStepRow_rowOK hwf hns .., rfl, rfl, rfl⟩
  have hlater : v.Evolves (v.withRun r steps) :=
    .withRun hr (fun t ht => (hrow t ht).2.1) hnew hnodup
  have hT : ∀ t, t ∈ (v.withRun r steps).steps ↔ t ∈ steps ∨ t ∈ v.steps :=
    fun t => Table.mem_foldl_put hnew hnodup
  have hR : ∀ q, q ∈ (v.withRun r steps).runs ↔ q = r ∨ q ∈ v.runs := fun q => by
    change q ∈ v.runs.put r ↔ _
    rw [Table.mem_put]
    exact ⟨Or.imp_right And.left, Or.imp_right (fun hq => ⟨hq, Table.get?_eq_none.mp hr q hq⟩)⟩
  -- No step of another run belongs to the new one.
  have hother : ∀ t ∈ v.steps, t.workflowRunID ≠ r.id := by
    intro t ht heq
    obtain ⟨q, hq, hqid⟩ := hb.graph.run t ht
    exact Table.get?_eq_none.mp hr q hq (hqid.trans heq)
  have hfresh : ∀ t ∈ steps, ¬ t.Started := by
    rintro t ht (hmem | hpos)
    · rw [(hrow t ht).2.2.1] at hmem
      exact absurd hmem (by decide)
    · rw [(hrow t ht).2.2.2] at hpos
      exact absurd hpos (lt_irrefl _)
  have hold : ∀ q ∈ v.runs, q.RowOK (v.withRun r steps).steps := fun q hq =>
    (hb.graph.rowOK hq).evolve hq hlater rfl rfl rfl
  refine ⟨⟨hb.graph.definitions, fun t ht => ?_, fun q hq => ?_, fun t ht hstart => ?_,
    fun t ht hskip => ?_, fun q hq hfin => ?_, fun q hq hrun => ?_⟩,
    hb.ledger.addSteps hT hnew (fun t ht => (hrow t ht).1) (fun t ht => (hrow t ht).2.2.2),
    hb.mailbox, Clocks.evolve hb.clocks hlater (fun tm htm => Or.inl ⟨tm, htm, .refl tm⟩),
    Chronicle.evolve hb.chronicle hlater (fun e he => Or.inl he), hb.signals,
    fun q hq => ((hR q).mp hq).elim (fun h => h ▸ hshard) (hb.shards q)⟩
  · rcases (hT t).mp ht with ht | ht
    · exact ⟨r, (hR r).mpr (Or.inl rfl), (hrow t ht).2.1.symm⟩
    · obtain ⟨q, hq, hqid⟩ := hb.graph.run t ht
      exact ⟨q, (hR q).mpr (Or.inr hq), hqid⟩
  · rcases (hR q).mp hq with rfl | hq
    · refine ⟨d, hd, instance_of_forall₂ hwf hsteps (fun t ht hrun => ?_)
        (fun t ht => (hT t).mpr (Or.inl ht))⟩
      exact ((hT t).mp ht).resolve_right (fun ht => hother t ht hrun)
    · obtain ⟨d', hd', hinst⟩ := hb.graph.shape q hq
      have hback : ∀ t, t ∈ (v.withRun r steps).steps → t.workflowRunID = q.id → t ∈ v.steps := by
        intro t ht hrun
        refine ((hT t).mp ht).resolve_left (fun ht => ?_)
        exact Table.get?_eq_none.mp hr q hq (hrun.symm.trans (hrow t ht).2.1)
      refine ⟨d', hd', fun t ht hrun => hinst.forth t (hback t ht hrun) hrun, fun spec hspec => ?_,
        fun t ht t' ht' hrun hrun' => hinst.unique t (hback t ht hrun) t' (hback t' ht' hrun')
          hrun hrun'⟩
      obtain ⟨t, ht, hrest⟩ := hinst.back spec hspec
      exact ⟨t, (hT t).mpr (Or.inr ht), hrest⟩
  · rcases (hT t).mp ht with ht | ht
    · exact absurd hstart (hfresh t ht)
    · exact hlater.depsDone (hb.graph.deps t ht hstart)
  · rcases (hT t).mp ht with ht | ht
    · rw [(hrow t ht).2.2.1] at hskip
      cases hskip
    · exact hlater.blocked (hb.graph.skipped t ht hskip)
  · rcases (hR q).mp hq with rfl | hq
    · rw [hst] at hfin
      rcases hfin with h | h <;> cases h
    · exact (hold q hq).finished hfin
  · rcases (hR q).mp hq with rfl | hq
    · exact hout
    · exact (hold q hq).unfinished hrun

/-- The registration of a definition. -/
theorem Base.putDefinition (hb : Base v) {d : WorkflowDefinition} (hwf : d.dag.WellFormed)
    (hnew : v.definitions.get? d.id = none) : Base (v.apply (.definition d)) := by
  refine { hb with graph := ?_ }
  refine hb.graph.evolve (.putDefinition hnew) (fun x hx => ?_) (fun t ht => ⟨t, ht, .refl t⟩)
    (fun t ht => Or.inl ht) (fun r hr => ⟨r, hr, rfl, Or.inl ⟨rfl, rfl⟩⟩)
  rcases Table.mem_put.mp hx with rfl | ⟨hx, -⟩
  · exact Or.inr hwf
  · exact Or.inl hx

end Creation

section Cases

variable {v : Db}

/-- A step without attempts says nothing about them. -/
private theorem lastOK_of_none (hb : Base v) {t t' : Step} (ht : v.steps.get? t.id = some t)
    (hzero : t.attemptCount = 0) :
    ∀ a ∈ v.attempts, a.stepID = t.id → LastOK v.handled t a → LastOK v.handled t' a :=
  fun _ ha hid => absurd hid (hb.ledger.no_attempts (Table.mem_of_get? ht) hzero ha)

/-- Dependencies of a step whose row has changed in other columns. -/
private theorem depsOK_of_depsDone {T : Table Step.id} {t t' : Step} (hinfo : t'.info = t.info)
    (hdeps : DepsDone T t) (hst : t'.status ≠ .skipped) : t'.DepsOK T := by
  refine ⟨fun _ => ?_, fun h => absurd h hst⟩
  rw [DepsDone, Step.deps_of_info hinfo, Step.run_of_info hinfo]
  exact hdeps

/-- A step in flight has its dependencies behind it. -/
private theorem depsDone_of_inFlight (hb : Base v) {id : UUID} {t : Step}
    (ht : v.steps.get? id = some t) (hst : t.status = .queued ∨ t.status = .running) :
    DepsDone v.steps t :=
  hb.graph.deps t (Table.mem_of_get? ht)
    (Or.inl (by rcases hst with hst | hst <;> rw [hst] <;> decide))

/-- A change of a live attempt that keeps it open. -/
private theorem Base.putOpen (hb : Base v) {a a' : TaskAttempt}
    (ha : v.attempts.get? a.id = some a) (hlive : a.isLive = true) (hev : a.Evolves a')
    (hopen : a'.isLive = true ∨ a'.status = .expired) : Base (v.apply (.attempt a')) := by
  have hmem := Table.mem_of_get? ha
  have hstatus : a.status = .queued ∨ a.status = .leased := by
    simpa [TaskAttempt.isLive] using hlive
  obtain ⟨t, ht, htid, -⟩ := hb.ledger.parent a hmem
  have htget : v.steps.get? a.stepID = some t := htid ▸ Table.mem_iff_get?.mp ht
  have hopen₀ : Open v.handled a := hstatus.imp_right Or.inl
  obtain ⟨hlatest, hst⟩ := hb.ledger.latest_of_open hmem hopen₀ htget
  have hnot : v.handled.get? a.id = none := by
    by_contra hne
    obtain ⟨x, hx, hxid, hxst⟩ := hb.ledger.handled a.id (Option.isSome_iff_ne_none.mpr hne)
    obtain rfl := Table.eq_of_key_eq hx hmem hxid
    rcases hstatus with h | h <;> rw [h] at hxst <;> cases hxst
  refine hb.putAttempt ha htget hlatest hev ?_ (fun hsome => by rw [hnot] at hsome; cases hsome)
  have hopen' : Open v.handled a' := by
    rcases hopen with h | h
    · have h' : a'.status = .queued ∨ a'.status = .leased := by simpa [TaskAttempt.isLive] using h
      exact h'.imp_right Or.inl
    · exact Or.inr (Or.inr ⟨h, hev.id ▸ hnot⟩)
  rcases hst with hst | hst | hst <;> simp only [LastOK, hst]
  · exact hopen'
  · exact hopen'

/-- A dispatch keeps the invariant. -/
private theorem Base.dispatch (hb : Base v) {t : Step} (a : TaskAttempt) (m : OutboxMessage)
    (now : Time) (ht : v.steps.get? t.id = some t) (hdisp : Dispatchable v.steps t)
    (hnew : v.attempts.get? a.id = none) (hstep : a.stepID = t.id)
    (hrun : a.workflowRunID = t.workflowRunID) (hnum : a.attemptNumber = t.attemptCount + 1)
    (hqueued : a.status = .queued) (hmsg : v.outbox.get? m.id = none)
    (habout : m.aggregateID = a.id) :
    Base (((v.apply (.attempt a)).apply (.outbox m)).apply
      (.step (t.transition .queued none none true now))) := by
  have hmem := Table.mem_of_get? ht
  have hst : t.status = .pending ∨ t.status = .retryBackoff := hdisp.imp And.left id
  have hlive : stepTerminal t.status = false := by
    rcases hst with hst | hst <;> rw [hst] <;> rfl
  have hdeps : DepsDone v.steps t := by
    rcases hdisp with ⟨-, -, hdeps⟩ | hst
    · exact hdeps
    · exact hb.graph.deps t hmem (Or.inl (by rw [hst]; decide))
  have hrow := (hb.ledger.row t hmem).queue (hdisp.imp_left (fun h => ⟨h.1, h.2.1⟩)) now
  have hput : v.Evolves (v.apply (.step (t.transition .queued none none true now))) :=
    .putStep ht (.transition hlive ..)
  have hclocks := Clocks.evolve hb.clocks hput (fun tm htm => Or.inl ⟨tm, htm, .refl tm⟩)
  have hgraph := hb.graph.evolve hput (fun d hd => Or.inl hd) (fun x hx => by
      rcases Table.mem_put.mp hx with rfl | ⟨hx, -⟩
      · exact ⟨t, hmem, .transition hlive ..⟩
      · exact ⟨x, hx, .refl x⟩) (fun x hx => by
      rcases Table.mem_put.mp hx with rfl | ⟨hx, -⟩
      · exact Or.inr (depsOK_of_depsDone rfl hdeps (fun h => by cases h))
      · exact Or.inl hx) (fun r hr => ⟨r, hr, rfl, Or.inl ⟨rfl, rfl⟩⟩)
  exact ⟨hgraph, hb.ledger.dispatch ht hst hnew hstep hrun hnum hqueued rfl rfl rfl hrow,
    hb.mailbox.send hnew hmsg habout, hclocks, hb.chronicle, hb.signals, hb.shards⟩

/-- The end of an attempt by a failure that its step is not cancelled for. -/
private theorem Base.closeFailed (hb : Base v) {a : TaskAttempt} {result : Option RawMessage}
    {ws : List Write} (hclose : Closes v a false result ws) {t : Step} (next : StepStatus)
    (errMsg : Option String) (now : Time) (ht : v.steps.get? a.stepID = some t)
    (hst : t.status = .queued ∨ t.status = .running)
    (hnext : next = .retryBackoff ∨ next = .failed)
    (hcount : 1 ≤ t.attemptCount → (t.transition next none errMsg false now).CountOK) :
    Base ((backend.applyAll v ws).apply (.step (t.transition next none errMsg false now))) := by
  have hrow := hb.ledger.row t (Table.mem_of_get? ht)
  have hdeps := depsDone_of_inFlight hb ht hst
  refine hb.close hclose _ ht (stepTerminal_of_inFlight hst) rfl rfl
    (hrow.move ?_ (hcount (hrow.count_of_inFlight hst))) (depsOK_of_depsDone rfl hdeps ?_) ?_
  · rcases hst with hst | hst <;> rw [hst] <;> decide
  · rcases hnext with rfl | rfl <;> exact fun h => by cases h
  · rintro H a' (⟨h, -⟩ | ⟨-, hdead⟩)
    · cases h
    · rcases hnext with rfl | rfl <;> exact hdead

/-- The row of a run that has started says nothing about its steps. -/
private theorem live_rowOK (hb : Base v) {r q : WorkflowRun} (hr : v.runs.get? r.id = some r)
    (hst : runTerminal r.status = false) (hout : q.output = r.output)
    (hlive : runTerminal q.status = false) : q.RowOK v.steps := by
  refine ⟨fun h => ?_, fun _ => hout.trans (hb.graph.unfinished r (Table.mem_of_get? hr) hst)⟩
  rcases h with h | h <;> rw [h] at hlive <;> cases hlive

/-- The row of a run that has ended agrees with its steps. -/
private theorem finish_rowOK (hb : Base v) {r : WorkflowRun} {next : RunStatus}
    {errMsg : Option String} {now : Time} (hr : v.runs.get? r.id = some r)
    (hst : runTerminal r.status = false) (hall : AllDone v.steps r.id)
    (hout : Outcome v.steps r.id next) :
    (r.transition next (marshalOutputs (completedOutputs v.steps r.id)) errMsg now).RowOK
      v.steps := by
  have hnone := hb.graph.unfinished r (Table.mem_of_get? hr) hst
  refine ⟨fun _ => ⟨hall, hout, ?_⟩, fun hrun => ?_⟩
  · change coalesce _ r.output = _
    rw [hnone, coalesce_none]
    rfl
  · cases next <;> first | exact hout.elim | cases hrun

/-- Every action keeps the invariant. -/
theorem Act.base {l : Label} {u : List Write} (hact : Act l v u) (hb : Base v) :
    Base (backend.applyAll v u) := by
  cases hact with
  | define hwf hnew _ => exact hb.putDefinition hwf hnew
  | @create _ d id name input now steps payload now' hd hr hsteps hnew hnodup =>
    rw [applyAll_create]
    exact (hb.withRun (r := newRun id d.id name d.version (shardFor id) input now) hd hr rfl rfl rfl
      hsteps hnew hnodup).putEvent (Table.get?_put_self v.runs _) (fun h => by cases h) ..
  | @skip _ t r now now' ht hst hblocked hr =>
    have hrow := hb.ledger.row t (Table.mem_of_get? ht)
    have hzero := hrow.count_of_pending hst
    have hput : Base (v.apply (.step (t.transition .skipped none none false now))) :=
      hb.putStep _ ht (by rw [hst]; rfl) rfl rfl (hrow.move (by rw [hst]; decide) hzero)
        ⟨fun hstart => by
          rcases hstart with h | h
          · exact absurd (show StepStatus.skipped ∈ _ from h) (by decide)
          · exact absurd (hzero ▸ h : 0 < 0) (lt_irrefl 0), fun _ => hblocked⟩
        (lastOK_of_none hb ht hzero)
    exact hput.putEvent (Table.get?_key (t := (v.apply _).runs) hr) (fun h => by cases h) ..
  | park ht hst htype hdeps =>
    have hrow := hb.ledger.row _ (Table.mem_of_get? ht)
    exact hb.putStep _ ht (by rw [hst]; rfl) rfl rfl (hrow.move (by rw [hst]; decide) htype)
      (depsOK_of_depsDone rfl hdeps (fun h => by cases h))
      (lastOK_of_none hb ht (hrow.count_of_pending hst))
  | @resolve _ t sig r now now' hs hproc hsrun hname ht hst htype hdeps hr =>
    have hrow := hb.ledger.row t (Table.mem_of_get? ht)
    have hvalid := hb.signals sig (Table.mem_of_get? hs)
    have hsig : Base (v.apply (.signal { sig with processed := true })) := hb.putSignal hvalid
    have hput := hsig.putStep (t.transition .completed (some sig.payload) none false now) ht
      (by rcases hst with hst | hst <;> rw [hst] <;> rfl) rfl rfl (hrow.resolve htype hvalid now)
      (depsOK_of_depsDone rfl hdeps (fun h => by cases h))
      (lastOK_of_none hsig ht (hrow.signal htype))
    exact hput.putEvent (Table.get?_key hr) (fun h => by cases h) ..
  | @burn _ sig hs hproc => exact hb.putSignal (hb.signals sig (Table.mem_of_get? hs))
  | @dispatch _ t r id key messageID now now₁ now₂ now₃ ht hdisp hnew hslot hmsg hr =>
    let a := newAttempt id t.id t.workflowRunID (t.attemptCount + 1) key (queueName t.taskType) now
    have hput := hb.dispatch a (newMessage messageID (taskMessage r t a) now₁) now₂ ht hdisp
      hnew rfl rfl rfl rfl hmsg rfl
    exact hput.putEvent (Table.get?_key hr) (fun h => by cases h) ..
  | @succeed _ a t r result ws number now now' hclose ht hst hvalid hr =>
    have hrow := hb.ledger.row t (Table.mem_of_get? ht)
    have hdeps := depsDone_of_inFlight hb ht hst
    have hput := hb.close hclose (t.transition .completed result none false now) ht
      (stepTerminal_of_inFlight hst) rfl rfl (hrow.complete hst hvalid now)
      (depsOK_of_depsDone rfl hdeps (fun h => by cases h))
      (fun H a' hended => by
        rcases hended with ⟨-, hsucc, hres⟩ | ⟨h, -⟩
        · exact ⟨hsucc, hres.trans (hrow.output_complete hst now).symm⟩
        · cases h)
    rw [Backend.applyAll_append]
    exact hput.putEvent (Table.get?_key (hclose.frame.2.1 ▸ hr)) (fun h => by cases h) ..
  | @retry _ a t r result ws tm errMsg payload now now' hclose ht hst hlt htm hshard hnew hr =>
    have hput := hb.closeFailed hclose .retryBackoff errMsg now ht hst (Or.inl rfl)
      (fun hcount => ⟨hcount, hlt⟩)
    have htimer := hput.putTimer tm (Or.inr ⟨_, Table.mem_put_self _ _, htm⟩)
    rw [Backend.applyAll_append]
    exact htimer.putEvent (Table.get?_key (hclose.frame.2.1 ▸ hr)) (fun h => by cases h) ..
  | @giveUp _ a t r result ws errMsg number now now' hclose ht hst hge hr =>
    have hrow := hb.ledger.row t (Table.mem_of_get? ht)
    have hput := hb.closeFailed hclose .failed errMsg now ht hst (Or.inr rfl)
      (fun _ => le_antisymm hrow.bound (not_lt.mp hge))
    rw [Backend.applyAll_append]
    exact hput.putEvent (Table.get?_key (hclose.frame.2.1 ▸ hr)) (fun h => by cases h) ..
  | @late _ a t success result ws tms hclose ht hst htms =>
    have hlate := hb.closeLate hclose ht hst
    rw [Backend.applyAll_append]
    rcases htms with rfl | ⟨tm, rfl, htm, -⟩
    · exact hlate
    · refine hlate.putTimer tm (Or.inr ⟨t, ?_, htm⟩)
      rw [hclose.frame.1]
      exact Table.mem_of_get? ht
  | @start _ r now now' hr hst =>
    have hput := hb.putRun (q := r.transition .running none none now) hr
      (.transition (by rw [hst]; rfl) ..) (Or.inr (live_rowOK hb hr (by rw [hst]; rfl) rfl rfl))
    exact hput.putEvent (Table.get?_put_self v.runs _) (fun h => by cases h) ..
  | @finish _ r next errMsg payload now now' hr hst hall hout =>
    have hput := hb.putRun
      (q := r.transition next (marshalOutputs (completedOutputs v.steps r.id)) errMsg now) hr
      (.transition hst ..) (Or.inr (finish_rowOK hb hr hst hall hout))
    refine hput.putEvent (Table.get?_put_self v.runs _) (fun h => ?_) ..
    cases next <;> first | exact hout.elim | rfl
  | @cancelStep _ t now ht hst =>
    have hmem := Table.mem_of_get? ht
    refine hb.putStep _ ht hst rfl rfl ((hb.ledger.row t hmem).move (fun h => ?_) trivial)
      ⟨fun hstart => ?_, fun h => by cases h⟩ (fun _ _ _ _ => trivial)
    · rw [h] at hst
      cases hst
    · rcases hstart with h | h
      · exact absurd (show StepStatus.cancelled ∈ _ from h) (by decide)
      · exact hb.graph.deps t hmem (Or.inr h)
  | @cancelRun _ r now hr hst =>
    refine hb.putRun hr (.transition hst ..) (Or.inr ⟨fun h => ?_, fun h => by cases h⟩)
    rcases h with h | h <;> cases h
  | cancelEvent hr hst => exact hb.putEvent hr (fun _ => hst) ..
  | signal _ hvalid => exact hb.putSignal hvalid
  | log hr => exact hb.putEvent hr (fun h => by cases h) ..
  | claim ha hst =>
    exact hb.putOpen ha (by simp [TaskAttempt.isLive, hst]) ⟨rfl, rfl, rfl, rfl, rfl,
      fun h => by simp [TaskAttempt.isLive, hst] at h, fun h => absurd hst h⟩ (Or.inl rfl)
  | heartbeat ha hst =>
    exact hb.putOpen ha (by simp [TaskAttempt.isLive, hst]) ⟨rfl, rfl, rfl, rfl, rfl,
      fun h => by simp [TaskAttempt.isLive, hst] at h, fun h => ⟨h, rfl⟩⟩
      (Or.inl (by simp [TaskAttempt.isLive, hst]))
  | expire ha hst =>
    exact hb.putOpen ha (by simp [TaskAttempt.isLive, hst]) ⟨rfl, rfl, rfl, rfl, rfl,
      fun h => by simp [TaskAttempt.isLive, hst] at h,
      fun _ => ⟨(fun h => by cases h), rfl⟩⟩ (Or.inr rfl)
  | @running _ t now ht hst =>
    have hrow := hb.ledger.row t (Table.mem_of_get? ht)
    have hdeps := depsDone_of_inFlight hb ht (Or.inl hst)
    refine hb.putStep _ ht (by rw [hst]; rfl) rfl rfl
      (hrow.move (by rw [hst]; decide) (hrow.count_of_inFlight (Or.inl hst)))
      (depsOK_of_depsDone rfl hdeps (fun h => by cases h)) (fun a _ _ hlast => ?_)
    have hopen : Open v.handled a := by simpa only [LastOK, hst] using hlast
    exact hopen
  | fireTimer htm hst =>
    exact hb.putTimer _ (Or.inl ⟨_, htm, rfl, rfl, rfl, rfl, fun h => absurd hst h⟩)
  | cancelTimer htm hst =>
    exact hb.putTimer _ (Or.inl ⟨_, htm, rfl, rfl, rfl, rfl, fun h => absurd hst h⟩)
  | publish hm => exact { hb with mailbox := hb.mailbox.putMessage hm rfl }

end Cases

/-- The empty store. -/
theorem Base.empty : Base Db.empty where
  graph := by constructor <;> exact fun x hx => absurd hx (Table.not_mem_empty x)
  ledger := by
    constructor
    case handled => exact fun id h => by cases h
    all_goals exact fun x hx => absurd hx (Table.not_mem_empty x)
  mailbox := by constructor <;> exact fun x hx => absurd hx (Table.not_mem_empty x)
  clocks := fun x hx => absurd hx (Table.not_mem_empty x)
  chronicle := fun x hx => absurd hx (Table.not_mem_empty x)
  signals := fun x hx => absurd hx (Table.not_mem_empty x)
  shards := fun x hx => absurd hx (Table.not_mem_empty x)

/-- The actions of the engine and of the worker calls. -/
def engine : Actions backend Label where
  Act := Act
  Inv := Base
  comm := fun v x y hdisj => Db.apply_comm v x y hdisj
  inv := fun hb hact => Act.base hact hb
  keep := fun _ hact hact' hdisj => Act.keep hact hact' hdisj

end Orchestrator
