import Orchestrator.Invariant.Action

/-!
# What rows never lose

No action removes a row. A row keeps the columns that identify it and what it was
created with, and a row that has reached its end is not changed again. These
facts let a transaction rely on what it has read before, however long ago.
-/

namespace Orchestrator

open Lib

/-- The second row is the same step, later. -/
structure Step.Evolves (s t : Step) : Prop where
  info : t.info = s.info
  count : s.attemptCount ≤ t.attemptCount
  done : stepTerminal s.status = true → t = s

/-- Whether the attempt is waiting for a worker or with one. -/
def TaskAttempt.isLive (a : TaskAttempt) : Bool := a.status == .queued || a.status == .leased

/-- The second row is the same attempt, later. -/
structure TaskAttempt.Evolves (a b : TaskAttempt) : Prop where
  id : b.id = a.id
  stepID : b.stepID = a.stepID
  run : b.workflowRunID = a.workflowRunID
  number : b.attemptNumber = a.attemptNumber
  key : b.idempotencyKey = a.idempotencyKey
  done : a.isLive = false → b = a
  /-- A claimed attempt stays with its worker. -/
  owner : a.status ≠ .queued → b.status ≠ .queued ∧ b.leaseOwner = a.leaseOwner

/-- The second row is the same run, later. -/
structure WorkflowRun.Evolves (r q : WorkflowRun) : Prop where
  id : q.id = r.id
  definitionID : q.definitionID = r.definitionID
  version : q.version = r.version
  shardID : q.shardID = r.shardID
  seq : r.historySeq ≤ q.historySeq
  done : runTerminal r.status = true → q.status = r.status ∧ q.output = r.output ∧ q.error = r.error

/-- The second row is the same timer, later. -/
structure Timer.Evolves (t u : Timer) : Prop where
  id : u.id = t.id
  run : u.workflowRunID = t.workflowRunID
  stepID : u.stepID = t.stepID
  kind : u.kind = t.kind
  done : t.status ≠ .pending → u.status = t.status

/-- The second row is the same signal, later. -/
structure Signal.Evolves (s t : Signal) : Prop where
  id : t.id = s.id
  run : t.workflowRunID = s.workflowRunID
  name : t.signalName = s.signalName
  payload : t.payload = s.payload
  done : s.processed = true → t.processed = true

/-- The second row is the same message, later. -/
structure OutboxMessage.Evolves (m n : OutboxMessage) : Prop where
  id : n.id = m.id
  aggregateID : n.aggregateID = m.aggregateID
  payload : n.payload = m.payload
  stream : n.streamName = m.streamName

/-- A step that nothing writes has evolved to itself. -/
theorem Step.Evolves.refl (s : Step) : s.Evolves s := ⟨rfl, le_rfl, fun _ => rfl⟩

/-- Evolutions of a step compose. -/
theorem Step.Evolves.trans {s t u : Step} (h : s.Evolves t) (h' : t.Evolves u) : s.Evolves u where
  info := h'.info.trans h.info
  count := h.count.trans h'.count
  done hs := by
    obtain rfl := h.done hs
    exact h'.done hs

/-- An attempt that nothing writes has evolved to itself. -/
theorem TaskAttempt.Evolves.refl (a : TaskAttempt) : a.Evolves a :=
  ⟨rfl, rfl, rfl, rfl, rfl, fun _ => rfl, fun h => ⟨h, rfl⟩⟩

/-- Evolutions of an attempt compose. -/
theorem TaskAttempt.Evolves.trans {a b c : TaskAttempt} (h : a.Evolves b) (h' : b.Evolves c) :
    a.Evolves c where
  id := h'.id.trans h.id
  stepID := h'.stepID.trans h.stepID
  run := h'.run.trans h.run
  number := h'.number.trans h.number
  key := h'.key.trans h.key
  done ha := by
    obtain rfl := h.done ha
    exact h'.done ha
  owner ha := by
    obtain ⟨hb, hown⟩ := h.owner ha
    obtain ⟨hc, hown'⟩ := h'.owner hb
    exact ⟨hc, hown'.trans hown⟩

/-- A run that nothing writes has evolved to itself. -/
theorem WorkflowRun.Evolves.refl (r : WorkflowRun) : r.Evolves r :=
  ⟨rfl, rfl, rfl, rfl, le_rfl, fun _ => ⟨rfl, rfl, rfl⟩⟩

/-- Evolutions of a run compose. -/
theorem WorkflowRun.Evolves.trans {r q p : WorkflowRun} (h : r.Evolves q) (h' : q.Evolves p) :
    r.Evolves p where
  id := h'.id.trans h.id
  definitionID := h'.definitionID.trans h.definitionID
  version := h'.version.trans h.version
  shardID := h'.shardID.trans h.shardID
  seq := h.seq.trans h'.seq
  done hr := by
    obtain ⟨hst, hout, herr⟩ := h.done hr
    obtain ⟨hst', hout', herr'⟩ := h'.done (hst ▸ hr)
    exact ⟨hst'.trans hst, hout'.trans hout, herr'.trans herr⟩

/-- A timer that nothing writes has evolved to itself. -/
theorem Timer.Evolves.refl (t : Timer) : t.Evolves t := ⟨rfl, rfl, rfl, rfl, fun _ => rfl⟩

/-- Evolutions of a timer compose. -/
theorem Timer.Evolves.trans {t u w : Timer} (h : t.Evolves u) (h' : u.Evolves w) : t.Evolves w where
  id := h'.id.trans h.id
  run := h'.run.trans h.run
  stepID := h'.stepID.trans h.stepID
  kind := h'.kind.trans h.kind
  done ht := (h'.done (by rwa [h.done ht])).trans (h.done ht)

/-- A signal that nothing writes has evolved to itself. -/
theorem Signal.Evolves.refl (s : Signal) : s.Evolves s := ⟨rfl, rfl, rfl, rfl, fun h => h⟩

/-- Evolutions of a signal compose. -/
theorem Signal.Evolves.trans {s t u : Signal} (h : s.Evolves t) (h' : t.Evolves u) : s.Evolves u :=
  ⟨h'.id.trans h.id, h'.run.trans h.run, h'.name.trans h.name, h'.payload.trans h.payload,
    fun hs => h'.done (h.done hs)⟩

/-- A message that nothing writes has evolved to itself. -/
theorem OutboxMessage.Evolves.refl (m : OutboxMessage) : m.Evolves m := ⟨rfl, rfl, rfl, rfl⟩

/-- Evolutions of a message compose. -/
theorem OutboxMessage.Evolves.trans {m n o : OutboxMessage} (h : m.Evolves n) (h' : n.Evolves o) :
    m.Evolves o :=
  ⟨h'.id.trans h.id, h'.aggregateID.trans h.aggregateID, h'.payload.trans h.payload,
    h'.stream.trans h.stream⟩

/-- The second state is a later one. -/
structure Db.Evolves (v v' : Db) : Prop where
  definitions : Table.Grows Eq v.definitions v'.definitions
  runs : Table.Grows WorkflowRun.Evolves v.runs v'.runs
  steps : Table.Grows Step.Evolves v.steps v'.steps
  /-- A run gets no further steps after its creation. -/
  newSteps : ∀ t' ∈ v'.steps, (∃ t ∈ v.steps, t.Evolves t') ∨
    v.runs.get? t'.workflowRunID = none
  attempts : Table.Grows TaskAttempt.Evolves v.attempts v'.attempts
  timers : Table.Grows Timer.Evolves v.timers v'.timers
  signals : Table.Grows Signal.Evolves v.signals v'.signals
  outbox : Table.Grows OutboxMessage.Evolves v.outbox v'.outbox
  handled : Table.Grows Eq v.handled v'.handled

/-- A database that nothing writes has evolved to itself. -/
theorem Db.Evolves.refl (v : Db) : v.Evolves v where
  definitions := .refl (fun _ => rfl) _
  runs := .refl WorkflowRun.Evolves.refl _
  steps := .refl Step.Evolves.refl _
  newSteps := fun t ht => Or.inl ⟨t, ht, .refl t⟩
  attempts := .refl TaskAttempt.Evolves.refl _
  timers := .refl Timer.Evolves.refl _
  signals := .refl Signal.Evolves.refl _
  outbox := .refl OutboxMessage.Evolves.refl _
  handled := .refl (fun _ => rfl) _

/-- A run that exists is found later. -/
theorem Db.Evolves.run {v v' : Db} (h : v.Evolves v') {id : UUID} {r : WorkflowRun}
    (hr : v.runs.get? id = some r) : ∃ q, v'.runs.get? id = some q ∧ r.Evolves q := by
  obtain ⟨q, hq, hev⟩ := h.runs r (Table.mem_of_get? hr)
  have hid : q.id = id := hev.id.trans (Table.key_of_get? hr)
  exact ⟨q, hid ▸ Table.mem_iff_get?.mp hq, hev⟩

/-- A step that exists is found later. -/
theorem Db.Evolves.step {v v' : Db} (h : v.Evolves v') {id : UUID} {s : Step}
    (hs : v.steps.get? id = some s) : ∃ t, v'.steps.get? id = some t ∧ s.Evolves t := by
  obtain ⟨t, ht, hev⟩ := h.steps s (Table.mem_of_get? hs)
  have hid : t.id = id := (Step.id_of_info hev.info).trans (Table.key_of_get? hs)
  exact ⟨t, hid ▸ Table.mem_iff_get?.mp ht, hev⟩

/-- An attempt that exists is found later. -/
theorem Db.Evolves.attempt {v v' : Db} (h : v.Evolves v') {id : UUID} {a : TaskAttempt}
    (ha : v.attempts.get? id = some a) : ∃ b, v'.attempts.get? id = some b ∧ a.Evolves b := by
  obtain ⟨b, hb, hev⟩ := h.attempts a (Table.mem_of_get? ha)
  have hid : b.id = id := hev.id.trans (Table.key_of_get? ha)
  exact ⟨b, hid ▸ Table.mem_iff_get?.mp hb, hev⟩

/-- A signal that exists is found later. -/
theorem Db.Evolves.signal {v v' : Db} (h : v.Evolves v') {id : UUID} {s : Signal}
    (hs : v.signals.get? id = some s) : ∃ t, v'.signals.get? id = some t ∧ s.Evolves t := by
  obtain ⟨t, ht, hev⟩ := h.signals s (Table.mem_of_get? hs)
  have hid : t.id = id := hev.id.trans (Table.key_of_get? hs)
  exact ⟨t, hid ▸ Table.mem_iff_get?.mp ht, hev⟩

/-- Evolutions compose, so that one write is all there is to prove. -/
theorem Db.Evolves.trans {v v' v'' : Db} (h : v.Evolves v') (h' : v'.Evolves v'') :
    v.Evolves v'' where
  definitions := h.definitions.trans Eq.trans h'.definitions
  runs := h.runs.trans WorkflowRun.Evolves.trans h'.runs
  steps := h.steps.trans Step.Evolves.trans h'.steps
  newSteps t'' ht'' := by
    have hback : ∀ id, v'.runs.get? id = none → v.runs.get? id = none := by
      intro id hnone
      by_contra hsome
      obtain ⟨r, hr⟩ := Option.ne_none_iff_exists'.mp hsome
      obtain ⟨q, hq, -⟩ := h.run hr
      rw [hnone] at hq
      cases hq
    rcases h'.newSteps t'' ht'' with ⟨t', ht', hev'⟩ | hnone
    · rcases h.newSteps t' ht' with ⟨t, ht, hev⟩ | hnone
      · exact Or.inl ⟨t, ht, hev.trans hev'⟩
      · exact Or.inr (Step.run_of_info hev'.info ▸ hnone)
    · exact Or.inr (hback _ hnone)
  attempts := h.attempts.trans TaskAttempt.Evolves.trans h'.attempts
  timers := h.timers.trans Timer.Evolves.trans h'.timers
  signals := h.signals.trans Signal.Evolves.trans h'.signals
  outbox := h.outbox.trans OutboxMessage.Evolves.trans h'.outbox
  handled := h.handled.trans Eq.trans h'.handled

section Writes

variable {v : Db}

/-- Definitions are only ever added. -/
theorem Db.Evolves.putDefinition {d : WorkflowDefinition} (h : v.definitions.get? d.id = none) :
    v.Evolves (v.apply (.definition d)) :=
  { Db.Evolves.refl v with
    definitions := .put (fun _ => rfl) (fun d' hd' => by rw [h] at hd'; cases hd') }

/-- A run's row is replaced by a later state of it, or is new. -/
theorem Db.Evolves.putRun {q : WorkflowRun} (h : ∀ r, v.runs.get? q.id = some r → r.Evolves q) :
    v.Evolves (v.apply (.run q)) :=
  { Db.Evolves.refl v with runs := .put WorkflowRun.Evolves.refl h }

/-- A step's row is replaced by a later state of it. -/
theorem Db.Evolves.putStep {s t : Step} (hs : v.steps.get? t.id = some s) (h : s.Evolves t) :
    v.Evolves (v.apply (.step t)) :=
  { Db.Evolves.refl v with
    steps := .put Step.Evolves.refl (fun s' hs' => Option.some.inj (hs.symm.trans hs') ▸ h)
    newSteps := by
      intro t' ht'
      rcases Table.mem_put.mp ht' with rfl | ⟨ht', -⟩
      · exact Or.inl ⟨s, Table.mem_of_get? hs, h⟩
      · exact Or.inl ⟨t', ht', .refl t'⟩ }

/-- An attempt's row is replaced by a later state of it, or is new. -/
theorem Db.Evolves.putAttempt {b : TaskAttempt}
    (h : ∀ a, v.attempts.get? b.id = some a → a.Evolves b) : v.Evolves (v.apply (.attempt b)) :=
  { Db.Evolves.refl v with attempts := .put TaskAttempt.Evolves.refl h }

/-- A timer's row is replaced by a later state of it, or is new. -/
theorem Db.Evolves.putTimer {u : Timer} (h : ∀ t, v.timers.get? u.id = some t → t.Evolves u) :
    v.Evolves (v.apply (.timer u)) :=
  { Db.Evolves.refl v with timers := .put Timer.Evolves.refl h }

/-- A signal's row is replaced by a later state of it, or is new. -/
theorem Db.Evolves.putSignal {u : Signal} (h : ∀ s, v.signals.get? u.id = some s → s.Evolves u) :
    v.Evolves (v.apply (.signal u)) :=
  { Db.Evolves.refl v with signals := .put Signal.Evolves.refl h }

/-- A message's row is replaced by a later state of it, or is new. -/
theorem Db.Evolves.putOutbox {n : OutboxMessage}
    (h : ∀ m, v.outbox.get? n.id = some m → m.Evolves n) : v.Evolves (v.apply (.outbox n)) :=
  { Db.Evolves.refl v with outbox := .put OutboxMessage.Evolves.refl h }

/-- History is only appended to, whatever the event. -/
theorem Db.Evolves.putHistory {e : HistoryEvent} : v.Evolves (v.apply (.history e)) :=
  { Db.Evolves.refl v with }

/-- The auxiliary table has no part in it. -/
theorem Db.Evolves.putHandled {id : UUID} : v.Evolves (v.apply (.handled id)) :=
  { Db.Evolves.refl v with
    handled := .put (fun _ => rfl) (fun _ h => (Table.key_of_get? h)) }

/-- The bookkeeping of an event. -/
theorem Db.Evolves.putEvent {r : WorkflowRun} (hr : v.runs.get? r.id = some r)
    (eventType : EventType) (payload : Option Json) (now : Time) :
    v.Evolves (backend.applyAll v (historyWrites r eventType payload now)) := by
  refine Db.Evolves.trans (Db.Evolves.putRun ?_) Db.Evolves.putHistory
  intro r' hr'
  obtain rfl := Option.some.inj (hr.symm.trans hr')
  exact ⟨rfl, rfl, rfl, rfl, Nat.le_succ _, fun _ => ⟨rfl, rfl, rfl⟩⟩

end Writes

/-- A step that has not ended may change its status. -/
theorem Step.Evolves.transition {s : Step} (h : stepTerminal s.status = false)
    (next : StepStatus) (output : Option RawMessage) (errMsg : Option String) (bump : Bool)
    (now : Time) : s.Evolves (s.transition next output errMsg bump now) :=
  ⟨rfl, Nat.le_add_right _ _, fun hs => by rw [h] at hs; cases hs⟩

/-- A run that has not ended may change its status. -/
theorem WorkflowRun.Evolves.transition {r : WorkflowRun} (h : runTerminal r.status = false)
    (next : RunStatus) (output : Option RawMessage) (errMsg : Option String) (now : Time) :
    r.Evolves (r.transition next output errMsg now) :=
  ⟨rfl, rfl, rfl, rfl, le_rfl, fun hr => by rw [h] at hr; cases hr⟩

/-- The attempts table and the notes about expiries are all that an end of an
attempt writes. -/
theorem Closes.frame {v : Db} {a : TaskAttempt} {success : Bool} {result : Option RawMessage}
    {ws : List Write} (h : Closes v a success result ws) :
    (backend.applyAll v ws).steps = v.steps ∧ (backend.applyAll v ws).runs = v.runs ∧
      (backend.applyAll v ws).timers = v.timers := by
  cases h <;> exact ⟨rfl, rfl, rfl⟩

/-- Closing an attempt leaves no event of its own. -/
theorem Closes.history {v : Db} {a : TaskAttempt} {success : Bool} {result : Option RawMessage}
    {ws : List Write} (h : Closes v a success result ws) :
    (backend.applyAll v ws).history = v.history := by
  cases h <;> rfl

/-- Closing an attempt moves its row forward. -/
theorem Closes.evolves {v : Db} {a : TaskAttempt} {success : Bool} {result : Option RawMessage}
    {ws : List Write} (h : Closes v a success result ws) :
    v.Evolves (backend.applyAll v ws) := by
  cases h with
  | report ha hleased =>
    refine Db.Evolves.putAttempt (fun b hb => ?_)
    obtain rfl := Option.some.inj (ha.symm.trans hb)
    exact ⟨rfl, rfl, rfl, rfl, rfl, fun h => by simp [TaskAttempt.isLive, hleased] at h,
      fun _ => ⟨by cases success <;> simp [TaskAttempt.complete], rfl⟩⟩
  | expiry _ _ _ => exact Db.Evolves.putHandled

/-- Writing step rows changes the steps table only. -/
theorem applyAll_steps (v : Db) (steps : List Step) :
    backend.applyAll v (steps.map .step) = { v with steps := steps.foldl Table.put v.steps } := by
  induction steps generalizing v with
  | nil => rfl
  | cons s steps ih => rw [List.map_cons, Backend.applyAll_cons, ih]; rfl

/-- The state with a new run and its steps. -/
def Db.withRun (v : Db) (r : WorkflowRun) (steps : List Step) : Db :=
  { v.apply (.run r) with steps := steps.foldl Table.put v.steps }

/-- The inserts of a new run, taken as one change of the database. -/
theorem applyAll_create (v : Db) (r : WorkflowRun) (steps : List Step) (ws : List Write) :
    backend.applyAll v (.run r :: (steps.map .step ++ ws)) =
      backend.applyAll (v.withRun r steps) ws := by
  rw [Backend.applyAll_cons, Backend.applyAll_append, applyAll_steps]
  rfl

/-- The creation of a run. -/
theorem Db.Evolves.withRun {v : Db} {r : WorkflowRun} {steps : List Step}
    (hr : v.runs.get? r.id = none) (hrun : ∀ t ∈ steps, t.workflowRunID = r.id)
    (hnew : ∀ t ∈ steps, v.steps.get? t.id = none) (hnodup : (steps.map (·.id)).Nodup) :
    v.Evolves (v.withRun r steps) := by
  have hmem : ∀ t, t ∈ steps.foldl Table.put v.steps ↔ t ∈ steps ∨ t ∈ v.steps :=
    fun t => Table.mem_foldl_put hnew hnodup
  exact
    { Db.Evolves.refl v with
      runs := .put WorkflowRun.Evolves.refl (fun q hq => by rw [hr] at hq; cases hq)
      steps := fun t ht => ⟨t, (hmem t).mpr (Or.inr ht), .refl t⟩
      newSteps := by
        intro t ht
        rcases (hmem t).mp ht with ht | ht
        · exact Or.inr (hrun t ht ▸ hr)
        · exact Or.inl ⟨t, ht, .refl t⟩ }

/-- A step's change of status with its event. -/
theorem Db.Evolves.stepEvent {v : Db} {s : Step} {runID : UUID} {r : WorkflowRun}
    (hs : v.steps.get? s.id = some s) (hlive : stepTerminal s.status = false)
    (hr : v.runs.get? runID = some r) {next : StepStatus} {output : Option RawMessage}
    {errMsg : Option String} {bump : Bool} {now now' : Time} {eventType : EventType}
    {payload : Option Json} :
    v.Evolves (backend.applyAll v (.step (s.transition next output errMsg bump now) ::
      historyWrites r eventType payload now')) := by
  refine (Db.Evolves.putStep (t := s.transition next output errMsg bump now) hs
    (.transition hlive ..)).trans ?_
  exact Db.Evolves.putEvent (v := v.apply (.step _)) (Table.get?_key hr) ..

/-- An end of an attempt that changes its step, with its event. -/
theorem Db.Evolves.closeEvent {v : Db} {a : TaskAttempt} {success : Bool}
    {result : Option RawMessage} {ws : List Write} (hclose : Closes v a success result ws)
    {t : Step}
    (ht : v.steps.get? a.stepID = some t) (hlive : stepTerminal t.status = false) {runID : UUID}
    {r : WorkflowRun} (hr : v.runs.get? runID = some r) {next : StepStatus}
    {output : Option RawMessage} {errMsg : Option String} {bump : Bool} {now now' : Time}
    {eventType : EventType} {payload : Option Json} :
    v.Evolves (backend.applyAll v (ws ++ .step (t.transition next output errMsg bump now) ::
      historyWrites r eventType payload now')) := by
  obtain ⟨hsteps, hruns, -⟩ := hclose.frame
  rw [Backend.applyAll_append]
  refine hclose.evolves.trans (Db.Evolves.stepEvent ?_ hlive (hruns ▸ hr))
  rw [hsteps]
  exact Table.get?_key ht

/-- A step in flight is not over. -/
theorem stepTerminal_of_inFlight {t : Step} (h : t.status = .queued ∨ t.status = .running) :
    stepTerminal t.status = false := by
  rcases h with h | h <;> rw [h] <;> rfl

/-- Every action leads to a later state. -/
theorem Act.evolves {l : Label} {v : Db} {u : List Write} (h : Act l v u) :
    v.Evolves (backend.applyAll v u) := by
  cases h with
  | define _ hnew _ => exact Db.Evolves.putDefinition hnew
  | create _ hr hsteps hnew hnodup =>
    rw [applyAll_create]
    refine (Db.Evolves.withRun hr (fun t ht => ?_) hnew hnodup).trans
      (.putEvent (Table.get?_put_self _ _) ..)
    obtain ⟨ns, -, stepID, now, rfl⟩ := forall₂_right hsteps t ht
    rfl
  | skip ht hst _ hr => exact Db.Evolves.stepEvent ht (by rw [hst]; rfl) hr
  | park ht hst _ _ =>
    exact Db.Evolves.putStep (t := Step.transition ..) ht (.transition (by rw [hst]; rfl) ..)
  | @resolve v t sig r now now' hsig hproc _ _ ht hst _ _ hr =>
    have hput : v.Evolves (v.apply (.signal { sig with processed := true })) := by
      refine Db.Evolves.putSignal (fun s hs => ?_)
      obtain rfl := Option.some.inj (hsig.symm.trans hs)
      exact ⟨rfl, rfl, rfl, rfl, fun _ => rfl⟩
    refine hput.trans (Db.Evolves.stepEvent (v := v.apply (.signal _)) ht ?_ hr)
    rcases hst with hst | hst <;> rw [hst] <;> rfl
  | burn hsig hproc =>
    refine Db.Evolves.putSignal (fun s hs => ?_)
    obtain rfl := Option.some.inj (hsig.symm.trans hs)
    exact ⟨rfl, rfl, rfl, rfl, fun _ => rfl⟩
  | @dispatch v t r id key messageID now now₁ now₂ now₃ ht hdisp hnew hslot hmsg hr =>
    have hlive : stepTerminal t.status = false := by
      rcases hdisp with ⟨hst, -, -⟩ | hst <;> rw [hst] <;> rfl
    have hattempt : v.Evolves (v.apply (.attempt (newAttempt id t.id t.workflowRunID
        (t.attemptCount + 1) key (queueName t.taskType) now))) := by
      refine Db.Evolves.putAttempt (fun a ha => ?_)
      rw [show v.attempts.get? id = some a from ha] at hnew
      cases hnew
    refine hattempt.trans ((Db.Evolves.putOutbox (v := v.apply (.attempt _)) ?_).trans
      (Db.Evolves.stepEvent (v := (v.apply (.attempt _)).apply (.outbox _)) ht hlive hr))
    intro m hm
    rw [show v.outbox.get? messageID = some m from hm] at hmsg
    cases hmsg
  | succeed hclose ht hst _ hr =>
    exact Db.Evolves.closeEvent hclose ht (stepTerminal_of_inFlight hst) hr
  | @retry v a t r result ws tm errMsg payload now now' hclose ht hst _ _ _ htm hr =>
    obtain ⟨hsteps, hruns, htimers⟩ := hclose.frame
    rw [Backend.applyAll_append]
    have hput : (backend.applyAll v ws).Evolves ((backend.applyAll v ws).apply (.timer tm)) := by
      refine Db.Evolves.putTimer (fun tm' htm' => ?_)
      rw [htimers, htm] at htm'
      cases htm'
    have ht' : ((backend.applyAll v ws).apply (.timer tm)).steps.get? t.id = some t :=
      hsteps ▸ Table.get?_key ht
    have hr' : ((backend.applyAll v ws).apply (.timer tm)).runs.get? a.workflowRunID = some r :=
      hruns ▸ hr
    exact hclose.evolves.trans
      (hput.trans (Db.Evolves.stepEvent ht' (stepTerminal_of_inFlight hst) hr'))
  | giveUp hclose ht hst _ hr =>
    exact Db.Evolves.closeEvent hclose ht (stepTerminal_of_inFlight hst) hr
  | @late v a t success result ws tms hclose ht _ htms =>
    rw [Backend.applyAll_append]
    refine hclose.evolves.trans ?_
    rcases htms with rfl | ⟨tm, rfl, -, -, htm⟩
    · exact Db.Evolves.refl _
    · refine Db.Evolves.putTimer (fun tm' htm' => ?_)
      rw [hclose.frame.2.2, htm] at htm'
      cases htm'
  | @start v r now now' hr hst =>
    refine (Db.Evolves.putRun (q := r.transition .running none none now) (fun q hq => ?_)).trans
      (Db.Evolves.putEvent (v := v.apply (.run _)) (Table.get?_put_self v.runs _) ..)
    obtain rfl := Option.some.inj (hr.symm.trans hq)
    exact .transition (by rw [hst]; rfl) ..
  | @finish v r next errMsg payload now now' hr hst _ _ =>
    refine (Db.Evolves.putRun (q := r.transition next _ errMsg now) (fun q hq => ?_)).trans
      (Db.Evolves.putEvent (v := v.apply (.run _)) (Table.get?_put_self v.runs _) ..)
    obtain rfl := Option.some.inj (hr.symm.trans hq)
    exact .transition hst ..
  | cancelStep ht hst => exact Db.Evolves.putStep (t := Step.transition ..) ht (.transition hst ..)
  | cancelRun hr hst =>
    refine Db.Evolves.putRun (fun q hq => ?_)
    obtain rfl := Option.some.inj (hr.symm.trans hq)
    exact .transition hst ..
  | cancelEvent hr _ => exact Db.Evolves.putEvent hr ..
  | signal hnew =>
    refine Db.Evolves.putSignal (fun s hs => ?_)
    rw [hnew] at hs
    cases hs
  | log hr => exact Db.Evolves.putEvent hr ..
  | claim ha hst =>
    refine Db.Evolves.putAttempt (fun b hb => ?_)
    obtain rfl := Option.some.inj (ha.symm.trans hb)
    exact ⟨rfl, rfl, rfl, rfl, rfl, fun h => by simp [TaskAttempt.isLive, hst] at h,
      fun h => absurd hst h⟩
  | heartbeat ha hst =>
    refine Db.Evolves.putAttempt (fun b hb => ?_)
    obtain rfl := Option.some.inj (ha.symm.trans hb)
    exact ⟨rfl, rfl, rfl, rfl, rfl, fun h => by simp [TaskAttempt.isLive, hst] at h,
      fun h => ⟨h, rfl⟩⟩
  | expire ha hst =>
    refine Db.Evolves.putAttempt (fun b hb => ?_)
    obtain rfl := Option.some.inj (ha.symm.trans hb)
    exact ⟨rfl, rfl, rfl, rfl, rfl, fun h => by simp [TaskAttempt.isLive, hst] at h,
      fun _ => ⟨by simp [TaskAttempt.expire], rfl⟩⟩
  | running ht hst =>
    exact Db.Evolves.putStep (t := Step.transition ..) ht (.transition (by rw [hst]; rfl) ..)
  | fireTimer htm hst =>
    refine Db.Evolves.putTimer (fun t ht => ?_)
    obtain rfl := Option.some.inj (htm.symm.trans ht)
    exact ⟨rfl, rfl, rfl, rfl, fun h => absurd hst h⟩
  | cancelTimer htm hst =>
    refine Db.Evolves.putTimer (fun t ht => ?_)
    obtain rfl := Option.some.inj (htm.symm.trans ht)
    exact ⟨rfl, rfl, rfl, rfl, fun h => absurd hst h⟩
  | publish hm =>
    refine Db.Evolves.putOutbox (fun m hm' => ?_)
    obtain rfl := Option.some.inj (hm.symm.trans hm')
    exact ⟨rfl, rfl, rfl, rfl⟩

end Orchestrator
