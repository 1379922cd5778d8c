import Orchestrator.Concurrent.Nodes
import Orchestrator.Memory.Store

/-!
# The compare-and-swap operations of the two stores

Nine operations change rows that exist. Postgres performs them as updates with
`COALESCE` and `CASE`, the memory store by assignments to fields. The two disagree on
an attempt that is leased and has a result, and there is none: the first result
ends an attempt. Wherever a sequence of such operations starts, the two stores
give the same answers and end with the same rows.
-/

namespace Orchestrator

open Lib Program

/-- The operations. -/
inductive Cas
  | updateWorkflowRunStatus (id : UUID) (expected : List RunStatus) (next : RunStatus)
      (output : Option RawMessage) (errMsg : Option String)
  | updateStepStatus (id : UUID) (expected : List StepStatus) (next : StepStatus)
      (output : Option RawMessage) (errMsg : Option String) (bumpAttempt : Bool)
  | claimTaskAttempt (attemptID idempotencyKey : UUID) (workerID : String) (leaseFor : ℕ)
  | heartbeatTaskAttempt (attemptID : UUID) (workerID : String) (leaseFor : ℕ)
  | completeTaskAttempt (attemptID : UUID) (workerID : String) (success : Bool)
      (result : Option RawMessage) (errMsg : Option String)
  | fireTimerCAS (timerID : UUID)
  | cancelTimersForRun (runID : UUID)
  | markSignalProcessed (id : UUID)
  | markOutboxPublished (id : ℕ)

namespace Cas

/-- What the operations return. -/
inductive Answer
  | applied (applied : Bool)
  | claim (attempt : Option TaskAttempt) (result : ClaimResult)
  /-- The new expiry of the lease, if the heartbeat was applied. -/
  | heartbeat (expiry : Option Time)
  | complete (attempt : Option TaskAttempt) (applied : Bool)
  /-- The timer, if it was fired. -/
  | fire (timer : Option Timer)
  | done

/-- The row that the operation is for exists. -/
def OnRow (v : Db) : Cas → Prop
  | .updateWorkflowRunStatus id .. => (v.runs.get? id).isSome
  | .updateStepStatus id .. => (v.steps.get? id).isSome
  | .claimTaskAttempt attemptID .. => (v.attempts.get? attemptID).isSome
  | .heartbeatTaskAttempt attemptID .. => (v.attempts.get? attemptID).isSome
  | .completeTaskAttempt attemptID .. => (v.attempts.get? attemptID).isSome
  | .fireTimerCAS timerID => (v.timers.get? timerID).isSome
  | .cancelTimersForRun runID => (v.runs.get? runID).isSome
  | .markSignalProcessed id => (v.signals.get? id).isSome
  | .markOutboxPublished id => (v.outbox.get? id).isSome

/-- The bytes given to the operation, if any. -/
def bytes : Cas → Option RawMessage
  | .updateWorkflowRunStatus _ _ _ output _ => output
  | .updateStepStatus _ _ _ output .. => output
  | .completeTaskAttempt _ _ _ result _ => result
  | _ => none

/-- A statement executed by itself on Postgres, with its answer rendered. -/
def statement {β : Type} (op : Query β) (render : β → Answer) (d : Draw) (v : Db) :
    Except Error (Answer × Db) :=
  (backend.exec op d v).map (fun r => (render r.1, backend.applyAll v r.2))

/-- The operation on Postgres. -/
def postgres (c : Cas) (d : Draw) (v : Db) : Except Error (Answer × Db) :=
  match c with
  | .updateWorkflowRunStatus id expected next output errMsg =>
    statement (.updateWorkflowRunStatus id expected next output errMsg) .applied d v
  | .updateStepStatus id expected next output errMsg bumpAttempt =>
    statement (.updateStepStatus id expected next output errMsg bumpAttempt) .applied d v
  | .claimTaskAttempt attemptID key workerID leaseFor =>
    statement (.claimTaskAttempt attemptID key workerID leaseFor) (fun r => .claim r.1 r.2) d v
  | .heartbeatTaskAttempt attemptID workerID leaseFor =>
    statement (.heartbeatTaskAttempt attemptID workerID leaseFor) .heartbeat d v
  | .completeTaskAttempt attemptID workerID success result errMsg =>
    statement (.completeTaskAttempt attemptID workerID success result errMsg)
      (fun r => .complete (some r.1) r.2) d v
  | .fireTimerCAS timerID => statement (.fireTimerCAS timerID) .fire d v
  | .cancelTimersForRun runID =>
    let r := (Orchestrator.cancelTimersForRun runID).withTx backend (fun _ => d) v []
    r.1.map (fun _ => (.done, r.2))
  | .markSignalProcessed id => statement (.markSignalProcessed id) .applied d v
  | .markOutboxPublished id => statement (.markOutboxPublished id) (fun _ => .done) d v

/-- An answer of the memory store rendered. -/
def render {β : Type} (render : β → Answer) (r : β × List Write) : Answer × List Write :=
  (render r.1, r.2)

/-- The operation on the memory store, and the rows that it assigns to. -/
def assigns (c : Cas) (d : Draw) (v : Db) : Answer × List Write :=
  match c with
  | .updateWorkflowRunStatus id expected next output errMsg =>
    render .applied (Memory.updateWorkflowRunStatus v id expected next output errMsg d.now)
  | .updateStepStatus id expected next output errMsg bumpAttempt =>
    render .applied (Memory.updateStepStatus v id expected next output errMsg bumpAttempt d.now)
  | .claimTaskAttempt attemptID key workerID leaseFor =>
    render (fun r => .claim r.1 r.2)
      (Memory.claimTaskAttempt v attemptID key workerID leaseFor d.now)
  | .heartbeatTaskAttempt attemptID workerID leaseFor =>
    render .heartbeat (Memory.heartbeatTaskAttempt v attemptID workerID leaseFor d.now)
  | .completeTaskAttempt attemptID workerID success result errMsg =>
    render (fun r => .complete r.1 r.2)
      (Memory.completeTaskAttempt v attemptID workerID success result errMsg d.now)
  | .fireTimerCAS timerID => render .fire (Memory.fireTimerCAS v timerID d.now)
  | .cancelTimersForRun runID => (.done, Memory.cancelTimersForRun v runID d)
  | .markSignalProcessed id => render .applied (Memory.markSignalProcessed v id)
  | .markOutboxPublished id => (.done, Memory.markOutboxPublished v id d.now)

/-- The operation on the memory store. -/
def memory (c : Cas) (d : Draw) (s : Memory.Store) : Answer × Memory.Store :=
  ((c.assigns d s.rows).1,
    Memory.backend.applyAll s ((c.assigns d s.rows).2.map .row))

/-- A sequence of operations on Postgres, with the draws they meet. -/
def postgresAll : List (Cas × Draw) → Db → Except Error (List Answer × Db)
  | [], v => .ok ([], v)
  | (c, d) :: rest, v => do
    let (answer, v) ← c.postgres d v
    let (answers, v) ← postgresAll rest v
    pure (answer :: answers, v)

/-- A sequence of operations on the memory store. -/
def memoryAll : List (Cas × Draw) → Memory.Store → List Answer × Memory.Store
  | [], s => ([], s)
  | (c, d) :: rest, s =>
    let (answer, s) := c.memory d s
    let (answers, s) := memoryAll rest s
    (answer :: answers, s)

end Cas

/-- No attempt that is queued or leased has a result. -/
def Unanswered (v : Db) : Prop :=
  ∀ a ∈ v.attempts, a.status = .queued ∨ a.status = .leased → a.result = none

/-- A write leaves attempts without results. -/
def Write.Unanswered : Write → Prop
  | .attempt a => a.status = .queued ∨ a.status = .leased → a.result = none
  | _ => True

theorem Unanswered.applyAll {v : Db} {ws : List Write} (h : Unanswered v)
    (hws : ∀ w ∈ ws, w.Unanswered) : Unanswered (backend.applyAll v ws) := by
  induction ws generalizing v with
  | nil => exact h
  | cons w ws ih =>
    obtain ⟨hw, hws⟩ := List.forall_mem_cons.mp hws
    refine ih ?_ hws
    cases w with
    | attempt a =>
      intro b hb
      rcases Table.mem_put.mp hb with rfl | ⟨hb, -⟩
      · exact hw
      · exact h b hb
    | _ => exact h

/-- What a closing write leaves. -/
theorem Closes.unanswered {v : Db} {a : TaskAttempt} {success : Bool} {result : Option RawMessage}
    {ws : List Write} (h : Closes v a success result ws) : ∀ w ∈ ws, w.Unanswered := by
  cases h with
  | report =>
    refine List.forall_mem_singleton.mpr (fun hst => ?_)
    cases success <;> rcases hst with hst | hst <;> cases hst
  | expiry => exact List.forall_mem_singleton.mpr trivial

/-- No action gives a result to an attempt that is queued or leased. -/
theorem Act.unanswered {v : Db} {l : Label} {u : List Write} (h : Act l v u)
    (hv : Unanswered v) : ∀ w ∈ u, w.Unanswered := by
  cases h with
  | claim ha hst =>
    have hnone := hv _ (Table.mem_of_get? ha) (Or.inl hst)
    exact List.forall_mem_singleton.mpr (fun _ => hnone)
  | heartbeat ha hst =>
    have hnone := hv _ (Table.mem_of_get? ha) (Or.inr hst)
    exact List.forall_mem_singleton.mpr (fun _ => hnone)
  | expire ha hst =>
    exact List.forall_mem_singleton.mpr (fun h => by rcases h with h | h <;> cases h)
  | create =>
    refine List.forall_mem_cons.mpr ⟨trivial, fun w hw => ?_⟩
    rcases List.mem_append.mp hw with hw | hw
    · obtain ⟨t, -, rfl⟩ := List.mem_map.mp hw
      trivial
    · rcases List.mem_cons.mp hw with rfl | hw
      · trivial
      · rw [List.mem_singleton.mp hw]
        trivial
  | dispatch => simp [Write.Unanswered, historyWrites, newAttempt]
  | succeed hclose | giveUp hclose | retry hclose =>
    refine List.forall_mem_append.mpr ⟨hclose.unanswered, ?_⟩
    simp [Write.Unanswered, historyWrites]
  | late hclose _ _ htms =>
    refine List.forall_mem_append.mpr ⟨hclose.unanswered, ?_⟩
    rcases htms with rfl | ⟨tm, rfl, -⟩
    · exact fun w hw => absurd hw List.not_mem_nil
    · exact List.forall_mem_singleton.mpr trivial
  | _ => simp [Write.Unanswered, historyWrites]

/-- Every state of the Postgres store is without such an attempt. -/
theorem Stored.unanswered {v : Db} (h : Stored v) : Unanswered v :=
  h.induct (fun a ha => absurd ha (Table.not_mem_empty a))
    (fun _ _ _ _ hact hv => hv.applyAll (hact.unanswered hv))

/-- No compare-and-swap operation of the memory store gives a result to an attempt that is
queued or leased. -/
theorem Cas.assigns_unanswered {v : Db} {d : Draw} (c : Cas) (hv : Unanswered v) :
    ∀ w ∈ (c.assigns d v).2, w.Unanswered := by
  cases c with
  | claimTaskAttempt attemptID key workerID leaseFor =>
    simp only [assigns, render, Memory.claimTaskAttempt]
    split
    · simp
    · rename_i a ha
      split_ifs with hst
      · simp
      · have hnone := hv a (Table.mem_of_get? ha) (Or.inl (not_not.mp (fun h => hst (Or.inl h))))
        exact List.forall_mem_singleton.mpr (fun _ => hnone)
  | heartbeatTaskAttempt attemptID workerID leaseFor =>
    simp only [assigns, render, Memory.heartbeatTaskAttempt]
    split
    · simp
    · rename_i a ha
      split_ifs with hst
      · simp
      · exact List.forall_mem_singleton.mpr (hv a (Table.mem_of_get? ha))
  | completeTaskAttempt attemptID workerID success result errMsg =>
    simp only [assigns, render, Memory.completeTaskAttempt]
    split
    · simp
    · split_ifs with hst
      · simp
      · refine List.forall_mem_singleton.mpr (fun hst => ?_)
        cases success <;> cases result <;> rcases hst with hst | hst <;> cases hst
  | cancelTimersForRun runID => exact List.forall_mem_map.mpr (fun _ _ => trivial)
  | updateWorkflowRunStatus | updateStepStatus | fireTimerCAS | markSignalProcessed
  | markOutboxPublished =>
    simp only [assigns, render, Memory.updateWorkflowRunStatus, Memory.updateStepStatus,
      Memory.markSignalProcessed, Memory.fireTimerCAS, Memory.markOutboxPublished]
    split <;> (try split) <;> simp [Write.Unanswered]

namespace Memory

/-- The states of a memory store that calls lead to, in a transaction or by themselves. -/
inductive Reached : Store → Prop
  | new : Reached .new
  | call {s : Store} {β : Type} {op : Query β} {d : Draw} {answer : β} {changes : List Change} :
      Reached s → exec op d s = .ok (answer, changes) → Reached (backend.applyAll s changes)

/-- What a call that only assigns to rows leaves. -/
theorem unanswered_of_assigns {s : Store} {β : Type} {r : β × List Write}
    (h : Unanswered s.rows) (hr : ∀ w ∈ r.2, w.Unanswered) :
    OnOk (assigns r) (fun r => Unanswered (backend.applyAll s r.2).rows) := by
  change Unanswered (backend.applyAll s (r.2.map .row)).rows
  rw [rows_applyAll]
  exact h.applyAll hr

/-- The attempts that are reaped have expired. -/
theorem status_reaped {v : Db} {limit : ℕ} {d : Draw} :
    ∀ a ∈ reapExpiredAttempts v limit d, a.status = .expired := by
  refine List.foldlRecOn (motive := fun out => ∀ a ∈ out, TaskAttempt.status a = .expired) _ _
    (fun a ha => absurd ha List.not_mem_nil) (fun out hout a _ => ?_)
  split_ifs
  · exact hout
  · exact List.forall_mem_append.mpr ⟨hout, List.forall_mem_singleton.mpr rfl⟩
  · exact hout

/-- No call gives a result to an attempt that is queued or leased. -/
theorem exec_unanswered {s : Store} {β : Type} (op : Query β) (d : Draw)
    (h : Unanswered s.rows) :
    OnOk (exec op d s) (fun r => Unanswered (backend.applyAll s r.2).rows) := by
  cases op with
  | createWorkflowDefinition name version dag =>
    simp only [exec]
    split_ifs
    · trivial
    · exact unanswered_of_assigns h (List.forall_mem_singleton.mpr trivial)
  | createWorkflowRun | createStep | insertTimer | insertSignal =>
    exact unanswered_of_assigns h (List.forall_mem_singleton.mpr trivial)
  | createTaskAttempt =>
    exact unanswered_of_assigns h (List.forall_mem_singleton.mpr (fun _ => rfl))
  | updateWorkflowRunStatus id expected next output errMsg =>
    exact unanswered_of_assigns h
      (Cas.assigns_unanswered (d := d) (.updateWorkflowRunStatus id expected next output errMsg) h)
  | updateStepStatus id expected next output errMsg bumpAttempt =>
    exact unanswered_of_assigns h (Cas.assigns_unanswered (d := d)
      (.updateStepStatus id expected next output errMsg bumpAttempt) h)
  | claimTaskAttempt attemptID key workerID leaseFor =>
    exact unanswered_of_assigns h
      (Cas.assigns_unanswered (d := d) (.claimTaskAttempt attemptID key workerID leaseFor) h)
  | heartbeatTaskAttempt attemptID workerID leaseFor =>
    exact unanswered_of_assigns h
      (Cas.assigns_unanswered (d := d) (.heartbeatTaskAttempt attemptID workerID leaseFor) h)
  | completeTaskAttempt attemptID workerID success result errMsg =>
    exact unanswered_of_assigns h (Cas.assigns_unanswered (d := d)
      (.completeTaskAttempt attemptID workerID success result errMsg) h)
  | fireTimerCAS timerID =>
    exact unanswered_of_assigns h (Cas.assigns_unanswered (d := d) (.fireTimerCAS timerID) h)
  | markSignalProcessed id =>
    exact unanswered_of_assigns h (Cas.assigns_unanswered (d := d) (.markSignalProcessed id) h)
  | markOutboxPublished id =>
    exact unanswered_of_assigns h (Cas.assigns_unanswered (d := d) (.markOutboxPublished id) h)
  | cancelTimer timerID =>
    simp only [exec]
    split
    · exact h
    · split_ifs
      · exact unanswered_of_assigns h (List.forall_mem_singleton.mpr trivial)
      · exact h
  | appendHistory runID eventType payload =>
    simp only [exec]
    split
    · exact h
    · exact unanswered_of_assigns h (by simp [Write.Unanswered, historyWrites])
  | reapExpiredAttempts limit =>
    refine unanswered_of_assigns h (List.forall_mem_map.mpr (fun a ha hst => ?_))
    rw [status_reaped a ha] at hst
    rcases hst with hst | hst <;> cases hst
  | insertOutboxMessage | mapOrder | newUUID | randFloat | timeNow | getWorkflowDefinition
  | getLatestWorkflowDefinition | getWorkflowRun | getSteps | getStep
  | fetchAndLockPendingOutbox | pendingTimersForRun | listUnprocessedSignals => exact h

/-- Every state of a memory store is without such an attempt. -/
theorem Reached.unanswered {s : Store} (h : Reached s) : Unanswered s.rows := by
  induction h with
  | new => exact fun a ha => absurd ha (Table.not_mem_empty a)
  | @call s β op d answer changes _ hexec ih =>
    have hcall := exec_unanswered op d ih
    rwa [hexec] at hcall

end Memory

namespace Cas

variable {v : Db} {d : Draw}

/-- The two stores perform the operation alike. -/
def Agree (c : Cas) (d : Draw) (v : Db) : Prop :=
  c.postgres d v = .ok ((c.assigns d v).1, backend.applyAll v (c.assigns d v).2)

/-- A statement that does what the memory store does. -/
theorem statement_eq {β : Type} {op : Query β} {f : β → Answer} {r : β × List Write}
    (h : op.exec d v = .ok r) :
    statement op f d v = .ok ((render f r).1, backend.applyAll v (render f r).2) := by
  rw [statement, backend_exec, h]
  rfl

theorem assignRun_eq (r : WorkflowRun) (next : RunStatus) (output : Option RawMessage)
    (errMsg : Option String) (now : Time) :
    Memory.assignRun r next output errMsg now = r.transition next output errMsg now := by
  cases output <;> cases errMsg <;> cases next <;> cases hst : r.startedAt <;>
    simp [Memory.assignRun, WorkflowRun.transition, coalesce, runTerminal, hst]

theorem assignStep_eq (st : Step) (next : StepStatus) (output : Option RawMessage)
    (errMsg : Option String) (bumpAttempt : Bool) (now : Time) :
    Memory.assignStep st next output errMsg bumpAttempt now =
      st.transition next output errMsg bumpAttempt now := by
  cases output <;> cases errMsg <;> cases bumpAttempt <;> cases next <;>
    cases hst : st.startedAt <;>
    simp [Memory.assignStep, Step.transition, coalesce, stepTerminal, hst]

theorem assignOutcome_eq {a : TaskAttempt} (h : a.result = none) (success : Bool)
    (result : Option RawMessage) (errMsg : Option String) (now : Time) :
    Memory.assignOutcome a success result errMsg now = a.complete success result errMsg now := by
  cases success <;> cases result <;> simp [Memory.assignOutcome, TaskAttempt.complete, h]

/-- The write that cancels a timer. -/
def cancelWrite (tm : Timer) : Write := .timer { tm with status := .cancelled }

/-- Timers found pending are cancelled one after the other. -/
theorem run_cancelTimers {found : List Timer} {w : List Write} (hnodup : (found.map (·.id)).Nodup)
    (hfound : ∀ tm ∈ found, (backend.applyAll v w).timers.get? tm.id = some tm ∧
      tm.status = .pending) {ω : ℕ → Draw} :
    ((found.map (·.id)).foldlM (fun _ id => (Query.cancelTimer id).issue) ()).run backend ω v w =
      (.ok (), w ++ found.map cancelWrite) := by
  induction found generalizing w ω with
  | nil => simp [Program.run]
  | cons tm found ih =>
    obtain ⟨⟨hget, hst⟩, hfound⟩ := List.forall_mem_cons.mp hfound
    rw [List.map_cons, List.nodup_cons] at hnodup
    have hexec : backend.exec (.cancelTimer tm.id) (ω 0) (backend.applyAll v w) =
        .ok ((), [cancelWrite tm]) := by
      simp only [backend_exec, Query.exec, hget, hst, if_true]
      rfl
    rw [List.map_cons, List.foldlM_cons]
    refine (run_call backend hexec).trans ((ih hnodup.2 (fun tm' htm' => ?_)).trans ?_)
    · obtain ⟨hget', hst'⟩ := hfound tm' htm'
      refine ⟨?_, hst'⟩
      rw [Backend.applyAll_append]
      have hne : Timer.id { tm with status := .cancelled } ≠ tm'.id :=
        fun heq => hnodup.1 (heq ▸ List.mem_map_of_mem htm')
      exact (Table.get?_put_of_ne hne).trans hget'
    · rw [List.append_assoc]
      rfl

/-- Timers may be cancelled in any order. -/
theorem applyAll_cancelWrite_perm {found found' : List Timer} (hperm : found.Perm found')
    (hnodup : (found.map (·.id)).Nodup) (v : Db) :
    backend.applyAll v (found.map cancelWrite) = backend.applyAll v (found'.map cancelWrite) := by
  refine (hperm.map cancelWrite).foldl_eq' (fun x hx y hy z => ?_) v
  obtain ⟨a, ha, rfl⟩ := List.mem_map.mp hx
  obtain ⟨b, hb, rfl⟩ := List.mem_map.mp hy
  by_cases hid : a.id = b.id
  · rw [List.inj_on_of_nodup_map hnodup ha hb hid]
  · exact Db.apply_comm z (cancelWrite a) (cancelWrite b) (by simpa [cancelWrite] using Ne.symm hid)

/-- Both stores cancel the timers of a run that are pending. -/
theorem agree_cancelTimersForRun (runID : UUID) : (Cas.cancelTimersForRun runID).Agree d v := by
  have hrows := (d.shuffle_perm (v.timers.rows.filter
    (fun tm => tm.workflowRunID = runID ∧ tm.status = .pending)))
  have hperm := hrows.trans ((d.shuffle_perm v.timers.rows).filter
    (fun tm => tm.workflowRunID = runID ∧ tm.status = .pending)).symm
  have hnodup := ((hrows.map (·.id)).nodup_iff).mpr
    (v.timers.nodup_keys.sublist (List.filter_sublist.map _))
  have hrun : (Orchestrator.cancelTimersForRun runID).run backend (fun _ => d) v [] =
      (.ok (), (d.shuffle (v.timers.rows.filter
        (fun tm => tm.workflowRunID = runID ∧ tm.status = .pending))).map cancelWrite) := by
    refine (run_call backend rfl).trans (run_cancelTimers (w := []) hnodup (fun tm htm => ?_))
    obtain ⟨hmem, hcond⟩ := List.mem_filter.mp (hrows.mem_iff.mp htm)
    exact ⟨Table.mem_iff_get?.mp hmem, (of_decide_eq_true hcond).2⟩
  simp only [Agree, postgres, Program.withTx, hrun]
  rw [applyAll_cancelWrite_perm hperm hnodup]
  rfl

/-- How the memory store tests that an attempt is leased to a worker. -/
theorem leasedTo_iff (a : TaskAttempt) (workerID : String) :
    a.leasedTo workerID = true ↔
      ¬ (a.status ≠ .leased ∨ a.leaseOwner = none ∨ a.leaseOwner ≠ some workerID) := by
  simp only [TaskAttempt.leasedTo, Bool.and_eq_true, beq_iff_eq, not_or, not_not]
  exact and_congr_right fun _ => ⟨fun h => ⟨by simp [h], h⟩, fun h => h.2⟩

/-- The two stores agree on every operation for a row that exists, where no attempt that
is leased has a result. -/
theorem agree {c : Cas} (hv : Unanswered v) (hrow : c.OnRow v)
    (hbytes : ∀ m, c.bytes = some m → m.IsValid) : c.Agree d v := by
  cases c with
  | updateWorkflowRunStatus id expected next output errMsg =>
    have hjson : jsonb output = .ok output := jsonb_of_valid hbytes
    obtain ⟨r, hr⟩ := Option.isSome_iff_exists.mp hrow
    refine statement_eq (r := Memory.updateWorkflowRunStatus ..) ?_
    simp only [Query.exec, hjson, Memory.updateWorkflowRunStatus, hr, assignRun_eq, ite_not]
    exact (apply_ite Except.ok _ _ _).symm
  | updateStepStatus id expected next output errMsg bumpAttempt =>
    have hjson : jsonb output = .ok output := jsonb_of_valid hbytes
    obtain ⟨st, hst⟩ := Option.isSome_iff_exists.mp hrow
    refine statement_eq (r := Memory.updateStepStatus ..) ?_
    simp only [Query.exec, hjson, Memory.updateStepStatus, hst, assignStep_eq, ite_not]
    exact (apply_ite Except.ok _ _ _).symm
  | claimTaskAttempt attemptID key workerID leaseFor =>
    obtain ⟨a, ha⟩ := Option.isSome_iff_exists.mp hrow
    refine statement_eq (f := fun r => .claim r.1 r.2) (r := Memory.claimTaskAttempt ..) ?_
    simp only [Query.exec, Memory.claimTaskAttempt, ha, ne_eq, ← not_and_or, ite_not]
    exact (apply_ite Except.ok _ _ _).symm
  | heartbeatTaskAttempt attemptID workerID leaseFor =>
    obtain ⟨a, ha⟩ := Option.isSome_iff_exists.mp hrow
    refine statement_eq (r := Memory.heartbeatTaskAttempt ..) ?_
    simp only [Query.exec, Memory.heartbeatTaskAttempt, ha, leasedTo_iff, ite_not]
    exact (apply_ite Except.ok _ _ _).symm
  | completeTaskAttempt attemptID workerID success result errMsg =>
    have hjson : jsonb result = .ok result := jsonb_of_valid hbytes
    obtain ⟨a, ha⟩ := Option.isSome_iff_exists.mp hrow
    simp only [Agree, postgres, statement, assigns, backend_exec, Query.exec, hjson,
      Memory.completeTaskAttempt, ha]
    by_cases hlease : a.leasedTo workerID = true
    · have hst : a.status = .leased := by
        simp only [TaskAttempt.leasedTo, Bool.and_eq_true, beq_iff_eq] at hlease
        exact hlease.1
      have hnone := hv a (Table.mem_of_get? ha) (Or.inr hst)
      rw [if_neg ((leasedTo_iff a workerID).mp hlease), assignOutcome_eq hnone]
      simp only [hlease, if_true]
      rfl
    · rw [if_pos (not_not.mp (fun h => hlease ((leasedTo_iff a workerID).mpr h)))]
      simp only [hlease]
      rfl
  | fireTimerCAS timerID =>
    obtain ⟨tm, htm⟩ := Option.isSome_iff_exists.mp hrow
    refine statement_eq (r := Memory.fireTimerCAS ..) ?_
    simp only [Query.exec, Memory.fireTimerCAS, htm, ne_eq, ite_not]
    exact (apply_ite Except.ok _ _ _).symm
  | cancelTimersForRun runID => exact agree_cancelTimersForRun runID
  | markSignalProcessed id =>
    obtain ⟨sig, hsig⟩ := Option.isSome_iff_exists.mp hrow
    refine statement_eq (r := Memory.markSignalProcessed ..) ?_
    simp only [Query.exec, Memory.markSignalProcessed, hsig]
    exact (apply_ite Except.ok _ _ _).symm
  | markOutboxPublished id =>
    obtain ⟨m, hm⟩ := Option.isSome_iff_exists.mp hrow
    refine statement_eq (f := fun _ => .done) (r := ((), Memory.markOutboxPublished ..)) ?_
    simp only [Query.exec, Memory.markOutboxPublished, hm]

/-- Rows that exist stay. -/
theorem OnRow.applyAll {c : Cas} (h : c.OnRow v) (ws : List Write) :
    c.OnRow (backend.applyAll v ws) := by
  induction ws generalizing v with
  | nil => exact h
  | cons w ws ih =>
    refine ih ?_
    cases c <;> cases w <;> first | exact h | exact Table.isSome_get?_put h

end Cas

/-- For every state that either store reaches and every sequence of compare-and-swap
operations on rows that exist, with bytes that are nil or a document, the two stores
give the same answers and end with the same rows. -/
theorem stores_agree {s : Memory.Store} (hreach : Stored s.rows ∨ Memory.Reached s)
    {cs : List (Cas × Draw)} (hrow : ∀ c ∈ cs, c.1.OnRow s.rows)
    (hbytes : ∀ c ∈ cs, ∀ m, c.1.bytes = some m → m.IsValid) :
    Cas.postgresAll cs s.rows = .ok ((Cas.memoryAll cs s).1, (Cas.memoryAll cs s).2.rows) := by
  have hv : Unanswered s.rows := hreach.elim Stored.unanswered Memory.Reached.unanswered
  clear hreach
  induction cs generalizing s with
  | nil => rfl
  | cons c cs ih =>
    obtain ⟨c, d⟩ := c
    obtain ⟨hrowc, hrow⟩ := List.forall_mem_cons.mp hrow
    obtain ⟨hbytesc, hbytes⟩ := List.forall_mem_cons.mp hbytes
    have hagree : c.postgres d s.rows = _ := Cas.agree hv hrowc hbytesc
    have hrows : (c.memory d s).2.rows = backend.applyAll s.rows (c.assigns d s.rows).2 := by
      rw [Cas.memory, Memory.rows_applyAll]
    have hrest := @ih (c.memory d s).2 (fun c' hc' => hrows ▸ (hrow c' hc').applyAll _) hbytes
      (hrows ▸ hv.applyAll (c.assigns_unanswered hv))
    rw [hrows] at hrest
    rw [Cas.postgresAll, hagree]
    change (Cas.postgresAll cs (backend.applyAll s.rows (c.assigns d s.rows).2) >>=
      fun r => pure ((c.assigns d s.rows).1 :: r.1, r.2)) = _
    rw [hrest]
    rfl

/-- A store with one attempt. -/
def oneAttempt : Memory.Store :=
  Memory.backend.applyAll .new [.row (.attempt (newAttempt 1 2 3 1 4 "wf:tasks:work" 0))]

/-- The attempt is claimed, twice, kept alive, and completed without a result. -/
def claimAndComplete : List (Cas × Draw) :=
  [(.claimTaskAttempt 1 4 "w1" 30, .tick 5), (.claimTaskAttempt 1 4 "w2" 30, .tick 6),
    (.heartbeatTaskAttempt 1 "w1" 30, .tick 7),
    (.completeTaskAttempt 1 "w1" true none none, .tick 8)]

/-- Both stores hold the lease of the first worker and its result. -/
theorem stores_agree_attempt :
    Cas.postgresAll claimAndComplete oneAttempt.rows =
      .ok ((Cas.memoryAll claimAndComplete oneAttempt).1,
        (Cas.memoryAll claimAndComplete oneAttempt).2.rows) ∧
    (Cas.memoryAll claimAndComplete oneAttempt).2.rows.attempts.rows.map (fun a =>
      (a.status, a.leaseOwner, a.leaseExpiresAt, a.completedAt)) =
      [(.succeeded, some "w1", some 37, some 8)] := by
  have hexec : Memory.exec (.createTaskAttempt 2 3 1 "wf:tasks:work") ⟨0, 0, 1, 4, fun _ => 1, 0⟩
      .new = .ok (newAttempt 1 2 3 1 4 "wf:tasks:work" 0,
        [.row (.attempt (newAttempt 1 2 3 1 4 "wf:tasks:work" 0))]) := rfl
  refine ⟨stores_agree (Or.inr (.call .new hexec)) ?_ ?_, by decide +kernel⟩
  · simp only [claimAndComplete, List.forall_mem_cons]
    exact ⟨rfl, rfl, rfl, rfl, fun _ h => absurd h List.not_mem_nil⟩
  · simp [claimAndComplete, Cas.bytes]

end Orchestrator
