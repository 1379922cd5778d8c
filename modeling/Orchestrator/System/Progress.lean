import Mathlib.Algebra.GroupWithZero.Nat
import Mathlib.Algebra.Order.BigOperators.Group.List
import Mathlib.Order.Nat
import Orchestrator.System.Crash
import Orchestrator.System.Lifecycle
import Orchestrator.System.Outcomes
import Orchestrator.System.Timers

/-!
# Runs can be brought to their end

From every state that is reached without stranding a step, a run that goes on can be
brought to its end by workers that report success, by timers that are due, by outcomes that
are owed and by signals. Each round changes the status of a step of the run, and what is
left to its steps bounds the number of rounds.
-/

namespace Orchestrator

open Lib Program Actions

/-- What brings a run to its end without cancelling it. Timers fire when they are due, and a
signal is sent only if a step of the run waits for it. -/
def Drives (runID : UUID) (S : System) : Move → Prop
  | .reconcile id _ => id = runID
  | .report _ _ success _ _ _ => success = true
  | .fireTimer id ω => ∀ tm, S.db.timers.get? id = some tm → tm.fireAt ≤ (ω 0).now
  | .signal id name _ _ => id = runID ∧ name ≠ "__cancel__" ∧
      ∃ t ∈ S.db.steps, t.workflowRunID = runID ∧ t.status = .waiting ∧ t.wantName = name
  | .outcome .. | .claim .. | .claimNext .. => True
  | _ => False

namespace System

/-- One state comes from another by moves that meet a condition. -/
def Later (C : System → Move → Prop) : System → System → Prop :=
  Relation.ReflTransGen (fun S S' => ∃ m, C S m ∧ S.next m = some S')

/-- What is reached stays so. -/
theorem Reachable.later {C C' : System → Move → Prop} {S S' : System} (h : Reachable C S)
    (hlater : Later C' S S') (hC : ∀ S m, C' S m → C S m) : Reachable C S' := by
  induction hlater with
  | refl => exact h
  | tail _ hlast ih =>
    obtain ⟨m, hm, hnext⟩ := hlast
    exact ih.step (hC _ m hm) hnext

end System

/-- The status of a step of the run changes, and none is cancelled. -/
structure Forward (runID : UUID) (v v' : Db) : Prop where
  changed : ∃ t ∈ v.steps, t.workflowRunID = runID ∧ ∃ t' ∈ v'.steps, t'.id = t.id ∧
    t'.status ≠ t.status
  uncancelled : (∀ t ∈ v.steps, t.workflowRunID = runID → t.status ≠ .cancelled) →
    ∀ t ∈ v'.steps, t.workflowRunID = runID → t.status ≠ .cancelled

section Forward

variable {P : Signal → Prop} {runID : UUID} {v v₀ v' : Db}

/-- An evaluation cancels no step. -/
theorem Passes.uncancelled (h : Passes runID v v') (hb : Base v)
    (hnone : ∀ t ∈ v.steps, t.workflowRunID = runID → t.status ≠ .cancelled) :
    ∀ t ∈ v'.steps, t.workflowRunID = runID → t.status ≠ .cancelled := by
  intro t' ht' hrun hst
  obtain ⟨t, ht, hinfo, hch⟩ := h.step_back hb ht'
  rcases hch with rfl | ⟨-, h', -⟩ | ⟨-, h', -⟩ | ⟨-, h', -⟩ | ⟨-, h', -⟩
  · exact hnone t' ht hrun hst
  all_goals
    rw [hst] at h'
    cases h'

/-- An evaluation leaves alone what has happened to a step before. -/
theorem Evaluated.forward_of_put (heval : Evaluated runID v₀ v') (hb₀ : Base v₀) {x : Step}
    (hx : x ∈ v.steps) (hrun : x.workflowRunID = runID) {next : StepStatus}
    {output : Option RawMessage} {errMsg : Option String} {bump : Bool} {now : Time}
    (hsteps : v₀.steps = v.steps.put (x.transition next output errMsg bump now))
    (hne : next ≠ x.status) (hp : next ≠ .pending) (hw : next ≠ .waiting)
    (hc : next ≠ .cancelled) : Forward runID v v' := by
  refine ⟨⟨x, hx, hrun, ?_⟩, fun hnone => heval.path.uncancelled hb₀ (fun t ht hrun => ?_)⟩
  · have hmem : x.transition next output errMsg bump now ∈ v₀.steps := by
      rw [hsteps]
      exact Table.mem_put_self _ _
    obtain ⟨t', ht', hpass⟩ := heval.path.step hb₀ hmem
    obtain rfl := hpass.eq hp hw
    exact ⟨_, ht', rfl, hne⟩
  · rw [hsteps] at ht
    rcases Table.mem_put.mp ht with rfl | ⟨hold, -⟩
    · exact hc
    · exact hnone t hold hrun

/-- The step of an attempt that is closed belongs to its run. -/
theorem Closes.step_run {a : TaskAttempt} {success : Bool} {result : Option RawMessage}
    {ws : List Write} (h : Closes v a success result ws) (hb : Base v) {t : Step}
    (ht : v.steps.get? a.stepID = some t) : t.workflowRunID = a.workflowRunID := by
  cases h with
  | report ha => exact (hb.ledger.parent_of_get? (Table.mem_of_get? ha) ht).1.symm
  | expiry ha => exact (hb.ledger.parent_of_get? (Table.mem_of_get? ha) ht).1.symm

/-- What the outcome of an attempt does to its step. -/
theorem Act.outcome_steps {k : Kind} {u : List Write} (hb : Base v)
    (hk : k = .succeed ∨ k = .retry ∨ k = .giveUp) (hact : Act ⟨runID, k⟩ v u) :
    ∃ t ∈ v.steps, t.workflowRunID = runID ∧ (t.status = .queued ∨ t.status = .running) ∧
      ∃ next output errMsg bump now,
        (next = .completed ∨ next = .retryBackoff ∨ next = .failed) ∧
        (backend.applyAll v u).steps = v.steps.put (t.transition next output errMsg bump now) := by
  cases hact with
  | @succeed _ a t r result ws number now now' hclose ht hfly =>
    refine ⟨t, Table.mem_of_get? ht, hclose.step_run hb ht, hfly, .completed, result, none, false,
      now, .inl rfl, ?_⟩
    rw [Backend.applyAll_append]
    exact congrArg (Table.put · _) hclose.frame.1
  | @retry _ a t r result ws tm errMsg payload now now' hclose ht hfly =>
    refine ⟨t, Table.mem_of_get? ht, hclose.step_run hb ht, hfly, .retryBackoff, none, errMsg,
      false, now, .inr (.inl rfl), ?_⟩
    rw [Backend.applyAll_append]
    exact congrArg (Table.put · _) hclose.frame.1
  | @giveUp _ a t r result ws errMsg number now now' hclose ht hfly =>
    refine ⟨t, Table.mem_of_get? ht, hclose.step_run hb ht, hfly, .failed, none, errMsg, false,
      now, .inr (.inr rfl), ?_⟩
    rw [Backend.applyAll_append]
    exact congrArg (Table.put · _) hclose.frame.1
  | _ => simp at hk

/-- The outcome of an attempt whose step is in flight. -/
theorem Act.forward {k : Kind} {u : List Write} (hb : Base v)
    (hk : k = .succeed ∨ k = .retry ∨ k = .giveUp) (hact : Act ⟨runID, k⟩ v u)
    (heval : Evaluated runID (backend.applyAll v u) v') : Forward runID v v' := by
  obtain ⟨t, ht, hrun, hfly, next, output, errMsg, bump, now, hnext, hsteps⟩ :=
    hact.outcome_steps hb hk
  refine heval.forward_of_put (hact.base hb) ht hrun hsteps ?_ ?_ ?_ ?_
  · rcases hnext with rfl | rfl | rfl <;> rcases hfly with hst | hst <;> rw [hst] <;> decide
  all_goals rcases hnext with rfl | rfl | rfl <;> decide

/-- The outcome of an attempt whose step is in flight is applied. -/
theorem Applies.forward {a : TaskAttempt} {success : Bool} {ws : List Write}
    (h : Applies Evaluated v a success ws v') (hb : Base v) {t : Step}
    (ht : v.steps.get? a.stepID = some t) (hfly : t.status = .queued ∨ t.status = .running) :
    Forward a.workflowRunID v v' := by
  cases h with
  | change hk hact _ heval => exact Act.forward hb hk hact heval
  | late ht' hst =>
    obtain rfl := Option.some.inj (ht.symm.trans ht')
    rcases hfly with hfly | hfly <;> rw [hst] at hfly <;> cases hfly

/-- A signal that a parked step waits for completes a step of the run: that one, or another
that has taken the signal. -/
theorem Evaluated.completes (heval : Evaluated runID v v') (hb : Base v) {t : Step}
    (ht : t ∈ v.steps) (hrun : t.workflowRunID = runID) (hst : t.status = .waiting)
    {sig : Signal} (hsig : sig.Reaches v t) :
    ∃ x ∈ v.steps, x.workflowRunID = runID ∧ ∃ x' ∈ v'.steps, x'.id = x.id ∧
      x'.status ≠ x.status := by
  -- The signal is there unused until a step has been completed.
  have hboth := heval.path.induct hb (P := fun w => Passes runID v w ∧ (sig ∈ w.signals ∨
    ∃ x ∈ v.steps, x.workflowRunID = runID ∧ x.status ≠ .completed ∧
      ∃ x' ∈ w.steps, x'.id = x.id ∧ x'.status = .completed)) ⟨.refl v, Or.inl hsig.mem⟩ ?_
  · rcases hboth.2 with hunused | ⟨x, hx, hxrun, hne, x', hx', hid, hdone⟩
    · obtain ⟨t', ht', hpass⟩ := heval.path.step hb ht
      refine ⟨t, ht, hrun, t', ht', Step.id_of_info hpass.1, fun heq => ?_⟩
      have hreach : sig.Reaches v' t := ⟨hunused, hsig.run, hsig.name, hsig.unused⟩
      exact heval.heard t' ht' ((Step.run_of_info hpass.1).trans hrun) (heq.trans hst) sig
        (hreach.of_info hpass.1)
    · exact ⟨x, hx, hxrun, x', hx', hid, fun heq => hne (heq.symm.trans hdone)⟩
  · rintro w u hbw hpass ⟨hpath, ih⟩
    refine ⟨hpath.trans (.one hpass), ?_⟩
    have hkeep : (∃ x ∈ v.steps, x.workflowRunID = runID ∧ x.status ≠ .completed ∧
        ∃ x' ∈ w.steps, x'.id = x.id ∧ x'.status = .completed) →
        ∃ x ∈ v.steps, x.workflowRunID = runID ∧ x.status ≠ .completed ∧
          ∃ x' ∈ (backend.applyAll w u).steps, x'.id = x.id ∧ x'.status = .completed := by
      rintro ⟨x, hx, hxrun, hne, x', hx', hid, hdone⟩
      obtain ⟨x'', hx'', hpass'⟩ := (Passes.one hpass).step hbw hx'
      obtain rfl := hpass'.eq (by rw [hdone]; decide) (by rw [hdone]; decide)
      exact ⟨x, hx, hxrun, hne, x'', hx'', hid, hdone⟩
    cases hpass with
    | @hear y r now now' g hy hyrun hyst =>
      obtain ⟨x, hx, hxy⟩ := hpath.step_back hb (Table.mem_of_get? hy)
      refine Or.inr ⟨x, hx, (Step.run_of_info hxy.1).symm.trans hyrun, fun hdone => ?_,
        y.transition .completed (some g.payload) none false now, Table.mem_put_self _ _,
        Step.id_of_info hxy.1, rfl⟩
      obtain rfl := hxy.eq (by rw [hdone]; decide) (by rw [hdone]; decide)
      rw [hdone] at hyst
      rcases hyst with hyst | hyst <;> cases hyst
    | _ => exact ih.imp id hkeep

end Forward

/-- Moves that drive the run bring it forward. -/
def System.Advances (runID : UUID) (S : System) : Prop :=
  ∃ S', Later (Drives runID) S S' ∧ Forward runID S.db S'.db

section Rounds

theorem TaskAttempt.leasedTo_lease (a : TaskAttempt) (workerID : String) (leaseFor : ℕ)
    (now : Time) : (a.lease workerID leaseFor now).leasedTo workerID = true := by
  simp [TaskAttempt.leasedTo, TaskAttempt.lease]

variable {S : System} {r : WorkflowRun} {t : Step}

/-- A step that could be started is started. -/
theorem System.Ok.advances_pending (hok : S.Ok) (hr : r ∈ S.db.runs)
    (hlive : runTerminal r.status = false) (ht : t ∈ S.db.steps) (hrun : t.workflowRunID = r.id)
    (hst : t.status = .pending) (hdeps : DepsDone S.db.steps t) : S.Advances r.id := by
  have hb := hok.orderly.base
  obtain ⟨ω, hω, -⟩ := S.exists_draws (reconcile r.id) [] 0
  have heval := (hok.orderly.reconcile hr hlive hω).2
  refine ⟨_, .single ⟨.reconcile r.id ω, rfl, if_pos hω⟩, ⟨t, ht, hrun, ?_⟩,
    heval.path.uncancelled hb⟩
  obtain ⟨t', ht', hpass⟩ := heval.path.step hb ht
  refine ⟨t', ht', Step.id_of_info hpass.1, ?_⟩
  rw [hst]
  exact heval.starts hb ht hrun hdeps ht' (Step.id_of_info hpass.1)

/-- The worker that holds an attempt of a step in flight reports success. -/
theorem System.Ok.advances_leased (hok : S.Ok) {a : TaskAttempt} {workerID : String}
    (ha : a ∈ S.db.attempts) (hlease : a.leasedTo workerID = true)
    (ht : S.db.steps.get? a.stepID = some t) (hfly : t.status = .queued ∨ t.status = .running) :
    S.Advances a.workflowRunID := by
  have hb := hok.orderly.base
  obtain ⟨ω, hω, -⟩ := S.exists_draws (handleTaskResult a.id workerID true none none) [] 0
  rcases (handleTaskResult_accepts hb hok.orderly.upright (Table.mem_iff_get?.mp ha) hlease true
    RawMessage.isValid_of_none none).withTx hω with ⟨accepted, -, -, now, happ⟩ | ⟨e, -, hfalse⟩
  · exact ⟨_, .single ⟨.report a.id workerID true none none ω, rfl, if_pos hω⟩,
      happ.forward hb ht hfly⟩
  · exact hfalse.elim

/-- The outcome of an attempt that was reaped is handled. -/
theorem System.Ok.advances_owed (hok : S.Ok) {a : TaskAttempt} (ha : a ∈ S.owed)
    (ht : S.db.steps.get? a.stepID = some t) (hfly : t.status = .queued ∨ t.status = .running) :
    S.Advances a.workflowRunID := by
  have hb := hok.orderly.base
  obtain ⟨i, hlt, rfl⟩ := List.mem_iff_getElem.mp ha
  have hi : S.owed[i]? = some S.owed[i] := List.getElem?_eq_getElem hlt
  obtain ⟨hget, hexpired, hnot⟩ := hok.owed _ ha
  obtain ⟨ω, hω, -⟩ := S.exists_draws (handleExpiredAttempt S.owed[i]) [.handled S.owed[i].id] 0
  have hsolo : Solo (fun _ => False) (handleExpiredAttempt S.owed[i])
      (fun _ v' => Applies Evaluated S.db S.owed[i] false [.handled S.owed[i].id] v')
      (backend.applyAll S.db [.handled S.owed[i].id]) :=
    handleAttemptOutcome_solo hb (.expiry hget hexpired hnot)
      (hok.orderly.upright _) RawMessage.isValid_of_none rfl rfl _
  rcases hsolo.withTx hω with ⟨-, -, happ⟩ | ⟨e, -, hfalse⟩
  · have hnext : S.next (.outcome i ω) = some { S with
        db := ((handleExpiredAttempt S.owed[i]).withTx backend ω S.db [.handled S.owed[i].id]).2
        owed := S.owed.eraseIdx i } := by
      simp only [System.next, hi]
      exact if_pos hω
    exact ⟨_, .single ⟨.outcome i ω, trivial, hnext⟩, happ.forward hb ht hfly⟩
  · exact hfalse.elim

/-- The next statement of a call is executed. -/
theorem System.claimNext_call {i : ℕ} {c : ClaimCall} {β : Type} {op : Query β}
    {next : β → Prog ClaimStatus} {d : Draw} {answer : β} {ws : List Write}
    (hprog : c.prog = .call op next) (hadm : backend.admits op d S.db)
    (hexec : backend.exec op d S.db = .ok (answer, ws)) :
    ∃ S', S.claimNext i c d = some S' ∧ S'.db = backend.applyAll S.db ws := by
  simp only [System.claimNext, hprog, hexec]
  exact ⟨_, if_pos hadm, rfl⟩

/-- An attempt that is queued can be claimed. -/
theorem System.claims_queued (runID : UUID) {a : TaskAttempt} (ha : a ∈ S.db.attempts)
    (hqueued : a.status = .queued) : ∃ S', Later (Drives runID) S S' ∧
      S'.db = S.db.apply (.attempt (a.lease "worker" defaultLeaseDuration 0)) := by
  have hexec : backend.exec (.claimTaskAttempt a.id a.idempotencyKey "worker"
      defaultLeaseDuration) (.tick 0) S.db = .ok ((some (a.lease "worker" defaultLeaseDuration 0),
        .ok), [.attempt (a.lease "worker" defaultLeaseDuration 0)]) := by
    simp [Query.exec, Table.mem_iff_get?.mp ha, hqueued, Draw.tick]
  have hfirst : ∃ next, claimTask defaultLeaseDuration a.id a.idempotencyKey "worker" =
      .call (.claimTaskAttempt a.id a.idempotencyKey "worker" defaultLeaseDuration) next := by
    rw [claimTask, if_neg (by decide)]
    exact ⟨_, rfl⟩
  obtain ⟨next, hprog⟩ := hfirst
  obtain ⟨S', hnext, hdb⟩ := System.claimNext_call
    (S := S.arrive defaultLeaseDuration a.id a.idempotencyKey "worker") (i := S.claims.length)
    (c := ⟨defaultLeaseDuration, a.id, "worker", none, _⟩) hprog rfl hexec
  refine ⟨S', .tail (.single
    ⟨.claim defaultLeaseDuration a.id a.idempotencyKey "worker", trivial, rfl⟩)
    ⟨.claimNext S.claims.length (.tick 0), trivial, ?_⟩, hdb⟩
  have hlast : (S.arrive defaultLeaseDuration a.id a.idempotencyKey
      "worker").claims[S.claims.length]? = some ⟨defaultLeaseDuration, a.id, "worker", none,
        claimTask defaultLeaseDuration a.id a.idempotencyKey "worker"⟩ := by
    simp [System.arrive]
  simp only [System.next, hlast, Option.bind_some]
  exact hnext

/-- An attempt that is queued is claimed, and then reported. -/
theorem System.Reachable.advances_queued {C : System → Move → Prop} (h : Reachable C S)
    {a : TaskAttempt} (ha : a ∈ S.db.attempts) (hqueued : a.status = .queued)
    (ht : S.db.steps.get? a.stepID = some t) (hfly : t.status = .queued ∨ t.status = .running) :
    S.Advances a.workflowRunID := by
  obtain ⟨S₂, hlater, hdb⟩ := System.claims_queued a.workflowRunID ha hqueued
  have hany : System.Reachable System.Any S := h.mono (fun _ _ _ => trivial)
  have hok₂ : S₂.Ok := (hany.later hlater (fun _ _ _ => trivial)).ok
  have hmem : a.lease "worker" defaultLeaseDuration 0 ∈ S₂.db.attempts := by
    rw [hdb]
    exact Table.mem_put_self _ _
  have hlease := a.leasedTo_lease "worker" defaultLeaseDuration 0
  obtain ⟨S', hlater', hforward⟩ := hok₂.advances_leased (t := t) hmem hlease
    (by rw [hdb]; exact ht) hfly
  rw [hdb] at hforward
  exact ⟨S', hlater.trans hlater', hforward.changed, hforward.uncancelled⟩

/-- A timer fires when it is due, and its step is dispatched again. -/
theorem System.Reachable.advances_backoff {C : System → Move → Prop} (h : Reachable C S)
    (hr : r ∈ S.db.runs) (hlive : runTerminal r.status = false) (ht : t ∈ S.db.steps)
    (hrun : t.workflowRunID = r.id) (hst : t.status = .retryBackoff) : S.Advances r.id := by
  have hb := h.ok.orderly.base
  have hrget := Table.mem_iff_get?.mp hr
  have hgoes : ¬ HasEnded r.id S.db := by
    rintro ⟨r', hr', hend⟩
    rw [← Option.some.inj (hrget.symm.trans hr'), hlive] at hend
    cases hend
  obtain ⟨tm, ⟨htm, -, hstep, htmrun, htmst⟩, -⟩ :=
    (((h.armed r.id).resolve_left hgoes) t ht hrun).one hst
  obtain ⟨ω, hω, hdraws⟩ := S.exists_draws (handleFiredTimer tm.id) [] tm.fireAt
  have hsolo : Solo (fun _ => False) (handleFiredTimer tm.id)
      (fun _ v' => Fires Evaluated S.db tm.id v')
      S.db := handleFiredTimer_solo hb tm.id
  rcases Wp.withTx (w := []) hsolo hω with ⟨-, -, hfires⟩ | ⟨e, -, hfalse⟩
  swap
  · exact hfalse.elim
  have hget := Table.mem_iff_get?.mp htm
  refine ⟨{ S with db := ((handleFiredTimer tm.id).withTx backend ω S.db []).2 },
    .single ⟨.fireTimer tm.id ω, fun tm' htm' => ?_, if_pos hω⟩, ?_⟩
  · rw [← Option.some.inj (hget.symm.trans htm')]
    exact (hdraws 0).1
  · cases hfires with
    | unarmed hnone => exact absurd htmst (hnone tm hget)
    | @idle tm₁ x r₁ now htm₁ _ hstep₁ hx hr₁ hidle =>
      obtain rfl := Option.some.inj (hget.symm.trans htm₁)
      have hid : x.id = t.id := Option.some.inj (hstep₁.symm.trans hstep)
      obtain rfl := Table.eq_of_key_eq (Table.mem_of_get? hx) ht hid
      rw [htmrun, hrun, hrget] at hr₁
      obtain rfl := Option.some.inj hr₁
      rcases hidle with hne | hend
      · exact absurd hst hne
      · rw [hlive] at hend
        cases hend
    | @retry tm₁ x r₁ now now' u htm₁ _ hstep₁ hx _ hback _ hxrun hact hdis heval =>
      obtain rfl := Option.some.inj (hget.symm.trans htm₁)
      have hfire : Act ⟨tm.workflowRunID, .fireTimer⟩ S.db [.timer (tm.fire now)] :=
        .fireTimer hget htmst
      rw [htmrun, hrun] at heval hxrun
      exact heval.forward_of_put (hact.base (hfire.base hb)) (Table.mem_of_get? hx) hxrun
        hdis.steps (by rw [hback]; decide) (by decide) (by decide) (by decide)

/-- A signal arrives for a step that waits. -/
theorem System.Ok.advances_waiting (hok : S.Ok)
    (hr : r ∈ S.db.runs) (hlive : runTerminal r.status = false) (ht : t ∈ S.db.steps)
    (hrun : t.workflowRunID = r.id) (hst : t.status = .waiting)
    (hname : t.wantName ≠ "__cancel__") : S.Advances r.id := by
  have hb := hok.orderly.base
  obtain ⟨ω, hω, hdraws⟩ := S.exists_draws (applySignal r.id t.wantName none) [] S.clock
  have hget := Table.mem_iff_get?.mp hr
  rcases (applySignal_wp (E := fun _ => False) describes_evaluated hb hname hω (fun _ => trivial)
    (fun hnone => by cases hget.symm.trans hnone)
    (fun hinvalid => hinvalid RawMessage.isValid_of_none)).withTx with
    ⟨-, -, -, sig, r', payload, now, hnew, hvalid, hunused, hsigrun, hsname, -, hr', hcase⟩ |
      ⟨e, -, hfalse⟩
  · obtain rfl := Option.some.inj (hget.symm.trans hr')
    obtain ⟨-, heval⟩ := hcase.resolve_left (fun ⟨hend, _⟩ => by
      rw [hlive] at hend
      cases hend)
    have hlead : Lead (fun _ => True) r.id S.db (backend.applyAll S.db
        (.signal sig :: historyWrites r .signalReceived payload now)) :=
      .signal hnew hvalid hunused hsigrun trivial hget hlive
    have hb₀ := hlead.through.base hb
    have hnext : S.next (.signal r.id t.wantName none ω) = some { S with
        db := ((applySignal r.id t.wantName none).withTx backend ω S.db []).2
        clock := (ω 0).now } := by
      simp only [System.next, if_pos (hdraws 0).1]
      exact if_pos hω
    have hreach : sig.Reaches (backend.applyAll S.db (.signal sig ::
        historyWrites r .signalReceived payload now)) t :=
      ⟨Table.mem_put_self _ _, hsigrun.trans hrun.symm, hsname, hunused⟩
    have hdrives : Drives r.id S (.signal r.id t.wantName none ω) :=
      ⟨rfl, hname, t, ht, hrun, hst, rfl⟩
    refine ⟨_, .single ⟨.signal r.id t.wantName none ω, hdrives, hnext⟩, ?_, ?_⟩
    · exact heval.completes hb₀ ht hrun hst hreach
    · exact heval.path.uncancelled hb₀
  · exact hfalse.elim

/-- An attempt that is leased has an owner. -/
theorem System.Reachable.leased_to {C : System → Move → Prop} (h : Reachable C S) :
    ∀ a ∈ S.db.attempts, a.status = .leased → ∃ workerID, a.leasedTo workerID = true := by
  refine h.induct_db (I := fun v => ∀ a ∈ v.attempts, a.status = .leased →
    ∃ workerID, a.leasedTo workerID = true) (fun _ ha => by cases ha) ?_
  intro v l u hb hact ih
  have hput : ∀ {T : Table TaskAttempt.id} {x : TaskAttempt}, T = v.attempts →
      (x.status = .leased → ∃ workerID, x.leasedTo workerID = true) →
      ∀ a ∈ T.put x, a.status = .leased → ∃ workerID, a.leasedTo workerID = true := by
    rintro _ x rfl hx a ha hst
    rcases Table.mem_put.mp ha with rfl | ⟨ha, -⟩
    · exact hx hst
    · exact ih a ha hst
  have hclose : ∀ {a : TaskAttempt} {success : Bool} {result : Option RawMessage}
      {ws : List Write}, Closes v a success result ws → ∀ x ∈ (backend.applyAll v ws).attempts,
      x.status = .leased → ∃ workerID, x.leasedTo workerID = true := by
    intro a success result ws hclose
    cases hclose with
    | report => exact hput rfl (fun hst => by cases success <;> cases hst)
    | expiry => exact ih
  cases hact with
  | dispatch => exact hput rfl (fun hst => by cases hst)
  | claim => exact hput rfl (fun _ => ⟨_, TaskAttempt.leasedTo_lease ..⟩)
  | @heartbeat _ a expiry ha hleased =>
    exact hput rfl (fun _ => ih a (Table.mem_of_get? ha) hleased)
  | expire => exact hput rfl (fun hst => by cases hst)
  | succeed hc =>
    rw [Backend.applyAll_append]
    exact hclose hc
  | retry hc =>
    rw [Backend.applyAll_append]
    exact hclose hc
  | giveUp hc =>
    rw [Backend.applyAll_append]
    exact hclose hc
  | late hc _ _ htms =>
    rw [Backend.applyAll_append]
    rcases htms with rfl | ⟨tm, rfl, -⟩ <;> exact hclose hc
  | create =>
    rw [applyAll_create]
    exact ih
  | _ => exact ih

/-- The latest attempt of a step in flight can still produce an outcome. -/
theorem Base.open_attempt {v : Db} (hb : Base v) (ht : t ∈ v.steps)
    (hst : t.status = .queued ∨ t.status = .running) :
    ∃ a ∈ v.attempts, a.stepID = t.id ∧ Open v.handled a := by
  have hcount : 1 ≤ t.attemptCount := by
    have hcount := (hb.ledger.row t ht).count
    rcases hst with hst | hst <;> simpa only [Step.CountOK, hst] using hcount
  obtain ⟨a, ha, hid, hnum⟩ := (hb.ledger.numbers t ht t.attemptCount).mpr ⟨hcount, le_rfl⟩
  have hget : v.steps.get? a.stepID = some t := hid ▸ Table.mem_iff_get?.mp ht
  have hlast := (hb.ledger.parent_of_get? ha hget).2.2 hnum
  refine ⟨a, ha, hid, ?_⟩
  rcases hst with hst | hst <;> simpa only [LastOK, hst] using hlast

/-- A step in flight is brought forward by the outcome of its attempt. -/
theorem System.Reachable.advances_inFlight (h : Reachable (fun S m => ¬ Strands S m) S)
    (ht : t ∈ S.db.steps) (hst : t.status = .queued ∨ t.status = .running) :
    S.Advances t.workflowRunID := by
  have hb := h.ok.orderly.base
  have howes : S.Owes := h.induct (I := System.Owes) (fun _ ha => by cases ha)
    (fun _ _ _ _ hok hm hturn howes => howes.turn hok hturn hm)
  obtain ⟨a, ha, hid, hopen⟩ := hb.open_attempt ht hst
  have hget : S.db.steps.get? a.stepID = some t := hid ▸ Table.mem_iff_get?.mp ht
  rw [← (hb.ledger.parent_of_get? ha hget).1]
  rcases hopen with hqueued | hleased | ⟨hexpired, hnot⟩
  · exact h.advances_queued ha hqueued hget hst
  · obtain ⟨workerID, hlease⟩ := h.leased_to a ha hleased
    exact h.ok.advances_leased ha hlease hget hst
  · rcases howes a ha hexpired hnot with hmem | ⟨t', ht', hcancelled⟩
    · exact h.ok.advances_owed hmem hget hst
    · obtain rfl := Option.some.inj (hget.symm.trans ht')
      rcases hst with hst | hst <;> rw [hst] at hcancelled <;> cases hcancelled

/-- A run that goes on can be brought forward. -/
theorem System.Reachable.advances (h : Reachable (fun S m => ¬ Strands S m) S)
    (hr : r ∈ S.db.runs) (hlive : runTerminal r.status = false)
    (hnames : ∀ t ∈ S.db.steps, t.workflowRunID = r.id → t.taskType = signalWaitTaskType →
      t.wantName ≠ "__cancel__") : S.Advances r.id := by
  obtain ⟨t, ht, hrun, hway | ⟨hst, hdeps⟩⟩ := h.ok.orderly.goes_on hr hlive
  · cases hst : t.status with
    | queued => exact hrun ▸ h.advances_inFlight ht (Or.inl hst)
    | running => exact hrun ▸ h.advances_inFlight ht (Or.inr hst)
    | retryBackoff => exact h.advances_backoff hr hlive ht hrun hst
    | waiting =>
      have htype := (h.ok.orderly.base.ledger.row t ht).count
      simp only [Step.CountOK, hst] at htype
      exact h.ok.advances_waiting hr hlive ht hrun hst (hnames t ht hrun htype)
    | _ =>
      rw [hst] at hway
      cases hway
  · exact h.ok.advances_pending hr hlive ht hrun hst hdeps

end Rounds

section Rest

variable {S S' : System}

/-- Moves leave a step as it is, or they use up some of the changes that are left to it. -/
theorem System.Reachable.step_later {C : System → Move → Prop} (h : Reachable Any S)
    (hlater : Later C S S') {t : Step} (ht : t ∈ S.db.steps) :
    ∃ t' ∈ S'.db.steps, t'.info = t.info ∧ (t' = t ∨ t'.rest < t.rest) := by
  induction hlater with
  | refl => exact ⟨t, ht, rfl, Or.inl rfl⟩
  | @tail S₁ S₂ hfirst hlast ih =>
    obtain ⟨t₁, ht₁, hinfo, hch⟩ := ih
    obtain ⟨m, -, hnext⟩ := hlast
    have hok := (h.later hfirst (fun _ _ _ => trivial)).ok
    have hb := hok.orderly.base
    obtain ⟨t₂, ht₂, hch₂⟩ := (hok.shift (System.next_turn hok hnext)).step hb ht₁
    rcases hch₂ with rfl | hmoved
    · exact ⟨t₂, ht₂, hinfo, hch⟩
    · have hlt := hmoved.rest (hb.ledger.row t₁ ht₁)
      refine ⟨t₂, ht₂, hmoved.info.trans hinfo, Or.inr ?_⟩
      rcases hch with rfl | hch <;> omega

theorem System.Reachable.evolves_later {C : System → Move → Prop} (h : Reachable Any S)
    (hlater : Later C S S') : S.db.Evolves S'.db := by
  induction hlater with
  | refl => exact .refl _
  | tail hfirst hlast ih =>
    obtain ⟨m, -, hnext⟩ := hlast
    exact ih.trans (System.next_evolves (h.later hfirst (fun _ _ _ => trivial)).ok hnext)

/-- How often the statuses of steps can change from now on. -/
def System.rest (S : System) (ids : List UUID) : ℕ :=
  (ids.map (fun id => (S.restOf id 0).toNat)).sum

theorem System.restOf_of_mem {t : Step} (ht : t ∈ S.db.steps) (all : ℤ) :
    S.restOf t.id all = t.rest := by
  rw [System.restOf, Table.mem_iff_get?.mp ht]
  rfl

/-- Moves that change the status of one of the steps leave less to them. -/
theorem System.Reachable.rest_lt {C : System → Move → Prop} (h : Reachable Any S)
    (hlater : Later C S S') {ids : List UUID} (hids : ∀ id ∈ ids, ∃ t ∈ S.db.steps, t.id = id)
    {t t' : Step} (ht : t ∈ S.db.steps) (hid : t.id ∈ ids) (ht' : t' ∈ S'.db.steps)
    (hid' : t'.id = t.id) (hne : t'.status ≠ t.status) : S'.rest ids < S.rest ids := by
  refine List.sum_lt_sum _ _ (fun id hmem => ?_) ⟨t.id, hid, ?_⟩
  · obtain ⟨x, hx, rfl⟩ := hids id hmem
    obtain ⟨x', hx', hinfo, hch⟩ := h.step_later hlater hx
    rw [← Step.id_of_info hinfo, System.restOf_of_mem hx', Step.id_of_info hinfo,
      System.restOf_of_mem hx]
    rcases hch with rfl | hlt
    · exact le_rfl
    · exact Int.toNat_le_toNat hlt.le
  · obtain ⟨x', hx', hinfo, hch⟩ := h.step_later hlater ht
    obtain rfl := Table.eq_of_key_eq hx' ht' ((Step.id_of_info hinfo).trans hid'.symm)
    have hnonneg := ((h.later hlater (fun _ _ _ => trivial)).ok.orderly.base.ledger.row x'
      hx').rest_nonneg
    rw [← hid', System.restOf_of_mem hx', hid', System.restOf_of_mem ht]
    rcases hch with rfl | hlt
    · exact absurd rfl hne
    · omega

end Rest

/-- What drives a run strands no step. -/
theorem Drives.not_strands {runID : UUID} {S : System} {m : Move} (h : Drives runID S m) :
    ¬ Strands S m := by
  cases m with
  | lose => exact h.elim
  | _ => exact id

/-- From every state in which no step has been stranded, a run that goes on can be brought to
an end at which it has completed or failed: by workers that report success, by outcomes that
are owed, by timers that are due and by the signals that its steps wait for. -/
theorem run_can_finish {S : System} (h : System.Reachable (fun S m => ¬ Strands S m) S)
    {r : WorkflowRun} (hr : r ∈ S.db.runs) (hlive : runTerminal r.status = false)
    (hnames : ∀ t ∈ S.db.steps, t.workflowRunID = r.id → t.taskType = signalWaitTaskType →
      t.wantName ≠ "__cancel__") :
    ∃ S', System.Later (Drives r.id) S S' ∧
      ∃ r' ∈ S'.db.runs, r'.id = r.id ∧ (r'.status = .completed ∨ r'.status = .failed) := by
  -- The induction is on what is left to the steps of the run.
  suffices hgeneral : ∀ (ids : List UUID) (n : ℕ) (S : System) (r : WorkflowRun),
      System.Reachable (fun S m => ¬ Strands S m) S → r ∈ S.db.runs →
      runTerminal r.status = false → (∀ t ∈ S.db.steps, t.workflowRunID = r.id →
        t.taskType = signalWaitTaskType → t.wantName ≠ "__cancel__") →
      (∀ t ∈ S.db.steps, t.workflowRunID = r.id → t.id ∈ ids) →
      (∀ id ∈ ids, ∃ t ∈ S.db.steps, t.id = id) → S.rest ids = n →
      ∃ S', System.Later (Drives r.id) S S' ∧
        ∃ r' ∈ S'.db.runs, r'.id = r.id ∧ (r'.status = .completed ∨ r'.status = .failed) by
    refine hgeneral (S.db.steps.rows.map (·.id)) _ S r h hr hlive hnames
      (fun t ht _ => List.mem_map_of_mem ht) (fun id hid => ?_) rfl
    obtain ⟨t, ht, rfl⟩ := List.mem_map.mp hid
    exact ⟨t, ht, rfl⟩
  clear! S r
  intro ids n
  induction n using Nat.strong_induction_on with
  | _ n ih =>
    intro S r h hr hlive hnames hall hids hn
    have hany : System.Reachable System.Any S := h.mono (fun _ _ _ => trivial)
    obtain ⟨S₁, hlater, ⟨t, ht, hrun, t', ht', hid, hne⟩, huncancelled⟩ :=
      h.advances hr hlive hnames
    have h₁ := h.later hlater (fun _ _ hm => hm.not_strands)
    have hev := hany.evolves_later hlater
    obtain ⟨r₁, hr₁, hrev⟩ := hev.runs r hr
    -- The steps of the run are the same as before, but for their statuses.
    have hback : ∀ x' ∈ S₁.db.steps, x'.workflowRunID = r.id →
        ∃ x ∈ S.db.steps, x'.info = x.info := by
      intro x' hx' hxrun
      rcases hev.newSteps x' hx' with ⟨x, hx, hxev⟩ | hnone
      · exact ⟨x, hx, hxev.info⟩
      · rw [hxrun, Table.mem_iff_get?.mp hr] at hnone
        cases hnone
    cases hend : runTerminal r₁.status with
    | true =>
      refine ⟨S₁, hlater, r₁, hr₁, hrev.id, ?_⟩
      have hnot : r₁.status ≠ .cancelled := by
        intro hcancelled
        obtain ⟨x, hx, hxrun, hxst⟩ :=
          (h₁.ok.orderly.cancelled_iff (Table.mem_iff_get?.mp hr₁)).mp hcancelled
        refine huncancelled (fun y hy hyrun hyst => ?_) x hx (hxrun.trans hrev.id) hxst
        have hrun := (h.ok.orderly.cancelled_iff (Table.mem_iff_get?.mp hr)).mpr
          ⟨y, hy, hyrun, hyst⟩
        rw [hrun] at hlive
        cases hlive
      cases hst : r₁.status <;> simp_all [runTerminal]
    | false =>
      have hlt := hany.rest_lt hlater hids ht (hall t ht hrun) ht' hid hne
      have hnames₁ : ∀ x' ∈ S₁.db.steps, x'.workflowRunID = r₁.id →
          x'.taskType = signalWaitTaskType → x'.wantName ≠ "__cancel__" := by
        intro x' hx' hxrun htype
        obtain ⟨x, hx, hinfo⟩ := hback x' hx' (hxrun.trans hrev.id)
        rw [Step.want_of_info hinfo]
        exact hnames x hx ((Step.run_of_info hinfo).symm.trans (hxrun.trans hrev.id))
          ((Step.type_of_info hinfo).symm.trans htype)
      have hall₁ : ∀ x' ∈ S₁.db.steps, x'.workflowRunID = r₁.id → x'.id ∈ ids := by
        intro x' hx' hxrun
        obtain ⟨x, hx, hinfo⟩ := hback x' hx' (hxrun.trans hrev.id)
        rw [Step.id_of_info hinfo]
        exact hall x hx ((Step.run_of_info hinfo).symm.trans (hxrun.trans hrev.id))
      have hids₁ : ∀ id ∈ ids, ∃ x ∈ S₁.db.steps, x.id = id := by
        intro id hmem
        obtain ⟨x, hx, rfl⟩ := hids id hmem
        obtain ⟨x', hx', hxev⟩ := hev.steps x hx
        exact ⟨x', hx', Step.id_of_info hxev.info⟩
      obtain ⟨S', hlater', hfin⟩ :=
        ih (S₁.rest ids) (hn ▸ hlt) S₁ r₁ h₁ hr₁ hend hnames₁ hall₁ hids₁ rfl
      rw [hrev.id] at hlater' hfin
      exact ⟨S', hlater.trans hlater', hfin⟩

/-- The chain whose second step has been dispatched can be brought to its end. -/
theorem run_can_finish_chain :
    ∃ r ∈ chainSystem.db.runs, ∃ S', System.Later (Drives r.id) chainSystem S' ∧
      ∃ r' ∈ S'.db.runs, r'.id = r.id ∧ (r'.status = .completed ∨ r'.status = .failed) := by
  have hmoves : ∀ S, ∀ m ∈ chainMoves ++ [.report 209 "w" true none none (.ticks 400)],
      ¬ Strands S m := by
    intro S m hm hstrands
    cases m with
    | lose i => simp [chainMoves, Move.claims] at hm
    | _ => exact hstrands
  have hreach : System.Reachable (fun S m => ¬ Strands S m) chainSystem :=
    .run .init hmoves (Option.some_get _).symm
  have hlive : ∃ r ∈ chainSystem.db.runs.rows, runTerminal r.status = false := by decide +kernel
  have htypes : ∀ t ∈ chainSystem.db.steps.rows, t.taskType ≠ signalWaitTaskType := by
    decide +kernel
  obtain ⟨r, hr, hlive⟩ := hlive
  exact ⟨r, hr, run_can_finish hreach hr hlive (fun t ht _ htype => absurd htype (htypes t ht))⟩

end Orchestrator
