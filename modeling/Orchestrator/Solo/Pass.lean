import Mathlib.Logic.Relation
import Orchestrator.Invariant.Tidy
import Orchestrator.Transactions.Cancel

/-!
# What an evaluation does when it is alone

An evaluation of a run that nobody disturbs is a sequence of the changes listed
here. They are the actions of an evaluation with what the interleaved case has to
leave open: a step that completes takes the earliest signal it waits for, a step is
parked only if there is none, steps are dispatched only for the first time, and
timers are cancelled only when the run has ended.
-/

namespace Orchestrator

open Lib Actions

/-- The signal is one that the step waits for, and it has not been used. -/
structure Signal.Reaches (sig : Signal) (v : Db) (t : Step) : Prop where
  mem : sig ∈ v.signals
  run : sig.workflowRunID = t.workflowRunID
  name : sig.signalName = t.wantName
  unused : sig.processed = false

/-- The statuses of steps that make a run count as running. -/
def StepStatus.inFlight (st : StepStatus) : Bool :=
  st ∈ [StepStatus.queued, .running, .retryBackoff, .waiting, .completed]

/-- What a dispatch of a step writes: the attempt, its message, the step and the
event. -/
abbrev dispatchWrites (t : Step) (r : WorkflowRun) (id key : UUID) (messageID : ℕ)
    (now now₁ now₂ now₃ : Time) : List Write :=
  .attempt (newAttempt id t.id t.workflowRunID (t.attemptCount + 1) key
      (queueName t.taskType) now) ::
    .outbox (newMessage messageID (taskMessage r t (newAttempt id t.id t.workflowRunID
      (t.attemptCount + 1) key (queueName t.taskType) now)) now₁) ::
    .step (t.transition .queued none none true now₂) ::
    historyWrites r .stepDispatched (some (dispatchedDocument t)) now₃

/-- One change that an evaluation of a run makes by itself. -/
inductive Pass (runID : UUID) (v : Db) : List Write → Prop
  | skip {t r now now'} : v.steps.get? t.id = some t → t.workflowRunID = runID →
      t.status = .pending → Blocked v.steps t →
      v.runs.get? runID = some r → runTerminal r.status = false →
      Pass runID v (.step (t.transition .skipped none none false now) ::
        historyWrites r .stepSkipped (some (skippedDocument t)) now')
  | hear {t r now now'} {sig : Signal} :
      v.steps.get? t.id = some t → t.workflowRunID = runID →
      t.status = .pending ∨ t.status = .waiting → t.taskType = signalWaitTaskType →
      DepsDone v.steps t → sig.Reaches v t →
      (∀ g : Signal, g.Reaches v t → sig.receivedAt ≤ g.receivedAt) →
      v.runs.get? runID = some r → runTerminal r.status = false →
      Pass runID v (.signal { sig with processed := true } ::
        .step (t.transition .completed (some sig.payload) none false now) ::
        historyWrites r .stepCompletedBySignal (some (signalledDocument t sig)) now')
  | park {t r now} : v.steps.get? t.id = some t → t.workflowRunID = runID →
      t.status = .pending → t.taskType = signalWaitTaskType → DepsDone v.steps t →
      (∀ g : Signal, ¬ g.Reaches v t) →
      v.runs.get? runID = some r → runTerminal r.status = false →
      Pass runID v [.step (t.transition .waiting none none false now)]
  | dispatch {t r id key messageID now now₁ now₂ now₃} :
      v.steps.get? t.id = some t → t.workflowRunID = runID → t.status = .pending →
      t.taskType ≠ signalWaitTaskType → DepsDone v.steps t →
      v.attempts.get? id = none → v.NoAttempt t.id (t.attemptCount + 1) →
      v.outbox.get? messageID = none →
      v.runs.get? runID = some r → runTerminal r.status = false →
      Pass runID v (dispatchWrites t r id key messageID now now₁ now₂ now₃)
  | start {r now now'} : v.runs.get? runID = some r → r.status = .pending →
      (∃ t ∈ v.steps, t.workflowRunID = runID ∧ t.status.inFlight = true) →
      Pass runID v (.run (r.transition .running none none now) ::
        historyWrites (r.transition .running none none now) .runStarted none now')
  | finish {r next errMsg payload now now'} : v.runs.get? runID = some r →
      runTerminal r.status = false → AllDone v.steps runID → Outcome v.steps runID next →
      Pass runID v
        (.run (r.transition next (marshalOutputs (completedOutputs v.steps runID)) errMsg now) ::
          historyWrites
            (r.transition next (marshalOutputs (completedOutputs v.steps runID)) errMsg now)
            (finishEvent next) payload now')
  | disarm {tm r} : v.timers.get? tm.id = some tm → tm.status = .pending →
      tm.workflowRunID = runID → v.runs.get? runID = some r → runTerminal r.status = true →
      Pass runID v [.timer { tm with status := .cancelled }]

/-- A sequence of such changes. -/
def Passes (runID : UUID) : Db → Db → Prop :=
  Relation.ReflTransGen (fun v v' => ∃ u, Pass runID v u ∧ v' = backend.applyAll v u)

/-- What such changes make of a step. -/
def Step.Passes (t t' : Step) : Prop :=
  t'.info = t.info ∧ (t' = t ∨
    (t.status = .pending ∧ t'.status = .skipped ∧ t'.attemptCount = t.attemptCount) ∨
    (t.status = .pending ∧ t'.status = .waiting ∧ t.taskType = signalWaitTaskType ∧
      t'.attemptCount = t.attemptCount) ∨
    (t.status = .pending ∧ t'.status = .queued ∧ t.taskType ≠ signalWaitTaskType ∧
      t'.attemptCount = t.attemptCount + 1) ∨
    ((t.status = .pending ∨ t.status = .waiting) ∧ t'.status = .completed ∧
      t.taskType = signalWaitTaskType ∧ t'.attemptCount = t.attemptCount))

theorem Step.Passes.refl (t : Step) : t.Passes t := ⟨rfl, Or.inl rfl⟩

theorem Step.Passes.trans {t t' t'' : Step} (h : t.Passes t') (h' : t'.Passes t'') :
    t.Passes t'' := by
  obtain ⟨hinfo, hch⟩ := h
  obtain ⟨hinfo', hch'⟩ := h'
  have htype := Step.type_of_info hinfo
  refine ⟨hinfo'.trans hinfo, ?_⟩
  rcases hch with rfl | ⟨hst, hst₁, hn⟩ | ⟨hst, hst₁, hty, hn⟩ | ⟨hst, hst₁, hty, hn⟩ |
    ⟨hst, hst₁, hty, hn⟩
  · exact hch'
  · rcases hch' with rfl | h | h | h | ⟨h, -⟩
    · exact Or.inr (Or.inl ⟨hst, hst₁, hn⟩)
    all_goals simp [hst₁] at h
  · rcases hch' with rfl | h | h | h | ⟨-, hst₂, -, hn₂⟩
    · exact Or.inr (Or.inr (Or.inl ⟨hst, hst₁, hty, hn⟩))
    · simp [hst₁] at h
    · simp [hst₁] at h
    · simp [hst₁] at h
    · exact Or.inr (Or.inr (Or.inr (Or.inr ⟨Or.inl hst, hst₂, hty, hn₂.trans hn⟩)))
  · rcases hch' with rfl | h | h | h | ⟨h, -⟩
    · exact Or.inr (Or.inr (Or.inr (Or.inl ⟨hst, hst₁, hty, hn⟩)))
    all_goals simp [hst₁] at h
  · rcases hch' with rfl | h | h | h | ⟨h, -⟩
    · exact Or.inr (Or.inr (Or.inr (Or.inr ⟨hst, hst₁, hty, hn⟩)))
    all_goals simp [hst₁] at h

/-- A step that is neither pending nor parked is left alone. -/
theorem Step.Passes.eq {t t' : Step} (h : t.Passes t') (hp : t.status ≠ .pending)
    (hw : t.status ≠ .waiting) : t' = t := by
  rcases h.2 with heq | ⟨hst, -⟩ | ⟨hst, -⟩ | ⟨hst, -⟩ | ⟨hst | hst, -⟩
  · exact heq
  · exact absurd hst hp
  · exact absurd hst hp
  · exact absurd hst hp
  · exact absurd hst hp
  · exact absurd hst hw

/-- A pending step has been pending. -/
theorem Step.Passes.pending {t t' : Step} (h : t.Passes t') (hst : t'.status = .pending) :
    t' = t := by
  rcases h.2 with heq | ⟨-, hst', -⟩ | ⟨-, hst', -⟩ | ⟨-, hst', -⟩ | ⟨-, hst', -⟩
  · exact heq
  all_goals
    rw [hst] at hst'
    cases hst'

namespace Pass

variable {runID : UUID} {v : Db} {u : List Write}

/-- Each change is an action of an evaluation. -/
theorem act (h : Pass runID v u) : ∃ k : Kind, k.ofReconcile = true ∧ Act ⟨runID, k⟩ v u := by
  cases h with
  | skip ht hrun hst hb hr =>
    subst hrun
    exact ⟨.skip, rfl, .skip ht hst hb hr⟩
  | hear ht hrun hst htype hdeps hsig _ hr =>
    subst hrun
    exact ⟨.resolve, rfl, .resolve (Table.mem_iff_get?.mp hsig.mem) hsig.unused hsig.run hsig.name
      ht hst htype hdeps hr⟩
  | park ht hrun hst htype hdeps =>
    subst hrun
    exact ⟨.park, rfl, .park ht hst htype hdeps⟩
  | dispatch ht hrun hst htype hdeps hnew hslot hmsg hr =>
    subst hrun
    exact ⟨.dispatch, rfl, .dispatch ht (Or.inl ⟨hst, htype, hdeps⟩) hnew hslot hmsg hr⟩
  | start hr hst =>
    obtain rfl := Table.key_of_get? hr
    exact ⟨.start, rfl, .start hr hst⟩
  | finish hr hlive hall hout =>
    obtain rfl := Table.key_of_get? hr
    exact ⟨.finish _, rfl, .finish hr hlive hall hout⟩
  | disarm htm hst hrun =>
    subst hrun
    exact ⟨.cancelTimer, rfl, .cancelTimer htm hst⟩

theorem evolves (h : Pass runID v u) : v.Evolves (backend.applyAll v u) :=
  h.act.elim (fun _ hk => hk.2.evolves)

theorem base (h : Pass runID v u) (hb : Base v) : Base (backend.applyAll v u) :=
  h.act.elim (fun _ hk => engine.inv hb hk.2)

/-- At most one step changes. -/
theorem steps_eq (h : Pass runID v u) : (backend.applyAll v u).steps = v.steps ∨
    ∃ t t', v.steps.get? t.id = some t ∧ t.workflowRunID = runID ∧ t.Passes t' ∧
      (backend.applyAll v u).steps = v.steps.put t' := by
  cases h with
  | skip ht hrun hst =>
    refine Or.inr ⟨_, _, ht, hrun, ?_, rfl⟩
    exact ⟨rfl, Or.inr (Or.inl ⟨hst, rfl, rfl⟩)⟩
  | hear ht hrun hst htype =>
    refine Or.inr ⟨_, _, ht, hrun, ?_, rfl⟩
    exact ⟨rfl, Or.inr (Or.inr (Or.inr (Or.inr ⟨hst, rfl, htype, rfl⟩)))⟩
  | park ht hrun hst htype =>
    refine Or.inr ⟨_, _, ht, hrun, ?_, rfl⟩
    exact ⟨rfl, Or.inr (Or.inr (Or.inl ⟨hst, rfl, htype, rfl⟩))⟩
  | dispatch ht hrun hst htype =>
    refine Or.inr ⟨_, _, ht, hrun, ?_, rfl⟩
    exact ⟨rfl, Or.inr (Or.inr (Or.inr (Or.inl ⟨hst, rfl, htype, rfl⟩)))⟩
  | start => exact Or.inl rfl
  | finish => exact Or.inl rfl
  | disarm => exact Or.inl rfl

/-- What becomes of a step. -/
theorem step (h : Pass runID v u) {t : Step} (ht : t ∈ v.steps) :
    ∃ t' ∈ (backend.applyAll v u).steps, t.Passes t' := by
  rcases h.steps_eq with heq | ⟨x, x', hx, -, hpass, heq⟩
  · exact ⟨t, heq ▸ ht, .refl t⟩
  · have hid : x'.id = x.id := Step.id_of_info hpass.1
    by_cases htx : t.id = x.id
    · obtain rfl := Table.eq_of_key_eq ht (Table.mem_of_get? hx) htx
      exact ⟨x', heq ▸ Table.mem_put_self v.steps x', hpass⟩
    · exact ⟨t, heq ▸ Table.mem_put.mpr (Or.inr ⟨ht, fun h => htx (h.trans hid)⟩), .refl t⟩

end Pass

namespace Passes

variable {runID : UUID} {v v' v'' : Db}

theorem refl (v : Db) : Passes runID v v := Relation.ReflTransGen.refl

theorem trans (h : Passes runID v v') (h' : Passes runID v' v'') : Passes runID v v'' :=
  Relation.ReflTransGen.trans h h'

theorem one {u : List Write} (h : Pass runID v u) : Passes runID v (backend.applyAll v u) :=
  Relation.ReflTransGen.single ⟨u, h, rfl⟩

/-- What every single change keeps is kept by a sequence of them. -/
theorem induct (h : Passes runID v v') (hb : Base v) {P : Db → Prop} (h0 : P v)
    (hstep : ∀ v u, Base v → Pass runID v u → P v → P (backend.applyAll v u)) : P v' := by
  have hboth : Base v' ∧ P v' := by
    induction h with
    | refl => exact ⟨hb, h0⟩
    | tail _ hu ih =>
      obtain ⟨u, hpass, rfl⟩ := hu
      exact ⟨hpass.base ih.1, hstep _ u ih.1 hpass ih.2⟩
  exact hboth.2

theorem base (h : Passes runID v v') (hb : Base v) : Base v' :=
  h.induct hb hb (fun _ _ hb hpass _ => hpass.base hb)

theorem evolves (h : Passes runID v v') (hb : Base v) : v.Evolves v' :=
  h.induct hb (.refl v) (fun _ _ _ hpass hev => hev.trans hpass.evolves)

/-- What becomes of a step. -/
theorem step (h : Passes runID v v') (hb : Base v) {t : Step} (ht : t ∈ v.steps) :
    ∃ t' ∈ v'.steps, t.Passes t' := by
  refine h.induct hb (P := fun w => ∃ t' ∈ w.steps, t.Passes t') ⟨t, ht, .refl t⟩ ?_
  rintro w u - hpass ⟨t', ht', hp⟩
  obtain ⟨t'', ht'', hp'⟩ := hpass.step ht'
  exact ⟨t'', ht'', hp.trans hp'⟩

/-- Every step has been there before. -/
theorem step_back (h : Passes runID v v') (hb : Base v) {t' : Step} (ht' : t' ∈ v'.steps) :
    ∃ t ∈ v.steps, t.Passes t' := by
  refine h.induct hb (P := fun w => ∀ t' ∈ w.steps, ∃ t ∈ v.steps, t.Passes t')
    (fun t ht => ⟨t, ht, .refl t⟩) (fun w u _ hpass ih x hx => ?_) t' ht'
  rcases hpass.steps_eq with heq | ⟨y, y', hy, -, hp, heq⟩
  · exact ih x (heq ▸ hx)
  · rw [heq] at hx
    rcases Table.mem_put.mp hx with rfl | ⟨hx, -⟩
    · obtain ⟨t, ht, hpt⟩ := ih y (Table.mem_of_get? hy)
      exact ⟨t, ht, hpt.trans hp⟩
    · exact ih x hx

/-- A step that is found under its key before and afterwards. -/
theorem step_get? (h : Passes runID v v') (hb : Base v) {id : UUID} {t t' : Step}
    (ht : v.steps.get? id = some t) (ht' : v'.steps.get? id = some t') : t.Passes t' := by
  obtain ⟨x, hx, hp⟩ := h.step hb (Table.mem_of_get? ht)
  have hid : x.id = t'.id := by
    rw [Step.id_of_info hp.1, Table.key_of_get? ht]
    exact (Table.key_of_get? ht').symm
  exact Table.eq_of_key_eq hx (Table.mem_of_get? ht') hid ▸ hp

end Passes

end Orchestrator
