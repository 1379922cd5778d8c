import Orchestrator.Concurrent.Nodes

/-!
# Signals are marked just before a step is completed

A program is punctual if every statement that marks a signal as processed is
followed at once by the update that completes a step. Only `tryResolveSignalWait`
marks signals, and all transactions of the engine are punctual.
-/

namespace Orchestrator

open Lib Actions Program

/-- The statement marks a signal as processed, and is answered that it has. -/
def Query.marks : {β : Type} → Query β → β → Bool
  | _, .markSignalProcessed _, applied => applied
  | _, _, _ => false

/-- The update by which a signal completes a step. -/
def Query.answers : {β : Type} → Query β → Bool
  | _, .updateStepStatus _ [_] .completed (some _) none false => true
  | _, _ => false

section Programs

variable {α β γ : Type}

/-- Whenever the program has marked a signal, its next statement is the update of
a step. At the start such an update may be due. -/
def Punctual : Prog α → Bool → Prop
  | .ret _, due => due = false
  | .fail _, _ => True
  | .call op next, due => (due = true → op.answers = true) ∧ ∀ a, Punctual (next a) (op.marks a)

/-- A sequence is punctual if its parts are, and the second starts with nothing due. -/
theorem Punctual.bind {p : Prog α} {f : α → Prog β} {due : Bool} (hp : Punctual p due)
    (hf : ∀ a, Punctual (f a) false) : Punctual (p >>= f) due := by
  induction p generalizing due with
  | ret a =>
    obtain rfl : due = false := hp
    exact hf a
  | fail e => trivial
  | call op next ih => exact ⟨hp.1, fun a => ih a (hp.2 a)⟩

/-- A statement that marks no signal. -/
theorem Punctual.issue {op : Query γ} (hop : ∀ a, op.marks a = false) :
    Punctual op.issue false :=
  ⟨(fun h => by cases h), hop⟩

/-- A loop is punctual if its rounds are. -/
theorem Punctual.foldlM {f : β → γ → Prog β} (hf : ∀ b c, Punctual (f b c) false) (b : β)
    (l : List γ) : Punctual (l.foldlM f b) false := by
  induction l generalizing b with
  | nil => rfl
  | cons c l ih => exact .bind (hf b c) ih

/-- Appending an event marks no signal. -/
theorem appendHistory_punctual (runID : UUID) (e : EventType) (payload : Option Json) :
    Punctual (appendHistory runID e payload) false := by
  refine .bind (.issue (fun _ => rfl)) (fun a => ?_)
  cases a with
  | none => trivial
  | some _ => rfl

/-- Cancelling timers marks no signal. -/
theorem cancelTimersForRun_punctual (runID : UUID) : Punctual (cancelTimersForRun runID) false :=
  .bind (.issue (fun _ => rfl)) (fun _ => .foldlM (fun _ _ => .issue (fun _ => rfl)) _ _)

/-- The skip cascade marks no signal. -/
theorem skipPasses_punctual (run : WorkflowRun) (passes : ℕ) (rs : RunState) :
    Punctual (skipPasses run passes rs) false := by
  induction passes generalizing rs with
  | zero => rfl
  | succ passes ih =>
    refine .bind (.issue (fun _ => rfl)) (fun names => .bind (.foldlM (fun acc name => ?_) _ _)
      (fun acc => ?_))
    · unfold skipStep
      split
      · rfl
      · split_ifs
        · refine .bind (.issue (fun _ => rfl)) (fun ok => ?_)
          split_ifs
          · exact .bind (appendHistory_punctual _ _ _) (fun _ => rfl)
          · rfl
        · rfl
    · obtain ⟨rs, changed⟩ := acc
      cases changed with
      | false => rfl
      | true => exact ih rs

/-- The one place where signals are marked. -/
theorem resolveSignalWait_punctual (run : WorkflowRun) (s : Step) (signals : List Signal) :
    Punctual (resolveSignalWait run s signals) false := by
  induction signals with
  | nil => rfl
  | cons sig signals ih =>
    unfold resolveSignalWait
    split_ifs
    · exact ih
    · refine ⟨(fun h => by cases h), fun applied => ?_⟩
      cases applied with
      | false => exact ih
      | true =>
        refine ⟨fun _ => rfl, fun ok => ?_⟩
        change Punctual (if ok then _ else _) false
        split_ifs
        · exact .bind (appendHistory_punctual _ _ _) (fun _ => rfl)
        · rfl

/-- Dispatching a step is punctual, by way of `tryResolveSignalWait`. -/
theorem dispatchStep_punctual (run : WorkflowRun) (s : Step) (expected : List StepStatus) :
    Punctual (dispatchStep run s expected) false := by
  refine .bind (.issue (fun _ => rfl)) (fun attempt => ?_)
  change Punctual (if _ then _ else _) false
  split_ifs
  · refine .bind (.issue (fun _ => rfl)) (fun _ => .bind (.issue (fun _ => rfl)) (fun ok => ?_))
    split_ifs
    · exact .bind (appendHistory_punctual _ _ _) (fun _ => rfl)
    · trivial
  · trivial

/-- So are both loops of `dispatchReady`. -/
theorem dispatchReady_punctual (run : WorkflowRun) (rs : RunState) :
    Punctual (dispatchReady run rs) false := by
  have htry : ∀ s, Punctual (tryResolveSignalWait run s) false := fun s =>
    .bind (.issue (fun _ => rfl)) (fun signals => resolveSignalWait_punctual run s signals)
  refine .bind (.issue (fun _ => rfl)) (fun names => .bind (.foldlM (fun rs name => ?_) _ _)
    (fun rs => .bind (.issue (fun _ => rfl)) (fun names => .foldlM (fun rs name => ?_) _ _)))
  · unfold resolveWaiting
    split
    · rfl
    · split_ifs
      · exact .bind (htry _) (fun _ => rfl)
      · rfl
  · unfold dispatchOne
    split
    · rfl
    · split_ifs
      · refine .bind (htry _) (fun answer => ?_)
        obtain ⟨resolved, s⟩ := answer
        cases resolved with
        | true => rfl
        | false =>
          refine .bind (.issue (fun _ => rfl)) (fun ok => ?_)
          split_ifs <;> rfl
      · exact .bind (dispatchStep_punctual _ _ _) (fun _ => rfl)
      · rfl

/-- Finishing a run marks no signal. -/
theorem checkRunCompletion_punctual (run : WorkflowRun) (rs : RunState) :
    Punctual (checkRunCompletion run rs) false := by
  have hfinish : ∀ next output errMsg e payload,
      Punctual (finishRun run next output errMsg e payload) false := by
    intro next output errMsg e payload
    refine .bind (.issue (fun _ => rfl)) (fun ok => ?_)
    split_ifs
    · exact .bind (.issue (fun _ => rfl)) (fun _ => rfl)
    · rfl
  refine .bind ?_ (fun _ => ?_)
  · unfold startRun
    split_ifs
    · refine .bind (.issue (fun _ => rfl)) (fun ok => ?_)
      split_ifs
      · exact appendHistory_punctual _ _ _
      · rfl
    · rfl
  · split_ifs
    · refine .bind (.issue (fun _ => rfl)) (fun names => ?_)
      dsimp only
      split
      · exact .bind (hfinish _ _ _ _ _) (fun _ => cancelTimersForRun_punctual _)
      · split_ifs
        · exact .bind (hfinish _ _ _ _ _) (fun _ => cancelTimersForRun_punctual _)
        · exact .bind (hfinish _ _ _ _ _) (fun _ => cancelTimersForRun_punctual _)
    · rfl

/-- The whole evaluation of a run is punctual. -/
theorem reconcileTx_punctual (run : WorkflowRun) (steps : List Step) :
    Punctual (reconcileTx run steps) false := by
  unfold reconcileTx
  split_ifs
  · rfl
  · exact .bind (skipPasses_punctual _ _ _) (fun _ => .bind (dispatchReady_punctual _ _)
      (fun _ => checkRunCompletion_punctual _ _))

/-- Looking at what was found asks nothing. -/
theorem orNotFound_punctual {o : Option α} : Punctual (orNotFound o) false := by
  cases o with
  | none => trivial
  | some a => rfl

/-- Reading a run marks no signal. -/
theorem getWorkflowRun_punctual (id : UUID) : Punctual (getWorkflowRun id) false :=
  .bind (.issue (fun _ => rfl)) (fun _ => orNotFound_punctual)

/-- Reading a step marks no signal. -/
theorem getStep_punctual (id : UUID) : Punctual (getStep id) false :=
  .bind (.issue (fun _ => rfl)) (fun _ => orNotFound_punctual)

/-- The steps are read again and reconciled. -/
theorem reload_punctual (run : WorkflowRun) (runID : UUID) :
    Punctual (do let steps ← (Query.getSteps runID).issue; reconcileTx run steps) false :=
  .bind (.issue (fun _ => rfl)) (fun _ => reconcileTx_punctual _ _)

/-- A new run is evaluated, and that is punctual. -/
theorem createRun_punctual (name : String) (version : ℤ) (input : Option RawMessage) :
    Punctual (createRun name version input) false := by
  have hsteps : ∀ runID steps, Punctual (createSteps runID steps) false := fun runID steps => by
    refine .foldlM (fun rows step => ?_) _ _
    exact .bind (.issue (fun _ => rfl)) (fun _ => rfl)
  refine .bind ?_ (fun d => .bind (.issue (fun _ => rfl)) (fun id =>
    .bind (.issue (fun _ => rfl)) (fun run => .bind (hsteps _ _) (fun steps =>
      .bind (appendHistory_punctual _ _ _) (fun _ => .bind (reconcileTx_punctual _ _)
        (fun _ => rfl))))))
  unfold lookupDefinition
  split_ifs
  · exact .bind (.issue (fun _ => rfl)) (fun _ => orNotFound_punctual)
  · exact .bind (.issue (fun _ => rfl)) (fun _ => orNotFound_punctual)

/-- The outcome of an attempt marks no signal. -/
theorem handleAttemptOutcome_punctual (attempt : TaskAttempt) (success : Bool)
    (output : Option RawMessage) (errMsg : Option String) :
    Punctual (handleAttemptOutcome attempt success output errMsg) false := by
  have hupdate : ∀ (run : WorkflowRun) {op : Query Bool} {e : EventType} {payload : Option Json},
      (∀ a, op.marks a = false) → Punctual (do
        let ok ← op.issue
        if ok then appendHistory run.id e payload else pure ()) false := by
    intro run op e payload hop
    refine .bind (.issue hop) (fun ok => ?_)
    split_ifs
    · exact appendHistory_punctual _ _ _
    · rfl
  refine .bind (getStep_punctual _) (fun step => .bind (getWorkflowRun_punctual _) (fun run => ?_))
  split_ifs
  · exact .bind (hupdate run (fun _ => rfl)) (fun _ => reload_punctual _ _)
  · exact .bind (.bind (.issue (fun _ => rfl)) (fun rand => .bind (.issue (fun _ => rfl))
      (fun now => .bind (.issue (fun _ => rfl)) (fun _ => hupdate run (fun _ => rfl)))))
      (fun _ => reload_punctual _ _)
  · exact .bind (hupdate run (fun _ => rfl)) (fun _ => reload_punctual _ _)

/-- A timer that fires dispatches a step, which is punctual. -/
theorem handleFiredTimer_punctual (timerID : UUID) :
    Punctual (handleFiredTimer timerID) false := by
  refine .bind (.issue (fun _ => rfl)) (fun answer => ?_)
  cases answer with
  | none => rfl
  | some timer =>
    cases hkind : timer.kind <;> simp only [hkind]
    · unfold handleRetryTimerFired
      split
      · rfl
      · refine .bind (getStep_punctual _) (fun step => .bind (getWorkflowRun_punctual _)
          (fun run => ?_))
        split_ifs
        · rfl
        · exact .bind (dispatchStep_punctual _ _ _) (fun _ => reload_punctual _ _)
    · exact .bind (getWorkflowRun_punctual _) (fun _ => reload_punctual _ _)
    · exact .bind (getWorkflowRun_punctual _) (fun _ => reload_punctual _ _)

/-- Cancelling a run marks no signal. -/
theorem cancelRun_punctual (runID : UUID) : Punctual (cancelRun runID) false := by
  refine .bind (getWorkflowRun_punctual _) (fun run => ?_)
  split_ifs
  · rfl
  · refine .bind (.issue (fun _ => rfl)) (fun steps => .bind (.foldlM (fun _ s => ?_) _ _)
      (fun _ => .bind (cancelTimersForRun_punctual _) (fun _ =>
        .bind (.issue (fun _ => rfl)) (fun _ => appendHistory_punctual _ _ _))))
    unfold cancelStep
    split_ifs
    · rfl
    · exact .bind (.issue (fun _ => rfl)) (fun _ => rfl)

/-- The program of every transaction is punctual. -/
theorem Call.session_punctual {c : Call} {v : Db} {σ : Session Query Error Write Call}
    (h : c.session v = some σ) (hauto : σ.auto = false) : Punctual σ.prog false := by
  cases c with
  | registerDefinition d =>
    obtain rfl := Option.some.inj h
    refine .bind ?_ (fun _ => rfl)
    unfold Orchestrator.registerDefinition
    split
    · trivial
    · split
      · trivial
      · exact .issue (fun _ => rfl)
  | createRun name version input =>
    obtain rfl := Option.some.inj h
    exact .bind (createRun_punctual _ _ _) (fun _ => rfl)
  | reconcile runID =>
    obtain rfl := Option.some.inj h
    exact .bind (getWorkflowRun_punctual _) (fun _ => reload_punctual _ _)
  | handleTaskResult attemptID workerID success output errMsg =>
    obtain rfl := Option.some.inj h
    refine .bind (.bind (.issue (fun _ => rfl)) (fun answer => ?_)) (fun _ => rfl)
    obtain ⟨attempt, applied⟩ := answer
    cases applied with
    | false => rfl
    | true => exact .bind (handleAttemptOutcome_punctual _ _ _ _) (fun _ => rfl)
  | handleFiredTimer timerID =>
    obtain rfl := Option.some.inj h
    exact handleFiredTimer_punctual timerID
  | handleExpiredAttempt attemptID =>
    simp only [Call.session] at h
    split at h
    · cases h
    · split_ifs at h
      obtain rfl := Option.some.inj h
      exact handleAttemptOutcome_punctual _ _ _ _
  | applySignal runID name payload =>
    obtain rfl := Option.some.inj h
    change Punctual (Orchestrator.applySignal runID name payload) false
    unfold Orchestrator.applySignal
    split_ifs
    · exact cancelRun_punctual runID
    · exact .bind (.issue (fun _ => rfl)) (fun _ => .bind (getWorkflowRun_punctual _) (fun _ =>
        .bind (appendHistory_punctual _ _ _) (fun _ => reload_punctual _ _)))
  | cancelRun runID =>
    obtain rfl := Option.some.inj h
    exact cancelRun_punctual runID
  | _ =>
    obtain rfl := Option.some.inj h
    cases hauto

end Programs

end Orchestrator
