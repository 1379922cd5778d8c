import Orchestrator.Isolation.Statements

/-!
# Programs about one run

Every function of the engine stays within the statements about its run: the steps it
is given are of the run, and so is all that it learns of.
-/

namespace Orchestrator

open Lib Program

section

variable {A : UUID} {K : Set Lock} {α β : Type} {run : WorkflowRun} {rs : RunState} {s : Step}

/-- The program concerns the run, and its answer satisfies `Q`. -/
abbrev About (A : UUID) (K : Set Lock) (p : Prog α) (Q : Set Lock → α → Prop) : Prop :=
  p.Within (runScope A) Q K

/-- Nothing is asked of the answer. -/
abbrev anything (_ : Set Lock) (_ : α) : Prop := True

/-- The steps of the local view are known to be of the run. -/
def Spans (K : Set Lock) (rs : RunState) : Prop := ∀ s ∈ rs, Lock.step s.id ∈ K

/-- What is known to be of the run stays known as more is learned. -/
theorem Spans.mono {K' : Set Lock} (h : Spans K rs) (hle : K ≤ K') : Spans K' rs :=
  fun s hs => hle (h s hs)

/-- Storing a known step keeps the view within the run. -/
theorem Spans.put (h : Spans K rs) (hs : .step s.id ∈ K) : Spans K (rs.put s) := by
  intro t ht
  rcases Table.mem_put.mp ht with rfl | ⟨ht, -⟩
  · exact hs
  · exact h t ht

/-- A view built from known steps is within the run. -/
theorem covers_newRunState {steps : List Step} (h : ∀ s ∈ steps, .step s.id ∈ K) :
    Spans K (newRunState steps) :=
  fun s hs => (Table.mem_of_mem_foldl_put hs).elim (h s) (fun h => absurd h (Table.not_mem_empty s))

/-- A statement whose answer shows nothing. -/
theorem about_issue {op : Query β} (hop : op.Concerns A K) : About A K op.issue anything :=
  .request hop (fun _ _ _ => trivial)

/-- A statement whose answer is not needed to show anything. -/
theorem about_call {op : Query β} {next : β → Prog α} {Q : Set Lock → α → Prop}
    (hop : op.Concerns A K) (h : ∀ K' a, K ≤ K' → About A K' (next a) Q) :
    About A K (op.issue >>= next) Q :=
  (about_issue hop).bind (fun K' a hle _ => h K' a hle)

/-- An event is appended to the history of its own run. -/
theorem appendHistory_about (eventType : EventType) (payload : Option Json) :
    About A K (appendHistory A eventType payload) anything := by
  refine about_call rfl (fun K' e _ => ?_)
  cases e <;> trivial

/-- A row that was found satisfies what every found row does. -/
theorem orNotFound_about {a : Option β} {Q : Set Lock → β → Prop} (h : ∀ b, a = some b → Q K b) :
    About A K (orNotFound a) Q := by
  cases a with
  | none => trivial
  | some b => exact h b rfl

/-- The run that is read is the run that was asked for. -/
theorem getWorkflowRun_about : About A K (getWorkflowRun A) (fun _ r => r.id = A) := by
  refine Within.bind (Q := fun _ r => ∀ x, r = some x → x.id = A) (.request rfl ?_)
    (fun K' r _ hr => orNotFound_about hr)
  rintro r K' ⟨hnames, -⟩ x rfl
  exact hnames _ (by simp [Query.names])

/-- A step read by a known id is a known step. -/
theorem getStep_about {id : UUID} (hid : .step id ∈ K) :
    About A K (getStep id) (fun K' s => .step s.id ∈ K') := by
  refine Within.bind (Q := fun K' s => ∀ x, s = some x → .step x.id ∈ K') (.request hid ?_)
    (fun K' s _ hs => orNotFound_about hs)
  rintro s K' ⟨-, rfl⟩ x rfl
  exact Or.inr (by simp [Query.shows])

/-- Listing the run's steps makes all of them known. -/
theorem getSteps_about :
    About A K (Query.getSteps A).issue (fun K' steps => ∀ s ∈ steps, .step s.id ∈ K') := by
  refine .request rfl ?_
  rintro steps K' ⟨-, rfl⟩ s hs
  exact Or.inr (by simpa [Query.shows] using ⟨s, hs, rfl⟩)

/-- The timers that are cancelled are the run's own. -/
theorem cancelTimersForRun_about : About A K (cancelTimersForRun A) anything := by
  refine Within.bind (Q := fun K' ids => ∀ id ∈ ids, .timer id ∈ K') (.request rfl ?_)
    (fun K' ids _ hids => .foldlM trivial
      (fun K'' _ id hle hid _ => about_issue (hle (hids id hid))))
  rintro ids K' ⟨-, rfl⟩ id hid
  exact Or.inr (by simpa [Query.shows] using hid)

/-- The order a map is walked in concerns no row. -/
theorem range_about : About A K rs.range anything := about_issue trivial

/-- A step is skipped within its run, and the view stays within it. -/
theorem skipStep_about (hrun : run.id = A) (hrs : Spans K rs) (changed : Bool) (name : String) :
    About A K (skipStep run (rs, changed) name) (fun K' acc => Spans K' acc.1) := by
  unfold skipStep
  split
  · exact hrs
  · rename_i s hs
    have hstep := hrs s (Table.mem_of_get? hs)
    split_ifs
    · refine about_call hstep (fun K₁ ok hle => ?_)
      split_ifs
      · rw [hrun]
        refine (appendHistory_about _ _).bind (fun K₂ _ hle' _ => ?_)
        exact (hrs.mono (hle.trans hle')).put (hle' (hle hstep))
      · exact hrs.mono hle
    · exact hrs

/-- The passes of the skip cascade stay within the run. -/
theorem skipPasses_about (hrun : run.id = A) (passes : ℕ) (hrs : Spans K rs) :
    About A K (skipPasses run passes rs) Spans := by
  induction passes generalizing K rs with
  | zero => exact hrs
  | succ passes ih =>
    refine range_about.bind (fun K₁ names hle _ => ?_)
    refine Within.bind (Q := fun K' acc => Spans K' acc.1) (.foldlM (hrs.mono hle) ?_) ?_
    · exact fun K₂ acc name _ _ hacc => skipStep_about hrun hacc acc.2 name
    · rintro K₂ ⟨rs', changed⟩ - hacc
      cases changed with
      | true => exact ih hacc
      | false => exact hacc

/-- A wait takes one of the signals read for its own run. -/
theorem resolveSignalWait_about (hrun : run.id = A) (hs : .step s.id ∈ K) {signals : List Signal}
    (hsigs : ∀ sig ∈ signals, .signal sig.id ∈ K) :
    About A K (resolveSignalWait run s signals) (fun K' r => .step r.2.id ∈ K') := by
  induction signals generalizing K with
  | nil => exact hs
  | cons sig signals ih =>
    have hrest : ∀ sig' ∈ signals, .signal sig'.id ∈ K :=
      fun sig' h => hsigs sig' (List.mem_cons_of_mem sig h)
    rw [resolveSignalWait]
    split_ifs with hname
    · exact ih hs hrest
    · refine about_call (hsigs sig List.mem_cons_self) (fun K₁ applied hle => ?_)
      split_ifs
      · refine about_call (hle hs) (fun K₂ ok hle' => ?_)
        split_ifs
        · rw [hrun]
          exact (appendHistory_about _ _).bind (fun K₃ _ hle'' _ => hle'' (hle' (hle hs)))
        · exact hle' (hle hs)
      · exact ih (hle hs) (fun sig' h => hle (hrest sig' h))

/-- The signals a wait looks at are those of its run. -/
theorem tryResolveSignalWait_about (hrun : run.id = A) (hs : .step s.id ∈ K) :
    About A K (tryResolveSignalWait run s) (fun K' r => .step r.2.id ∈ K') := by
  unfold tryResolveSignalWait
  rw [hrun]
  refine Within.bind (Q := fun K' signals => ∀ sig ∈ signals, .signal sig.id ∈ K')
    (.request rfl ?_) (fun K₁ signals hle hsigs => resolveSignalWait_about hrun (hle hs) hsigs)
  rintro signals K' ⟨-, rfl⟩ sig hsig
  exact Or.inr (by simpa [Query.shows] using ⟨sig, hsig, rfl⟩)

/-- Dispatching a step writes rows of its run only. -/
theorem dispatchStep_about (hrun : run.id = A) (hs : .step s.id ∈ K) (expected : List StepStatus) :
    About A K (dispatchStep run s expected) (fun K' s' => .step s'.id ∈ K') := by
  unfold dispatchStep
  refine about_call ⟨hs, hrun⟩ (fun K₁ attempt hle₁ => ?_)
  split_ifs
  · refine about_call hrun (fun K₂ _ hle₂ => ?_)
    refine about_call (hle₂ (hle₁ hs)) (fun K₃ ok hle₃ => ?_)
    split_ifs
    · rw [hrun]
      exact (appendHistory_about _ _).bind
        (fun K₄ _ hle₄ _ => hle₄ (hle₃ (hle₂ (hle₁ hs))))
    · trivial
  · trivial

/-- A waiting step of the view is resolved within the run. -/
theorem resolveWaiting_about (hrun : run.id = A) (hrs : Spans K rs) (name : String) :
    About A K (resolveWaiting run rs name) Spans := by
  unfold resolveWaiting
  split
  · exact hrs
  · rename_i s hs
    split_ifs
    · exact (tryResolveSignalWait_about hrun (hrs s (Table.mem_of_get? hs))).bind
        (fun K' r hle hr => (hrs.mono hle).put hr)
    · exact hrs

/-- One name of the dispatch loop is handled within the run. -/
theorem dispatchOne_about (hrun : run.id = A) (hrs : Spans K rs) (name : String) :
    About A K (dispatchOne run rs name) Spans := by
  unfold dispatchOne
  split
  · exact hrs
  · rename_i s hs
    have hstep := hrs s (Table.mem_of_get? hs)
    split_ifs
    · refine (tryResolveSignalWait_about hrun hstep).bind ?_
      rintro K₁ ⟨resolved, s'⟩ hle hr
      cases resolved with
      | true => exact (hrs.mono hle).put hr
      | false =>
        refine about_call hr (fun K₂ ok hle' => ?_)
        split_ifs
        · exact (hrs.mono (hle.trans hle')).put (hle' hr)
        · exact hrs.mono (hle.trans hle')
    · exact (dispatchStep_about hrun hstep _).bind (fun K₁ s' hle hs' => (hrs.mono hle).put hs')
    · exact hrs

/-- The whole dispatch loop stays within the run. -/
theorem dispatchReady_about (hrun : run.id = A) (hrs : Spans K rs) :
    About A K (dispatchReady run rs) Spans := by
  refine range_about.bind (fun K₁ names hle₁ _ => ?_)
  refine Within.bind (Q := Spans) (.foldlM (hrs.mono hle₁) ?_) (fun K₂ rs' _ hrs' => ?_)
  · exact fun K₂ rs' name _ _ hrs' => resolveWaiting_about hrun hrs' name
  · refine range_about.bind (fun K₃ names' hle₃ _ => .foldlM (hrs'.mono hle₃) ?_)
    exact fun K₄ rs'' name _ _ hrs'' => dispatchOne_about hrun hrs'' name

/-- A run is finished by writing its own row, timers and history. -/
theorem finishRun_about (hrun : run.id = A) (next : RunStatus) (output : Option RawMessage)
    (errMsg : Option String) (eventType : EventType) (payload : Option Json) :
    About A K (finishRun run next output errMsg eventType payload) anything := by
  refine about_call hrun (fun K₁ ok _ => ?_)
  split_ifs
  · exact about_call hrun (fun _ _ _ => trivial)
  · trivial

/-- Starting a run writes its own row and history. -/
theorem startRun_about (hrun : run.id = A) : About A K (startRun run rs) anything := by
  unfold startRun
  split_ifs
  · refine about_call hrun (fun K₁ ok _ => ?_)
    split_ifs
    · rw [hrun]
      exact appendHistory_about _ _
    · trivial
  · trivial

/-- Deciding whether the run is over reads only its own view. -/
theorem checkRunCompletion_about (hrun : run.id = A) :
    About A K (checkRunCompletion run rs) anything := by
  refine (startRun_about hrun).bind (fun K₁ _ _ _ => ?_)
  split_ifs
  swap
  · trivial
  · refine range_about.bind (fun K₂ names _ _ => ?_)
    have hcancel : ∀ K', About A K' (cancelTimersForRun run.id) anything :=
      fun K' => hrun ▸ cancelTimersForRun_about
    dsimp only
    split
    · exact (finishRun_about hrun ..).bind (fun K₃ _ _ _ => hcancel K₃)
    · split_ifs
      · exact (finishRun_about hrun ..).bind (fun K₃ _ _ _ => hcancel K₃)
      · exact (finishRun_about hrun ..).bind (fun K₃ _ _ _ => hcancel K₃)

/-- The evaluation of a run concerns that run. -/
theorem reconcileTx_about (hrun : run.id = A) {steps : List Step}
    (hsteps : ∀ s ∈ steps, .step s.id ∈ K) : About A K (reconcileTx run steps) anything := by
  unfold reconcileTx
  split_ifs
  · trivial
  · refine (skipPasses_about hrun _ (covers_newRunState hsteps)).bind (fun K₁ rs _ hrs => ?_)
    exact (dispatchReady_about hrun hrs).bind (fun K₂ rs' _ _ => checkRunCompletion_about hrun)

/-- The evaluation that entry points end with. -/
theorem evaluate_about (hrun : run.id = A) :
    About A K ((Query.getSteps A).issue >>= reconcileTx run) anything :=
  getSteps_about.bind (fun _ _ _ hsteps => reconcileTx_about hrun hsteps)

/-- The entry points that name the run. -/
theorem reconcile_about : About A K (reconcile A) anything :=
  getWorkflowRun_about.bind (fun _ _ _ hrun => evaluate_about hrun)

/-- Cancelling a run concerns its steps and timers and no other's. -/
theorem cancelRun_about : About A K (cancelRun A) anything := by
  refine getWorkflowRun_about.bind (fun K₁ run _ _ => ?_)
  split_ifs
  · trivial
  · refine getSteps_about.bind (fun K₂ steps _ hsteps => ?_)
    refine Within.bind (Q := anything) (.foldlM trivial (fun K₃ _ s hle hs _ => ?_))
      (fun K₃ _ _ _ => ?_)
    · unfold cancelStep
      split_ifs
      · trivial
      · exact about_call (hle (hsteps s hs)) (fun _ _ _ => trivial)
    · refine cancelTimersForRun_about.bind (fun K₄ _ _ _ => ?_)
      exact about_call rfl (fun K₅ _ _ => appendHistory_about _ _)

/-- A signal is stored for, and heard by, the run it names. -/
theorem applySignal_about (name : String) (payload : Option RawMessage) :
    About A K (applySignal A name payload) anything := by
  unfold applySignal
  split_ifs
  · exact cancelRun_about
  · refine about_call rfl (fun K₁ _ _ => ?_)
    refine getWorkflowRun_about.bind (fun K₂ run _ hrun => ?_)
    exact (appendHistory_about _ _).bind (fun K₃ _ _ _ => evaluate_about hrun)

/-- A completed attempt closes its own step. -/
theorem completeStep_about (hrun : run.id = A) (hs : .step s.id ∈ K) (attempt : TaskAttempt)
    (output : Option RawMessage) : About A K (completeStep run s attempt output) anything := by
  refine about_call hs (fun K₁ ok _ => ?_)
  split_ifs
  · exact hrun ▸ appendHistory_about _ _
  · trivial

/-- A final failure closes its own step. -/
theorem failStep_about (hrun : run.id = A) (hs : .step s.id ∈ K) (attempt : TaskAttempt)
    (errMsg : Option String) : About A K (failStep run s attempt errMsg) anything := by
  refine about_call hs (fun K₁ ok _ => ?_)
  split_ifs
  · exact hrun ▸ appendHistory_about _ _
  · trivial

/-- A retry rearms its own step with a timer of the same run. -/
theorem retryStep_about (hrun : run.id = A) (hs : .step s.id ∈ K) (attempt : TaskAttempt)
    (errMsg : Option String) : About A K (retryStep run s attempt errMsg) anything := by
  refine about_call trivial (fun K₁ rand hle₁ => ?_)
  refine about_call trivial (fun K₂ now hle₂ => ?_)
  refine about_call ⟨hrun, fun id hid => ?_⟩ (fun K₃ _ hle₃ => ?_)
  · obtain rfl := Option.some.inj hid
    exact hle₂ (hle₁ hs)
  · refine about_call (hle₃ (hle₂ (hle₁ hs))) (fun K₄ ok _ => ?_)
    split_ifs
    · exact hrun ▸ appendHistory_about _ _
    · trivial

/-- The outcome of an attempt is handled within the attempt's run. -/
theorem handleAttemptOutcome_about {attempt : TaskAttempt} (hrun : attempt.workflowRunID = A)
    (hs : .step attempt.stepID ∈ K) (success : Bool) (output : Option RawMessage)
    (errMsg : Option String) :
    About A K (handleAttemptOutcome attempt success output errMsg) anything := by
  unfold handleAttemptOutcome
  rw [hrun]
  refine (getStep_about hs).bind (fun K₁ step _ hstep => ?_)
  refine getWorkflowRun_about.bind (fun K₂ run hle hrun => ?_)
  have hstep' := hle hstep
  have hend : ∀ K', About A K' ((Query.getSteps run.id).issue >>= reconcileTx run) anything := by
    intro K'
    rw [hrun]
    exact evaluate_about hrun
  dsimp only
  split_ifs
  · exact (completeStep_about hrun hstep' ..).bind (fun K₃ _ _ _ => hend K₃)
  · exact (retryStep_about hrun hstep' ..).bind (fun K₃ _ _ _ => hend K₃)
  · exact (failStep_about hrun hstep' ..).bind (fun K₃ _ _ _ => hend K₃)

/-- The entry points that name an attempt or a timer of the run. -/
theorem handleTaskResult_about {attemptID : UUID} (ha : .attempt attemptID ∈ K) (workerID : String)
    (success : Bool) (output : Option RawMessage) (errMsg : Option String) :
    About A K (handleTaskResult attemptID workerID success output errMsg) anything := by
  refine Within.bind (Q := fun K' r => r.1.workflowRunID = A ∧ .step r.1.stepID ∈ K')
    (.request ha ?_) ?_
  · rintro r K' ⟨hnames, rfl⟩
    exact ⟨hnames _ (by simp [Query.names]), Or.inr (by simp [Query.shows])⟩
  · rintro K₁ ⟨attempt, applied⟩ - ⟨hrun, hstep⟩
    cases applied with
    | false => trivial
    | true =>
      exact (handleAttemptOutcome_about hrun hstep success output errMsg).bind
        (fun _ _ _ _ => trivial)

/-- A retry timer dispatches the step it was set for. -/
theorem handleRetryTimerFired_about {timer : Timer} (hrun : timer.workflowRunID = A)
    (hs : ∀ id, timer.stepID = some id → .step id ∈ K) :
    About A K (handleRetryTimerFired timer) anything := by
  unfold handleRetryTimerFired
  split
  · trivial
  · rename_i stepID hid
    rw [hrun]
    refine (getStep_about (hs stepID hid)).bind (fun K₁ step _ hstep => ?_)
    refine getWorkflowRun_about.bind (fun K₂ run hle hrun' => ?_)
    split_ifs
    · trivial
    · refine (dispatchStep_about hrun' (hle hstep) _).bind (fun K₃ _ _ _ => ?_)
      rw [hrun']
      exact evaluate_about hrun'

/-- Whatever its kind, a fired timer concerns its own run. -/
theorem handleFiredTimer_about {timerID : UUID} (ht : .timer timerID ∈ K) :
    About A K (handleFiredTimer timerID) anything := by
  refine Within.bind (Q := fun K' tm => ∀ timer, tm = some timer → timer.workflowRunID = A ∧
    ∀ id, timer.stepID = some id → .step id ∈ K') (.request ht ?_) (fun K₁ tm _ htm => ?_)
  · rintro tm K' ⟨hnames, rfl⟩ timer rfl
    refine ⟨hnames _ (by simp [Query.names]), fun id hid => Or.inr ?_⟩
    simp [Query.shows, hid]
  · cases tm with
    | none => trivial
    | some timer =>
      obtain ⟨hrun, hs⟩ := htm timer rfl
      have hother : About A K₁ (do
          let run ← getWorkflowRun timer.workflowRunID
          let steps ← (Query.getSteps run.id).issue
          reconcileTx run steps) anything := by
        rw [hrun]
        refine getWorkflowRun_about.bind (fun K₂ run _ hrun' => ?_)
        rw [hrun']
        exact evaluate_about hrun'
      dsimp only
      cases timer.kind with
      | retryBackoff => exact handleRetryTimerFired_about hrun hs
      | stepTimeout => exact hother
      | user => exact hother

/-- A claim leases the attempt it names and starts its step. -/
theorem claimTask_about {attemptID : UUID} (ha : .attempt attemptID ∈ K) (leaseDuration : ℕ)
    (key : UUID) (workerID : String) :
    About A K (claimTask leaseDuration attemptID key workerID) anything := by
  unfold claimTask
  split_ifs
  · trivial
  · refine Within.bind (Q := fun K' r => ∀ a, r.1 = some a → a.workflowRunID = A ∧
      .step a.stepID ∈ K') (.request ha ?_) ?_
    · rintro r K' ⟨hnames, rfl⟩ a hr
      exact ⟨hnames _ (by simp [Query.names, hr]), Or.inr (by simp [Query.shows, hr])⟩
    · rintro K₁ ⟨attempt, result⟩ - hr
      cases result with
      | notFound => trivial
      | alreadyClaimed => trivial
      | ok =>
        cases attempt with
        | none => trivial
        | some a =>
          obtain ⟨hrun, hstep⟩ := hr a rfl
          dsimp only
          rw [hrun]
          refine (getStep_about hstep).bind (fun K₂ step _ hs => ?_)
          refine getWorkflowRun_about.bind (fun K₃ run hle _ => ?_)
          split_ifs
          · trivial
          · exact about_call (hle hs) (fun _ _ _ => trivial)

/-- The rows of a run that is created. -/
theorem createSteps_about (steps : List NewStep) :
    About A K (createSteps A steps) (fun K' rows => ∀ s ∈ rows, .step s.id ∈ K') := by
  refine .foldlM (fun s hs => absurd hs List.not_mem_nil) (fun K₁ rows step _ _ hrows => ?_)
  refine Within.bind (Q := fun K' row => .step row.id ∈ K') (.request rfl ?_)
    (fun K₂ row hle hrow s hs => ?_)
  · rintro row K' ⟨-, rfl⟩
    exact Or.inr (by simp [Query.shows])
  · rcases List.mem_append.mp hs with hs | hs
    · exact hle (hrows s hs)
    · exact List.mem_singleton.mp hs ▸ hrow

end

end Orchestrator
