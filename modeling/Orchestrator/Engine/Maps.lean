import Orchestrator.Engine.Entry
import Orchestrator.Lib.Watch

/-!
# DAG evaluation with its maps

`reconcileTx` once more, with the maps of `runState`. Their entries are pointers to the
steps, so a transition is written to the store and then through the pointer. Every
statement carries the maps as they are when it is issued. Without them the programs are
those of `Engine.Reconcile`, where the local copies are passed on.
-/

namespace Orchestrator

open Lib Program

/-- `runState`: the maps with the pointers to the steps. -/
structure StepMaps where
  byName : RunState
  byID : Table Step.id

/-- `newRunState`. -/
def newStepMaps (steps : List Step) : StepMaps :=
  ⟨newRunState steps, steps.foldl Table.put .empty⟩

/-- An assignment through the pointer to a step. -/
def StepMaps.write (maps : StepMaps) (s : Step) : StepMaps := ⟨maps.byName.put s, maps.byID.put s⟩

/-- The run that is evaluated and its maps. Outside `reconcileTx` there are none. -/
abbrev Note := Option (UUID × StepMaps)

/-- An assignment through the pointer to a step, if the maps have it. -/
def Note.write (note : Note) (s : Step) : Note := Option.map (fun m => (m.1, m.2.write s)) note

/-- A statement with the maps as they are when it is issued. -/
structure Noted (β : Type) where
  query : Query β
  note : Note

/-- A program whose statements carry the maps. -/
abbrev NotedProg (α : Type) := Program Noted Error α

/-- A program that leaves the maps as they are. -/
def noting {α : Type} (note : Note) (p : Prog α) : NotedProg α := p.mapOp (fun q => ⟨q, note⟩)

/-- The program without the maps. -/
def plain {α : Type} (p : NotedProg α) : Prog α := p.mapOp Noted.query

namespace Noted

/-- The body of the loop of one pass of `propagateSkips`. -/
def skipStep (run : WorkflowRun) (acc : StepMaps × Bool) (name : String) :
    NotedProg (StepMaps × Bool) :=
  match acc.1.byName.get? name with
  | none => pure acc
  | some s =>
    if s.isFresh && acc.1.byName.blocked s then do
      let ok ← noting (some (run.id, acc.1))
        (Query.updateStepStatus s.id [s.status] .skipped none none false).issue
      if ok then do
        let maps := acc.1.write { s with status := .skipped }
        noting (some (run.id, maps))
          (appendHistory run.id .stepSkipped (some (.obj [("step", .str s.stepName)])))
        pure (maps, true)
      else pure acc
    else pure acc

/-- The passes of `propagateSkips`. -/
def skipPasses (run : WorkflowRun) : ℕ → StepMaps → NotedProg StepMaps
  | 0, maps => pure maps
  | passes + 1, maps => do
    let names ← noting (some (run.id, maps)) maps.byName.range
    let (maps, changed) ← names.foldlM (skipStep run) (maps, false)
    if changed then skipPasses run passes maps else pure maps

/-- `propagateSkips`. -/
def propagateSkips (run : WorkflowRun) (maps : StepMaps) : NotedProg StepMaps :=
  skipPasses run (maps.byName.rows.length + 1) maps

/-- The loop of `tryResolveSignalWait` over the unprocessed signals. -/
def resolveSignalWait (run : WorkflowRun) (maps : StepMaps) (s : Step) :
    List Signal → NotedProg (Bool × Step)
  | [] => pure (false, s)
  | sig :: signals =>
    if sig.signalName ≠ s.wantName then resolveSignalWait run maps s signals
    else do
      let applied ← noting (some (run.id, maps)) (Query.markSignalProcessed sig.id).issue
      if ¬ applied then resolveSignalWait run maps s signals
      else do
        let ok ← noting (some (run.id, maps))
          (Query.updateStepStatus s.id [s.status] .completed (some sig.payload) none false).issue
        if ok then do
          let done := { s with status := .completed, output := some sig.payload }
          noting (some (run.id, maps.write done)) (appendHistory run.id .stepCompletedBySignal
            (some (.obj [("signal", .str sig.signalName), ("step", .str s.stepName)])))
          pure (true, done)
        else pure (true, s)

/-- `tryResolveSignalWait`. -/
def tryResolveSignalWait (run : WorkflowRun) (maps : StepMaps) (s : Step) :
    NotedProg (Bool × Step) := do
  let signals ← noting (some (run.id, maps)) (Query.listUnprocessedSignals run.id).issue
  resolveSignalWait run maps s signals

/-- `dispatchStep`, for a step of the maps or for one that was read by itself. -/
def dispatchStep (run : WorkflowRun) (note : Note) (s : Step) (expected : List StepStatus) :
    NotedProg Step := do
  let attemptNumber := s.attemptCount + 1
  let attempt ← noting note
    (Query.createTaskAttempt s.id run.id attemptNumber (queueName s.taskType)).issue
  if ¬ s.input.IsValid then .fail .marshal
  else do
    let _ ← noting note (Query.insertOutboxMessage
      { aggregateType := .taskAttempt
        aggregateID := attempt.id
        shardID := run.shardID
        streamName := queueName s.taskType
        payload :=
          { taskAttemptID := attempt.id
            stepID := s.id
            workflowRunID := run.id
            stepName := s.stepName
            taskType := s.taskType
            input := s.input
            attemptNumber := attemptNumber
            idempotencyKey := attempt.idempotencyKey
            timeoutSeconds := s.timeoutSeconds } }).issue
    let ok ← noting note (Query.updateStepStatus s.id expected .queued none none true).issue
    if ¬ ok then .fail (.stepChanged s.stepName)
    else do
      let queued := { s with status := .queued, attemptCount := attemptNumber }
      noting (note.write queued) (appendHistory run.id .stepDispatched (some (.obj
        [("attempt", .num attemptNumber), ("step", .str s.stepName),
          ("task_type", .str s.taskType)])))
      pure queued

/-- The body of the first loop of `dispatchReady`. -/
def resolveWaiting (run : WorkflowRun) (maps : StepMaps) (name : String) : NotedProg StepMaps :=
  match maps.byName.get? name with
  | none => pure maps
  | some s =>
    if s.status = .waiting then do
      let (_, s) ← tryResolveSignalWait run maps s
      pure (maps.write s)
    else pure maps

/-- The body of the second loop of `dispatchReady`. -/
def dispatchOne (run : WorkflowRun) (maps : StepMaps) (name : String) : NotedProg StepMaps :=
  match maps.byName.get? name with
  | none => pure maps
  | some s =>
    if s.isFresh && maps.byName.ready s then
      if s.taskType = signalWaitTaskType then do
        let (resolved, s) ← tryResolveSignalWait run maps s
        if resolved then pure (maps.write s)
        else do
          let ok ← noting (some (run.id, maps))
            (Query.updateStepStatus s.id [s.status] .waiting none none false).issue
          if ok then pure (maps.write { s with status := .waiting }) else pure maps
      else do
        let s ← dispatchStep run (some (run.id, maps)) s [s.status]
        pure (maps.write s)
    else pure maps

/-- `dispatchReady`. -/
def dispatchReady (run : WorkflowRun) (maps : StepMaps) : NotedProg StepMaps := do
  let names ← noting (some (run.id, maps)) maps.byName.range
  let maps ← names.foldlM (resolveWaiting run) maps
  let names ← noting (some (run.id, maps)) maps.byName.range
  names.foldlM (dispatchOne run) maps

/-- `reconcileTx`. The answer is the note at the end. -/
def reconcileTx (run : WorkflowRun) (steps : List Step) : NotedProg Note :=
  if runTerminal run.status then pure none
  else do
    let maps ← propagateSkips run (newStepMaps steps)
    let maps ← dispatchReady run maps
    noting (some (run.id, maps)) (checkRunCompletion run maps.byName)
    pure (some (run.id, maps))

end Noted

section Plain

variable {α β : Type} (run : WorkflowRun)

/-- Without its notes a noted program is the program. -/
theorem plain_noting (note : Note) (p : Prog α) : plain (noting note p) = p :=
  mapOp_cancel (fun _ => rfl) p

theorem plain_bind (p : NotedProg α) (k : α → NotedProg β) :
    plain (p >>= k) = plain p >>= fun a => plain (k a) :=
  mapOp_bind p k

theorem plain_skipStep (acc : StepMaps × Bool) (name : String) :
    (plain (Noted.skipStep run acc name) >>= fun acc' => .ret (acc'.1.byName, acc'.2)) =
      skipStep run (acc.1.byName, acc.2) name := by
  unfold Noted.skipStep skipStep
  cases acc.1.byName.get? name with
  | none => rfl
  | some s =>
    dsimp only
    split_ifs with hskip
    · simp only [plain_bind, plain_noting, Program.bind_assoc]
      congr 1
      funext ok
      cases ok with
      | false => rfl
      | true =>
        simp only [if_true, plain_bind, plain_noting, Program.bind_assoc]
        rfl
    · rfl

theorem plain_propagateSkips (maps : StepMaps) :
    (plain (Noted.propagateSkips run maps) >>= fun maps' => .ret maps'.byName) =
      propagateSkips run maps.byName := by
  unfold Noted.propagateSkips propagateSkips
  generalize maps.byName.rows.length + 1 = n
  induction n generalizing maps with
  | zero => rfl
  | succ n ih =>
    simp only [Noted.skipPasses, skipPasses, plain_bind, plain_noting, Program.bind_assoc]
    congr 1
    funext names
    have hloop := mapOp_foldlM (h := fun acc : StepMaps × Bool => (acc.1.byName, acc.2))
      (plain_skipStep run) names (maps, false)
    rw [← hloop, Program.bind_assoc]
    congr 1
    funext acc
    obtain ⟨maps', changed⟩ := acc
    cases changed with
    | false => rfl
    | true => exact ih maps'

theorem plain_tryResolveSignalWait (maps : StepMaps) (s : Step) :
    plain (Noted.tryResolveSignalWait run maps s) = tryResolveSignalWait run s := by
  simp only [Noted.tryResolveSignalWait, tryResolveSignalWait, plain_bind, plain_noting]
  congr 1
  funext signals
  induction signals with
  | nil => rfl
  | cons sig signals ih =>
    unfold Noted.resolveSignalWait resolveSignalWait
    split_ifs
    · exact ih
    · rw [plain_bind, plain_noting]
      congr 1
      funext applied
      cases applied with
      | false => exact ih
      | true =>
        simp only [not_true_eq_false, if_false, plain_bind, plain_noting]
        congr 1
        funext ok
        cases ok with
        | false => rfl
        | true =>
          simp only [if_true, plain_bind, plain_noting]
          rfl

theorem plain_dispatchStep (note : Note) (s : Step) (expected : List StepStatus) :
    plain (Noted.dispatchStep run note s expected) = dispatchStep run s expected := by
  simp only [Noted.dispatchStep, dispatchStep, plain_bind, plain_noting]
  congr 1
  funext attempt
  by_cases hinput : s.input.IsValid
  · simp only [hinput, not_true_eq_false, if_false, plain_bind, plain_noting]
    congr 1
    funext _
    congr 1
    funext ok
    cases ok with
    | false => rfl
    | true =>
      simp only [not_true_eq_false, if_false, plain_bind, plain_noting]
      rfl
  · simp only [hinput, not_false_eq_true, if_true]
    rfl

theorem plain_resolveWaiting (maps : StepMaps) (name : String) :
    (plain (Noted.resolveWaiting run maps name) >>= fun maps' => .ret maps'.byName) =
      resolveWaiting run maps.byName name := by
  unfold Noted.resolveWaiting resolveWaiting
  cases maps.byName.get? name with
  | none => rfl
  | some s =>
    dsimp only
    split_ifs
    · rw [plain_bind, plain_tryResolveSignalWait, Program.bind_assoc]
      rfl
    · rfl

theorem plain_dispatchOne (maps : StepMaps) (name : String) :
    (plain (Noted.dispatchOne run maps name) >>= fun maps' => .ret maps'.byName) =
      dispatchOne run maps.byName name := by
  unfold Noted.dispatchOne dispatchOne
  cases maps.byName.get? name with
  | none => rfl
  | some s =>
    dsimp only
    split_ifs
    · rw [plain_bind, plain_tryResolveSignalWait, Program.bind_assoc]
      congr 1
      funext res
      split_ifs
      · rfl
      · rw [plain_bind, plain_noting, Program.bind_assoc]
        congr 1
        funext ok
        cases ok <;> rfl
    · rw [plain_bind, plain_dispatchStep, Program.bind_assoc]
      rfl
    · rfl

/-- Keeping both maps does not change what `dispatchReady` does. -/
theorem plain_dispatchReady (maps : StepMaps) :
    (plain (Noted.dispatchReady run maps) >>= fun maps' => .ret maps'.byName) =
      dispatchReady run maps.byName := by
  simp only [Noted.dispatchReady, dispatchReady, plain_bind, plain_noting, Program.bind_assoc]
  congr 1
  funext names
  rw [← mapOp_foldlM (plain_resolveWaiting run) names maps, Program.bind_assoc]
  congr 1
  funext maps'
  rw [ret_bind]
  congr 1
  funext names'
  exact mapOp_foldlM (plain_dispatchOne run) names' maps'

/-- Without the maps it is `reconcileTx`. -/
theorem plain_reconcileTx (steps : List Step) :
    (plain (Noted.reconcileTx run steps)).discard = reconcileTx run steps := by
  unfold Noted.reconcileTx reconcileTx Program.discard
  split_ifs
  · rfl
  · have hskips := plain_propagateSkips run (newStepMaps steps)
    rw [newStepMaps] at hskips
    rw [← hskips, plain_bind, Program.bind_assoc, Program.bind_assoc]
    congr 1
    funext maps
    rw [ret_bind, ← plain_dispatchReady, plain_bind, Program.bind_assoc, Program.bind_assoc]
    congr 1
    funext maps'
    rw [plain_bind, plain_noting, Program.bind_assoc]
    exact discard_unit (checkRunCompletion run maps'.byName)

end Plain

end Orchestrator
