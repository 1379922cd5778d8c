import Orchestrator.System.Timers

/-!
# The maps of an evaluation and the store

Whatever has happened before, each transaction that evaluates a run reads its steps into
maps that have exactly the rows, and keeps them so: at every statement of `reconcileTx`,
and at its end, the maps and the rows agree. So every update finds what it expects, and a
step has never changed when it is dispatched.
-/

namespace Orchestrator

open Lib Program

/-- The transactions that evaluate a run. A signal that asks for a cancellation does not. -/
inductive Entry
  | createRun (name : String) (version : ℤ) (input : Option RawMessage)
  | reconcile (runID : UUID)
  | handleTaskResult (attemptID : UUID) (workerID : String) (success : Bool)
      (output : Option RawMessage) (errMsg : Option String)
  | handleExpiredAttempt (attempt : TaskAttempt)
  | handleFiredTimer (timerID : UUID)
  | applySignal (runID : UUID) (name : String) (payload : Option RawMessage)
      (hname : name ≠ "__cancel__")

namespace Entry

/-- The statements of the transaction. -/
def prog : Entry → Prog Unit
  | .createRun name version input => (Orchestrator.createRun name version input).discard
  | .reconcile runID => Orchestrator.reconcile runID
  | .handleTaskResult attemptID workerID success output errMsg =>
    (Orchestrator.handleTaskResult attemptID workerID success output errMsg).discard
  | .handleExpiredAttempt attempt => Orchestrator.handleExpiredAttempt attempt
  | .handleFiredTimer timerID => Orchestrator.handleFiredTimer timerID
  | .applySignal runID name payload _ => Orchestrator.applySignal runID name payload

/-- The statements before `reconcileTx` is called, and what it is called with. -/
def args : Entry → Prog (Option Arguments)
  | .createRun name version input => do
    let a ← createRunArgs name version input
    pure (some a)
  | .reconcile runID => do
    let a ← reconcileArgs runID
    pure (some a)
  | .handleTaskResult attemptID workerID success output errMsg =>
    handleTaskResultArgs attemptID workerID success output errMsg
  | .handleExpiredAttempt attempt => do
    let a ← handleAttemptOutcomeArgs attempt false none (some leaseExpiredMessage)
    pure (some a)
  | .handleFiredTimer timerID => handleFiredTimerArgs timerID
  | .applySignal runID name payload _ => do
    let a ← applySignalArgs runID name payload
    pure (some a)

/-- The transaction with the maps of its evaluation. The answer is the note at the end. -/
def noted (e : Entry) : NotedProg Note := do
  match ← noting none e.args with
  | none => pure none
  | some a => Noted.reconcileTx a.1 a.2

/-- The outcome of an expired attempt is handled with the note that it is. -/
def writes : Entry → List Write
  | .handleExpiredAttempt attempt => [.handled attempt.id]
  | _ => []

/-- The transaction may be started. -/
def Due (S : System) : Entry → Prop
  | .handleExpiredAttempt attempt => attempt ∈ S.owed
  | _ => True

theorem prog_eq (e : Entry) : e.prog = e.args >>= evaluate := by
  cases e with
  | createRun name version input =>
    rw [prog, createRun_eq, args, Program.discard, Program.bind_assoc, Program.bind_assoc]
    congr 1
    funext a
    rw [Program.bind_assoc]
    exact discard_unit (reconcileTx a.1 a.2)
  | reconcile runID =>
    rw [prog, reconcile_eq, args, Program.bind_assoc]
    rfl
  | handleTaskResult attemptID workerID success output errMsg =>
    rw [prog, handleTaskResult_eq, args, Program.discard, Program.bind_assoc]
    congr 1
    funext o
    rw [Program.bind_assoc]
    exact discard_unit (evaluate o)
  | handleExpiredAttempt attempt =>
    rw [prog, Orchestrator.handleExpiredAttempt, handleAttemptOutcome_eq, args, Program.bind_assoc]
    rfl
  | handleFiredTimer timerID => exact handleFiredTimer_eq timerID
  | applySignal runID name payload hname =>
    rw [prog, applySignal_eq runID hname, args, Program.bind_assoc]
    rfl

/-- Without the maps it is the transaction. -/
theorem plain_noted (e : Entry) : (plain e.noted).discard = e.prog := by
  rw [prog_eq, noted, plain_bind, plain_noting, Program.discard, Program.bind_assoc]
  congr 1
  funext o
  cases o with
  | none => rfl
  | some a => exact plain_reconcileTx a.1 a.2

end Entry

/-- The error is not that a step has changed during its dispatch. -/
def Error.Foreseen (e : Error) : Prop := ∀ step, e ≠ .stepChanged step

section Run

variable {S : System}

/-- `reconcileTx` is called with the rows of a run. -/
theorem Entry.args_solo (hok : S.Ok) (e : Entry) (hdue : e.Due S) :
    Solo Error.Foreseen e.args (CalledIf Evaluated (fun _ => True))
      (backend.applyAll S.db e.writes) := by
  have hb := hok.orderly.base
  have hup := hok.orderly.upright
  have hnone : Error.notFound.Foreseen := fun _ h => by cases h
  have hkey : Error.foreignKey.Foreseen := fun _ h => by cases h
  have hinvalid : Error.invalidJSON.Foreseen := fun _ h => by cases h
  cases e with
  | createRun name version input =>
    exact Wp.bind ((createRunArgs_solo hb name version input (fun _ => hnone)
      (fun _ => hinvalid)).mono (fun _ _ h => h.mono (fun _ _ => trivial)))
  | reconcile runID =>
    exact Wp.bind ((reconcileArgs_solo hb runID (fun _ => hnone)).mono
      (fun _ _ h => h.mono (fun _ _ => trivial)))
  | handleTaskResult attemptID workerID success output errMsg =>
    refine (handleTaskResultArgs_solo (R := Evaluated) hb hup attemptID workerID success output
      errMsg (fun _ => hnone) (fun _ => hinvalid)).mono (fun o _ h => ?_)
    cases o with
    | none => trivial
    | some a => exact Called.mono h (fun _ _ => trivial)
  | handleExpiredAttempt attempt =>
    obtain ⟨ha, hst, hnot⟩ := hok.owed attempt hdue
    exact Wp.bind ((handleAttemptOutcomeArgs_solo hb (.expiry ha hst hnot) (hup _)
      RawMessage.isValid_of_none rfl rfl (some leaseExpiredMessage)).mono
      (fun _ _ h => h.mono (fun _ _ => trivial)))
  | handleFiredTimer timerID =>
    refine (handleFiredTimerArgs_solo (R := Evaluated) hb timerID).mono (fun o _ h => ?_)
    cases o with
    | none => trivial
    | some a => exact Called.mono h (fun _ _ => trivial)
  | applySignal runID name payload hname =>
    exact Wp.bind (applySignalArgs_solo hb runID name payload hkey hinvalid)

/-- The statements of the transaction are good. -/
theorem Entry.noted_watch (hok : S.Ok) (e : Entry) (hdue : e.Due S) :
    e.noted.Wp watched Error.Foreseen (fun note v => note.Holds v)
      (backend.applyAll S.db e.writes) := by
  refine Wp.bind ((solo_outside (e.args_solo hok hdue)).mono (fun o v h => ?_))
  cases o with
  | none => exact Note.holds_none v
  | some a => exact (Called.watch h).mono_error (fun _ hfalse => hfalse.elim)

end Run

/-- In every reachable state, and for all iteration orders, let a transaction that evaluates
a run be executed. At each statement that `reconcileTx` issues, and at its end, the maps
have exactly the run's steps with the status, output and attempt count of the rows. Each
of these statements succeeds, and each update of a step, a signal or the run is applied. No
dispatch finds that its step has changed, the one of `handleRetryTimerFired` included. -/
theorem maps_have_rows {S : System} (h : System.Reachable System.Any S) (e : Entry)
    (hdue : e.Due S) {ω : ℕ → Draw} (hω : e.prog.Admissible backend ω S.db e.writes) :
    (plain e.noted).discard = e.prog ∧
    e.noted.Along notedBackend Noted.Good ω S.db e.writes ∧
    (∀ note ws, e.noted.run notedBackend ω S.db e.writes = (.ok note, ws) →
      note.Holds (backend.applyAll S.db ws)) ∧
    ∀ step, (e.prog.run backend ω S.db e.writes).1 ≠ .error (.stepChanged step) := by
  have hwatch := e.noted_watch h.ok hdue
  have hchanged : ¬ (Error.stepChanged "").Foreseen := fun hf => hf "" rfl
  have hplain := e.plain_noted
  have hsolo := hwatch.unguarded hchanged
  have hω' : e.noted.Admissible notedBackend ω S.db e.writes := by
    rw [← hplain] at hω
    exact (admissible_mapOp e.noted ω S.db e.writes).mp ((admissible_discard backend).mp hω)
  refine ⟨hplain, hwatch.along hchanged hω', fun note ws hrun => ?_, fun step hrun => ?_⟩
  · have hleads := hsolo.run hω'
    rw [hrun] at hleads
    exact hleads.2
  · have hsolo' : Solo Error.Foreseen e.prog (fun _ _ => True)
        (backend.applyAll S.db e.writes) := by
      rw [← hplain]
      exact Wp.bind (((wp_mapOp e.noted).mpr hsolo).mono (fun _ _ _ => trivial))
    have hleads := hsolo'.run hω
    generalize e.prog.run backend ω S.db e.writes = res at hrun hleads
    obtain ⟨res, ws⟩ := res
    subst hrun
    exact hleads step rfl

/-- The worker reports that it is done. -/
def doneReport : Entry := .handleTaskResult 209 "w" true none none

theorem maps_have_rows_chain : ∃ runID maps ws,
    doneReport.noted.run notedBackend (.ticks 400) claimedSystem.db [] =
      (.ok (some (runID, maps)), ws) ∧
    maps.Hold ((backend.applyAll claimedSystem.db ws).stepsOf runID) ∧
    maps.byName.rows.map (fun s => (s.stepName, s.status, s.attemptCount)) =
      [("a", .completed, 1), ("b", .queued, 1)] := by
  have hreach : System.Reachable System.Any claimedSystem :=
    .run .init (fun _ _ _ => trivial) (Option.some_get _).symm
  have hω : doneReport.prog.Admissible backend (.ticks 400) claimedSystem.db [] := by
    decide +kernel
  obtain ⟨-, -, hend, -⟩ := maps_have_rows hreach doneReport trivial hω
  have hrows : (doneReport.noted.run notedBackend (.ticks 400) claimedSystem.db []).1.map
      (fun note => note.map (fun m => m.2.byName.rows.map
        (fun s => (s.stepName, s.status, s.attemptCount)))) =
      .ok (some [("a", .completed, 1), ("b", .queued, 1)]) := by
    decide +kernel
  cases hrun : doneReport.noted.run notedBackend (.ticks 400) claimedSystem.db [] with
  | mk res ws =>
    rw [hrun] at hrows
    rcases res with e | _ | ⟨runID, maps⟩
    · cases hrows
    · cases hrows
    · exact ⟨runID, maps, ws, rfl, hend _ ws hrun _ rfl, Option.some.inj (Except.ok.inj hrows)⟩

end Orchestrator
