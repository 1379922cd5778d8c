import Mathlib.Data.Prod.Lex
import Orchestrator.Lib.Table
import Orchestrator.Workflowdsl

/-!
# The database

The tables of `migrations/0001_init.sql`, the row writes that statements make,
and the locks that a writer holds until its transaction ends. A writer of an
attempt row also locks its entry in the unique index on step and attempt number:
an insertion of the same pair waits for the writer to end. So does a writer of a
definition with the index on name and version.
-/

namespace Orchestrator

open Lib

/-- The key of a history row, `UNIQUE (workflow_run_id, seq)`. -/
def HistoryEvent.key (e : HistoryEvent) : ℕ ×ₗ ℕ := toLex (e.workflowRunID, e.seq)

/-- The committed rows. `handled` is an auxiliary table that no statement reads.
It records the expired attempts whose outcome transaction has committed; the
engine keeps the others in the variable `expired` of `ReapExpiredLeases`. -/
structure Db where
  definitions : Table WorkflowDefinition.id
  runs : Table WorkflowRun.id
  steps : Table Step.id
  attempts : Table TaskAttempt.id
  outbox : Table OutboxMessage.id
  timers : Table Timer.id
  signals : Table Signal.id
  history : Table HistoryEvent.key
  handled : Table (fun id : UUID => id)
  deriving Inhabited

/-- The empty store. -/
def Db.empty : Db := ⟨.empty, .empty, .empty, .empty, .empty, .empty, .empty, .empty, .empty⟩

/-- A write of one row: an insertion, or an update that is given the whole new
row. -/
inductive Write
  | definition (d : WorkflowDefinition)
  | run (r : WorkflowRun)
  | step (s : Step)
  | attempt (a : TaskAttempt)
  | outbox (m : OutboxMessage)
  | timer (t : Timer)
  | signal (s : Signal)
  | history (e : HistoryEvent)
  | handled (id : UUID)

/-- What a writer locks. -/
inductive Lock
  | definition (id : UUID)
  /-- The entry of `UNIQUE (name, version)`. -/
  | version (name : String) (version : ℤ)
  | run (id : UUID)
  | step (id : UUID)
  | attempt (id : UUID)
  /-- The entry of `UNIQUE (step_id, attempt_number)`. -/
  | slot (stepID : UUID) (attemptNumber : ℕ)
  | outbox (id : ℕ)
  | timer (id : UUID)
  | signal (id : UUID)
  | history (runID : UUID) (seq : ℕ)
  | handled (id : UUID)
  deriving DecidableEq

/-- Perform a write. -/
@[simp] def Db.apply (v : Db) : Write → Db
  | .definition d => { v with definitions := v.definitions.put d }
  | .run r => { v with runs := v.runs.put r }
  | .step s => { v with steps := v.steps.put s }
  | .attempt a => { v with attempts := v.attempts.put a }
  | .outbox m => { v with outbox := v.outbox.put m }
  | .timer t => { v with timers := v.timers.put t }
  | .signal s => { v with signals := v.signals.put s }
  | .history e => { v with history := v.history.put e }
  | .handled id => { v with handled := v.handled.put id }

/-- The locks of a write. -/
@[simp] def Write.locks : Write → List Lock
  | .definition d => [.definition d.id, .version d.name d.version]
  | .run r => [.run r.id]
  | .step s => [.step s.id]
  | .attempt a => [.attempt a.id, .slot a.stepID a.attemptNumber]
  | .outbox m => [.outbox m.id]
  | .timer t => [.timer t.id]
  | .signal s => [.signal s.id]
  | .history e => [.history e.workflowRunID e.seq]
  | .handled id => [.handled id]

/-- Writes of different rows can be exchanged. -/
theorem Db.apply_comm (v : Db) (x y : Write) (h : x.locks.Disjoint y.locks) :
    (v.apply x).apply y = (v.apply y).apply x := by
  cases x <;> cases y <;> try rfl
  all_goals
    simp only [Db.apply, Db.mk.injEq, true_and, and_true]
    simp only [Write.locks, List.disjoint_cons_left, List.mem_cons, Lock.definition.injEq,
      Lock.run.injEq, Lock.step.injEq, Lock.attempt.injEq, Lock.outbox.injEq, Lock.timer.injEq,
      Lock.signal.injEq, Lock.history.injEq, Lock.handled.injEq, List.not_mem_nil, or_false,
      reduceCtorEq, false_or] at h
    refine Table.put_comm (fun heq => ?_)
    first
    | exact h.1 heq
    | exact h.1 (Or.inl heq)
    | exact h.1 (by simpa [HistoryEvent.key] using heq)

/-- No attempt of the step has the number. -/
def Db.NoAttempt (v : Db) (stepID : UUID) (attemptNumber : ℕ) : Prop :=
  ∀ a ∈ v.attempts, a.stepID = stepID → a.attemptNumber ≠ attemptNumber

instance (v : Db) (stepID : UUID) (attemptNumber : ℕ) :
    Decidable (v.NoAttempt stepID attemptNumber) :=
  inferInstanceAs (Decidable (∀ a ∈ v.attempts.rows, a.stepID = stepID →
    a.attemptNumber ≠ attemptNumber))

/-- No definition has the name and the version. -/
def Db.NoDefinition (v : Db) (name : String) (version : ℤ) : Prop :=
  ∀ d ∈ v.definitions, d.name = name → d.version ≠ version

/-- What is under a lock in one state is there in another. An index entry is
only asked to stay absent. -/
def Lock.Same (v v' : Db) : Lock → Prop
  | .definition id => v'.definitions.get? id = v.definitions.get? id
  | .version name n => v.NoDefinition name n → v'.NoDefinition name n
  | .run id => v'.runs.get? id = v.runs.get? id
  | .step id => v'.steps.get? id = v.steps.get? id
  | .attempt id => v'.attempts.get? id = v.attempts.get? id
  | .slot stepID n => v.NoAttempt stepID n → v'.NoAttempt stepID n
  | .outbox id => v'.outbox.get? id = v.outbox.get? id
  | .timer id => v'.timers.get? id = v.timers.get? id
  | .signal id => v'.signals.get? id = v.signals.get? id
  | .history runID seq => v'.history.get? (toLex (runID, seq)) = v.history.get? (toLex (runID, seq))
  | .handled id => v'.handled.get? id = v.handled.get? id

theorem Lock.Same.refl (v : Db) (l : Lock) : l.Same v v := by
  cases l <;> first | rfl | exact id

theorem Lock.Same.trans {v v' v'' : Db} {l : Lock} (h : l.Same v v') (h' : l.Same v' v'') :
    l.Same v v'' := by
  cases l <;> first | exact Eq.trans h' h | exact h' ∘ h

/-- A write changes nothing under locks that it does not take. -/
theorem Lock.same_apply (v : Db) {x : Write} {l : Lock} (h : l ∉ x.locks) :
    l.Same v (v.apply x) := by
  cases l <;> cases x <;> try first | rfl | exact id
  case slot.attempt stepID n a =>
    intro hno a' ha' hstep hnum
    rcases Table.mem_put.mp ha' with rfl | ⟨ha', -⟩
    · exact h (by simp [← hstep, ← hnum])
    · exact hno a' ha' hstep hnum
  case version.definition name n d =>
    intro hno d' hd' hname hnum
    rcases Table.mem_put.mp hd' with rfl | ⟨hd', -⟩
    · exact h (by simp [← hname, ← hnum])
    · exact hno d' hd' hname hnum
  all_goals
    refine Table.get?_put_of_ne (fun heq => h ?_)
    simpa [HistoryEvent.key, Prod.ext_iff, eq_comm] using heq

end Orchestrator
