import Orchestrator.Invariant.Base

/-!
# The rows of a run

Every row except those of definitions belongs to a run. An attempt or a timer also
refers to a step, and that step belongs to the same run. A write that puts a row of a
run where nothing is, or in place of a row of that run, leaves the rows of all other
runs alone and keeps these references in order.
-/

namespace Orchestrator

open Lib

/-- The row is in the store. -/
def Db.Has (v : Db) : Write → Prop
  | .definition d => d ∈ v.definitions
  | .run r => r ∈ v.runs
  | .step s => s ∈ v.steps
  | .attempt a => a ∈ v.attempts
  | .outbox m => m ∈ v.outbox
  | .timer t => t ∈ v.timers
  | .signal s => s ∈ v.signals
  | .history e => e ∈ v.history
  | .handled id => id ∈ v.handled

/-- Where the row stands. -/
def Write.key : Write → Lock
  | .definition d => .definition d.id
  | .run r => .run r.id
  | .step s => .step s.id
  | .attempt a => .attempt a.id
  | .outbox m => .outbox m.id
  | .timer t => .timer t.id
  | .signal s => .signal s.id
  | .history e => .history e.workflowRunID e.seq
  | .handled id => .handled id

/-- The run that the row belongs to. -/
def Write.run? : Write → Option UUID
  | .definition _ => none
  | .run r => some r.id
  | .step s => some s.workflowRunID
  | .attempt a => some a.workflowRunID
  | .outbox m => some m.payload.workflowRunID
  | .timer t => some t.workflowRunID
  | .signal s => some s.workflowRunID
  | .history e => some e.workflowRunID
  | .handled _ => none

/-- The step that the row refers to. -/
def Write.step? : Write → Option UUID
  | .attempt a => some a.stepID
  | .timer t => t.stepID
  | _ => none

namespace Db

variable {v v' : Db} {x y : Write}

/-- At most one row stands in a place. -/
theorem Has.unique (hx : v.Has x) (hy : v.Has y) (hkey : x.key = y.key) : x = y := by
  cases x <;> cases y <;> simp only [Write.key, reduceCtorEq, Lock.definition.injEq,
    Lock.run.injEq, Lock.step.injEq, Lock.attempt.injEq, Lock.outbox.injEq, Lock.timer.injEq,
    Lock.signal.injEq, Lock.history.injEq, Lock.handled.injEq] at hkey
  case history.history => exact congrArg _ (Table.eq_of_key_eq hx hy
    (congrArg toLex (Prod.ext hkey.1 hkey.2)))
  all_goals exact congrArg _ (Table.eq_of_key_eq hx hy hkey)

/-- The rows after a write. -/
theorem has_apply : (v.apply x).Has y ↔ y = x ∨ (v.Has y ∧ y.key ≠ x.key) := by
  cases x <;> cases y <;> simp only [apply, Has, Write.key, reduceCtorEq, ne_eq, not_false_eq_true,
    and_true, false_or, Table.mem_put, Write.definition.injEq, Write.run.injEq, Write.step.injEq,
    Write.attempt.injEq, Write.outbox.injEq, Write.timer.injEq, Write.signal.injEq,
    Write.history.injEq, Write.handled.injEq, Lock.definition.injEq, Lock.run.injEq,
    Lock.step.injEq, Lock.attempt.injEq, Lock.outbox.injEq, Lock.timer.injEq, Lock.signal.injEq,
    Lock.history.injEq, Lock.handled.injEq, HistoryEvent.key, EmbeddingLike.apply_eq_iff_eq,
    Prod.mk.injEq]

/-- Nothing stands in the place. -/
def Free (v : Db) : Lock → Prop
  | .definition id => v.definitions.get? id = none
  | .version name n => v.NoDefinition name n
  | .run id => v.runs.get? id = none
  | .step id => v.steps.get? id = none
  | .attempt id => v.attempts.get? id = none
  | .slot stepID n => v.NoAttempt stepID n
  | .outbox id => v.outbox.get? id = none
  | .timer id => v.timers.get? id = none
  | .signal id => v.signals.get? id = none
  | .history runID seq => v.history.get? (toLex (runID, seq)) = none
  | .handled id => v.handled.get? id = none

theorem Free.ne_key {l : Lock} (h : v.Free l) (hx : v.Has x) : x.key ≠ l := by
  rintro rfl
  cases x <;> exact absurd rfl (Table.get?_eq_none.mp h _ hx)

/-- A store is the rows that it has. -/
theorem ext_has (h : ∀ x, v.Has x ↔ v'.Has x) : v = v' := by
  have hdef : v.definitions = v'.definitions := Table.ext_mem (fun d => h (.definition d))
  have hrun : v.runs = v'.runs := Table.ext_mem (fun r => h (.run r))
  have hstep : v.steps = v'.steps := Table.ext_mem (fun s => h (.step s))
  have hatt : v.attempts = v'.attempts := Table.ext_mem (fun a => h (.attempt a))
  have hout : v.outbox = v'.outbox := Table.ext_mem (fun m => h (.outbox m))
  have htm : v.timers = v'.timers := Table.ext_mem (fun t => h (.timer t))
  have hsig : v.signals = v'.signals := Table.ext_mem (fun s => h (.signal s))
  have hev : v.history = v'.history := Table.ext_mem (fun e => h (.history e))
  have hhand : v.handled = v'.handled := Table.ext_mem (fun id => h (.handled id))
  cases v
  cases v'
  simp_all

end Db

/-- Two stores have the same definitions and the same rows of a run. -/
def SameRun (A : UUID) (v v' : Db) : Prop :=
  ∀ x : Write, x.run? = some A ∨ x.run? = none → (v.Has x ↔ v'.Has x)

/-- Two stores have the same rows apart from those of a run. -/
def SameOthers (A : UUID) (v v' : Db) : Prop :=
  ∀ x : Write, x.run? ≠ some A → (v.Has x ↔ v'.Has x)

/-- Every reference is to a step of the same run. -/
def Referential (v : Db) : Prop :=
  ∀ x, v.Has x → ∀ id, x.step? = some id → ∃ t ∈ v.steps, t.id = id ∧ x.run? = some t.workflowRunID

/-- The rows in these places are of the run. -/
def Known (A : UUID) (K : Set Lock) (v : Db) : Prop :=
  ∀ l ∈ K, ∃ y, v.Has y ∧ y.key = l ∧ y.run? = some A

/-- A row of a run is written, to a place where nothing is or a row of that run. -/
structure Owned (A : UUID) (v : Db) (x : Write) : Prop where
  run : x.run? = some A
  place : ∀ y, v.Has y → y.key = x.key → y.run? = some A
  refers : ∀ id, x.step? = some id → ∃ t ∈ v.steps, t.id = id ∧ t.workflowRunID = A

/-- Rows of a run are written one after the other. -/
def OwnedAll (A : UUID) : Db → List Write → Prop
  | _, [] => True
  | v, x :: ws => Owned A v x ∧ OwnedAll A (v.apply x) ws

theorem Base.referential {v : Db} (hb : Base v) : Referential v := by
  intro x hx id hid
  cases x with
  | attempt a =>
    obtain ⟨t, ht, hstep, hrun, -⟩ := hb.ledger.parent a hx
    exact ⟨t, ht, hstep.trans (Option.some.inj hid), congrArg some hrun⟩
  | timer tm =>
    obtain ⟨-, t, ht, hstep, hrun⟩ := hb.clocks tm hx
    exact ⟨t, ht, Option.some.inj (hstep.symm.trans hid), congrArg some hrun.symm⟩
  | _ => cases hid

section

variable {A : UUID} {v v' v₀ : Db} {x : Write} {ws : List Write} {K : Set Lock}

/-- The same write leaves the rows of the run the same. -/
theorem SameRun.apply (h : SameRun A v v') (x : Write) : SameRun A (v.apply x) (v'.apply x) := by
  intro y hy
  rw [Db.has_apply, Db.has_apply, h y hy]

theorem SameRun.applyAll (h : SameRun A v v') (ws : List Write) :
    SameRun A (backend.applyAll v ws) (backend.applyAll v' ws) := by
  induction ws generalizing v v' with
  | nil => exact h
  | cons x ws ih => exact ih (h.apply x)

theorem Owned.others (h : Owned A v x) : SameOthers A (v.apply x) v := by
  intro y hy
  rw [Db.has_apply]
  constructor
  · rintro (rfl | ⟨hy', -⟩)
    · exact absurd h.run hy
    · exact hy'
  · exact fun hy' => Or.inr ⟨hy', fun hkey => hy (h.place y hy' hkey)⟩

theorem Owned.referential (h : Owned A v x) (hv : Referential v) : Referential (v.apply x) := by
  -- The step referred to stays, or is written again with the same run.
  have hkeep : ∀ t ∈ v.steps, ∃ t' ∈ (v.apply x).steps, t'.id = t.id ∧
      t'.workflowRunID = t.workflowRunID := by
    intro t ht
    by_cases hkey : Write.key (.step t) = x.key
    · have hrun := h.place (.step t) ht hkey
      cases x with
      | step s =>
        refine ⟨s, Table.mem_put_self v.steps s, (Lock.step.inj hkey).symm, ?_⟩
        exact Option.some.inj (h.run.trans hrun.symm)
      | _ => cases hkey
    · exact ⟨t, (Db.has_apply (y := .step t)).mpr (Or.inr ⟨ht, hkey⟩), rfl, rfl⟩
  intro y hy id hid
  rcases Db.has_apply.mp hy with rfl | ⟨hy, -⟩
  · obtain ⟨t, ht, htid, hrun⟩ := h.refers id hid
    obtain ⟨t', ht', hid', hrun'⟩ := hkeep t ht
    exact ⟨t', ht', hid'.trans htid, by rw [h.run, hrun', hrun]⟩
  · obtain ⟨t, ht, htid, hrun⟩ := hv y hy id hid
    obtain ⟨t', ht', hid', hrun'⟩ := hkeep t ht
    exact ⟨t', ht', hid'.trans htid, by rw [hrun, hrun']⟩

theorem Owned.known (h : Owned A v x) (hK : Known A K v) : Known A K (v.apply x) := by
  intro l hl
  obtain ⟨y, hy, hkey, hrun⟩ := hK l hl
  by_cases hx : y.key = x.key
  · exact ⟨x, Db.has_apply.mpr (Or.inl rfl), hx.symm.trans hkey, h.run⟩
  · exact ⟨y, Db.has_apply.mpr (Or.inr ⟨hy, hx⟩), hkey, hrun⟩

/-- What writing rows of the run keeps. -/
theorem OwnedAll.keep {P : Db → Prop} (h : OwnedAll A v ws) (hv : P v)
    (hstep : ∀ v x, Owned A v x → P v → P (v.apply x)) : P (backend.applyAll v ws) := by
  induction ws generalizing v with
  | nil => exact hv
  | cons x ws ih => exact ih h.2 (hstep v x h.1 hv)

end

end Orchestrator
