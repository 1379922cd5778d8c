import Orchestrator.Invariant.Upright
import Orchestrator.Transactions.Reconcile

/-!
# What is known about a run while a transaction is at work

A transaction on a run may be alone, or there may be others about which nothing
is known, or others that leave the run alone once its row is locked. `Regime`
covers the three cases. Whatever the regime, a transaction ends in one of two
ways: it has done nothing that matters to the run, or it has reconciled it.
-/

namespace Orchestrator

open Lib Actions

/-- The kinds of actions of an engine that does not cancel. The relay alone marks
messages. -/
def Kind.works : Kind → Bool
  | .cancelStep | .cancelRun | .cancelEvent | .publish => false
  | _ => true

/-- The actions of the engine on a run other than those of a cancellation. -/
def Works (runID : UUID) (l : Label) : Prop := l.run = runID ∧ l.kind.works = true

/-- Such an action cancels nothing, and is not one of the relay. -/
theorem Works.kind {runID : UUID} {l : Label} (h : Works runID l) :
    l.kind.cancels = false ∧ l.kind ≠ .publish := by
  obtain ⟨run, kind⟩ := l
  have hk : kind.works = true := h.2
  cases kind <;> simp_all [Kind.works, Kind.cancels]

/-- Those that are calm. -/
def Idles (runID : UUID) (l : Label) : Prop := Works runID l ∧ l.kind.calm = true

theorem works_of_reconcile {runID : UUID} (k : Kind) (hk : k.ofReconcile = true) :
    Works runID ⟨runID, k⟩ := by
  cases k <;> first | exact ⟨rfl, rfl⟩ | cases hk

/-- What other transactions may do while a transaction is at work on a run. In
states where `Q` holds they leave the run alone once its row is locked. Under `q`
the run is not being cancelled. -/
structure Regime (A : Label → Prop) (Err : Error → Prop) (runID : UUID) (Q : Db → Prop)
    (q : Prop) : Prop where
  back : ∀ {v v' : Db}, v.Evolves v' → Q v' → Q v
  calm : ∀ {l : Label} {v : Db} {u : List Write}, Base v → A l → Act l v u →
    Lock.run runID ∉ backend.locksOf u → Q v → Calm runID v (backend.applyAll v u)
  known : ∀ v, Q v → q
  loyal : q → ∀ l, A l → l ≠ ⟨runID, .cancelStep⟩ ∧ l ≠ ⟨runID, .cancelRun⟩
  /-- The transaction may fail, or it is alone. -/
  errors : (∀ e, Err e) ∨ ((∀ l, ¬ A l) ∧ ∀ v, Q v)

/-- A transaction that is alone. -/
theorem Regime.alone {Err : Error → Prop} {runID : UUID} :
    Regime (fun _ => False) Err runID (fun _ => True) True where
  back _ _ := trivial
  calm _ hl := hl.elim
  known _ _ := trivial
  loyal _ _ hl := hl.elim
  errors := Or.inr ⟨fun _ hl => hl, fun _ => trivial⟩

/-- A transaction among others about which nothing is known. -/
theorem Regime.free {A : Label → Prop} {runID : UUID} :
    Regime A (fun _ => True) runID (fun _ => False) False where
  back _ hq := hq
  calm _ _ _ _ hq := hq.elim
  known _ hq := hq
  loyal hq := hq.elim
  errors := Or.inl (fun _ => trivial)

/-- The triple of a transaction, whose assertions are about the committed state
and all its writes. -/
abbrev Serves {α : Type} (A : Label → Prop) (Err : Error → Prop) (P : Db → List Write → Prop)
    (p : Prog α) (Post : α → Db → List Write → Prop) : Prop :=
  Safe backend engine.Inv (engine.Rely A) (fun e _ _ => Err e) P p Post

/-- How a transaction on a run ends. -/
def Concluded (Q : Db → Prop) (runID : UUID) (s : Db) (w : List Write) : Prop :=
  engine.Steps (Idles runID) s w ∨
    (engine.Steps (Works runID) s w ∧
      (Q (backend.applyAll s w) → Quiescent runID (backend.applyAll s w)))

section

variable {A : Label → Prop} {Err : Error → Prop} {H : List Lock} {runID : UUID} {Q : Db → Prop}
  {q : Prop} {run : WorkflowRun}

/-- A transaction that has done nothing that matters. -/
theorem Concluded.idle {s : Db} {w : List Write}
    (h : engine.Holds (Idles runID) H (fun _ ws => ws = []) s w) : Concluded Q runID s w := by
  obtain ⟨w₀, ws, rfl, hsteps, -, rfl⟩ := h
  rw [List.append_nil]
  exact Or.inl hsteps

/-- A transaction that has reconciled the run. -/
theorem Concluded.settled {s : Db} {w : List Write} (h : engine.Holds (Works runID) H
    (fun v ws => ws = [] ∧ (Q v → Quiescent runID v)) s w) : Concluded Q runID s w := by
  obtain ⟨w₀, ws, rfl, hsteps, -, rfl, hset⟩ := h
  rw [List.append_nil]
  exact Or.inr ⟨hsteps, hset⟩

/-- Either way, the transaction is a sequence of actions on the run. -/
theorem Concluded.steps {s : Db} {w : List Write} (h : Concluded Q runID s w) :
    engine.Steps (Works runID) s w :=
  h.elim (fun h => h.mono (fun _ hl => hl.1)) And.left

/-- Under the lock of the run's row the run is quiet. -/
theorem Regime.quiet (hR : Regime A Err runID Q q) (hlock : Lock.run runID ∈ H) :
    Quiet A H runID Q where
  back := hR.back
  calm hb hl hact hdisj := hR.calm hb hl hact (fun hk => hdisj hk hlock)

/-- Where nothing is known there is nothing to prove. -/
theorem Regime.quiet_of_not (hR : Regime A Err runID Q q) (hq : ¬ q) : Quiet A H runID Q where
  back := hR.back
  calm _ _ _ _ h := absurd (hR.known _ h) hq

theorem Regime.err (hR : Regime A Err runID Q q) : ∀ v, ¬ Q v → ∀ e, Err e :=
  fun v hnot => hR.errors.resolve_right (fun h => hnot (h.2 v))

/-- The run's row is there. -/
def RowThere (run : WorkflowRun) (v : Db) : Prop :=
  ∃ r, v.runs.get? run.id = some r ∧ r.shardID = run.shardID

theorem RowThere.evolve {v v' : Db} (h : RowThere run v) (hev : v.Evolves v') :
    RowThere run v' := by
  obtain ⟨r, hr, hshard⟩ := h
  obtain ⟨r', hr', hrev⟩ := hev.run hr
  exact ⟨r', hr', hrev.shardID.trans hshard⟩

theorem RowThere.robust : engine.Robust A H (fun v _ => RowThere run v) :=
  robust_of_evolves (fun _ _ _ _ hev _ h => h.evolve hev)

/-- The run's row is there, and the run is known to go on. -/
def RowKnown (Q : Db → Prop) (run : WorkflowRun) (v : Db) : Prop :=
  ∃ r, v.runs.get? run.id = some r ∧ r.shardID = run.shardID ∧
    (Q v → runTerminal r.status = false)

theorem RowKnown.robust (hQ : Quiet A H run.id Q) :
    engine.Robust A H (fun v _ => RowKnown Q run v) := by
  refine hQ.robust (fun v v' ws _ hev _ hcalm hrow => ?_)
  obtain ⟨r, hr, hshard, hlive⟩ := hrow
  obtain ⟨r', hr', hrev⟩ := hev.run hr
  refine ⟨r', hr', hrev.shardID.trans hshard, fun hq => ?_⟩
  have hstatus := (hcalm hq).2.status
  rw [hr, hr'] at hstatus
  rw [show r'.status = r.status from Option.some.inj hstatus]
  exact hlive (hcalm hq).1

/-- The end of every entry point: the steps are read again and reconciled. -/
theorem reload_spec (hR : Regime A Err run.id Q q) (hQ : Quiet A H run.id Q)
    (hlive : q → runTerminal run.status = false) :
    engine.Triple A (Works run.id) Err H (fun v ws => ws = [] ∧ RowKnown Q run v)
      (do let steps ← (Query.getSteps run.id).issue; reconcileTx run steps) H
      (fun _ v ws => ws = [] ∧ (Q v → Quiescent run.id v)) := by
  refine Triple.bind (getSteps_spec (G := fun _ => True) hQ (fun v _ hF => hF)
    (fun _ _ _ _ => trivial)) (fun steps => Triple.assume (fun _ => ?_))
  by_cases hend : runTerminal run.status = true
  · refine (reconcileTx_ended hend steps).post (fun _ v ws _ hF => ⟨hF.1, fun hq => ?_⟩)
    rw [hlive (hR.known v hq)] at hend
    cases hend
  · refine (reconcileTx_spec hQ works_of_reconcile hR.err (by simpa using hend) steps).post ?_
    exact fun _ v ws _ hF => ⟨hF.1, fun hq => (hF.2 hq).1⟩

/-- Nothing happens to a run that had ended when it was read. -/
theorem reload_ended {C : Label → Prop} (hend : runTerminal run.status = true) :
    engine.Triple A C Err H (fun _ ws => ws = [])
      (do let steps ← (Query.getSteps run.id).issue; reconcileTx run steps) H
      (fun _ _ ws => ws = []) := by
  refine Triple.bind (read_rule _ (fun _ _ => rfl) (fun _ => Robust.pure (· = []))
    (fun _ _ _ _ hF => hF)) (fun steps => reconcileTx_ended hend steps)

end

/-- A transaction that has not written anything. The runs about which something is
known are upright. -/
def Fresh (q : UUID → Prop) (v : Db) (ws : List Write) : Prop :=
  ws = [] ∧ ∀ runID, q runID → Upright runID v

theorem Fresh.robust {A : Label → Prop} {Err : Error → Prop} {H : List Lock}
    {Q : UUID → Db → Prop} {q : UUID → Prop}
    (hR : ∀ runID, Regime A Err runID (Q runID) (q runID)) :
    engine.Robust A H (Fresh q) := by
  rintro v ws l u hb hl hact - - ⟨hws, hup⟩
  refine ⟨hws, fun runID hq => ?_⟩
  have hloyal := (hR runID).loyal hq l hl
  exact (hup runID hq).act hb hact hloyal.1 hloyal.2

/-- Nothing has been done yet. -/
abbrev Beginning (F : Db → List Write → Prop) : Db → List Write → Prop :=
  engine.Holds (fun _ => False) [] F

end Orchestrator
