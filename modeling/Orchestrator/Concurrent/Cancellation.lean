import Orchestrator.Concurrent.Nodes

/-!
# Cancellation among other calls

`CancelRun` reads the steps of a run without locking them and then updates each
one on the condition that its status is still the one it read. An update that
misses its row is ignored. As long as none of them does, a run that has been
cancelled has no step left that goes on and one event that says so. A worker that
starts a task between the reading and the update makes one miss.
-/

namespace Orchestrator

open Lib Actions

/-- Calls of any kind, where the updates of a cancellation find their row in a
status that they expect. -/
def cancellation : Service Query Error Db Write Call where
  begin := Call.session
  allows := fun c _ op v => c.cancelTarget.isSome = true → op.onTarget v = true
  decAllows := fun _ _ _ _ => inferInstance

/-- What a call commits: actions that cancel nothing, or a complete cancellation. -/
def Commits (c : Call) (s : Db) (w : List Write) : Prop :=
  match c.cancelTarget with
  | none => engine.Steps (fun l => l.kind.cancels = false) s w
  | some runID => HasEnded runID (backend.applyAll s w) ∧ (w = [] ∨
      engine.Steps (Cancelling runID) s w ∧ Cancelled runID (backend.applyAll s w))

theorem Commits.steps {c : Call} {s : Db} {w : List Write} (h : Commits c s w) :
    engine.Steps (fun _ => True) s w := by
  unfold Commits at h
  split at h
  · exact h.mono (fun _ _ => trivial)
  · rcases h.2 with rfl | ⟨h, -⟩
    · exact .nil
    · exact h.mono (fun _ _ => trivial)

theorem Commits.keep {c : Call} {s : Db} {w : List Write} (hs : Coherent s) (h : Commits c s w) :
    Coherent (backend.applyAll s w) := by
  unfold Commits at h
  split at h
  · exact hs.steps h (fun _ hl => hl)
  · rcases h.2 with rfl | ⟨h, hdone⟩
    · exact hs
    · exact hs.cancel h hdone

/-- What the calls of an interleaving commit. -/
theorem cancellation_obligations :
    World.Obligations backend cancellation Coherent (engine.Rely (fun _ => True))
      (engine.Steps (fun _ => True)) (fun _ _ _ => True) Commits
      (fun c v => ∀ runID, c.cancelTarget = some runID → HasEnded runID v) where
  start c s σ hσ hs hauto := by
    rw [Call.tag_session hσ]
    cases hcancel : c.cancelTarget with
    | none =>
      refine (Call.admitted (Q := fun _ _ => False) (q := fun _ => False) (fun _ => Regime.free)
        (fun _ hq => hq.elim) (fun _ _ => Regime.free.quiet_of_not id) hcancel hσ hauto).start
        (fun _ hs => hs.base) ?_
      rintro s w - ⟨_, h⟩
      unfold Commits
      rw [hcancel]
      exact h.steps.mono (fun _ hl => hl.kind.1)
    | some runID =>
      have hsure : Sure (fun _ => True) (cancellation.allows c) True := fun _ =>
        Or.inr (fun _ _ h => h (by rw [hcancel]; rfl))
      refine (Call.admitted_cancel hsure hcancel hσ).start (fun _ hs => hs.base)
        (fun s w _ h => ?_)
      unfold Commits
      rw [hcancel]
      exact ⟨h.1, h.2.imp id (fun h => ⟨h.1, h.2 trivial⟩)⟩
  startAuto c s σ hσ hs hauto := by
    have hnone : c.cancelTarget = none := by
      cases c with
      | cancelRun runID =>
        obtain rfl := Option.some.inj hσ
        cases hauto
      | applySignal runID name payload =>
        obtain rfl := Option.some.inj hσ
        cases hauto
      | _ => rfl
    rw [Call.tag_session hσ]
    refine Call.startAuto (fun _ hs => hs.base)
      (fun s w hs h => ⟨hs.steps h (fun _ hl => hl.1.calm.2), h.mono (fun _ _ => trivial)⟩)
      (fun s hs runID hid => ?_) hσ hauto
    rw [hnone] at hid
    cases hid
  inv _ _ _ hs h := h.keep hs
  guarantee _ _ _ _ h := h.steps
  result c s w hs h runID hid := by
    unfold Commits at h
    rw [hid] at h
    exact h.1
  rely _ _ w' _ h hdisj := ⟨w', h, hdisj, rfl⟩
  kept c s w hs h hK runID hid := by
    have hev : s.Evolves (backend.applyAll s w) := h.induct hs.base (.refl s)
      (fun _ _ _ _ _ hact hev => hev.trans (Act.evolves hact))
    exact (hK runID hid).evolve hev

/-- Once a cancellation has returned, the run is cancelled with all of its steps
and one event that says so, or it had ended by itself and there is no such event. -/
theorem cancellation_complete {W : World Query Error Db Write Call}
    (h : World.Reachable backend cancellation Db.empty W) {c : Call} (hc : c ∈ W.done)
    {runID : UUID} (hid : c.cancelTarget = some runID) :
    ∃ r, W.db.runs.get? runID = some r ∧
      ((r.status = .cancelled ∧ AllDone W.db.steps runID ∧
          ∃! e, e ∈ W.db.history ∧ e.Cancels runID) ∨
        ((r.status = .completed ∨ r.status = .failed) ∧
          ∀ e ∈ W.db.history, ¬ e.Cancels runID)) := by
  have hok := h.ok cancellation_obligations Coherent.empty
  obtain ⟨r, hr, hend⟩ := hok.kept c hc runID hid
  have hsound := hok.inv.sound runID
  refine ⟨r, hr, ?_⟩
  by_cases hst : r.status = .cancelled
  · exact Or.inl ⟨hst, hsound.ended r hr hst⟩
  · refine Or.inr ⟨?_, hsound.events r hr hst⟩
    cases hs : r.status with
    | completed => exact Or.inl rfl
    | failed => exact Or.inr rfl
    | cancelled => exact absurd hs hst
    | _ =>
      rw [hs] at hend
      cases hend

/-- One step. -/
def soloDefinition : Definition := ⟨"solo", 0, [⟨"a", "work", [], none, 0, 0, 0, 0, 0⟩]⟩

/-- A run of one step is created. -/
def soloSchedule : List (Action Call Draw) :=
  [.start (.registerDefinition soloDefinition)] ++ Call.turns 0 100 1 ++ [.commit 0] ++
  [.start (.createRun "solo" 0 none)] ++ Call.turns 1 200 14 ++ [.commit 1]

/-- A worker starts the step, and then the run is cancelled. -/
def claimThenCancel : List (Action Call Draw) :=
  soloSchedule ++ [.start (.claimTask defaultLeaseDuration 208 208 "w")] ++
  Call.turns 2 300 4 ++ [.commit 2] ++
  [.start (.cancelRun 201)] ++ Call.turns 3 310 6 ++ [.commit 3]

/-- The world at the end of that. -/
def cancelledWorld : World Query Error Db Write Call :=
  (World.run backend cancellation claimThenCancel (.init Db.empty)).get (by decide +kernel)

/-- The run is cancelled, and so is its step. -/
theorem cancellation_complete_claimed :
    cancelledWorld.db.steps.rows.map (·.status) = [.cancelled] ∧
    ∃ r, cancelledWorld.db.runs.get? 201 = some r ∧
      ((r.status = .cancelled ∧ AllDone cancelledWorld.db.steps 201 ∧
          ∃! e, e ∈ cancelledWorld.db.history ∧ e.Cancels 201) ∨
        ((r.status = .completed ∨ r.status = .failed) ∧
          ∀ e ∈ cancelledWorld.db.history, ¬ e.Cancels 201)) := by
  have hreach : World.Reachable backend cancellation Db.empty cancelledWorld :=
    .run .init (Option.some_get _).symm
  have hdone : ∃ c ∈ cancelledWorld.done, c.cancelTarget = some 201 := by decide +kernel
  obtain ⟨c, hc, hid⟩ := hdone
  exact ⟨by decide +kernel, cancellation_complete hreach hc hid⟩

/-- The worker starts the step after `CancelRun` has read it. -/
def claimDuringCancel : List (Action Call Draw) :=
  soloSchedule ++ [.start (.cancelRun 201)] ++ Call.turns 2 300 2 ++
  [.start (.claimTask defaultLeaseDuration 208 208 "w")] ++ Call.turns 3 310 4 ++ [.commit 3] ++
  Call.turns 2 320 4 ++ [.commit 2]

/-- The world at the end of that. -/
def missedWorld : World Query Error Db Write Call :=
  (World.run backend nodes claimDuringCancel (.init Db.empty)).get (by decide +kernel)

/-- All calls have ended and the run is cancelled, but its step goes on. -/
theorem cancellation_missed :
    World.Reachable backend nodes Db.empty missedWorld ∧ missedWorld.Idle ∧
    (∃ c ∈ missedWorld.done, c.cancelTarget = some 201) ∧
    missedWorld.db.runs.rows.map (fun r => (r.id, r.status)) = [(201, .cancelled)] ∧
    missedWorld.db.steps.rows.map (fun t => (t.workflowRunID, t.status)) = [(201, .running)] := by
  refine ⟨.run .init (Option.some_get _).symm, World.idle_of_all ?_, ?_, ?_, ?_⟩
  all_goals decide +kernel

end Orchestrator
