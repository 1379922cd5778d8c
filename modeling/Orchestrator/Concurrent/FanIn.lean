import Orchestrator.Concurrent.Nodes

/-!
# No fan-in is lost

When the dependencies of a step end in transactions that run at the same time, one
of them dispatches the step. Each of them records an event of the run before it
reads the steps. The event takes the lock of the run's row, so the last one to read
sees what the others have committed. Parking a step takes no such lock, which is
why the run must not have steps that wait for signals.
-/

namespace Orchestrator

open Lib Actions

/-- No step of the run waits for a signal. -/
def NoSignalWait (runID : UUID) (v : Db) : Prop :=
  ∀ t ∈ v.steps, t.workflowRunID = runID → t.taskType ≠ signalWaitTaskType

theorem NoSignalWait.back {runID : UUID} {v v' : Db} (hev : v.Evolves v')
    (h : NoSignalWait runID v') : NoSignalWait runID v := by
  intro t ht hrun
  obtain ⟨t', ht', htt'⟩ := hev.steps t ht
  rw [← Step.type_of_info htt'.info]
  exact h t' ht' ((Step.run_of_info htt'.info).trans hrun)

/-- The actions while the run is not cancelled. -/
def Loyal (runID : UUID) (l : Label) : Prop :=
  l ≠ ⟨runID, .cancelStep⟩ ∧ l ≠ ⟨runID, .cancelRun⟩

theorem loyal_of_ne {runID : UUID} {l : Label} (h : l.run ≠ runID) : Loyal runID l :=
  ⟨fun heq => h (heq ▸ rfl), fun heq => h (heq ▸ rfl)⟩

theorem loyal_of_not_cancels {runID : UUID} {l : Label} (h : l.kind.cancels = false) :
    Loyal runID l := by
  refine ⟨fun heq => ?_, fun heq => ?_⟩
  · rw [heq] at h
    cases h
  · rw [heq] at h
    cases h

theorem loyal_of_works {runID id : UUID} {l : Label} (h : Works id l) : Loyal runID l :=
  loyal_of_not_cancels h.kind.1

/-- A step is parked only if it waits for a signal. -/
theorem Act.parks {l : Label} {v : Db} {u : List Write} (hact : Act l v u)
    (hkind : l.kind = .park) : ¬ NoSignalWait l.run v := by
  cases hact with
  | park ht _ htype _ => exact fun hno => hno _ (Table.mem_of_get? ht) rfl htype
  | _ => cases hkind

/-- One run is not cancelled, and is neither sent signals nor reconciled on
request. -/
def fanIn (runID : UUID) : Service Query Error Db Write Call where
  begin c v :=
    if c.unlockedTarget = some runID ∨ c.cancelTarget = some runID then none else c.session v
  allows := fun _ _ _ _ => True
  decAllows := fun _ _ _ _ => isTrue trivial

section

variable {runID : UUID}

/-- Without signals and cancellations, whoever holds the lock of the run's row is
alone with its steps. -/
theorem fanIn_regime (runID id : UUID) : Regime (Loyal runID) (fun _ => True) id
    (fun v => id = runID ∧ NoSignalWait runID v) (id = runID) where
  back hev h := ⟨h.1, h.2.back hev⟩
  calm := by
    rintro l v u hb hl hact hlock ⟨rfl, hno⟩
    refine Act.calm hb hact (or_iff_not_imp_left.mpr (fun hrun => ?_))
    obtain hrun : l.run = id := not_not.mp hrun
    rcases hact.run_lock with hcalm | hpark | hcancel | hin
    · exact hcalm
    · exact absurd (hrun ▸ hno) (hact.parks hpark)
    · exact absurd (by rw [← hrun, ← hcancel]) hl.1
    · exact absurd (hrun ▸ hin) hlock
  known _ h := h.1
  loyal h l hl := h ▸ hl
  errors := Or.inl (fun _ => trivial)

/-- The invariant of the run. -/
structure Joined (runID : UUID) (v : Db) : Prop where
  base : Base v
  upright : Upright runID v
  kept : ∀ t ∈ v.steps, t.workflowRunID = runID → t.status ≠ .cancelled
  settled : NoSignalWait runID v → Quiescent runID v

/-- What a call commits. -/
def Joins (runID : UUID) (s : Db) (w : List Write) : Prop :=
  engine.Steps (Loyal runID) s w ∧ (Calm runID s (backend.applyAll s w) ∨
    (NoSignalWait runID (backend.applyAll s w) → Quiescent runID (backend.applyAll s w)))

/-- Actions that leave the run alone. -/
theorem Joins.of_calm {C : Label → Prop} {s : Db} {w : List Write} (hb : Base s)
    (h : engine.Steps C s w) (hloyal : ∀ l, C l → Loyal runID l)
    (hcalm : ∀ l, C l → l.run ≠ runID ∨ l.kind.calm = true) : Joins runID s w :=
  ⟨h.mono hloyal, Or.inl (.of_steps hb h hcalm)⟩

theorem Joins.of_concluded {id : UUID} {s : Db} {w : List Write} (hb : Base s)
    (h : Concluded (fun v => id = runID ∧ NoSignalWait runID v) id s w) : Joins runID s w := by
  by_cases hid : id = runID
  · subst hid
    rcases h with hidle | ⟨hsteps, hquiet⟩
    · exact .of_calm hb hidle (fun _ hl => loyal_of_works hl.1) (fun _ hl => Or.inr hl.2)
    · exact ⟨hsteps.mono (fun _ hl => loyal_of_works hl), Or.inr (fun hno => hquiet ⟨rfl, hno⟩)⟩
  · exact .of_calm hb h.steps (fun _ hl => loyal_of_works hl)
      (fun _ hl => Or.inl (hl.1.trans_ne hid))

/-- What is committed keeps the invariant. -/
theorem Joined.keep {s : Db} {w : List Write} (h : Joined runID s) (hw : Joins runID s w) :
    Joined runID (backend.applyAll s w) where
  base := Steps.inv hw.1 h.base
  upright := hw.1.induct h.base h.upright
    (fun _ _ _ hb hl hact hup => hup.act hb hact hl.1 hl.2)
  kept := hw.1.induct (P := fun v => ∀ t ∈ v.steps, t.workflowRunID = runID →
      t.status ≠ .cancelled) h.base h.kept (fun v l u hb hl hact hkept t ht hrun hst =>
    hkept t (Act.mem_of_cancelled hb hact hl.1 ht hrun hst) hrun hst)
  settled hno := by
    rcases hw.2 with hcalm | hquiet
    · have hev : s.Evolves (backend.applyAll s w) := hw.1.induct h.base (.refl s)
        (fun _ _ _ _ _ hact hev => hev.trans (Act.evolves hact))
      exact (h.settled (hno.back hev)).calm hcalm
    · exact hquiet hno

theorem Joined.empty : Joined runID Db.empty where
  base := Base.empty
  upright := ⟨fun _ ht => absurd ht (Table.not_mem_empty _), fun _ hr => by cases hr⟩
  kept _ ht := absurd ht (Table.not_mem_empty _)
  settled _ := ⟨(fun _ hr => by cases hr), fun _ ht => absurd ht (Table.not_mem_empty _),
    fun _ _ ht => absurd ht (Table.not_mem_empty _)⟩

/-- What the calls of an interleaving commit. -/
theorem fanIn_obligations :
    World.Obligations backend (fanIn runID) (Joined runID) (engine.Rely (Loyal runID))
      (Joins runID) (fun _ _ _ => True) (fun _ => Joins runID) (fun _ _ => True) where
  start c s σ hσ hs hauto := by
    simp only [fanIn] at hσ
    split_ifs at hσ with hcall
    obtain ⟨hunlocked, hcancels⟩ := not_or.mp hcall
    cases hcancel : c.cancelTarget with
    | none =>
      refine (Call.admitted (fanIn_regime runID) (fun _ hid => hid ▸ hs.upright)
        (fun id hid => (fanIn_regime runID id).quiet_of_not (fun heq =>
          hunlocked (hid.trans (congrArg some heq)))) hcancel hσ hauto).start (fun _ h => h.base)
        (fun s w hs h => ?_)
      obtain ⟨id, h⟩ := h
      exact .of_concluded hs.base h
    | some id =>
      have hne : id ≠ runID := fun heq => hcancels (heq ▸ hcancel)
      refine (Call.admitted_cancel (ψ := False) (fun h => h.elim) hcancel hσ).start
        (fun _ h => h.base) (fun s w hs h => ?_)
      rcases h.2 with rfl | ⟨h, -⟩
      · exact .of_calm (C := fun _ => False) hs.base .nil (fun _ hl => hl.elim)
          (fun _ hl => hl.elim)
      · exact .of_calm hs.base h (fun _ hl => loyal_of_ne (hl.1.trans_ne hne))
          (fun _ hl => Or.inl (hl.1.trans_ne hne))
  startAuto c s σ hσ hs hauto := by
    simp only [fanIn] at hσ
    split_ifs at hσ
    refine Call.startAuto (fun _ h => h.base) (fun s w hs h => ?_) (fun _ _ => trivial) hσ hauto
    have hw : Joins runID s w := .of_calm hs.base h (fun _ hl => loyal_of_not_cancels hl.1.calm.2)
      (fun _ hl => Or.inr hl.1.calm.1)
    exact ⟨hs.keep hw, hw⟩
  inv _ _ _ hs h := hs.keep h
  guarantee _ _ _ _ h := h
  result _ _ _ _ _ := trivial
  rely _ _ w' _ h hdisj := ⟨w', h.1, hdisj, rfl⟩
  kept _ _ _ _ _ _ := trivial

/-- In a run that is not cancelled, a step whose dependencies have ended is not
pending. -/
theorem Joined.not_pending {v : Db} (h : Joined runID v) (hno : NoSignalWait runID v) {j : Step}
    (hj : j ∈ v.steps) (hrun : j.workflowRunID = runID)
    (hended : ∀ d ∈ v.steps, d.workflowRunID = runID → d.stepName ∈ j.dependsOn →
      stepTerminal d.status = true) : j.status ≠ .pending := by
  intro hst
  refine (h.settled hno).dispatched hno j hj hrun hst (fun dep hdep => ?_)
  obtain ⟨d, hd, hdrun, rfl⟩ := h.base.graph.dep_exists hj hdep
  refine ⟨d, hd, hdrun, rfl, StepStatus.eq_completed (hended d hd (hdrun.trans hrun) hdep) ?_⟩
  by_contra hbad
  exact (h.settled hno).unblocked j hj hrun hst ⟨d, hd, hdrun, hdep, by simpa using hbad⟩

end

/-- However the reports, timers and lease expiries of a run interleave, a step is
dispatched once its dependencies have completed, and skipped once they have ended
and one of them has not. -/
theorem fanIn_never_lost {runID : UUID} {W : World Query Error Db Write Call}
    (h : World.Reachable backend (fanIn runID) Db.empty W) (hno : NoSignalWait runID W.db)
    {j : Step} (hj : j ∈ W.db.steps) (hrun : j.workflowRunID = runID)
    (hended : ∀ d ∈ W.db.steps, d.workflowRunID = runID → d.stepName ∈ j.dependsOn →
      stepTerminal d.status = true) :
    j.status ≠ .pending ∧
    (DepsDone W.db.steps j → ∃! a, a ∈ W.db.attempts ∧ a.stepID = j.id ∧ a.attemptNumber = 1) ∧
    (∀ d ∈ W.db.steps, d.workflowRunID = runID → d.stepName ∈ j.dependsOn →
      d.status = .failed ∨ d.status = .skipped →
      j.status = .skipped ∧ ∀ a ∈ W.db.attempts, a.stepID ≠ j.id) := by
  have hjoined : Joined runID W.db := (h.ok fanIn_obligations Joined.empty).inv
  have hgraph := hjoined.base.graph
  have hledger := hjoined.base.ledger
  have hpending := hjoined.not_pending hno hj hrun hended
  have hkept := hjoined.kept j hj hrun
  refine ⟨hpending, fun hdeps => ?_, fun d hd hdrun hdep hbad => ?_⟩
  · have hstarted : j.Started := by
      rcases hledger.begun_or hj with hst | hst | hst | hst
      · exact hst
      · exact absurd hst hpending
      · exact absurd (hgraph.skipped j hj hst) (hgraph.not_blocked hdeps)
      · exact absurd hst hkept
    have hpos := hledger.count_pos hj hstarted (hno j hj hrun)
    obtain ⟨a, ha, hid, hnum⟩ := (hledger.numbers j hj 1).mpr ⟨le_rfl, hpos⟩
    exact ⟨a, ⟨ha, hid, hnum⟩, fun a' ha' => hledger.slot a' ha'.1 a ha (ha'.2.1.trans hid.symm)
      (ha'.2.2.trans hnum.symm)⟩
  · have hblocked : Blocked W.db.steps j := by
      refine ⟨d, hd, hdrun.trans hrun.symm, hdep, ?_⟩
      rcases hbad with hbad | hbad <;> rw [hbad] <;> rfl
    have hst : j.status = .skipped := by
      rcases hledger.begun_or hj with hst | hst | hst | hst
      · exact absurd hblocked (hgraph.not_blocked (hgraph.deps j hj hst))
      · exact absurd hst hpending
      · exact hst
      · exact absurd hst hkept
    have hcount := (hledger.row j hj).count
    simp only [Step.CountOK, hst] at hcount
    exact ⟨hst, fun a ha => hledger.no_attempts hj hcount ha⟩

/-- The run of `joinSchedule`, served without signals and cancellations. -/
def fanInWorld : World Query Error Db Write Call :=
  (World.run backend (fanIn 201) joinSchedule (.init Db.empty)).get (by decide +kernel)

/-- The step that joins the other two. -/
def fanInStep : Step := (fanInWorld.db.steps.get? 205).get (by decide +kernel)

/-- Both reports were under way at the same time, and the step is dispatched. -/
theorem fanIn_never_lost_join :
    fanInStep.dependsOn = ["a", "b"] ∧ fanInStep.status ≠ .pending ∧
    ∃! a, a ∈ fanInWorld.db.attempts ∧ a.stepID = fanInStep.id ∧ a.attemptNumber = 1 := by
  have hno : ∀ t ∈ fanInWorld.db.steps.rows, t.workflowRunID = 201 →
      t.taskType ≠ signalWaitTaskType := by decide +kernel
  have hended : ∀ d ∈ fanInWorld.db.steps.rows, d.workflowRunID = 201 →
      d.stepName ∈ fanInStep.dependsOn → stepTerminal d.status = true := by decide +kernel
  have hdeps : ∀ dep ∈ fanInStep.dependsOn, ∃ d ∈ fanInWorld.db.steps.rows,
      d.workflowRunID = fanInStep.workflowRunID ∧ d.stepName = dep ∧ d.status = .completed := by
    decide +kernel
  have hreach : World.Reachable backend (fanIn 201) Db.empty fanInWorld :=
    .run .init (Option.some_get _).symm
  have h := fanIn_never_lost hreach hno (Table.mem_of_get? (Option.some_get _).symm)
    (by decide +kernel) hended
  exact ⟨by decide +kernel, h.1, h.2.1 hdeps⟩

end Orchestrator
