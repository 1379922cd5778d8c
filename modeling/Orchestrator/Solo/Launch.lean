import Orchestrator.Invariant.Address
import Orchestrator.Solo.Reconcile

/-!
# What the first evaluation makes of a run

A run that has just been created has no signals, and its steps are all pending. Its
first evaluation dispatches the steps without dependencies, or parks them if they
wait for a signal, leaves the others alone, and starts the run.
-/

namespace Orchestrator

open Lib

/-- The step is as it was created, or it has no dependencies and has been dispatched
or parked. -/
def Step.Launching (t : Step) : Prop :=
  (t.status = .pending ∧ t.attemptCount = 0) ∨
    (t.dependsOn = [] ∧
      ((t.taskType ≠ signalWaitTaskType ∧ t.status = .queued ∧ t.attemptCount = 1) ∨
        (t.taskType = signalWaitTaskType ∧ t.status = .waiting ∧ t.attemptCount = 0)))

/-- The run is being evaluated for the first time. -/
structure Launching (runID : UUID) (v : Db) : Prop where
  signals : ∀ sig ∈ v.signals, sig.workflowRunID ≠ runID
  busy : ∃ t ∈ v.steps, t.workflowRunID = runID
  steps : ∀ t ∈ v.steps, t.workflowRunID = runID → t.Launching
  attempts : ∀ a ∈ v.attempts, a.workflowRunID = runID → a.status = .queued
  outbox : ∀ m ∈ v.outbox, m.payload.workflowRunID = runID → m.status = .pending
  run : ∀ r, v.runs.get? runID = some r → runTerminal r.status = false

/-- What the first evaluation has established. -/
structure Launched (runID : UUID) (v : Db) : Prop where
  run : ∃ r, v.runs.get? runID = some r ∧ r.status = .running
  roots : ∀ t ∈ v.steps, t.workflowRunID = runID → t.dependsOn = [] →
    (t.taskType ≠ signalWaitTaskType ∧ t.status = .queued ∧ t.attemptCount = 1) ∨
      (t.taskType = signalWaitTaskType ∧ t.status = .waiting ∧ t.attemptCount = 0)
  others : ∀ t ∈ v.steps, t.workflowRunID = runID → t.dependsOn ≠ [] →
    t.status = .pending ∧ t.attemptCount = 0
  attempts : ∀ a ∈ v.attempts, a.workflowRunID = runID → a.status = .queued
  outbox : ∀ m ∈ v.outbox, m.payload.workflowRunID = runID → m.status = .pending

section Launching

variable {runID : UUID} {v v' : Db} {u : List Write}

theorem Step.Launching.status {t : Step} (h : t.Launching) :
    t.status = .pending ∨ t.status = .queued ∨ t.status = .waiting := by
  rcases h with ⟨hst, -⟩ | ⟨-, ⟨-, hst, -⟩ | ⟨-, hst, -⟩⟩
  · exact Or.inl hst
  · exact Or.inr (Or.inl hst)
  · exact Or.inr (Or.inr hst)

/-- No step has completed, so a step whose dependencies have completed has none. -/
theorem Launching.no_deps (h : Launching runID v) {t : Step} (hrun : t.workflowRunID = runID)
    (hdeps : DepsDone v.steps t) : t.dependsOn = [] := by
  refine List.eq_nil_iff_forall_not_mem.mpr (fun dep hdep => ?_)
  obtain ⟨d, hd, hdrun, -, hst⟩ := hdeps dep hdep
  rcases (h.steps d hd (hdrun.trans hrun)).status with hs | hs | hs <;>
    (rw [hst] at hs; cases hs)

/-- No step has come to a bad end. -/
theorem Launching.not_blocked (h : Launching runID v) {t : Step} (hrun : t.workflowRunID = runID) :
    ¬ Blocked v.steps t := by
  rintro ⟨d, hd, hdrun, -, hbad⟩
  rcases (h.steps d hd (hdrun.trans hrun)).status with hs | hs | hs <;>
    (rw [hs] at hbad; cases hbad)

/-- A pending step of the run has made no attempt. -/
theorem Launching.fresh (h : Launching runID v) {t : Step} (ht : v.steps.get? t.id = some t)
    (hrun : t.workflowRunID = runID) (hst : t.status = .pending) : t.attemptCount = 0 := by
  rcases h.steps t (Table.mem_of_get? ht) hrun with ⟨-, hzero⟩ | ⟨-, ⟨-, hs, -⟩ | ⟨-, hs, -⟩⟩
  · exact hzero
  · rw [hst] at hs
    cases hs
  · rw [hst] at hs
    cases hs

/-- The steps of the run are as before, except one. -/
theorem Launching.put (h : Launching runID v) {t : Step} (t' : Step)
    (ht : v.steps.get? t.id = some t) (hinfo : t'.info = t.info) (hlaunching : t'.Launching) :
    (∃ x ∈ v.steps.put t', x.workflowRunID = runID) ∧
      ∀ x ∈ v.steps.put t', x.workflowRunID = runID → x.Launching := by
  constructor
  · obtain ⟨x, hx, hrun⟩ := h.busy
    by_cases hid : x.id = t'.id
    · obtain rfl := Table.eq_of_key_eq hx (Table.mem_of_get? ht)
        (hid.trans (Step.id_of_info hinfo))
      exact ⟨t', Table.mem_put_self _ _, (Step.run_of_info hinfo).trans hrun⟩
    · exact ⟨x, Table.mem_put.mpr (Or.inr ⟨hx, hid⟩), hrun⟩
  · intro x hx hrun
    rcases Table.mem_put.mp hx with rfl | ⟨hx, -⟩
    · exact hlaunching
    · exact h.steps x hx hrun

/-- The row of the run is replaced by one that has not ended. -/
theorem live_put {R : Table WorkflowRun.id} {q : WorkflowRun} (hid : q.id = runID)
    (hlive : runTerminal q.status = false) (r : WorkflowRun)
    (hr : (R.put q).get? runID = some r) : runTerminal r.status = false := by
  rw [← hid, Table.get?_put_self] at hr
  exact Option.some.inj hr ▸ hlive

/-- What an evaluation does to a run that is being launched. -/
theorem Launching.pass (h : Launching runID v) (hpass : Pass runID v u) :
    Launching runID (backend.applyAll v u) := by
  cases hpass with
  | skip _ hrun _ hblocked => exact absurd hblocked (h.not_blocked hrun)
  | hear _ hrun _ _ _ hreach => exact absurd (hreach.run.trans hrun) (h.signals _ hreach.mem)
  | @park t r now ht hrun hst htype hdeps _ hr =>
    have hcount : t.attemptCount + 0 = 0 := h.fresh ht hrun hst
    obtain ⟨hbusy, hsteps⟩ := h.put (t.transition .waiting none none false now) ht rfl
      (Or.inr ⟨h.no_deps hrun hdeps, Or.inr ⟨htype, rfl, hcount⟩⟩)
    exact ⟨h.signals, hbusy, hsteps, h.attempts, h.outbox, h.run⟩
  | @dispatch t r id key messageID now now₁ now₂ now₃ ht hrun hst htype hdeps _ _ _ hr hlive =>
    have hcount : t.attemptCount + 1 = 1 := by rw [h.fresh ht hrun hst]
    obtain ⟨hbusy, hsteps⟩ := h.put (t.transition .queued none none true now₂) ht rfl
      (Or.inr ⟨h.no_deps hrun hdeps, Or.inl ⟨htype, rfl, hcount⟩⟩)
    refine ⟨h.signals, hbusy, hsteps, fun a ha harun => ?_, fun m hm hmrun => ?_, ?_⟩
    · rcases Table.mem_put.mp ha with rfl | ⟨ha, -⟩
      · rfl
      · exact h.attempts a ha harun
    · rcases Table.mem_put.mp hm with rfl | ⟨hm, -⟩
      · rfl
      · exact h.outbox m hm hmrun
    · have hid : r.id = runID := Table.key_of_get? hr
      exact live_put hid hlive
  | @start r now now' hr =>
    have hid : r.id = runID := Table.key_of_get? hr
    exact ⟨h.signals, h.busy, h.steps, h.attempts, h.outbox, live_put hid rfl⟩
  | finish _ _ hall =>
    obtain ⟨t, ht, hrun⟩ := h.busy
    have hend := hall t ht hrun
    rcases (h.steps t ht hrun).status with hs | hs | hs <;> (rw [hs] at hend; cases hend)
  | disarm _ _ _ hr hend =>
    rw [h.run _ hr] at hend
    cases hend

theorem Launching.passes (h : Launching runID v) (hpasses : Passes runID v v') (hb : Base v) :
    Launching runID v' :=
  hpasses.induct hb h (fun _ _ _ hpass h => h.pass hpass)

/-- A run that has just been created. -/
theorem Launching.create (hb : Base v) (haddr : Addressed v) (hpost : Posted v)
    (hact : Act ⟨runID, .create⟩ v u) : Launching runID (backend.applyAll v u) := by
  have hbase := hact.base hb
  cases hact with
  | @create _ d _ name input now steps payload now' hd hr hsteps hnew hnodup =>
    have hother : ∀ r ∈ v.runs, r.id ≠ runID := Table.get?_eq_none.mp hr
    have hold : ∀ t ∈ v.steps, t.workflowRunID ≠ runID := by
      intro t ht hrun
      obtain ⟨r, hr, hid⟩ := hb.graph.run t ht
      exact hother r hr (hid.trans hrun)
    rw [applyAll_create] at hbase ⊢
    refine ⟨?_, ?_, fun t ht hrun => ?_, fun a ha hrun => ?_, fun m hm hrun => ?_, ?_⟩
    · intro sig hsig hrun
      obtain ⟨r, hr, hid⟩ := hpost sig hsig
      exact hother r hr (hid.trans hrun)
    · have hrow : { newRun runID d.id name d.version (shardFor runID) input now with
          historySeq := 1 } ∈ (backend.applyAll (v.withRun (newRun runID d.id name d.version
            (shardFor runID) input now) steps) (historyWrites (newRun runID d.id name d.version
              (shardFor runID) input now) .runCreated payload now')).runs := Table.mem_put_self _ _
      obtain ⟨d', hd', hinst⟩ := hbase.graph.shape _ hrow
      obtain ⟨spec, hspec, -⟩ := (hbase.graph.definitions d' hd').exists_root
      obtain ⟨t, ht, hrun, -⟩ := hinst.back spec hspec
      exact ⟨t, ht, hrun⟩
    · rcases (Table.mem_foldl_put hnew hnodup).mp ht with ht | ht
      · obtain ⟨ns, -, stepID, at', rfl⟩ := forall₂_right hsteps t ht
        exact Or.inl ⟨rfl, rfl⟩
      · exact absurd hrun (hold t ht)
    · obtain ⟨t, ht, -, hrun', -⟩ := hb.ledger.parent a ha
      exact absurd (hrun'.symm.trans hrun) (hold t ht)
    · obtain ⟨r, hr, t, ht, a, -, -, -, hcontent⟩ := haddr.messages m hm
      have hpayload : m.payload.workflowRunID = t.workflowRunID :=
        congrArg (fun c => c.payload.workflowRunID) hcontent
      exact absurd (hpayload.symm.trans hrun) (hold t ht)
    · exact live_put rfl rfl

/-- The first evaluation of a run launches it. -/
theorem launched (hb : Base v) (haddr : Addressed v) (hpost : Posted v)
    (hact : Act ⟨runID, .create⟩ v u) (heval : Evaluated runID (backend.applyAll v u) v') :
    Launched runID v' := by
  have hb₀ := hact.base hb
  have h := (Launching.create hb haddr hpost hact).passes heval.path hb₀
  have hb' := heval.path.base hb₀
  obtain ⟨m, -, -, -, hvisited⟩ := heval.visited
  have hroots : ∀ t ∈ v'.steps, t.workflowRunID = runID → t.dependsOn = [] →
      (t.taskType ≠ signalWaitTaskType ∧ t.status = .queued ∧ t.attemptCount = 1) ∨
        (t.taskType = signalWaitTaskType ∧ t.status = .waiting ∧ t.attemptCount = 0) := by
    intro t ht hrun hdeps
    rcases h.steps t ht hrun with ⟨hst, -⟩ | ⟨-, hout⟩
    · refine absurd (fun dep hdep => ?_) (hvisited t ht hrun hst)
      rw [hdeps] at hdep
      cases hdep
    · exact hout
  have hothers : ∀ t ∈ v'.steps, t.workflowRunID = runID → t.dependsOn ≠ [] →
      t.status = .pending ∧ t.attemptCount = 0 := by
    intro t ht hrun hdeps
    exact (h.steps t ht hrun).resolve_right (fun hx => hdeps hx.1)
  refine ⟨?_, hroots, hothers, h.attempts, h.outbox⟩
  -- A step without dependencies exists and is in flight.
  obtain ⟨t₀, ht₀, hrun₀⟩ := h.busy
  obtain ⟨r, hr, hid⟩ := hb'.graph.run t₀ ht₀
  have hget : v'.runs.get? runID = some r := (hid.trans hrun₀) ▸ Table.mem_iff_get?.mp hr
  obtain ⟨d, hd, hinst⟩ := hb'.graph.shape r hr
  obtain ⟨spec, hspec, hroot⟩ := (hb'.graph.definitions d hd).exists_root
  obtain ⟨t, ht, hrun, hname⟩ := hinst.back spec hspec
  obtain ⟨spec', hspec', hname', -, hdeps, -⟩ := hinst.forth t ht hrun
  obtain rfl := List.inj_on_of_nodup_map (hb'.graph.definitions d hd).nodup hspec' hspec
    (hname'.symm.trans hname)
  have hrun : t.workflowRunID = runID := hrun.trans (hid.trans hrun₀)
  have hfly : t.status.inFlight = true := by
    rcases hroots t ht hrun (hdeps.trans hroot) with ⟨-, hst, -⟩ | ⟨-, hst, -⟩ <;> rw [hst] <;> rfl
  refine ⟨r, hget, ?_⟩
  have hlive := h.run r hget
  cases hst : r.status with
  | pending =>
    rw [heval.started r hget hst t ht hrun] at hfly
    cases hfly
  | running => rfl
  | _ =>
    rw [hst] at hlive
    cases hlive

end Launching

end Orchestrator
