import Orchestrator.Invariant.Evolution

/-!
# Actions do not disturb each other

The conditions of an action survive in every later state that agrees on the rows
which its writes lock. So an action stays possible after another one that takes
different locks.
-/

namespace Orchestrator

open Lib

section Monotone

variable {v v' : Db} (h : v.Evolves v')

include h

/-- A step that has ended is not changed. -/
theorem Db.Evolves.mem_of_terminal {t : Step} (ht : t ∈ v.steps)
    (hdone : stepTerminal t.status = true) : t ∈ v'.steps := by
  obtain ⟨t', ht', hev⟩ := h.steps t ht
  exact hev.done hdone ▸ ht'

/-- Dependencies that are over in the right way stay so. -/
theorem Db.Evolves.depsDone {t : Step} (hdeps : DepsDone v.steps t) : DepsDone v'.steps t := by
  intro dep hdep
  obtain ⟨d, hd, hrun, hname, hst⟩ := hdeps dep hdep
  exact ⟨d, h.mem_of_terminal hd (by rw [hst]; rfl), hrun, hname, hst⟩

/-- A step that cannot run any more stays blocked. -/
theorem Db.Evolves.blocked {t : Step} (hb : Blocked v.steps t) : Blocked v'.steps t := by
  obtain ⟨d, hd, hrun, hname, hbad⟩ := hb
  refine ⟨d, h.mem_of_terminal hd ?_, hrun, hname, hbad⟩
  cases hst : d.status <;> simp [hst, StepStatus.isBad] at hbad <;> rfl

/-- The steps of a run that have all ended stay what they are. -/
theorem Db.Evolves.mem_iff_of_allDone {id : UUID} {r : WorkflowRun} (hr : v.runs.get? id = some r)
    (hall : AllDone v.steps id) {t : Step} (hrun : t.workflowRunID = id) :
    t ∈ v'.steps ↔ t ∈ v.steps := by
  constructor
  · intro ht
    rcases h.newSteps t ht with ⟨s, hs, hev⟩ | hnone
    · have hsrun : s.workflowRunID = id := (Step.run_of_info hev.info).symm.trans hrun
      rwa [hev.done (hall s hs hsrun)]
    · rw [hrun, hr] at hnone
      cases hnone
  · exact fun ht => h.mem_of_terminal ht (hall t ht hrun)

/-- A run whose steps are all over gets no new ones. -/
theorem Db.Evolves.allDone {id : UUID} {r : WorkflowRun} (hr : v.runs.get? id = some r)
    (hall : AllDone v.steps id) : AllDone v'.steps id :=
  fun t ht hrun => hall t ((h.mem_iff_of_allDone hr hall hrun).mp ht) hrun

/-- Once all steps are over, the outcome of the run is settled. -/
theorem Db.Evolves.outcome {id : UUID} {r : WorkflowRun} (hr : v.runs.get? id = some r)
    (hall : AllDone v.steps id) {next : RunStatus} (hout : Outcome v.steps id next) :
    Outcome v'.steps id next := by
  have hmem := fun {t : Step} => h.mem_iff_of_allDone hr hall (t := t)
  cases next with
  | failed =>
    obtain ⟨t, ht, hrun, hst⟩ := hout
    exact ⟨t, (hmem hrun).mpr ht, hrun, hst⟩
  | cancelled =>
    obtain ⟨hno, t, ht, hrun, hst⟩ := hout
    exact ⟨fun t ht hrun => hno t ((hmem hrun).mp ht) hrun, t, (hmem hrun).mpr ht, hrun, hst⟩
  | completed => exact fun t ht hrun => hout t ((hmem hrun).mp ht) hrun
  | pending => exact hout
  | running => exact hout

/-- Once all steps are over, so are the outputs. -/
theorem Db.Evolves.completedOutputs {id : UUID} {r : WorkflowRun} (hr : v.runs.get? id = some r)
    (hall : AllDone v.steps id) :
    Orchestrator.completedOutputs v'.steps id = Orchestrator.completedOutputs v.steps id := by
  unfold Orchestrator.completedOutputs
  rw [Table.filter_rows_congr (t := v'.steps) (u := v.steps)]
  intro t ht
  exact h.mem_iff_of_allDone hr hall (by simpa using (of_decide_eq_true ht).1)

/-- A step that may be dispatched stays so. -/
theorem Db.Evolves.dispatchable {t : Step} (hd : Dispatchable v.steps t) :
    Dispatchable v'.steps t := by
  rcases hd with ⟨hst, htype, hdeps⟩ | hst
  · exact Or.inl ⟨hst, htype, h.depsDone hdeps⟩
  · exact Or.inr hst

end Monotone

section Locks

/-- No write, no lock. -/
@[simp] theorem locksOf_nil : backend.locksOf [] = [] := rfl

/-- The locks of a log are those of its writes. -/
@[simp] theorem locksOf_cons (x : Write) (ws : List Write) :
    backend.locksOf (x :: ws) = x.locks ++ backend.locksOf ws := rfl

/-- The locks of a log are those of its two halves. -/
@[simp] theorem locksOf_append (ws us : List Write) :
    backend.locksOf (ws ++ us) = backend.locksOf ws ++ backend.locksOf us :=
  backend.locksOf_append ws us

/-- An event locks its run and its place in the history. -/
@[simp] theorem locksOf_historyWrites (r : WorkflowRun) (eventType : EventType)
    (payload : Option Json) (now : Time) :
    backend.locksOf (historyWrites r eventType payload now) =
      [.run r.id, .history r.id (r.historySeq + 1)] := rfl

variable (s : Step) (r : WorkflowRun) (a : TaskAttempt)

/-- An update does not rename a step. -/
@[simp] theorem Step.id_transition (next : StepStatus) (output : Option RawMessage)
    (errMsg : Option String) (bump : Bool) (now : Time) :
    (s.transition next output errMsg bump now).id = s.id := rfl

/-- An update does not rename a run. -/
@[simp] theorem WorkflowRun.id_transition (next : RunStatus) (output : Option RawMessage)
    (errMsg : Option String) (now : Time) : (r.transition next output errMsg now).id = r.id := rfl

/-- Completing an attempt does not rename it. -/
@[simp] theorem TaskAttempt.id_complete (success : Bool) (result : Option RawMessage)
    (errMsg : Option String) (now : Time) : (a.complete success result errMsg now).id = a.id := rfl

/-- Leasing an attempt does not rename it. -/
@[simp] theorem TaskAttempt.id_lease (workerID : String) (leaseFor : ℕ) (now : Time) :
    (a.lease workerID leaseFor now).id = a.id := rfl

/-- Expiring a lease does not rename the attempt. -/
@[simp] theorem TaskAttempt.id_expire (now : Time) : (a.expire now).id = a.id := rfl

/-- Each of the steps that are written is locked. -/
theorem mem_locksOf_steps {steps : List Step} {t : Step} (ht : t ∈ steps) :
    Lock.step t.id ∈ backend.locksOf (steps.map .step) :=
  List.mem_flatMap.mpr ⟨.step t, List.mem_map_of_mem ht, by simp [backend]⟩

end Locks

section Transfer

variable {v v' : Db}

/-- A locked row is found again. -/
theorem run_transfer {id : UUID} {r : WorkflowRun} (hr : v.runs.get? id = some r)
    (hsame : (Lock.run r.id).Same v v') : v'.runs.get? id = some r := by
  have hkey : r.id = id := Table.key_of_get? hr
  rw [Lock.Same, hkey] at hsame
  rw [hsame, hr]

/-- A locked row is found again. -/
theorem step_transfer {id : UUID} {t : Step} (ht : v.steps.get? id = some t)
    (hsame : (Lock.step t.id).Same v v') : v'.steps.get? id = some t := by
  have hkey : t.id = id := Table.key_of_get? ht
  rw [Lock.Same, hkey] at hsame
  rw [hsame, ht]

/-- An attempt can be closed later too, if nothing has touched its rows. -/
theorem Closes.transfer {a : TaskAttempt} {success : Bool} {result : Option RawMessage}
    {ws : List Write} (hclose : Closes v a success result ws) (hev : v.Evolves v')
    (hsame : ∀ l ∈ backend.locksOf ws, l.Same v v') : Closes v' a success result ws := by
  cases hclose with
  | report ha hst => exact .report (Eq.trans (hsame (.attempt a.id) (by simp)) ha) hst
  | expiry ha hst hnot =>
    obtain ⟨b, hb, hab⟩ := hev.attempt ha
    obtain rfl := hab.done (by simp [TaskAttempt.isLive, hst])
    exact .expiry hb hst (Eq.trans (hsame (.handled b.id) (by simp)) hnot)

/-- The conditions of an action survive where its locks are held. -/
theorem Act.transfer {l : Label} {u : List Write} (hact : Act l v u) (hev : v.Evolves v')
    (hsame : ∀ l ∈ backend.locksOf u, l.Same v v') : Act l v' u := by
  cases hact with
  | define hwf hnew hno =>
    exact .define hwf (Eq.trans (hsame (.definition _) (by simp)) hnew)
      (hsame (.version _ _) (by simp) hno)
  | create hd hr hsteps hnew hnodup =>
    obtain ⟨d', hd', rfl⟩ := hev.definitions _ hd
    refine .create hd' (Eq.trans (hsame (.run _) (by simp [newRun])) hr) hsteps ?_ hnodup
    intro t ht
    exact Eq.trans (hsame (.step t.id) (by simp [mem_locksOf_steps ht])) (hnew t ht)
  | skip ht hst hb hr =>
    exact .skip (step_transfer ht (hsame _ (by simp))) hst (hev.blocked hb)
      (run_transfer hr (hsame _ (by simp)))
  | park ht hst htype hdeps =>
    exact .park (step_transfer ht (hsame _ (by simp))) hst htype (hev.depsDone hdeps)
  | resolve hs hproc hsrun hname ht hst htype hdeps hr =>
    exact .resolve (Eq.trans (hsame (.signal _) (by simp)) hs) hproc hsrun hname
      (step_transfer ht (hsame _ (by simp))) hst htype (hev.depsDone hdeps)
      (run_transfer hr (hsame _ (by simp)))
  | burn hs hproc => exact .burn (Eq.trans (hsame (.signal _) (by simp)) hs) hproc
  | dispatch ht hdisp hnew hslot hmsg hr =>
    exact .dispatch (step_transfer ht (hsame _ (by simp))) (hev.dispatchable hdisp)
      (Eq.trans (hsame (.attempt _) (by simp [newAttempt])) hnew)
      (hsame (.slot _ _) (by simp [newAttempt]) hslot)
      (Eq.trans (hsame (.outbox _) (by simp [newMessage])) hmsg)
      (run_transfer hr (hsame _ (by simp)))
  | succeed hclose ht hst hvalid hr =>
    exact .succeed (hclose.transfer hev (fun l hl => hsame l (by simp [hl])))
      (step_transfer ht (hsame _ (by simp))) hst hvalid (run_transfer hr (hsame _ (by simp)))
  | retry hclose ht hst hlt htm hshard hnew hr =>
    exact .retry (hclose.transfer hev (fun l hl => hsame l (by simp [hl])))
      (step_transfer ht (hsame _ (by simp))) hst hlt htm hshard
      (Eq.trans (hsame (.timer _) (by simp)) hnew) (run_transfer hr (hsame _ (by simp)))
  | giveUp hclose ht hst hge hr =>
    exact .giveUp (hclose.transfer hev (fun l hl => hsame l (by simp [hl])))
      (step_transfer ht (hsame _ (by simp))) hst hge (run_transfer hr (hsame _ (by simp)))
  | late hclose ht hst htms =>
    obtain ⟨t', ht', hev'⟩ := hev.step ht
    obtain rfl := hev'.done (by rw [hst]; rfl)
    refine .late (hclose.transfer hev (fun l hl => hsame l (by simp [hl]))) ht' hst
      (htms.imp id ?_)
    rintro ⟨tm, rfl, htm, hshard, hnew⟩
    exact ⟨tm, rfl, htm, hshard, Eq.trans (hsame (.timer _) (by simp)) hnew⟩
  | start hr hst => exact .start (run_transfer hr (hsame _ (by simp))) hst
  | finish hr hst hall hout =>
    rw [← hev.completedOutputs hr hall]
    exact .finish (run_transfer hr (hsame _ (by simp))) hst (hev.allDone hr hall)
      (hev.outcome hr hall hout)
  | cancelStep ht hst => exact .cancelStep (step_transfer ht (hsame _ (by simp))) hst
  | cancelRun hr hst => exact .cancelRun (run_transfer hr (hsame _ (by simp))) hst
  | cancelEvent hr hst => exact .cancelEvent (run_transfer hr (hsame _ (by simp))) hst
  | signal hnew hvalid hr =>
    obtain ⟨r', hr', -⟩ := hev.run hr
    exact .signal (Eq.trans (hsame (.signal _) (by simp)) hnew) hvalid hr'
  | log hr => exact .log (run_transfer hr (hsame _ (by simp)))
  | claim ha hst => exact .claim (Eq.trans (hsame (.attempt _) (by simp)) ha) hst
  | heartbeat ha hst => exact .heartbeat (Eq.trans (hsame (.attempt _) (by simp)) ha) hst
  | expire ha hst => exact .expire (Eq.trans (hsame (.attempt _) (by simp)) ha) hst
  | running ht hst => exact .running (step_transfer ht (hsame _ (by simp))) hst
  | fireTimer htm hst => exact .fireTimer (Eq.trans (hsame (.timer _) (by simp)) htm) hst
  | cancelTimer htm hst => exact .cancelTimer (Eq.trans (hsame (.timer _) (by simp)) htm) hst
  | publish hm => exact .publish (Eq.trans (hsame (.outbox _) (by simp)) hm)

/-- What is under a lock that the writes do not take is left alone. -/
theorem same_applyAll (v : Db) {u : List Write} {l : Lock} (hl : l ∉ backend.locksOf u) :
    l.Same v (backend.applyAll v u) := by
  induction u generalizing v with
  | nil => exact .refl v l
  | cons x u ih =>
    rw [locksOf_cons, List.mem_append, not_or] at hl
    exact (Lock.same_apply v hl.1).trans (ih (v.apply x) hl.2)

/-- An action stays possible after another one that takes different locks. -/
theorem Act.keep {l l' : Label} {u u' : List Write} (hact : Act l v u) (hact' : Act l' v u')
    (hdisj : (backend.locksOf u).Disjoint (backend.locksOf u')) :
    Act l (backend.applyAll v u') u :=
  hact.transfer hact'.evolves (fun _ hl => same_applyAll v (fun hl' => hdisj hl hl'))

end Transfer

end Orchestrator
