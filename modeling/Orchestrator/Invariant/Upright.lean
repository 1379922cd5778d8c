import Orchestrator.Invariant.Quiescent

/-!
# How runs and steps come to be cancelled

Only cancellations make a step cancelled, and a run's status changes by a start,
by an end that its steps have brought about, or by a cancellation. A run is
upright if a cancelled step means that the run has ended, and a run that has
ended has only steps that have. Actions that do not cancel keep a run upright.
-/

namespace Orchestrator

open Lib

/-- The kinds of actions by which a run is cancelled. -/
def Kind.cancels : Kind → Bool
  | .cancelStep | .cancelRun | .cancelEvent => true
  | _ => false

section Changes

variable {runID : UUID} {l : Label} {v : Db} {u : List Write}

/-- A transition to another status leaves the cancelled steps alone. -/
private theorem mem_of_transition {T : Table Step.id} {s t : Step} {next : StepStatus}
    {output : Option RawMessage} {errMsg : Option String} {bump : Bool} {now : Time}
    (hT : T = v.steps) (ht : t ∈ T.put (s.transition next output errMsg bump now))
    (hst : t.status = .cancelled) (hnext : next ≠ .cancelled) : t ∈ v.steps := by
  rcases Table.mem_put.mp ht with rfl | ⟨ht, -⟩
  · exact absurd hst hnext
  · exact hT ▸ ht

/-- Only a cancellation makes a step cancelled. -/
theorem Act.mem_of_cancelled (hb : Base v) (hact : Act l v u) (hl : l ≠ ⟨runID, .cancelStep⟩)
    {t : Step} (ht : t ∈ (backend.applyAll v u).steps) (hrun : t.workflowRunID = runID)
    (hst : t.status = .cancelled) : t ∈ v.steps := by
  by_cases hcalm : l.run ≠ runID ∨ l.kind.calm = true
  · obtain ⟨t₀, ht₀, hdrift⟩ := (hact.calm hb hcalm).back t ht hrun
    obtain rfl := hdrift.eq_of_ne (by rw [hst]; decide)
    exact ht₀
  · obtain ⟨hrunL, hkind⟩ := not_or.mp hcalm
    have hrunL : l.run = runID := not_not.mp hrunL
    cases hact with
    | create hd hr hsteps hnew hnodup =>
      rw [applyAll_create] at ht
      rcases (Table.mem_foldl_put hnew hnodup).mp ht with ht | ht
      · obtain ⟨ns, -, stepID, now, rfl⟩ := forall₂_right hsteps t ht
        cases hst
      · exact ht
    | skip => exact mem_of_transition rfl ht hst (by decide)
    | park => exact mem_of_transition rfl ht hst (by decide)
    | resolve => exact mem_of_transition rfl ht hst (by decide)
    | dispatch => exact mem_of_transition rfl ht hst (by decide)
    | succeed hclose =>
      rw [Backend.applyAll_append] at ht
      exact mem_of_transition hclose.frame.1 ht hst (by decide)
    | retry hclose =>
      rw [Backend.applyAll_append] at ht
      exact mem_of_transition hclose.frame.1 ht hst (by decide)
    | giveUp hclose =>
      rw [Backend.applyAll_append] at ht
      exact mem_of_transition hclose.frame.1 ht hst (by decide)
    | start => exact ht
    | finish => exact ht
    | cancelStep => exact absurd (by rw [← hrunL]) hl
    | cancelRun => exact ht
    | _ => exact absurd rfl hkind

/-- A run that has ended by itself. -/
def Finishes (runID : UUID) (v : Db) (next : RunStatus) : Prop :=
  AllDone v.steps runID ∧ Outcome v.steps runID next

/-- How an action may change the status of a run from `st` to `st'`. -/
inductive Moves (runID : UUID) (l : Label) (v : Db) : RunStatus → RunStatus → Prop
  | same {st} : Moves runID l v st st
  | start : Moves runID l v .pending .running
  | finish {st next} : l = ⟨runID, .finish next⟩ → runTerminal st = false →
      Finishes runID v next → Moves runID l v st next
  | cancel {st} : l = ⟨runID, .cancelRun⟩ → runTerminal st = false → Moves runID l v st .cancelled

/-- An event leaves the status of every run as it is. -/
private theorem status_event {w : Db} {q : WorkflowRun} {id : UUID} {e : EventType}
    {payload : Option Json} {now : Time} (hw : w.runs = v.runs) (hq : v.runs.get? id = some q) :
    ((backend.applyAll w (historyWrites q e payload now)).runs.get? runID).map (·.status) =
      (v.runs.get? runID).map (·.status) := by
  have hcalm : Calm runID w (backend.applyAll w (historyWrites q e payload now)) :=
    .event (hw ▸ hq)
  rw [hcalm.status, hw]

/-- The row of a run after an event. -/
private theorem status_put {R : Table WorkflowRun.id} {q r : WorkflowRun}
    (hr : (R.put { q with historySeq := q.historySeq + 1 }).get? q.id = some r) :
    r.status = q.status := by
  rw [show q.id = ({ q with historySeq := q.historySeq + 1 } : WorkflowRun).id from rfl,
    Table.get?_put_self] at hr
  exact congrArg (·.status) (Option.some.inj hr).symm

/-- The status of a run changes by a start, an end or a cancellation. -/
theorem Act.moves (hb : Base v) (hact : Act l v u) {r r' : WorkflowRun}
    (hr : v.runs.get? runID = some r) (hr' : (backend.applyAll v u).runs.get? runID = some r') :
    Moves runID l v r.status r'.status := by
  have hsame : ((backend.applyAll v u).runs.get? runID).map (·.status) =
      (v.runs.get? runID).map (·.status) → Moves runID l v r.status r'.status := by
    intro h
    rw [hr, hr'] at h
    rw [show r'.status = r.status from Option.some.inj h]
    exact .same
  by_cases hcalm : l.run ≠ runID ∨ l.kind.calm = true
  · exact hsame (hact.calm hb hcalm).status
  · obtain ⟨hrunL, hkind⟩ := not_or.mp hcalm
    have hrunL : l.run = runID := not_not.mp hrunL
    clear hcalm
    cases hact with
    | create _ hnew =>
      simp only at hrunL
      rw [hrunL, hr] at hnew
      cases hnew
    | park => exact hsame rfl
    | cancelStep => exact hsame rfl
    | skip _ _ _ hq =>
      refine hsame ?_
      rw [Backend.applyAll_cons]
      exact status_event rfl hq
    | resolve _ _ _ _ _ _ _ _ hq =>
      refine hsame ?_
      simp only [Backend.applyAll_cons]
      exact status_event rfl hq
    | dispatch _ _ _ _ _ hq =>
      refine hsame ?_
      simp only [Backend.applyAll_cons]
      exact status_event rfl hq
    | succeed hclose _ _ _ hq =>
      refine hsame ?_
      rw [Backend.applyAll_append, Backend.applyAll_cons]
      exact status_event hclose.frame.2.1 hq
    | retry hclose _ _ _ _ _ _ hq =>
      refine hsame ?_
      simp only [Backend.applyAll_append, Backend.applyAll_cons]
      exact status_event hclose.frame.2.1 hq
    | giveUp hclose _ _ _ hq =>
      refine hsame ?_
      rw [Backend.applyAll_append, Backend.applyAll_cons]
      exact status_event hclose.frame.2.1 hq
    | @start _ q now now' hq hst =>
      obtain rfl : q.id = runID := hrunL
      obtain rfl := Option.some.inj (hq.symm.trans hr)
      rw [hst, show r'.status = .running from status_put hr']
      exact .start
    | @finish _ q next errMsg payload now now' hq hlive hall hout =>
      obtain rfl : q.id = runID := hrunL
      obtain rfl := Option.some.inj (hq.symm.trans hr)
      rw [show r'.status = next from status_put hr']
      exact .finish rfl hlive ⟨hall, hout⟩
    | @cancelRun _ q now hq hlive =>
      obtain rfl : q.id = runID := hrunL
      obtain rfl := Option.some.inj (hq.symm.trans hr)
      have hget : (v.runs.put (q.transition .cancelled none none now)).get? q.id = some r' := hr'
      rw [show q.id = (q.transition .cancelled none none now).id from rfl,
        Table.get?_put_self] at hget
      obtain rfl := Option.some.inj hget
      exact .cancel rfl hlive
    | _ => exact absurd rfl hkind

/-- A new run is pending. -/
theorem Act.pending_of_new (hb : Base v) (hact : Act l v u) {r : WorkflowRun}
    (hnone : v.runs.get? runID = none)
    (hr : (backend.applyAll v u).runs.get? runID = some r) : r.status = .pending := by
  have hfound : ∀ {q : WorkflowRun}, v.runs.get? runID = some q → r.status = .pending := by
    intro q hq
    rw [hnone] at hq
    cases hq
  by_cases hcalm : l.run ≠ runID ∨ l.kind.calm = true
  · have hstatus := (hact.calm hb hcalm).status
    rw [hnone, hr] at hstatus
    cases hstatus
  · obtain ⟨hrunL, hkind⟩ := not_or.mp hcalm
    obtain rfl : l.run = runID := not_not.mp hrunL
    cases hact with
    | create _ _ _ _ _ =>
      rw [applyAll_create] at hr
      exact status_put (R := v.runs.put _) (q := newRun ..) hr
    | park => exact hfound hr
    | cancelStep => exact hfound hr
    | skip _ _ _ hq => exact hfound hq
    | resolve _ _ _ _ _ _ _ _ hq => exact hfound hq
    | dispatch _ _ _ _ _ hq => exact hfound hq
    | succeed _ _ _ _ hq => exact hfound hq
    | retry _ _ _ _ _ _ _ hq => exact hfound hq
    | giveUp _ _ _ _ hq => exact hfound hq
    | start hq _ => exact hfound hq
    | finish hq _ _ _ => exact hfound hq
    | cancelRun hq _ => exact hfound hq
    | _ => exact absurd rfl hkind

end Changes

/-- A cancelled step belongs to a run that has ended, and the steps of a run that
has ended have ended. -/
structure Upright (runID : UUID) (v : Db) : Prop where
  cancelled : ∀ t ∈ v.steps, t.workflowRunID = runID → t.status = .cancelled →
    ∃ r, v.runs.get? runID = some r ∧ runTerminal r.status = true
  ended : ∀ r, v.runs.get? runID = some r → runTerminal r.status = true → AllDone v.steps runID

/-- Actions that do not cancel keep a run upright. -/
theorem Upright.act {runID : UUID} {l : Label} {v : Db} {u : List Write}
    (h : Upright runID v) (hb : Base v) (hact : Act l v u) (hstep : l ≠ ⟨runID, .cancelStep⟩)
    (hrun : l ≠ ⟨runID, .cancelRun⟩) : Upright runID (backend.applyAll v u) := by
  have hev := hact.evolves
  refine ⟨fun t ht htrun hst => ?_, fun r' hr' hend => ?_⟩
  · obtain ⟨r, hr, hend⟩ := h.cancelled t (hact.mem_of_cancelled hb hstep ht htrun hst) htrun hst
    obtain ⟨r', hr', hrev⟩ := hev.run hr
    exact ⟨r', hr', by rw [(hrev.done hend).1]; exact hend⟩
  · cases hr : v.runs.get? runID with
    | none =>
      rw [hact.pending_of_new hb hr hr'] at hend
      cases hend
    | some r =>
      have hmoves := hact.moves hb hr hr'
      generalize hst : r'.status = st at hmoves hend
      generalize hst₀ : r.status = st₀ at hmoves
      cases hmoves with
      | same => exact hev.allDone hr (h.ended r hr (hst₀ ▸ hend))
      | start => cases hend
      | finish _ _ hfin => exact hev.allDone hr hfin.1
      | cancel hl _ => exact absurd hl hrun

end Orchestrator
