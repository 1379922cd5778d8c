import Orchestrator.Invariant.Preservation

/-!
# Actions that leave a run alone

A transaction that has read the steps of a run can go on working with what it
read as long as others are calm: they only let workers start tasks of the run.
Actions on other runs are calm, and so is everything that needs neither a step
of the run nor the run's own row.
-/

namespace Orchestrator

open Lib

/-- The kinds of actions that change no step, other than to note that a worker
has started it, and no run's status. -/
def Kind.calm : Kind → Bool
  | .define | .burn | .late | .cancelEvent | .signal | .log | .claim | .heartbeat | .expire
  | .running | .fireTimer | .cancelTimer | .publish => true
  | _ => false

/-- The second row is the first, or the first after a worker has started it. -/
def Step.Drifts (t t' : Step) : Prop :=
  t' = t ∨ (t.status = .queued ∧ ∃ now, t' = t.transition .running none none false now)

theorem Step.Drifts.info {t t' : Step} (h : t.Drifts t') : t'.info = t.info := by
  rcases h with rfl | ⟨-, now, rfl⟩ <;> rfl

theorem Step.Drifts.count {t t' : Step} (h : t.Drifts t') : t'.attemptCount = t.attemptCount := by
  rcases h with rfl | ⟨-, now, rfl⟩ <;> rfl

/-- A drift is only seen in the status, and only in a step that is in flight. -/
theorem Step.Drifts.status {t t' : Step} (h : t.Drifts t') :
    t'.status = t.status ∨ (t.status = .queued ∧ t'.status = .running) := by
  rcases h with rfl | ⟨hst, now, rfl⟩
  · exact Or.inl rfl
  · exact Or.inr ⟨hst, rfl⟩

theorem Step.Drifts.trans {t t' t'' : Step} (h : t.Drifts t') (h' : t'.Drifts t'') :
    t.Drifts t'' := by
  rcases h' with rfl | ⟨hst', now', rfl⟩
  · exact h
  · rcases h with rfl | ⟨-, now, rfl⟩
    · exact Or.inr ⟨hst', now', rfl⟩
    · cases hst'

/-- All that has happened to a run is that workers have started its tasks. -/
structure Calm (runID : UUID) (v v' : Db) : Prop where
  forth : ∀ t ∈ v.steps, t.workflowRunID = runID → ∃ t' ∈ v'.steps, t.Drifts t'
  back : ∀ t' ∈ v'.steps, t'.workflowRunID = runID → ∃ t ∈ v.steps, t.Drifts t'
  status : (v'.runs.get? runID).map (·.status) = (v.runs.get? runID).map (·.status)

namespace Calm

variable {runID : UUID} {v v' v'' : Db}

/-- The steps and the run are the same rows. -/
theorem of_eq (hsteps : v'.steps = v.steps)
    (hstatus : (v'.runs.get? runID).map (·.status) = (v.runs.get? runID).map (·.status)) :
    Calm runID v v' where
  forth t ht _ := ⟨t, hsteps ▸ ht, Or.inl rfl⟩
  back t ht _ := ⟨t, hsteps ▸ ht, Or.inl rfl⟩
  status := hstatus

theorem trans (h : Calm runID v v') (h' : Calm runID v' v'') : Calm runID v v'' where
  forth t ht hrun := by
    obtain ⟨t', ht', hd⟩ := h.forth t ht hrun
    obtain ⟨t'', ht'', hd'⟩ := h'.forth t' ht' ((Step.run_of_info hd.info).trans hrun)
    exact ⟨t'', ht'', hd.trans hd'⟩
  back t'' ht'' hrun := by
    obtain ⟨t', ht', hd'⟩ := h'.back t'' ht'' hrun
    obtain ⟨t, ht, hd⟩ := h.back t' ht' ((Step.run_of_info hd'.info).symm.trans hrun)
    exact ⟨t, ht, hd.trans hd'⟩
  status := h'.status.trans h.status

theorem cons {x : Write} {ws : List Write} (h : Calm runID v (v.apply x))
    (h' : Calm runID (v.apply x) (backend.applyAll (v.apply x) ws)) :
    Calm runID v (backend.applyAll v (x :: ws)) :=
  h.trans h'

theorem append {us ws : List Write} (h : Calm runID v (backend.applyAll v us))
    (h' : Calm runID (backend.applyAll v us) (backend.applyAll (backend.applyAll v us) ws)) :
    Calm runID v (backend.applyAll v (us ++ ws)) := by
  rw [Backend.applyAll_append]
  exact h.trans h'

/-- A write of a run's row that keeps its status, or is about another run. -/
theorem putRun {q : WorkflowRun}
    (h : q.id ≠ runID ∨ (v.runs.get? q.id).map (·.status) = some q.status) :
    Calm runID v (v.apply (.run q)) := by
  refine of_eq rfl ?_
  change ((v.runs.put q).get? runID).map _ = _
  by_cases hid : q.id = runID
  · subst hid
    rw [Table.get?_put_self, h.resolve_left (fun hne => hne rfl)]
    rfl
  · rw [Table.get?_put_of_ne hid]

/-- A write of a step that is a drift, or is about another run. -/
theorem putStep {t t' : Step} (ht : v.steps.get? t.id = some t) (hinfo : t'.info = t.info)
    (h : t.workflowRunID ≠ runID ∨ t.Drifts t') : Calm runID v (v.apply (.step t')) := by
  have hmem := Table.mem_of_get? ht
  have hid : t'.id = t.id := Step.id_of_info hinfo
  refine ⟨fun x hx hrun => ?_, fun x hx hrun => ?_, rfl⟩
  · by_cases hxt : x.id = t.id
    · obtain rfl := Table.eq_of_key_eq hx hmem hxt
      exact ⟨t', Table.mem_put_self v.steps t', h.resolve_left (fun hne => hne hrun)⟩
    · exact ⟨x, Table.mem_put.mpr (Or.inr ⟨hx, fun heq => hxt (heq.trans hid)⟩), Or.inl rfl⟩
  · rcases Table.mem_put.mp hx with rfl | ⟨hx, -⟩
    · have hne := (Step.run_of_info hinfo).symm.trans hrun
      exact ⟨t, hmem, h.resolve_left (fun h => h hne)⟩
    · exact ⟨x, hx, Or.inl rfl⟩

/-- The record of an event. -/
theorem event {id : UUID} {r : WorkflowRun} (hr : v.runs.get? id = some r)
    {eventType : EventType} {payload : Option Json} {now : Time} :
    Calm runID v (backend.applyAll v (historyWrites r eventType payload now)) := by
  refine .cons (.putRun (Or.inr ?_)) (.of_eq rfl rfl)
  rw [show v.runs.get? r.id = some r from Table.get?_key hr]
  rfl

/-- A change of a step of another run, and its event. -/
theorem stepEvent {t t' : Step} (ht : v.steps.get? t.id = some t) (hinfo : t'.info = t.info)
    (hne : t.workflowRunID ≠ runID) {id : UUID} {r : WorkflowRun} (hr : v.runs.get? id = some r)
    {eventType : EventType} {payload : Option Json} {now : Time} :
    Calm runID v (backend.applyAll v (.step t' :: historyWrites r eventType payload now)) :=
  .cons (.putStep ht hinfo (Or.inl hne)) (.event (by exact hr))

/-- The end of an attempt of another run, with the step it belongs to. -/
theorem close {a : TaskAttempt} {success : Bool} {result : Option RawMessage} {ws us : List Write}
    (hclose : Closes v a success result ws)
    (h : Calm runID (backend.applyAll v ws) (backend.applyAll (backend.applyAll v ws) us)) :
    Calm runID v (backend.applyAll v (ws ++ us)) := by
  obtain ⟨hsteps, hruns, -⟩ := hclose.frame
  exact .append (.of_eq hsteps (by rw [hruns])) h

end Calm

/-- The rows of an attempt's step and run are still there when it has ended. -/
theorem Closes.rows {v : Db} {a : TaskAttempt} {success : Bool} {result : Option RawMessage}
    {ws : List Write} (hclose : Closes v a success result ws) (hb : Base v) {t : Step}
    (ht : v.steps.get? a.stepID = some t) {r : WorkflowRun}
    (hr : v.runs.get? a.workflowRunID = some r) :
    (backend.applyAll v ws).steps.get? t.id = some t ∧ t.workflowRunID = a.workflowRunID ∧
      (backend.applyAll v ws).runs.get? a.workflowRunID = some r := by
  obtain ⟨hsteps, hruns, -⟩ := hclose.frame
  obtain ⟨hrun, -⟩ := hb.ledger.parent_of_get? (Table.mem_of_get? hclose.mem) ht
  rw [hsteps, hruns]
  exact ⟨Table.get?_key ht, hrun.symm, hr⟩

/-- The creation of another run. -/
theorem Calm.withRun {runID : UUID} {v : Db} {r : WorkflowRun} {steps : List Step}
    (hne : r.id ≠ runID) (hrun : ∀ t ∈ steps, t.workflowRunID = r.id)
    (hnew : ∀ t ∈ steps, v.steps.get? t.id = none) (hnodup : (steps.map (·.id)).Nodup) :
    Calm runID v (v.withRun r steps) where
  forth t ht _ := ⟨t, (Table.mem_foldl_put hnew hnodup).mpr (Or.inr ht), Or.inl rfl⟩
  back t ht htrun := by
    rcases (Table.mem_foldl_put hnew hnodup).mp ht with ht | ht
    · exact absurd ((hrun t ht).symm.trans htrun) hne
    · exact ⟨t, ht, Or.inl rfl⟩
  status := congrArg _ (Table.get?_put_of_ne hne)

/-- An action on another run, or of a calm kind, is calm. -/
theorem Act.calm {runID : UUID} {l : Label} {v : Db} {u : List Write} (hb : Base v)
    (hact : Act l v u) (h : l.run ≠ runID ∨ l.kind.calm = true) :
    Calm runID v (backend.applyAll v u) := by
  have hother : l.kind.calm = false → l.run ≠ runID := fun hk =>
    h.resolve_right (fun hk' => by rw [hk] at hk'; cases hk')
  cases hact with
  | define => exact .of_eq rfl rfl
  | create hd hr hsteps hnew hnodup =>
    rw [applyAll_create]
    refine .trans (.withRun (hother rfl) (fun t ht => ?_) hnew hnodup)
      (.event (Table.get?_put_self v.runs _))
    obtain ⟨ns, -, stepID, now, rfl⟩ := forall₂_right hsteps t ht
    rfl
  | skip ht _ _ hr => exact .stepEvent ht (by rfl) (hother rfl) hr
  | park ht _ _ _ => exact .putStep ht (by rfl) (Or.inl (hother rfl))
  | resolve _ _ _ _ ht _ _ _ hr =>
    exact .cons (.of_eq rfl rfl) (.stepEvent (by exact ht) (by rfl) (hother rfl) (by exact hr))
  | burn _ _ => exact .of_eq rfl rfl
  | dispatch ht _ _ _ _ hr =>
    exact .cons (.of_eq rfl rfl) (.cons (.of_eq rfl rfl)
      (.stepEvent (by exact ht) (by rfl) (hother rfl) (by exact hr)))
  | succeed hclose ht _ _ hr =>
    obtain ⟨ht', hrun, hr'⟩ := hclose.rows hb ht hr
    exact .close hclose (.stepEvent (by exact ht') (by rfl) (hrun ▸ hother rfl) (by exact hr'))
  | retry hclose ht _ _ _ _ _ hr =>
    obtain ⟨ht', hrun, hr'⟩ := hclose.rows hb ht hr
    exact .close hclose (.cons (.of_eq rfl rfl)
      (.stepEvent (by exact ht') (by rfl) (hrun ▸ hother rfl) (by exact hr')))
  | giveUp hclose ht _ _ hr =>
    obtain ⟨ht', hrun, hr'⟩ := hclose.rows hb ht hr
    exact .close hclose (.stepEvent (by exact ht') (by rfl) (hrun ▸ hother rfl) (by exact hr'))
  | late hclose _ _ htms =>
    rcases htms with rfl | ⟨tm, rfl, -⟩ <;> exact .close hclose (.of_eq rfl rfl)
  | start hr _ => exact .cons (.putRun (Or.inl (hother rfl))) (.event (Table.get?_put_self _ _))
  | finish hr _ _ _ =>
    exact .cons (.putRun (Or.inl (hother rfl))) (.event (Table.get?_put_self _ _))
  | cancelStep ht _ => exact .putStep ht (by rfl) (Or.inl (hother rfl))
  | cancelRun _ _ => exact .putRun (Or.inl (hother rfl))
  | cancelEvent hr _ => exact .event hr
  | signal => exact .of_eq rfl rfl
  | log hr => exact .event hr
  | claim _ _ => exact .of_eq rfl rfl
  | heartbeat _ _ => exact .of_eq rfl rfl
  | expire _ _ => exact .of_eq rfl rfl
  | running ht hst => exact .putStep ht (by rfl) (Or.inr (Or.inr ⟨hst, _, rfl⟩))
  | fireTimer _ _ => exact .of_eq rfl rfl
  | cancelTimer _ _ => exact .of_eq rfl rfl
  | publish _ => exact .of_eq rfl rfl

/-- So is a sequence of such actions. -/
theorem Calm.of_steps {runID : UUID} {C : Label → Prop} {s : Db} {w : List Write} (hb : Base s)
    (h : engine.Steps C s w) (hC : ∀ l, C l → l.run ≠ runID ∨ l.kind.calm = true) :
    Calm runID s (backend.applyAll s w) :=
  h.induct hb (.of_eq rfl rfl) (fun _ l _ hv hl hact hcalm =>
    hcalm.trans (Act.calm hv hact (hC l hl)))

/-- An action that is not calm changes a step without more ado, or takes the lock
of its run. -/
theorem Act.run_lock {l : Label} {v : Db} {u : List Write} (hact : Act l v u) :
    l.kind.calm = true ∨ l.kind = .park ∨ l.kind = .cancelStep ∨
      Lock.run l.run ∈ backend.locksOf u := by
  cases hact with
  | create _ _ _ _ _ => exact Or.inr (Or.inr (Or.inr (by simp [newRun])))
  | skip _ _ _ hr => exact Or.inr (Or.inr (Or.inr (by simp [Table.key_of_get? hr])))
  | resolve _ _ _ _ _ _ _ _ hr =>
    exact Or.inr (Or.inr (Or.inr (by simp [Table.key_of_get? hr])))
  | dispatch _ _ _ _ _ hr => exact Or.inr (Or.inr (Or.inr (by simp [Table.key_of_get? hr])))
  | succeed _ _ _ _ hr => exact Or.inr (Or.inr (Or.inr (by simp [Table.key_of_get? hr])))
  | retry _ _ _ _ _ _ _ hr => exact Or.inr (Or.inr (Or.inr (by simp [Table.key_of_get? hr])))
  | giveUp _ _ _ _ hr => exact Or.inr (Or.inr (Or.inr (by simp [Table.key_of_get? hr])))
  | start hr _ => exact Or.inr (Or.inr (Or.inr (by simp)))
  | finish hr _ _ _ => exact Or.inr (Or.inr (Or.inr (by simp)))
  | cancelRun _ _ => exact Or.inr (Or.inr (Or.inr (by simp)))
  | park _ _ _ _ => exact Or.inr (Or.inl rfl)
  | cancelStep _ _ => exact Or.inr (Or.inr (Or.inl rfl))
  | _ => exact Or.inl rfl

end Orchestrator
