import Orchestrator.Invariant.Sound
import Orchestrator.Transactions.Requests

/-!
# The cancellation of a run

`CancelRun` reads the steps once and then updates each of them under the
condition that it still has the status that was read. It does not look at whether
an update has gone through. What it writes is always a sequence of actions; the
cancellation is complete if every update meets its row as it was read, which is
the case when the transaction is alone.
-/

namespace Orchestrator

open Lib Actions

/-- The actions of a cancellation. -/
def Cancelling (runID : UUID) (l : Label) : Prop :=
  l.run = runID ∧ (l.kind.cancels = true ∨ l.kind = .cancelTimer)

theorem Cancelling.unpublished {runID : UUID} {l : Label} (h : Cancelling runID l) :
    l.kind ≠ .publish := by
  rintro hk
  rw [Cancelling, hk] at h
  rcases h.2 with h | h <;> cases h

/-- The row that an update is about has a status that the update expects. -/
def Query.onTarget : {β : Type} → Query β → Db → Bool
  | _, .updateStepStatus id expected _ _ _ _, v =>
    (v.steps.get? id).any (fun t => decide (t.status ∈ expected))
  | _, .updateWorkflowRunStatus id expected _ _ _, v =>
    (v.runs.get? id).any (fun r => decide (r.status ∈ expected))
  | _, _, _ => true

/-- The run is cancelled, its steps have ended, and one event records it. -/
def Cancelled (runID : UUID) (v : Db) : Prop :=
  (∃ r, v.runs.get? runID = some r ∧ r.status = .cancelled) ∧ AllDone v.steps runID ∧
    ∃! e, e ∈ v.history ∧ e.Cancels runID

/-- The run has ended. -/
def HasEnded (runID : UUID) (v : Db) : Prop :=
  ∃ r, v.runs.get? runID = some r ∧ runTerminal r.status = true

theorem HasEnded.evolve {runID : UUID} {v v' : Db} (h : HasEnded runID v) (hev : v.Evolves v') :
    HasEnded runID v' := by
  obtain ⟨r, hr, hend⟩ := h
  obtain ⟨r', hr', hrev⟩ := hev.run hr
  exact ⟨r', hr', by rw [(hrev.done hend).1]; exact hend⟩

/-- While `σ` is assumed, every update of a cancellation meets its row as it was
read: there is nobody else, or the updates that do not are excluded. -/
def Sure (A : Label → Prop) (φ : {β : Type} → Query β → Db → Prop) (σ : Prop) : Prop :=
  σ → (∀ l, ¬ A l) ∨ ∀ {β : Type} (op : Query β) (v : Db), φ op v → op.onTarget v = true

/-- The run's row has been read. A transaction that is alone still knows it. -/
def RunRead (A : Label → Prop) (run : WorkflowRun) (v : Db) : Prop :=
  (∃ r, v.runs.get? run.id = some r) ∧ ((∀ l, ¬ A l) → v.runs.get? run.id = some run)

/-- The copies in `rest` are those of the steps that may not have ended yet. -/
structure Remaining (A : Label → Prop) (σ : Prop) (runID : UUID) (rest : List Step) (v : Db) :
    Prop where
  nodup : (rest.map (·.id)).Nodup
  copies : ∀ s ∈ rest, s.workflowRunID = runID ∧ ∃ t, v.steps.get? s.id = some t ∧ s.Copies t
  known : (∀ l, ¬ A l) → ∀ s ∈ rest, v.steps.get? s.id = some s
  covers : σ → ∀ t ∈ v.steps, t.workflowRunID = runID → stepTerminal t.status = true ∨
    ∃ s ∈ rest, s.id = t.id

section

variable {A : Label → Prop} {H : List Lock} {runID : UUID} {run : WorkflowRun} {σ : Prop}
  {φ : {β : Type} → Query β → Db → Prop} {rest : List Step} {s : Step} {v v' : Db}

theorem RunRead.robust : engine.Robust A H (fun v _ => RunRead A run v) := by
  rintro v ws l u hb hl hact - - ⟨⟨r, hr⟩, -⟩
  obtain ⟨r', hr', -⟩ := (Act.evolves hact).run hr
  exact ⟨⟨r', hr'⟩, fun hno => absurd hl (hno l)⟩

/-- The steps that remain, in a later state of a run that exists. -/
theorem Remaining.evolve (h : Remaining A σ runID rest v) (hev : v.Evolves v')
    (hrun : ∃ r, v.runs.get? runID = some r)
    (hknown : (∀ l, ¬ A l) → ∀ s ∈ rest, v'.steps.get? s.id = some s) :
    Remaining A σ runID rest v' := by
  refine ⟨h.nodup, fun s hs => ?_, hknown, fun hσ t' ht' hown => ?_⟩
  · obtain ⟨hown, t, ht, hcopy⟩ := h.copies s hs
    obtain ⟨t', ht', htev⟩ := hev.step ht
    exact ⟨hown, t', ht', hcopy.evolve htev⟩
  · rcases hev.newSteps t' ht' with ⟨t, ht, htev⟩ | hnone
    · rcases h.covers hσ t ht ((Step.run_of_info htev.info).symm.trans hown) with
        hdone | ⟨s, hs, hid⟩
      · exact Or.inl (by rw [htev.done hdone]; exact hdone)
      · exact Or.inr ⟨s, hs, hid.trans (Step.id_of_info htev.info).symm⟩
    · obtain ⟨r, hr⟩ := hrun
      rw [hown, hr] at hnone
      cases hnone

theorem Remaining.robust :
    engine.Robust A H (fun v _ => (∃ r, v.runs.get? runID = some r) ∧
      Remaining A σ runID rest v) := by
  rintro v ws l u hb hl hact - - ⟨⟨r, hr⟩, h⟩
  have hev := Act.evolves hact
  obtain ⟨r', hr', -⟩ := hev.run hr
  exact ⟨⟨r', hr'⟩, h.evolve hev ⟨r, hr⟩ (fun hno => absurd hl (hno l))⟩

/-- A step whose copy has ended need not be looked at. -/
theorem Remaining.tail (h : Remaining A σ runID (s :: rest) v)
    (hdone : ∀ t, v.steps.get? s.id = some t → σ → stepTerminal t.status = true) :
    Remaining A σ runID rest v := by
  refine ⟨(List.nodup_cons.mp h.nodup).2, fun x hx => h.copies x (List.mem_cons_of_mem _ hx),
    fun hno x hx => h.known hno x (List.mem_cons_of_mem _ hx), fun hσ t ht hown => ?_⟩
  rcases h.covers hσ t ht hown with hend | ⟨x, hx, hid⟩
  · exact Or.inl hend
  · rcases List.mem_cons.mp hx with rfl | hx
    · exact Or.inl (hdone t (hid ▸ Table.mem_iff_get?.mp ht) hσ)
    · exact Or.inr ⟨x, hx, hid⟩

/-- The step that comes next has been cancelled. -/
theorem Remaining.cancel (h : Remaining A σ runID (s :: rest) v) {t : Step}
    (ht : v.steps.get? s.id = some t) {now : Time}
    (hev : v.Evolves (v.apply (.step (t.transition .cancelled none none false now)))) :
    Remaining A σ runID rest (v.apply (.step (t.transition .cancelled none none false now))) := by
  have hid : t.id = s.id := Table.key_of_get? ht
  obtain ⟨hnot, hnodup⟩ := List.nodup_cons.mp h.nodup
  have hne : ∀ x ∈ rest, s.id ≠ x.id := fun x hx heq =>
    hnot (List.mem_map.mpr ⟨x, hx, heq.symm⟩)
  refine ⟨hnodup, fun x hx => ?_, fun hno x hx => ?_, fun hσ t' ht' hown => ?_⟩
  · obtain ⟨hown, tx, htx, hcopy⟩ := h.copies x (List.mem_cons_of_mem _ hx)
    obtain ⟨tx', htx', htev⟩ := hev.step htx
    exact ⟨hown, tx', htx', hcopy.evolve htev⟩
  · refine (Table.get?_put_of_ne ?_).trans (h.known hno x (List.mem_cons_of_mem _ hx))
    rw [Step.id_transition, hid]
    exact hne x hx
  · rcases Table.mem_put.mp ht' with rfl | ⟨ht', hkey⟩
    · exact Or.inl rfl
    · refine (h.covers hσ t' ht' hown).imp_right ?_
      rintro ⟨x, hx, hxid⟩
      rcases List.mem_cons.mp hx with rfl | hx
      · exact absurd (hxid.symm.trans hid.symm) hkey
      · exact ⟨x, hx, hxid⟩

/-- The triple of a part of a cancellation. -/
abbrev CancelServes {α : Type} (φ : {β : Type} → Query β → Db → Prop) (A : Label → Prop)
    (P : Db → List Write → Prop) (p : Prog α) (Post : α → Db → List Write → Prop) : Prop :=
  Safe (backend.under φ) engine.Inv (engine.Rely A) (fun _ _ _ => True) P p Post

/-- What the loop over the steps knows. -/
def Clearing (A : Label → Prop) (σ : Prop) (run : WorkflowRun) (rest : List Step) (v : Db)
    (ws : List Write) : Prop :=
  ws = [] ∧ RunRead A run v ∧ (∃ r, v.runs.get? run.id = some r) ∧ Remaining A σ run.id rest v

theorem Clearing.robust : engine.Robust A H (Clearing A σ run rest) :=
  (Robust.pure (· = [])).and (RunRead.robust.and Remaining.robust)

/-- The body of the loop of `CancelRun`. -/
theorem cancelStep_spec (hsure : Sure A φ σ) (s : Step) (rest : List Step) :
    CancelServes φ A (engine.Holds (Cancelling run.id) [] (Clearing A σ run (s :: rest)))
      (cancelStep s) (fun _ => engine.Holds (Cancelling run.id) [] (Clearing A σ run rest)) := by
  unfold cancelStep
  by_cases hend : stepTerminal s.status = true
  · rw [if_pos hend]
    refine Safe.ret (fun s' w hs h => h.mono hs (fun _ hl => hl) (List.Subset.refl _) ?_)
    rintro v ws - ⟨hws, hread, hrow, hrest⟩
    refine ⟨hws, hread, hrow, hrest.tail (fun t ht _ => ?_)⟩
    obtain ⟨-, t', ht', hcopy⟩ := hrest.copies s List.mem_cons_self
    obtain rfl := Option.some.inj (ht'.symm.trans ht)
    rw [hcopy.done hend]
    exact hend
  · rw [if_neg hend]
    have hupdate : CancelServes φ A
        (engine.Holds (Cancelling run.id) [] (Clearing A σ run (s :: rest)))
        (Query.updateStepStatus s.id [s.status] .cancelled none none false).issue
        (fun _ => engine.Holds (Cancelling run.id) [] (Clearing A σ run rest)) := by
      refine Holds.call (fun _ => Clearing.robust) (fun _ _ hl => hl) ?_
      rintro v ws d hb ⟨rfl, hread, hrow, hrest⟩ - hφ
      obtain ⟨hown, t, ht, hcopy⟩ := hrest.copies s List.mem_cons_self
      by_cases hst : t.status = s.status
      · have hexec : backend.exec
            (.updateStepStatus s.id [s.status] .cancelled none none false) d v =
            .ok (true, [.step (t.transition .cancelled none none false d.now)]) := by
          simp [Query.exec, jsonb, ht, hst]
          rfl
        have hact : Act ⟨t.workflowRunID, .cancelStep⟩ v
            [.step (t.transition .cancelled none none false d.now)] :=
          .cancelStep (Table.get?_key ht) (by rw [hst]; simpa using hend)
        rw [Backend.applyAll_nil, hexec]
        exact .act ⟨(Step.run_of_info hcopy.info).trans hown, Or.inl rfl⟩ hact
          ⟨rfl, hread, hrow, hrest.cancel ht hact.evolves⟩
      · have hexec : backend.exec
            (.updateStepStatus s.id [s.status] .cancelled none none false) d v =
            .ok (false, []) := by
          simp [Query.exec, jsonb, ht, hst]
          rfl
        have hnot : ¬ σ := by
          intro hσ
          rcases hsure hσ with hno | htarget
          · obtain rfl := Option.some.inj (ht.symm.trans (hrest.known hno s List.mem_cons_self))
            exact hst rfl
          · have hon := htarget _ _ hφ
            rw [Backend.applyAll_nil] at hon
            simp [Query.onTarget, ht, hst] at hon
        rw [Backend.applyAll_nil, hexec]
        exact .begin ⟨rfl, hread, hrow, hrest.tail (fun _ _ hσ => absurd hσ hnot)⟩
    exact Safe.bind hupdate (fun _ => Safe.ret (fun _ _ _ h => h))

/-- The steps are read, and none has been looked at. -/
theorem readSteps_spec :
    engine.Triple A (Cancelling run.id) (fun _ => True) [] (fun v ws => ws = [] ∧ RunRead A run v)
      (Query.getSteps run.id).issue [] (fun steps => Clearing A σ run steps) := by
  refine read_rule (fun d v => (d.shuffle (v.stepsOf run.id)).insertionSort
    (fun a b => a.createdAt ≤ b.createdAt)) (fun _ _ => rfl) (fun _ => Clearing.robust) ?_
  rintro v ws d - ⟨rfl, hread⟩
  have hperm := (List.perm_insertionSort (fun a b : Step => a.createdAt ≤ b.createdAt) _).trans
    (d.shuffle_perm (v.stepsOf run.id))
  have hmem : ∀ t, t ∈ (d.shuffle (v.stepsOf run.id)).insertionSort
      (fun a b => a.createdAt ≤ b.createdAt) ↔ t ∈ v.steps ∧ t.workflowRunID = run.id := by
    intro t
    rw [hperm.mem_iff, Db.stepsOf, List.mem_filter, decide_eq_true_eq]
    rfl
  refine ⟨rfl, hread, hread.1, ?_, fun t ht => ?_, fun _ t ht => ?_, fun _ t ht hown => ?_⟩
  · exact ((hperm.map _).nodup_iff).mpr
      (v.steps.nodup_keys.sublist (List.Sublist.map _ List.filter_sublist))
  · obtain ⟨ht, hown⟩ := (hmem t).mp ht
    exact ⟨hown, t, Table.mem_iff_get?.mp ht, .refl t⟩
  · exact Table.mem_iff_get?.mp ((hmem t).mp ht).1
  · exact Or.inr ⟨t, (hmem t).mpr ⟨ht, hown⟩, rfl⟩

/-- The cancellation of a timer leaves steps and runs alone. -/
theorem Act.cancelTimer_frame {u : List Write} (hact : Act ⟨runID, .cancelTimer⟩ v u) :
    (backend.applyAll v u).steps = v.steps ∧ (backend.applyAll v u).runs = v.runs := by
  cases hact
  exact ⟨rfl, rfl⟩

/-- When the loop is over the steps have ended, and the timers are cancelled. -/
theorem clearTimers_spec :
    engine.Triple A (Cancelling run.id) (fun _ => True) [] (Clearing A σ run [])
      (cancelTimersForRun run.id) [] (fun _ v ws => ws = [] ∧ RunRead A run v ∧
        (σ → AllDone v.steps run.id)) := by
  have hrobust : engine.Robust A []
      (fun v _ => RunRead A run v ∧ (σ → AllDone v.steps run.id)) := by
    intro v ws l u hb hl hact hdisj hH h
    obtain ⟨r, hr⟩ := h.1.1
    exact ⟨RunRead.robust v ws l u hb hl hact hdisj hH h.1,
      fun hσ => (Act.evolves hact).allDone hr (h.2 hσ)⟩
  have hstay : ∀ v u, Base v → Act ⟨run.id, .cancelTimer⟩ v u →
      RunRead A run v ∧ (σ → AllDone v.steps run.id) →
      RunRead A run (backend.applyAll v u) ∧
        (σ → AllDone (backend.applyAll v u).steps run.id) := by
    intro v u _ hact h
    obtain ⟨hsteps, hruns⟩ := hact.cancelTimer_frame
    rw [RunRead, hsteps, hruns]
    exact h
  refine (cancelTimersForRun_spec ⟨rfl, Or.inr rfl⟩ hrobust hstay).pre ?_
  rintro v ws - ⟨hws, hread, -, hrest⟩
  refine ⟨hws, hread, fun hσ t ht hown => (hrest.covers hσ t ht hown).resolve_right ?_⟩
  rintro ⟨s, hs, -⟩
  cases hs

/-- The locks that the update of the run's row takes if it goes through. -/
def shutLocks (runID : UUID) (ok : Bool) : List Lock := if ok then [Lock.run runID] else []

/-- The run has ended. If the update of its row was sure to go through, the run is
cancelled, and the record of it is still to come. -/
def Shut (σ : Prop) (runID : UUID) (ok : Bool) (v : Db) (ws : List Write) : Prop :=
  ws = [] ∧ HasEnded runID v ∧ (σ → ok = true ∧
    (∃ r, v.runs.get? runID = some r ∧ r.status = .cancelled) ∧ AllDone v.steps runID ∧
    ∀ e ∈ v.history, ¬ e.Cancels runID)

/-- The record has been made too. -/
def Recorded (σ : Prop) (runID : UUID) (ok : Bool) (v : Db) (ws : List Write) : Prop :=
  ws = [] ∧ HasEnded runID v ∧ (σ → ok = true ∧ Cancelled runID v)

/-- While the run's row is locked nobody records a cancellation of it. -/
theorem mem_history_of_lock {l : Label} {u : List Write} {e : HistoryEvent} (hb : Base v)
    (hact : Act l v u) (hdisj : (backend.locksOf u).Disjoint (shutLocks runID true))
    (he : e.Cancels runID) : e ∈ (backend.applyAll v u).history ↔ e ∈ v.history :=
  hact.mem_history hb he (Or.inr (Or.inr (fun hk => hdisj hk List.mem_cons_self)))

/-- A cancelled run stays cancelled, and its steps stay as they ended. -/
theorem cancelled_evolve (hev : v.Evolves v')
    (hrow : ∃ r, v.runs.get? runID = some r ∧ r.status = .cancelled)
    (hall : AllDone v.steps runID) :
    (∃ r, v'.runs.get? runID = some r ∧ r.status = .cancelled) ∧ AllDone v'.steps runID := by
  obtain ⟨r, hr, hst⟩ := hrow
  obtain ⟨r', hr', hrev⟩ := hev.run hr
  exact ⟨⟨r', hr', (hrev.done (by rw [hst]; rfl)).1.trans hst⟩, hev.allDone hr hall⟩

theorem Shut.robust (ok : Bool) : engine.Robust A (shutLocks runID ok) (Shut σ runID ok) := by
  rintro v ws l u hb - hact - hdisj ⟨hws, hended, hshut⟩
  have hev := Act.evolves hact
  refine ⟨hws, hended.evolve hev, fun hσ => ?_⟩
  obtain ⟨rfl, hrow, hall, hnone⟩ := hshut hσ
  obtain ⟨hrow', hall'⟩ := cancelled_evolve hev hrow hall
  exact ⟨rfl, hrow', hall', fun e he hc =>
    hnone e ((mem_history_of_lock hb hact hdisj hc).mp he) hc⟩

theorem Recorded.robust (ok : Bool) :
    engine.Robust A (shutLocks runID ok) (Recorded σ runID ok) := by
  rintro v ws l u hb - hact - hdisj ⟨hws, hended, hdone⟩
  have hev := Act.evolves hact
  refine ⟨hws, hended.evolve hev, fun hσ => ?_⟩
  obtain ⟨rfl, hrow, hall, e, ⟨he, hc⟩, honly⟩ := hdone hσ
  obtain ⟨hrow', hall'⟩ := cancelled_evolve hev hrow hall
  refine ⟨rfl, hrow', hall', e, ⟨(mem_history_of_lock hb hact hdisj hc).mpr he, hc⟩, ?_⟩
  exact fun e' he' => honly e' ⟨(mem_history_of_lock hb hact hdisj he'.2).mp he'.1, he'.2⟩

/-- The event of the cancellation. -/
theorem recordCancel_spec (ok : Bool) :
    engine.Triple A (Cancelling runID) (fun _ => True) (shutLocks runID ok) (Shut σ runID ok)
      (appendHistory runID .runCancelled none) (shutLocks runID ok)
      (fun _ => Recorded σ runID ok) := by
  refine appendHistory_rule (Recorded.robust ok) ?_
  rintro v ws now hb ⟨rfl, ⟨r, hr, hend⟩, hshut⟩
  have hid : r.id = runID := Table.key_of_get? hr
  have hact : Act ⟨r.id, .cancelEvent⟩ v (historyWrites r .runCancelled none now) :=
    .cancelEvent (Table.get?_key hr) hend
  refine ⟨r, hr, .act ⟨hid, Or.inl rfl⟩ hact ⟨rfl, HasEnded.evolve ⟨r, hr, hend⟩ hact.evolves,
    fun hσ => ?_⟩⟩
  obtain ⟨hok, hrow, hall, hnone⟩ := hshut hσ
  obtain ⟨hrow', hall'⟩ := cancelled_evolve hact.evolves hrow hall
  refine ⟨hok, hrow', hall', _, ⟨Table.mem_put_self _ _, hid, rfl⟩, ?_⟩
  rintro e ⟨he, hc⟩
  rcases Table.mem_put.mp he with rfl | ⟨he, -⟩
  · rfl
  · exact absurd hc (hnone e he)

/-- The update of the run's row. -/
theorem shutRun_spec (hsure : Sure A φ σ) (hlive : runTerminal run.status = false) :
    CancelServes φ A (engine.Holds (Cancelling run.id) []
        (fun v ws => ws = [] ∧ RunRead A run v ∧ (σ → AllDone v.steps run.id)))
      (Query.updateWorkflowRunStatus run.id [.pending, .running] .cancelled none none).issue
      (fun ok => engine.Holds (Cancelling run.id) (shutLocks run.id ok) (Shut σ run.id ok)) := by
  refine Holds.call Shut.robust (fun _ _ hl => hl) ?_
  rintro v ws d hb ⟨rfl, ⟨⟨r, hr⟩, hknown⟩, hall⟩ - hφ
  have hid : r.id = run.id := Table.key_of_get? hr
  rw [Backend.applyAll_nil] at hφ ⊢
  by_cases hst : r.status ∈ [RunStatus.pending, .running]
  · have hexec : backend.exec (.updateWorkflowRunStatus run.id [.pending, .running] .cancelled none
        none) d v = .ok (true, [.run (r.transition .cancelled none none d.now)]) := by
      simp [Query.exec, jsonb, hr, hst]
      rfl
    have hact : Act ⟨r.id, .cancelRun⟩ v [.run (r.transition .cancelled none none d.now)] :=
      .cancelRun (Table.get?_key hr) (mem_live_iff.mp hst)
    have hrow : (v.runs.put (r.transition .cancelled none none d.now)).get? run.id =
        some (r.transition .cancelled none none d.now) := by
      rw [← hid]
      exact Table.get?_put_self _ _
    rw [hexec]
    refine .lock ⟨hid, Or.inl rfl⟩ hact (by simp [shutLocks, hid]) ⟨rfl, ⟨_, hrow, rfl⟩, fun hσ =>
      ⟨rfl, ⟨_, hrow, rfl⟩, hall hσ, fun e he hc => ?_⟩⟩
    obtain ⟨r', hr', hid', -, hend⟩ := hb.chronicle e he
    obtain rfl := Table.eq_of_key_eq hr' (Table.mem_of_get? hr) (hid'.trans (hc.1.trans hid.symm))
    have hend := hend hc.2
    rw [mem_live_iff.mp hst] at hend
    cases hend
  · have hexec : backend.exec (.updateWorkflowRunStatus run.id [.pending, .running] .cancelled none
        none) d v = .ok (false, []) := by
      simp [Query.exec, jsonb, hr, hst]
      rfl
    have hend : runTerminal r.status = true :=
      Bool.eq_true_of_not_eq_false (fun h => hst (mem_live_iff.mpr h))
    have hnot : ¬ σ := by
      intro hσ
      rcases hsure hσ with hno | htarget
      · obtain rfl := Option.some.inj (hr.symm.trans (hknown hno))
        rw [hend] at hlive
        cases hlive
      · have hon := htarget _ _ hφ
        rw [Query.onTarget, hr, Option.any_some, decide_eq_true_eq] at hon
        exact hst hon
    rw [hexec]
    exact .begin ⟨rfl, ⟨r, hr, hend⟩, fun hσ => absurd hσ hnot⟩

/-- `CancelRun`. It finds the run ended and does nothing, or its writes are those
of a cancellation, which is complete if its updates were sure to go through. -/
theorem cancelRun_spec (hsure : Sure A φ σ) :
    CancelServes φ A (Beginning (fun _ ws => ws = [])) (cancelRun runID)
      (fun _ s w => HasEnded runID (backend.applyAll s w) ∧
        (w = [] ∨ engine.Steps (Cancelling runID) s w ∧
          (σ → Cancelled runID (backend.applyAll s w)))) := by
  have hget : engine.Triple A (fun _ => False) (fun _ => True) [] (fun _ ws => ws = [])
      (getWorkflowRun runID) [] (fun run v ws => run.id = runID ∧ ws = [] ∧ RunRead A run v ∧
        (runTerminal run.status = true → HasEnded runID v)) := by
    refine lookup_rule (fun _ v => v.runs.get? runID) (fun _ _ => rfl) (fun run =>
      (Robust.pure (fun _ => _ = _)).and ((Robust.pure (· = [])).and (RunRead.robust.and ?_))) ?_
    · exact robust_of_evolves (fun _ _ _ _ hev _ h hend => (h hend).evolve hev)
    · rintro v ws - - rfl
      cases hr : v.runs.get? runID with
      | none => exact Or.inl ⟨hr, trivial⟩
      | some r =>
        obtain rfl : r.id = runID := Table.key_of_get? hr
        exact Or.inr ⟨r, hr, rfl, rfl, ⟨⟨r, hr⟩, fun _ => hr⟩, fun hend => ⟨r, hr, hend⟩⟩
  refine Safe.bind (Safe.under hget) (fun run => Holds.assume (fun hid => ?_))
  subst hid
  by_cases hend : runTerminal run.status = true
  · rw [if_pos hend]
    refine Safe.ret (fun s w _ h => ?_)
    obtain ⟨w₀, ws, rfl, hsteps, -, rfl, -, hended⟩ := h
    cases hsteps with
    | nil => exact ⟨hended hend, Or.inl rfl⟩
    | snoc _ hl _ => exact hl.elim
  · rw [if_neg hend]
    have hlive : runTerminal run.status = false := by simpa using hend
    refine Safe.bind (Safe.pre (Safe.under (readSteps_spec (σ := σ))) (fun s w hs h => h.mono hs
      (fun _ hl => hl.elim) (List.Subset.refl _) (fun _ _ _ hF => ⟨hF.1, hF.2.1⟩)))
      (fun steps => ?_)
    refine Safe.bind (Safe.foldlM_suffix (I := fun rest _ =>
      engine.Holds (Cancelling run.id) [] (Clearing A σ run rest))
      (fun _ s rest _ => cancelStep_spec hsure s rest) ()) (fun _ => ?_)
    refine Safe.bind (Safe.under clearTimers_spec) (fun _ => Safe.bind (shutRun_spec hsure hlive)
      (fun ok => Safe.post (Safe.under (recordCancel_spec ok)) (fun _ s w _ h => ?_)))
    obtain ⟨w₀, ws, rfl, hsteps, -, rfl, hended, hdone⟩ := h
    rw [List.append_nil]
    exact ⟨hended, Or.inr ⟨hsteps, fun hσ => (hdone hσ).2⟩⟩

end

/-- Status, steps and history of every run agree about its cancellation. -/
structure Coherent (v : Db) : Prop where
  base : Base v
  sound : ∀ runID, Sound runID v

theorem Coherent.empty : Coherent Db.empty where
  base := Base.empty
  sound _ := ⟨(fun _ hr => by cases hr), (fun _ hr => by cases hr), (fun _ hr => by cases hr)⟩

/-- Actions that cancel no run. -/
theorem Coherent.steps {C : Label → Prop} {s : Db} {w : List Write} (hs : Coherent s)
    (h : engine.Steps C s w) (hC : ∀ l, C l → l.kind.cancels = false) :
    Coherent (backend.applyAll s w) where
  base := Steps.inv h hs.base
  sound runID := h.induct hs.base (hs.sound runID)
    (fun _ l _ hv hl hact hsound => hsound.act hv hact (Or.inr (hC l hl)))

/-- A cancelled run is sound. -/
theorem Cancelled.sound {runID : UUID} {v : Db} (h : Cancelled runID v) : Sound runID v := by
  obtain ⟨⟨r, hr, hst⟩, hall, hevent⟩ := h
  have honly : ∀ r', v.runs.get? runID = some r' → r'.status = .cancelled := fun r' hr' =>
    Option.some.inj (hr.symm.trans hr') ▸ hst
  exact ⟨fun r' hr' hne => absurd (honly r' hr') hne, fun r' hr' hne => absurd (honly r' hr') hne,
    fun _ _ _ => ⟨hall, hevent⟩⟩

/-- A cancellation that is complete. -/
theorem Coherent.cancel {runID : UUID} {s : Db} {w : List Write} (hs : Coherent s)
    (h : engine.Steps (Cancelling runID) s w)
    (hdone : Cancelled runID (backend.applyAll s w)) : Coherent (backend.applyAll s w) where
  base := Steps.inv h hs.base
  sound id := by
    by_cases hid : id = runID
    · exact hid ▸ hdone.sound
    · exact h.induct hs.base (hs.sound id) (fun _ l _ hv hl hact hsound =>
        hsound.act hv hact (Or.inl (hl.1.trans_ne (Ne.symm hid))))

end Orchestrator
