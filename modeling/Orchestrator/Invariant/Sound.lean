import Orchestrator.Invariant.Upright

/-!
# Cancelled runs and their history

A run is sound if its status, its cancelled steps and the events that record a
cancellation agree. Every action on another run keeps this, and so does every
action on the run itself that does not cancel.
-/

namespace Orchestrator

open Lib

/-- The event records the cancellation of a run. -/
def HistoryEvent.Cancels (e : HistoryEvent) (runID : UUID) : Prop :=
  e.workflowRunID = runID ∧ e.eventType = .runCancelled

section History

variable {runID : UUID} {l : Label} {v w : Db} {u : List Write} {e : HistoryEvent}

/-- The events of a run have smaller numbers than its next one. -/
theorem Base.seq_lt (hb : Base v) {r : WorkflowRun} (hr : v.runs.get? r.id = some r)
    (he : e ∈ v.history) (hrun : e.workflowRunID = r.id) : e.seq < r.historySeq + 1 := by
  obtain ⟨r', hr', hid, hseq, -⟩ := hb.chronicle e he
  obtain rfl := Table.eq_of_key_eq hr' (Table.mem_of_get? hr) (hid.trans hrun)
  omega

/-- A new event leaves the others alone. -/
private theorem mem_event {r : WorkflowRun} {eventType : EventType} {payload : Option Json}
    {now : Time} (hw : w.history = v.history)
    (hseq : ∀ e ∈ v.history, e.workflowRunID = r.id → e.seq < r.historySeq + 1)
    (hne : e.workflowRunID = r.id → e.eventType ≠ eventType) :
    e ∈ (backend.applyAll w (historyWrites r eventType payload now)).history ↔ e ∈ v.history := by
  change e ∈ w.history.put _ ↔ _
  rw [hw, Table.mem_put]
  constructor
  · rintro (rfl | ⟨he, -⟩)
    · exact absurd rfl (hne rfl)
    · exact he
  · refine fun he => Or.inr ⟨he, fun hkey => ?_⟩
    have hkey : (e.workflowRunID, e.seq) = (r.id, r.historySeq + 1) := hkey
    obtain ⟨hrun, hnum⟩ := Prod.ext_iff.mp hkey
    have hlt := hseq e he hrun
    simp only at hnum
    omega

/-- Only a cancellation of the run adds a record of its cancellation, and it locks
the run's row. -/
theorem Act.mem_history (hb : Base v) (hact : Act l v u) (he : e.Cancels runID)
    (h : l.run ≠ runID ∨ (l.kind ≠ .cancelEvent ∧ l.kind ≠ .finish .cancelled) ∨
      Lock.run runID ∉ backend.locksOf u) :
    e ∈ (backend.applyAll v u).history ↔ e ∈ v.history := by
  have hrow : ∀ {id : UUID} {r : WorkflowRun}, v.runs.get? id = some r →
      ∀ e ∈ v.history, e.workflowRunID = r.id → e.seq < r.historySeq + 1 :=
    fun hr _ => hb.seq_lt (Table.get?_key hr)
  have htype : ∀ {st : EventType}, st ≠ .runCancelled → e.eventType ≠ st :=
    fun hst heq => hst (heq.symm.trans he.2)
  cases hact with
  | create _ hnew =>
    rw [applyAll_create]
    refine mem_event rfl (fun e' he' hrun => ?_) (fun _ => htype (by decide))
    obtain ⟨r, hr, hid, -⟩ := hb.chronicle e' he'
    exact absurd (hid.trans hrun) (Table.get?_eq_none.mp hnew r hr)
  | skip _ _ _ hr =>
    rw [Backend.applyAll_cons]
    exact mem_event rfl (hrow hr) (fun _ => htype (by decide))
  | resolve _ _ _ _ _ _ _ _ hr =>
    simp only [Backend.applyAll_cons]
    exact mem_event rfl (hrow hr) (fun _ => htype (by decide))
  | dispatch _ _ _ _ _ hr =>
    simp only [Backend.applyAll_cons]
    exact mem_event rfl (hrow hr) (fun _ => htype (by decide))
  | succeed hclose _ _ _ hr =>
    rw [Backend.applyAll_append, Backend.applyAll_cons]
    exact mem_event hclose.history (hrow hr) (fun _ => htype (by decide))
  | retry hclose _ _ _ _ _ _ hr =>
    simp only [Backend.applyAll_append, Backend.applyAll_cons]
    exact mem_event hclose.history (hrow hr) (fun _ => htype (by decide))
  | giveUp hclose _ _ _ hr =>
    rw [Backend.applyAll_append, Backend.applyAll_cons]
    exact mem_event hclose.history (hrow hr) (fun _ => htype (by decide))
  | late hclose _ _ htms =>
    rw [Backend.applyAll_append]
    rcases htms with rfl | ⟨tm, rfl, -⟩
    · exact iff_of_eq (congrArg (e ∈ ·) hclose.history)
    · exact iff_of_eq (congrArg (e ∈ ·) hclose.history)
  | start hr _ =>
    have hseq := hrow hr
    rw [Backend.applyAll_cons]
    exact mem_event rfl hseq (fun _ => htype (by decide))
  | @finish _ r next _ _ _ _ hr _ _ _ =>
    have hseq := hrow hr
    rw [Backend.applyAll_cons]
    refine mem_event rfl hseq (fun hrun => ?_)
    have hid : r.id = runID := hrun.symm.trans he.1
    rcases h with h | h | h
    · exact absurd hid h
    · refine htype ?_
      cases next <;> first | decide | exact absurd rfl h.2
    · exact absurd (by simp [hid]) h
  | @cancelEvent _ r _ hr _ =>
    refine mem_event rfl (hrow hr) (fun hrun => ?_)
    have hid : r.id = runID := hrun.symm.trans he.1
    rcases h with h | h | h
    · exact absurd hid h
    · exact absurd rfl h.1
    · exact absurd (by simp [hid]) h
  | log hr => exact mem_event rfl (hrow hr) (fun _ => htype (by decide))
  | _ => exact Iff.rfl

end History

/-- The status of a run, its cancelled steps and the records of its cancellation
agree. -/
structure Sound (runID : UUID) (v : Db) : Prop where
  steps : ∀ r, v.runs.get? runID = some r → r.status ≠ .cancelled →
    ∀ t ∈ v.steps, t.workflowRunID = runID → t.status ≠ .cancelled
  events : ∀ r, v.runs.get? runID = some r → r.status ≠ .cancelled →
    ∀ e ∈ v.history, ¬ e.Cancels runID
  ended : ∀ r, v.runs.get? runID = some r → r.status = .cancelled →
    AllDone v.steps runID ∧ ∃! e, e ∈ v.history ∧ e.Cancels runID

/-- A sound run is upright. -/
theorem Sound.upright {runID : UUID} {v : Db} (h : Sound runID v) (hb : Base v) :
    Upright runID v := by
  refine ⟨fun t ht hrun hst => ?_, fun r hr hend => ?_⟩
  · obtain ⟨r, hr, hid⟩ := hb.graph.run t ht
    have hget : v.runs.get? runID = some r := by
      rw [← hrun, ← hid]
      exact Table.mem_iff_get?.mp hr
    refine ⟨r, hget, ?_⟩
    have hcancelled : r.status = .cancelled :=
      not_not.mp (fun hne => h.steps r hget hne t ht hrun hst)
    rw [hcancelled]
    rfl
  · by_cases hst : r.status = .cancelled
    · exact (h.ended r hr hst).1
    · have hid : r.id = runID := Table.key_of_get? hr
      refine hid ▸ (hb.graph.finished r (Table.mem_of_get? hr) ?_).1
      cases hs : r.status <;> simp_all [runTerminal]

/-- What an action that does not cancel the run keeps. -/
theorem Sound.act {runID : UUID} {l : Label} {v : Db} {u : List Write} (h : Sound runID v)
    (hb : Base v) (hact : Act l v u) (hl : l.run ≠ runID ∨ l.kind.cancels = false) :
    Sound runID (backend.applyAll v u) := by
  have hev := hact.evolves
  have hstep : l ≠ ⟨runID, .cancelStep⟩ := by
    rintro rfl
    simp [Kind.cancels] at hl
  have hcr : l ≠ ⟨runID, .cancelRun⟩ := by
    rintro rfl
    simp [Kind.cancels] at hl
  -- An end of the run as cancelled would need a cancelled step.
  have hfin : l ≠ ⟨runID, .finish .cancelled⟩ := by
    rintro rfl
    cases hact with
    | finish hr hlive _ hout =>
      obtain ⟨-, t, ht, hrun, hst⟩ := hout
      refine h.steps _ hr (fun heq => ?_) t ht hrun hst
      rw [heq] at hlive
      cases hlive
  have hevents : ∀ {e : HistoryEvent}, e.Cancels runID →
      (e ∈ (backend.applyAll v u).history ↔ e ∈ v.history) := by
    intro e he
    refine hact.mem_history hb he ?_
    by_cases hrun : l.run = runID
    · have hk := hl.resolve_left (fun h => h hrun)
      refine Or.inr (Or.inl ⟨fun hk' => ?_, fun hk' => hfin ?_⟩)
      · rw [hk'] at hk
        cases hk
      · rw [← hrun, ← hk']
    · exact Or.inl hrun
  -- A run that is not cancelled afterwards was not cancelled before.
  have hback : ∀ {r r' : WorkflowRun}, v.runs.get? runID = some r →
      (backend.applyAll v u).runs.get? runID = some r' → r'.status ≠ .cancelled →
      r.status ≠ .cancelled := by
    intro r r' hr hr' hne hst
    obtain ⟨r'', hr'', hrev⟩ := hev.run hr
    obtain rfl := Option.some.inj (hr'.symm.trans hr'')
    exact hne ((hrev.done (by rw [hst]; rfl)).1.trans hst)
  refine ⟨fun r' hr' hne t ht hrun hst => ?_, fun r' hr' hne e he hcancels => ?_,
    fun r' hr' hst => ?_⟩
  · have ht₀ := hact.mem_of_cancelled hb hstep ht hrun hst
    obtain ⟨r, hr, hid⟩ := hb.graph.run t ht₀
    have hget : v.runs.get? runID = some r := (hid.trans hrun) ▸ Table.mem_iff_get?.mp hr
    exact h.steps r hget (hback hget hr' hne) t ht₀ hrun hst
  · have he₀ := (hevents hcancels).mp he
    obtain ⟨r, hr, hid, -⟩ := hb.chronicle e he₀
    have hget : v.runs.get? runID = some r := (hid.trans hcancels.1) ▸ Table.mem_iff_get?.mp hr
    exact h.events r hget (hback hget hr' hne) e he₀ hcancels
  · cases hr : v.runs.get? runID with
    | none =>
      rw [hact.pending_of_new hb hr hr'] at hst
      cases hst
    | some r =>
      have hmoves := hact.moves hb hr hr'
      rw [hst] at hmoves
      generalize hst₀ : r.status = st₀ at hmoves
      cases hmoves with
      | same =>
        obtain ⟨hall, e, ⟨he, hcancels⟩, honly⟩ := h.ended r hr hst₀
        exact ⟨hev.allDone hr hall, e, ⟨(hevents hcancels).mpr he, hcancels⟩,
          fun e' he' => honly e' ⟨(hevents he'.2).mp he'.1, he'.2⟩⟩
      | finish heq => exact absurd heq hfin
      | cancel heq => exact absurd heq hcr

end Orchestrator
