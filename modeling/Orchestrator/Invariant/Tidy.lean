import Orchestrator.Invariant.Sound

/-!
# Why steps are skipped and runs are cancelled

A step is skipped because a step it depends on has failed or was skipped itself. A
step that has been cancelled depends on no such step, and a run that has been
cancelled has a step that has. Actions other than those of a cancellation keep
this.
-/

namespace Orchestrator

open Lib

/-- A step that the step depends on has failed or was skipped. -/
def Cut (T : Table Step.id) (t : Step) : Prop :=
  ∃ d ∈ T, d.workflowRunID = t.workflowRunID ∧ d.stepName ∈ t.dependsOn ∧
    (d.status = .failed ∨ d.status = .skipped)

theorem Cut.blocked {T : Table Step.id} {t : Step} (h : Cut T t) : Blocked T t := by
  obtain ⟨d, hd, hrun, hname, hst⟩ := h
  refine ⟨d, hd, hrun, hname, ?_⟩
  rcases hst with hst | hst <;> rw [hst] <;> rfl

/-- A step that has failed or was skipped stays so. -/
theorem Cut.evolve {v v' : Db} {t t' : Step} (h : Cut v.steps t) (hev : v.Evolves v')
    (hinfo : t'.info = t.info) : Cut v'.steps t' := by
  obtain ⟨d, hd, hrun, hname, hst⟩ := h
  obtain ⟨d', hd', hdev⟩ := hev.steps d hd
  obtain rfl : d' = d := hdev.done (by rcases hst with hst | hst <;> rw [hst] <;> rfl)
  exact ⟨d', hd', hrun.trans (Step.run_of_info hinfo).symm,
    (Step.deps_of_info hinfo).symm ▸ hname, hst⟩

/-- Why the steps of a run are skipped and how it is cancelled. -/
structure Tidy (runID : UUID) (v : Db) : Prop where
  cut : ∀ r, v.runs.get? runID = some r → r.status = .cancelled →
    ∃ t ∈ v.steps, t.workflowRunID = runID ∧ t.status = .cancelled
  skipped : ∀ t ∈ v.steps, t.workflowRunID = runID → t.status = .skipped → Cut v.steps t
  clean : ∀ t ∈ v.steps, t.workflowRunID = runID → t.status = .cancelled → ¬ Cut v.steps t

section

variable {runID : UUID} {l : Label} {v : Db} {u : List Write}

/-- A transition to another status skips nothing. -/
private theorem mem_of_unskipped {T : Table Step.id} {s t : Step} {next : StepStatus}
    {output : Option RawMessage} {errMsg : Option String} {bump : Bool} {now : Time}
    (hT : T = v.steps) (ht : t ∈ T.put (s.transition next output errMsg bump now))
    (hst : t.status = .skipped) (hnext : next ≠ .skipped) : t ∈ v.steps := by
  rcases Table.mem_put.mp ht with rfl | ⟨ht, -⟩
  · exact absurd hst hnext
  · exact hT ▸ ht

/-- A step is skipped by an action that finds it blocked. -/
theorem Act.mem_of_skipped (hb : Base v) (hact : Act l v u) {t : Step}
    (ht : t ∈ (backend.applyAll v u).steps) (hst : t.status = .skipped) :
    t ∈ v.steps ∨ ∃ t₀ ∈ v.steps, t₀.status = .pending ∧ t.info = t₀.info ∧
      Blocked v.steps t₀ := by
  by_cases hcalm : l.run ≠ t.workflowRunID ∨ l.kind.calm = true
  · obtain ⟨t₀, ht₀, hdrift⟩ := (hact.calm hb hcalm).back t ht rfl
    obtain rfl := hdrift.eq_of_ne (by rw [hst]; decide)
    exact Or.inl ht₀
  · obtain ⟨-, hkind⟩ := not_or.mp hcalm
    clear hcalm
    cases hact with
    | create hd hr hsteps hnew hnodup =>
      rw [applyAll_create] at ht
      rcases (Table.mem_foldl_put hnew hnodup).mp ht with ht | ht
      · obtain ⟨ns, -, stepID, now, rfl⟩ := forall₂_right hsteps t ht
        cases hst
      · exact Or.inl ht
    | @skip _ s r now now' hs hpending hblocked hr =>
      have ht' : t ∈ v.steps.put (s.transition .skipped none none false now) := ht
      rcases Table.mem_put.mp ht' with rfl | ⟨ht', -⟩
      · exact Or.inr ⟨s, Table.mem_of_get? hs, hpending, rfl, hblocked⟩
      · exact Or.inl ht'
    | park => exact Or.inl (mem_of_unskipped rfl ht hst (by decide))
    | resolve => exact Or.inl (mem_of_unskipped rfl ht hst (by decide))
    | dispatch => exact Or.inl (mem_of_unskipped rfl ht hst (by decide))
    | succeed hclose =>
      rw [Backend.applyAll_append] at ht
      exact Or.inl (mem_of_unskipped hclose.frame.1 ht hst (by decide))
    | retry hclose =>
      rw [Backend.applyAll_append] at ht
      exact Or.inl (mem_of_unskipped hclose.frame.1 ht hst (by decide))
    | giveUp hclose =>
      rw [Backend.applyAll_append] at ht
      exact Or.inl (mem_of_unskipped hclose.frame.1 ht hst (by decide))
    | start => exact Or.inl ht
    | finish => exact Or.inl ht
    | cancelStep => exact Or.inl (mem_of_unskipped rfl ht hst (by decide))
    | cancelRun => exact Or.inl ht
    | _ => exact absurd rfl hkind

/-- What an action that does not cancel the run keeps. -/
theorem Tidy.act (h : Tidy runID v) (hup : Upright runID v) (hb : Base v) (hact : Act l v u)
    (hl : l.run ≠ runID ∨ l.kind.cancels = false) : Tidy runID (backend.applyAll v u) := by
  have hev := hact.evolves
  have hstep : l ≠ ⟨runID, .cancelStep⟩ := by
    rintro rfl
    simp [Kind.cancels] at hl
  have hcr : l ≠ ⟨runID, .cancelRun⟩ := by
    rintro rfl
    simp [Kind.cancels] at hl
  have hstays : (∃ t ∈ v.steps, t.workflowRunID = runID ∧ t.status = .cancelled) →
      ∃ t ∈ (backend.applyAll v u).steps, t.workflowRunID = runID ∧ t.status = .cancelled := by
    rintro ⟨t, ht, hrun, hst⟩
    obtain ⟨t', ht', htev⟩ := hev.steps t ht
    obtain rfl : t' = t := htev.done (by rw [hst]; rfl)
    exact ⟨t', ht', hrun, hst⟩
  refine ⟨fun r' hr' hst => hstays ?_, fun t ht hrun hst => ?_, fun t ht hrun hst hcut => ?_⟩
  · cases hr : v.runs.get? runID with
    | none =>
      rw [hact.pending_of_new hb hr hr'] at hst
      cases hst
    | some r =>
      have hmoves := hact.moves hb hr hr'
      rw [hst] at hmoves
      generalize hst₀ : r.status = st₀ at hmoves
      cases hmoves with
      | same => exact h.cut r hr hst₀
      | finish _ _ hfin => exact hfin.2.2
      | cancel heq => exact absurd heq hcr
  · rcases hact.mem_of_skipped hb ht hst with hold | ⟨t₀, ht₀, hpending, hinfo, hblocked⟩
    · exact (h.skipped t hold hrun hst).evolve hev rfl
    · -- A step that blocks a pending one has not been cancelled.
      obtain ⟨d, hd, hdrun, hname, hbad⟩ := hblocked
      have hrun₀ : t₀.workflowRunID = runID := (Step.run_of_info hinfo).symm.trans hrun
      have hdst : d.status = .failed ∨ d.status = .skipped := by
        cases hds : d.status with
        | failed => exact Or.inl rfl
        | skipped => exact Or.inr rfl
        | cancelled =>
          obtain ⟨r, hr, hend⟩ := hup.cancelled d hd (hdrun.trans hrun₀) hds
          have hdone := hup.ended r hr hend t₀ ht₀ hrun₀
          rw [hpending] at hdone
          cases hdone
        | _ =>
          rw [hds] at hbad
          cases hbad
      exact Cut.evolve ⟨d, hd, hdrun, hname, hdst⟩ hev hinfo
  · have hold := hact.mem_of_cancelled hb hstep ht hrun hst
    obtain ⟨r, hr, hend⟩ := hup.cancelled t hold hrun hst
    obtain ⟨d', hd', hdrun, hname, hdst⟩ := hcut
    refine h.clean t hold hrun hst ⟨d', ?_, hdrun, hname, hdst⟩
    rcases hev.newSteps d' hd' with ⟨d, hd, hdev⟩ | hnone
    · have hdone := hup.ended r hr hend d hd
        ((Step.run_of_info hdev.info).symm.trans (hdrun.trans hrun))
      rwa [hdev.done hdone]
    · rw [hdrun, hrun, hr] at hnone
      cases hnone

end

end Orchestrator
