import Orchestrator.Transactions.Completion

/-!
# Reconciliation of a run

The parts of `reconcileTx` together: whatever else is going on, its writes are a
sequence of actions, and in a quiet run nothing is left to reconcile.
-/

namespace Orchestrator

open Lib Actions

section Local

variable {rs rs' : RunState}

theorem RunState.Skips.ready (h : rs.Skips rs') {s : Step} (hready : rs.ready s = true) :
    rs'.ready s = true := by
  refine List.all_eq_true.mpr (fun dep hdep => ?_)
  have hany := List.all_eq_true.mp hready dep hdep
  obtain ⟨d, hd, hst⟩ := Option.any_eq_true _ _ |>.mp hany
  rcases h dep with heq | ⟨d', hd', hfresh, -⟩
  · rw [heq]
    exact hany
  · obtain rfl := Option.some.inj (hd.symm.trans hd')
    rw [beq_iff_eq] at hst
    simp [Step.isFresh, hst] at hfresh

/-- A step keeps what it was created with. -/
theorem RunState.Advances.info (h : rs.Advances rs') {s : Step} (hs : s ∈ rs) :
    ∃ s' ∈ rs', s'.info = s.info := by
  have hget := Table.mem_iff_get?.mp hs
  rcases h s.stepName with heq | ⟨s₀, s', hs₀, hs', hinfo, -⟩
  · exact ⟨s, Table.mem_of_get? (heq.trans hget), rfl⟩
  · obtain rfl := Option.some.inj (hget.symm.trans hs₀)
    exact ⟨s', Table.mem_of_get? hs', hinfo⟩

theorem RunState.ready_congr {s t : Step} (hinfo : t.info = s.info) : rs.ready t = rs.ready s := by
  rw [RunState.ready, RunState.ready, Step.deps_of_info hinfo]

/-- The local view of steps with different names has them all. -/
theorem mem_newRunState {steps : List Step} (hnodup : (steps.map (·.stepName)).Nodup) {s : Step} :
    s ∈ newRunState steps ↔ s ∈ steps := by
  rw [newRunState, Table.mem_foldl_put (fun _ _ => Table.get?_empty _) hnodup]
  simp

end Local

section Closure

variable {Q : Db → Prop} {run : WorkflowRun} {rs₀ rs₁ mid rs₂ : RunState} {v : Db}

/-- What the loops have established, in terms of the rows. -/
theorem View.settles (hV : View Q run rs₂ v) (hq : Q v) (hskips : rs₀.Skips rs₁)
    (hadv : rs₁.Advances mid) (hadv' : mid.Advances rs₂)
    (hskipped : ∀ s ∈ rs₁, s.isFresh = true → ¬ rs₁.blocked s = true)
    (hready : ∀ s ∈ rs₂, s.isFresh = true → ¬ mid.ready s = true)
    (hlive : ¬ rs₂.allTerminal = true) : Settles run.id rs₀ v := by
  have hfind : ∀ t ∈ v.steps, t.workflowRunID = run.id → t.status = .pending →
      ∃ s ∈ rs₂, s.isFresh = true ∧ s.workflowRunID = run.id ∧ t.info = s.info := by
    intro t ht hrun hst
    obtain ⟨s, hs, hcopy, hmirror⟩ := hV.find ht hrun
    have hst' : s.status = .pending := ((hmirror hq).eq_status (by rw [hst]; decide)).trans hst
    exact ⟨s, Table.mem_of_get? hs, by simp [Step.isFresh, hst'],
      (Step.run_of_info hcopy.info).symm.trans hrun, hcopy.info⟩
  refine ⟨⟨fun _ _ _ => hV.exists_live hq hlive, fun t ht hrun hst hb => ?_,
    fun hno t ht hrun hst hdeps => ?_⟩, fun t ht hrun hst hr => ?_⟩
  · obtain ⟨s, hs, hfresh, hsrun, hinfo⟩ := hfind t ht hrun hst
    have hs₁ := (hadv.trans hadv').fresh hs hfresh
    exact hskipped s (Table.mem_of_get? hs₁) hfresh
      ((hadv.trans hadv').blocked (hV.isBlocked hq hsrun hinfo hb))
  · obtain ⟨s, hs, hfresh, hsrun, hinfo⟩ := hfind t ht hrun hst
    refine hready s hs hfresh (hadv'.ready_iff (fun d hd htype => ?_)
      (hV.ready hq hsrun hinfo hdeps))
    obtain ⟨d', hd', hdinfo⟩ := hadv'.info hd
    obtain ⟨hdrun, x, hx, hcopy, -⟩ := hV.copies d' hd'
    refine hno x (Table.mem_of_get? hx) ((Step.run_of_info hcopy.info).trans hdrun) ?_
    rw [Step.type_of_info hcopy.info, Step.type_of_info hdinfo, htype]
  · obtain ⟨s, hs, hfresh, -, hinfo⟩ := hfind t ht hrun hst
    rw [RunState.ready_congr hinfo] at hr
    exact hready s hs hfresh (hadv.ready (hskips.ready hr))

end Closure

section Programs

variable {A C : Label → Prop} {Err : Error → Prop} {H : List Lock} {Q : Db → Prop}
  {run : WorkflowRun}

/-- `reconcileTx` on a run that has not ended. -/
theorem reconcileTx_spec (hQ : Quiet A H run.id Q)
    (hC : ∀ k : Kind, k.ofReconcile = true → C ⟨run.id, k⟩) (herr : ∀ v, ¬ Q v → ∀ e, Err e)
    (hlive : runTerminal run.status = false) (steps : List Step) :
    engine.Triple A C Err H (fun v ws => ws = [] ∧ View Q run (newRunState steps) v)
      (reconcileTx run steps) H (fun _ => Settled Q run.id (newRunState steps)) := by
  unfold reconcileTx
  simp only [hlive]
  refine Triple.bind ((propagateSkips_spec (K := True) hQ hC (newRunState steps)).pre
    (fun v ws _ hF => ⟨hF.1, hF.2, fun _ => trivial⟩)) (fun rs₁ => Triple.assume (fun hskips => ?_))
  refine Triple.bind (dispatchReady_spec hQ hC herr rs₁) (fun rs₂ =>
    Triple.exists (fun mid => Triple.assume (fun hadv => Triple.assume (fun hadv' => ?_))))
  exact checkRunCompletion_spec hQ hC (fun v hV hq hK hall =>
    hV.settles hq hskips hadv hadv' hK.1.2 hK.2 hall)

/-- `reconcileTx` on a run that has ended does nothing. -/
theorem reconcileTx_ended {F : Db → List Write → Prop} (hend : runTerminal run.status = true)
    (steps : List Step) :
    engine.Triple A C Err H F (reconcileTx run steps) H (fun _ => F) := by
  unfold reconcileTx
  simp only [hend, if_true]
  exact Triple.ret (List.Subset.refl _) (fun _ _ _ hF => hF)

/-- The steps of a run have different names. -/
theorem Base.nodup_names {v : Db} (hb : Base v) (runID : UUID) :
    ((v.stepsOf runID).map (·.stepName)).Nodup := by
  refine (v.steps.nodup_rows.filter _).map_on (fun t ht t' ht' hname => ?_)
  obtain ⟨ht, hrun⟩ := List.mem_filter.mp ht
  obtain ⟨ht', hrun'⟩ := List.mem_filter.mp ht'
  exact hb.graph.name_unique ht' ht
    ((of_decide_eq_true hrun).trans (of_decide_eq_true hrun').symm) hname

/-- The rows of a run's steps give a local view of it. -/
theorem View.of_rows {v : Db} (hb : Base v) {steps : List Step}
    (hrow : ∃ r, v.runs.get? run.id = some r ∧ r.shardID = run.shardID ∧
      (Q v → runTerminal r.status = false))
    (hperm : steps.Perm (v.stepsOf run.id)) : View Q run (newRunState steps) v := by
  have hmem : ∀ t, t ∈ steps ↔ t ∈ v.steps ∧ t.workflowRunID = run.id := by
    intro t
    rw [hperm.mem_iff, Db.stepsOf, List.mem_filter, decide_eq_true_eq]
    rfl
  have hnodup : (steps.map (·.stepName)).Nodup := (hperm.map _).nodup_iff.mpr (hb.nodup_names _)
  refine ⟨hrow, fun s hs => ?_, fun t ht hrun => ?_⟩
  · obtain ⟨hs, hrun⟩ := (hmem s).mp ((mem_newRunState hnodup).mp hs)
    exact ⟨hrun, s, Table.mem_iff_get?.mp hs, .refl s, fun _ => .refl s⟩
  · exact ⟨t, (mem_newRunState hnodup).mpr ((hmem t).mpr ⟨ht, hrun⟩), rfl⟩

/-- `GetSteps` gives a local view of the run, and whatever else can be read off
it. -/
theorem getSteps_spec (hQ : Quiet A H run.id Q) {F : Db → Prop} {G : List Step → Prop}
    (hrow : ∀ v, Base v → F v → ∃ r, v.runs.get? run.id = some r ∧ r.shardID = run.shardID ∧
      (Q v → runTerminal r.status = false))
    (hG : ∀ v steps, F v → View Q run (newRunState steps) v → G steps) :
    engine.Triple A C Err H (fun v ws => ws = [] ∧ F v) (Query.getSteps run.id).issue H
      (fun steps v ws => G steps ∧ ws = [] ∧ View Q run (newRunState steps) v) := by
  refine read_rule (fun d v => (d.shuffle (v.stepsOf run.id)).insertionSort
    (fun a b => a.createdAt ≤ b.createdAt)) (fun _ _ => rfl)
    (fun steps => (Robust.pure (fun _ => G steps)).and
      ((Robust.pure (· = [])).and (View.robust hQ))) ?_
  rintro v ws d hb ⟨rfl, hF⟩
  have hV := View.of_rows hb (hrow v hb hF) ((List.perm_insertionSort
    (fun a b : Step => a.createdAt ≤ b.createdAt) _).trans (d.shuffle_perm (v.stepsOf run.id)))
  exact ⟨hG v _ hF hV, rfl, hV⟩

end Programs

end Orchestrator
