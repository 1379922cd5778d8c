import Orchestrator.Transactions.Rules

/-!
# The local view of a run

`reconcileTx` works on copies of the step rows that it has read or written. The
rows may have changed since, but a step that has ended does not change, so what
a copy says about an ended step is true. In a quiet run the copies are up to
date, except that a worker may have started a queued task.
-/

namespace Orchestrator

open Lib Actions

/-- The first row is a copy of the second that may be out of date, but not about
how a step has ended. -/
structure Step.Copies (s t : Step) : Prop where
  info : t.info = s.info
  count : s.attemptCount ≤ t.attemptCount
  done : stepTerminal s.status = true → t.status = s.status
  output : s.status = .completed → t.output = s.output

/-- The first row is a copy of the second, up to a worker having started it. -/
structure Step.Mirrors (s t : Step) : Prop where
  count : t.attemptCount = s.attemptCount
  status : t.status = s.status ∨ (s.status = .queued ∧ t.status = .running)

section Rows

variable {s t t' : Step}

theorem Step.Copies.refl (s : Step) : s.Copies s := ⟨rfl, le_rfl, fun _ => rfl, fun _ => rfl⟩

theorem Step.Mirrors.refl (s : Step) : s.Mirrors s := ⟨rfl, Or.inl rfl⟩

theorem Step.Copies.evolve (h : s.Copies t) (hev : t.Evolves t') : s.Copies t' where
  info := hev.info.trans h.info
  count := h.count.trans hev.count
  done hs := by
    have hst := h.done hs
    rw [hev.done (hst ▸ hs)]
    exact hst
  output hs := by
    have hst : t.status = s.status := h.done (by rw [hs]; rfl)
    rw [hev.done (by rw [hst, hs]; rfl)]
    exact h.output hs

theorem Step.Mirrors.drift (h : s.Mirrors t) (hd : t.Drifts t') : s.Mirrors t' where
  count := hd.count.trans h.count
  status := by
    rcases hd.status with heq | ⟨hq, hr⟩
    · rw [heq]
      exact h.status
    · rcases h.status with hst | ⟨-, hst⟩
      · exact Or.inr ⟨hst ▸ hq, hr⟩
      · rw [hst] at hq
        cases hq

/-- An up-to-date copy of a step that is not queued has the status of the row. -/
theorem Step.Mirrors.status_eq (h : s.Mirrors t) (hs : s.status ≠ .queued) :
    t.status = s.status :=
  h.status.resolve_right (fun h => hs h.1)

/-- The row of a step has the status of its up-to-date copy unless it is
running. -/
theorem Step.Mirrors.eq_status (h : s.Mirrors t) (ht : t.status ≠ .running) :
    s.status = t.status :=
  (h.status.resolve_right (fun h => ht h.2)).symm

end Rows

/-- The local copies `rs` describe the run in the state `v`. -/
structure View (Q : Db → Prop) (run : WorkflowRun) (rs : RunState) (v : Db) : Prop where
  row : ∃ r, v.runs.get? run.id = some r ∧ r.shardID = run.shardID ∧
    (Q v → runTerminal r.status = false)
  copies : ∀ s ∈ rs, s.workflowRunID = run.id ∧
    ∃ t, v.steps.get? s.id = some t ∧ s.Copies t ∧ (Q v → s.Mirrors t)
  covers : ∀ t ∈ v.steps, t.workflowRunID = run.id → ∃ s ∈ rs, s.id = t.id

namespace View

variable {Q : Db → Prop} {run : WorkflowRun} {rs : RunState} {v v' : Db}

/-- The view stays true as long as the run is left alone, or nothing is claimed
of it. -/
theorem evolve (hV : View Q run rs v) (hev : v.Evolves v')
    (hcalm : Q v' → Q v ∧ Calm run.id v v') : View Q run rs v' := by
  obtain ⟨r, hr, hshard, hlive⟩ := hV.row
  refine ⟨?_, fun s hs => ?_, fun t' ht' hrun => ?_⟩
  · obtain ⟨r', hr', hrr'⟩ := hev.run hr
    refine ⟨r', hr', hrr'.shardID.trans hshard, fun hq => ?_⟩
    obtain ⟨hq, hc⟩ := hcalm hq
    have hst : some r'.status = some r.status := by simpa [hr, hr'] using hc.status
    rw [Option.some.inj hst]
    exact hlive hq
  · obtain ⟨hrun, t, ht, hcopy, hmirror⟩ := hV.copies s hs
    obtain ⟨t', ht', htt'⟩ := hev.step ht
    refine ⟨hrun, t', ht', hcopy.evolve htt', fun hq => ?_⟩
    obtain ⟨hq, hc⟩ := hcalm hq
    obtain ⟨t'', ht'', hd⟩ := hc.forth t (Table.mem_of_get? ht)
      ((Step.run_of_info hcopy.info).trans hrun)
    have hid : t''.id = t'.id := by rw [Step.id_of_info hd.info, Step.id_of_info htt'.info]
    rw [← Table.eq_of_key_eq ht'' (Table.mem_of_get? ht') hid]
    exact (hmirror hq).drift hd
  · rcases hev.newSteps t' ht' with ⟨t, ht, htt'⟩ | hnone
    · obtain ⟨s, hs, hid⟩ := hV.covers t ht ((Step.run_of_info htt'.info).symm.trans hrun)
      exact ⟨s, hs, hid.trans (Step.id_of_info htt'.info).symm⟩
    · rw [hrun, hr] at hnone
      cases hnone

/-- The local view survives what others may do. -/
theorem robust {A : Label → Prop} {H : List Lock} (hQ : Quiet A H run.id Q) :
    engine.Robust A H (fun v _ => View Q run rs v) :=
  hQ.robust (fun _ _ _ _ hev _ hcalm hV => hV.evolve hev hcalm)

/-- Every step of the run has a local copy. -/
theorem find (hV : View Q run rs v) {t : Step} (ht : t ∈ v.steps)
    (hrun : t.workflowRunID = run.id) :
    ∃ s, rs.get? t.stepName = some s ∧ s.Copies t ∧ (Q v → s.Mirrors t) := by
  obtain ⟨s, hs, hid⟩ := hV.covers t ht hrun
  obtain ⟨-, t', ht', hcopy, hmirror⟩ := hV.copies s hs
  obtain rfl : t' = t :=
    Table.eq_of_key_eq (Table.mem_of_get? ht') ht ((Table.key_of_get? ht').trans hid)
  exact ⟨s, (Step.name_of_info hcopy.info).symm ▸ Table.mem_iff_get?.mp hs, hcopy, hmirror⟩

/-- A local copy has its row. -/
theorem row_of_get? (hV : View Q run rs v) {name : String} {s : Step}
    (hs : rs.get? name = some s) :
    s.stepName = name ∧ s.workflowRunID = run.id ∧
      ∃ t, v.steps.get? s.id = some t ∧ s.Copies t ∧ (Q v → s.Mirrors t) :=
  ⟨Table.key_of_get? hs, hV.copies s (Table.mem_of_get? hs)⟩

/-- A step that is ready in the local view has its dependencies completed. -/
theorem depsDone (hV : View Q run rs v) {s t : Step} (hrun : s.workflowRunID = run.id)
    (hinfo : t.info = s.info) (hready : rs.ready s = true) : DepsDone v.steps t := by
  intro dep hdep
  rw [Step.deps_of_info hinfo] at hdep
  have hany := List.all_eq_true.mp hready dep hdep
  obtain ⟨d, hd, hst⟩ := Option.any_eq_true _ _ |>.mp hany
  obtain ⟨hname, hdrun, t', ht', hcopy, -⟩ := hV.row_of_get? hd
  have hst' : d.status = .completed := by simpa using hst
  refine ⟨t', Table.mem_of_get? ht', ?_, (Step.name_of_info hcopy.info).trans hname, ?_⟩
  · rw [Step.run_of_info hcopy.info, Step.run_of_info hinfo, hdrun, hrun]
  · rw [hcopy.done (by rw [hst']; rfl), hst']

theorem isBad_terminal {st : StepStatus} (h : st.isBad = true) : stepTerminal st = true := by
  cases st <;> first | rfl | cases h

/-- A step that is blocked in the local view is blocked. -/
theorem blocked (hV : View Q run rs v) {s t : Step} (hrun : s.workflowRunID = run.id)
    (hinfo : t.info = s.info) (hblocked : rs.blocked s = true) : Blocked v.steps t := by
  obtain ⟨dep, hdep, hany⟩ := List.any_eq_true.mp hblocked
  obtain ⟨d, hd, hbad⟩ := Option.any_eq_true _ _ |>.mp hany
  obtain ⟨hname, hdrun, t', ht', hcopy, -⟩ := hV.row_of_get? hd
  refine ⟨t', Table.mem_of_get? ht', ?_, ?_, ?_⟩
  · rw [Step.run_of_info hcopy.info, Step.run_of_info hinfo, hdrun, hrun]
  · rw [Step.name_of_info hcopy.info, Step.deps_of_info hinfo, hname]
    exact hdep
  · rw [hcopy.done (isBad_terminal hbad)]
    exact hbad

/-- An up-to-date view knows which steps are ready. -/
theorem ready (hV : View Q run rs v) (hq : Q v) {s t : Step} (hrun : s.workflowRunID = run.id)
    (hinfo : t.info = s.info) (hdeps : DepsDone v.steps t) : rs.ready s = true := by
  refine List.all_eq_true.mpr (fun dep hdep => ?_)
  rw [← Step.deps_of_info hinfo] at hdep
  obtain ⟨d, hd, hdrun, hname, hst⟩ := hdeps dep hdep
  obtain ⟨c, hc, -, hmirror⟩ :=
    hV.find hd (hdrun.trans ((Step.run_of_info hinfo).trans hrun))
  rw [hname] at hc
  rw [hc, Option.any_some, beq_iff_eq, (hmirror hq).eq_status (by rw [hst]; decide), hst]

/-- An up-to-date view knows which steps are blocked. -/
theorem isBlocked (hV : View Q run rs v) (hq : Q v) {s t : Step}
    (hrun : s.workflowRunID = run.id) (hinfo : t.info = s.info) (hb : Blocked v.steps t) :
    rs.blocked s = true := by
  obtain ⟨d, hd, hdrun, hdep, hbad⟩ := hb
  obtain ⟨c, hc, -, hmirror⟩ :=
    hV.find hd (hdrun.trans ((Step.run_of_info hinfo).trans hrun))
  rw [Step.deps_of_info hinfo] at hdep
  refine List.any_eq_true.mpr ⟨d.stepName, hdep, ?_⟩
  have hst : d.status ≠ .running := fun h => by rw [h] at hbad; cases hbad
  rw [hc, Option.any_some, (hmirror hq).eq_status hst]
  exact hbad

/-- Where all copies have ended, all steps have. -/
theorem allDone (hV : View Q run rs v) (hall : rs.allTerminal = true) :
    AllDone v.steps run.id := by
  intro t ht hrun
  obtain ⟨s, hs, hcopy, -⟩ := hV.find ht hrun
  have hst : stepTerminal s.status = true :=
    List.all_eq_true.mp hall s (Table.mem_of_get? hs)
  rw [hcopy.done hst]
  exact hst

/-- Where a copy has not ended, its step has not. -/
theorem exists_live (hV : View Q run rs v) (hq : Q v) (hall : ¬ rs.allTerminal = true) :
    ∃ t ∈ v.steps, t.workflowRunID = run.id ∧ stepTerminal t.status = false := by
  have hex : ∃ s ∈ rs, stepTerminal s.status = false := by
    by_contra hne
    refine hall (List.all_eq_true.mpr (fun s hs => ?_))
    cases hst : stepTerminal s.status with
    | true => rfl
    | false => exact absurd ⟨s, hs, hst⟩ hne
  obtain ⟨s, hs, hlive⟩ := hex
  obtain ⟨hrun, t, ht, hcopy, hmirror⟩ := hV.copies s hs
  refine ⟨t, Table.mem_of_get? ht, (Step.run_of_info hcopy.info).trans hrun, ?_⟩
  rcases (hmirror hq).status with hst | ⟨-, hst⟩
  · rw [hst]
    exact hlive
  · rw [hst]
    rfl

/-- The view after the run's row has changed. -/
theorem putRun (hV : View Q run rs v) (hsteps : v'.steps = v.steps) (hQ : Q v' → Q v)
    {r' : WorkflowRun} (hr' : v'.runs.get? run.id = some r') (hshard : r'.shardID = run.shardID)
    (hlive : runTerminal r'.status = false) : View Q run rs v' where
  row := ⟨r', hr', hshard, fun _ => hlive⟩
  copies s hs := by
    obtain ⟨hrun, t, ht, hcopy, hmirror⟩ := hV.copies s hs
    exact ⟨hrun, t, hsteps ▸ ht, hcopy, fun hq => hmirror (hQ hq)⟩
  covers t ht := hV.covers t (hsteps ▸ ht)

/-- The view after a step row and its copy have changed together. -/
theorem put (hV : View Q run rs v) {s s' t t' : Step} (hs : s ∈ rs)
    (ht : v.steps.get? s.id = some t) (hinfo : t'.info = t.info) (hinfo' : s'.info = s.info)
    (hsteps : v'.steps = v.steps.put t') (hev : v.Evolves v') (hQ : Q v' → Q v)
    (hstatus : (v'.runs.get? run.id).map (·.status) = (v.runs.get? run.id).map (·.status))
    (hcopy : s'.Copies t') (hmirror : Q v' → s'.Mirrors t') : View Q run (rs.put s') v' := by
  have htid : t'.id = s.id := (Step.id_of_info hinfo).trans (Table.key_of_get? ht)
  obtain ⟨hrun, t₀, ht₀, hst₀, -⟩ := hV.copies s hs
  obtain rfl : t₀ = t := Option.some.inj (ht₀.symm.trans ht)
  refine ⟨?_, fun c hc => ?_, fun x hx hxrun => ?_⟩
  · obtain ⟨r, hr, hshard, hlive⟩ := hV.row
    obtain ⟨r', hr', hrr'⟩ := hev.run hr
    have hst : some r'.status = some r.status := by simpa [hr, hr'] using hstatus
    exact ⟨r', hr', hrr'.shardID.trans hshard, fun hq => Option.some.inj hst ▸ hlive (hQ hq)⟩
  · rcases Table.mem_put.mp hc with rfl | ⟨hc, hne⟩
    · refine ⟨(Step.run_of_info hinfo').trans hrun, t', ?_, hcopy, hmirror⟩
      rw [hsteps, Step.id_of_info hinfo', ← htid]
      exact Table.get?_put_self v.steps t'
    · obtain ⟨hcrun, x, hx, hcx, hmx⟩ := hV.copies c hc
      refine ⟨hcrun, x, ?_, hcx, fun hq => hmx (hQ hq)⟩
      rw [hsteps, Table.get?_put_of_ne, hx]
      -- Two copies of one row would have the same name.
      intro heq
      obtain rfl : x = t₀ := Option.some.inj (hx.symm.trans (by rw [← heq, htid, ht]))
      refine hne ?_
      rw [Step.name_of_info hinfo', ← Step.name_of_info hst₀.info, Step.name_of_info hcx.info]
  · rw [hsteps] at hx
    rcases Table.mem_put.mp hx with rfl | ⟨hx, hne⟩
    · exact ⟨s', Table.mem_put_self rs s', (Step.id_of_info hinfo').trans htid.symm⟩
    · obtain ⟨c, hc, hcid⟩ := hV.covers x hx hxrun
      refine ⟨c, Table.mem_put.mpr (Or.inr ⟨hc, fun hname => hne ?_⟩), hcid⟩
      obtain rfl := Table.eq_of_key_eq hc hs (hname.trans (Step.name_of_info hinfo'))
      exact hcid.symm.trans htid.symm

end View

end Orchestrator
