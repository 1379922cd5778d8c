import Orchestrator.Solo.Watch

/-!
# The local view of a transaction that runs alone

When nobody else is at work, the local copies of a run's steps agree with the rows
in everything but time stamps, and every compare-and-set finds what it expects. So
no update is lost, and no statement of an evaluation fails.
-/

namespace Orchestrator

open Lib Program

/-- The rows agree in everything but time stamps. -/
structure Step.Same (s t : Step) : Prop where
  info : t.info = s.info
  status : t.status = s.status
  count : t.attemptCount = s.attemptCount
  output : t.output = s.output
  error : t.error = s.error

theorem Step.Same.refl (s : Step) : s.Same s := ⟨rfl, rfl, rfl, rfl, rfl⟩

theorem Step.Same.copies {s t : Step} (h : s.Same t) : s.Copies t :=
  ⟨h.info, h.count.ge, fun _ => h.status, fun _ => h.output⟩

theorem Step.Same.seen {s t : Step} (h : s.Same t) : t.seen = s.seen := by
  rw [Step.seen, Step.seen, Step.id_of_info h.info, Step.name_of_info h.info, h.status, h.output,
    h.count]

theorem Step.Same.mirrors {s t : Step} (h : s.Same t) : s.Mirrors t := ⟨h.count, Or.inl h.status⟩

/-- Copies that are changed as their rows are stay the same. -/
theorem Step.Same.transition {s t : Step} (h : s.Same t) (next : StepStatus) (bump : Bool)
    (now : Time) : Step.Same { s with
      status := next
      attemptCount := s.attemptCount + if bump then 1 else 0 }
      (t.transition next none none bump now) where
  info := h.info
  status := rfl
  count := congrArg (· + if bump then 1 else 0) h.count
  output := h.output
  error := h.error

/-- The local copies are the rows of the run's steps, and the run's row is the one
that was read. -/
structure Mirror (run : WorkflowRun) (rs : RunState) (v : Db) : Prop extends
    View (fun _ => True) run rs v where
  status : ∃ r, v.runs.get? run.id = some r ∧ r.status = run.status
  same : ∀ s ∈ rs, ∀ t, v.steps.get? s.id = some t → s.Same t

namespace Mirror

variable {run : WorkflowRun} {rs : RunState} {v : Db}

/-- The row of a local copy. -/
theorem find_row (h : Mirror run rs v) {name : String} {s : Step} (hs : rs.get? name = some s) :
    s.workflowRunID = run.id ∧ ∃ t, v.steps.get? s.id = some t ∧ s.Same t := by
  obtain ⟨-, hrun, t, ht, -⟩ := h.row_of_get? hs
  exact ⟨hrun, t, ht, h.same s (Table.mem_of_get? hs) t ht⟩

/-- The run's row. -/
theorem live (h : Mirror run rs v) :
    ∃ r, v.runs.get? run.id = some r ∧ r.shardID = run.shardID ∧ r.status = run.status ∧
      runTerminal r.status = false := by
  obtain ⟨r, hr, hshard, hlive⟩ := h.row
  obtain ⟨r', hr', hst⟩ := h.status
  obtain rfl := Option.some.inj (hr.symm.trans hr')
  exact ⟨r, hr, hshard, hst, hlive trivial⟩

/-- Every step of the run has a local copy. -/
theorem find_copy (h : Mirror run rs v) {t : Step} (ht : t ∈ v.steps)
    (hrun : t.workflowRunID = run.id) : ∃ s, rs.get? t.stepName = some s ∧ s.Same t := by
  obtain ⟨s, hs, hcopy, -⟩ := h.find ht hrun
  refine ⟨s, hs, h.same s (Table.mem_of_get? hs) t ?_⟩
  rw [← Step.id_of_info hcopy.info]
  exact Table.mem_iff_get?.mp ht

/-- The view after a step row and its copy have changed together. -/
theorem put (h : Mirror run rs v) {v' : Db} {s s' t t' : Step} {name : String}
    (hs : rs.get? name = some s) (ht : v.steps.get? s.id = some t) (hinfo : t'.info = t.info)
    (hsteps : v'.steps = v.steps.put t') (hev : v.Evolves v')
    (hstatus : (v'.runs.get? run.id).map (·.status) = (v.runs.get? run.id).map (·.status))
    (hsame : s'.Same t') : Mirror run (rs.put s') v' := by
  have hmem := Table.mem_of_get? hs
  have hst := h.same s hmem t ht
  have hinfo' : s'.info = s.info := hsame.info.symm.trans (hinfo.trans hst.info)
  have hput := h.toView.put hmem ht hinfo hinfo' hsteps hev (fun _ => trivial) hstatus
    hsame.copies (fun _ => hsame.mirrors)
  refine ⟨hput, ?_, fun c hc x hx => ?_⟩
  · obtain ⟨r, hr, hrst⟩ := h.status
    obtain ⟨r', hr', -⟩ := hev.run hr
    rw [hr, hr'] at hstatus
    exact ⟨r', hr', (Option.some.inj hstatus).trans hrst⟩
  · have htid : t'.id = s.id := (Step.id_of_info hinfo).trans (Table.key_of_get? ht)
    rcases Table.mem_put.mp hc with rfl | ⟨hc, hne⟩
    · rw [hsteps, Step.id_of_info hinfo', ← htid, Table.get?_put_self] at hx
      exact Option.some.inj hx ▸ hsame
    · refine h.same c hc x ?_
      rw [hsteps, Table.get?_put_of_ne] at hx
      · exact hx
      -- Two copies of one row would have the same name.
      · intro heq
        obtain ⟨-, y, hy, hcy⟩ := h.find_row (Table.mem_iff_get?.mp hc)
        obtain rfl : y = t := Option.some.inj (hy.symm.trans (by rw [← heq, htid, ht]))
        refine hne ?_
        rw [Step.name_of_info hinfo', ← Step.name_of_info hst.info, Step.name_of_info hcy.info]

/-- The view after a change of a step that is recorded. -/
theorem changed (h : Mirror run rs v) {s s' t t' : Step} {name : String} {us : List Write}
    {r : WorkflowRun} {eventType : EventType} {payload : Option Json} {now : Time}
    (hs : rs.get? name = some s) (ht : v.steps.get? s.id = some t) (hinfo : t'.info = t.info)
    (hr : v.runs.get? run.id = some r) (hus : Aside us)
    (hev : v.Evolves
      (backend.applyAll v (us ++ .step t' :: historyWrites r eventType payload now)))
    (hsame : s'.Same t') : Mirror run (rs.put s')
      (backend.applyAll v (us ++ .step t' :: historyWrites r eventType payload now)) := by
  refine h.put hs ht hinfo ?_ hev ?_ hsame
  · rw [Backend.applyAll_append]
    exact congrArg (fun T => Table.put T t') (hus v).1
  · rw [Backend.applyAll_append]
    have hr' : ((backend.applyAll v us).apply (.step t')).runs.get? run.id = some r :=
      (congrArg (fun T => T.get? run.id) (hus v).2).trans hr
    exact (Calm.event hr').status.trans (by rw [hr', hr])

/-- The rows of a run's steps give a local view of it. -/
theorem of_rows (hb : Base v) {steps : List Step} {r : WorkflowRun}
    (hr : v.runs.get? run.id = some r) (hshard : r.shardID = run.shardID)
    (hst : r.status = run.status) (hlive : runTerminal run.status = false)
    (hperm : steps.Perm (v.stepsOf run.id)) : Mirror run (newRunState steps) v := by
  have hV : View (fun _ => True) run (newRunState steps) v :=
    .of_rows hb ⟨r, hr, hshard, fun _ => by rwa [hst]⟩ hperm
  refine ⟨hV, ⟨r, hr, hst⟩, fun s hs t ht => ?_⟩
  have hmem : s ∈ steps := by
    rcases Table.mem_of_mem_foldl_put hs with hs | hs
    · exact hs
    · exact absurd hs (Table.not_mem_empty s)
  obtain ⟨hs', -⟩ := List.mem_filter.mp (hperm.mem_iff.mp hmem)
  obtain rfl := Option.some.inj ((Table.mem_iff_get?.mp hs').symm.trans ht)
  exact .refl s

end Mirror

/-- Both maps have the same pointers. -/
def StepMaps.Shared (maps : StepMaps) : Prop := ∀ s, s ∈ maps.byID ↔ s ∈ maps.byName

/-- An assignment through a pointer is seen in both maps. -/
theorem StepMaps.Shared.write {maps : StepMaps} (h : maps.Shared) {name : String} {s s' : Step}
    (hs : maps.byName.get? name = some s) (hid : s'.id = s.id) (hname : s'.stepName = s.stepName) :
    (maps.write s').Shared := by
  have hmem := Table.mem_of_get? hs
  intro x
  have hne : x ∈ maps.byName → (x.id ≠ s'.id ↔ x.stepName ≠ s'.stepName) := by
    intro hx
    rw [hid, hname]
    refine not_congr ⟨fun heq => ?_, fun heq => ?_⟩
    · rw [Table.eq_of_key_eq ((h x).mpr hx) ((h s).mpr hmem) heq]
    · rw [Table.eq_of_key_eq hx hmem heq]
  refine Table.mem_put.trans (Iff.trans ?_ Table.mem_put.symm)
  rw [h x]
  exact or_congr Iff.rfl (and_congr_right hne)

/-- The maps of the rows of a run's steps. -/
theorem StepMaps.Shared.of_rows {v : Db} (hb : Base v) {steps : List Step} {runID : UUID}
    (hperm : steps.Perm (v.stepsOf runID)) : (newStepMaps steps).Shared := by
  have hnames : (steps.map (·.stepName)).Nodup := (hperm.map _).nodup_iff.mpr (hb.nodup_names _)
  have hids : (steps.map (·.id)).Nodup := by
    rw [(hperm.map _).nodup_iff]
    exact v.steps.nodup_keys.sublist (List.filter_sublist.map _)
  intro s
  refine Iff.trans ?_ (mem_newRunState hnames).symm
  refine (Table.mem_foldl_put (fun _ _ => Table.get?_empty _) hids).trans ?_
  exact or_iff_left (Table.not_mem_empty s)

/-- The maps have the rows as long as the local copies are the rows. -/
theorem Mirror.hold {run : WorkflowRun} {maps : StepMaps} {v : Db} (hM : Mirror run maps.byName v)
    (hshared : maps.Shared) : maps.Hold (v.stepsOf run.id) := by
  have hstore : ((v.stepsOf run.id).map Step.seen).Nodup := by
    refine List.Nodup.of_map Prod.fst ?_
    rw [List.map_map]
    exact (v.steps.nodup_keys).sublist (List.filter_sublist.map _)
  have hseen : ∀ x, (∃ s ∈ maps.byName, s.seen = x) ↔ x ∈ (v.stepsOf run.id).map Step.seen := by
    intro x
    rw [List.mem_map]
    constructor
    · rintro ⟨s, hs, rfl⟩
      obtain ⟨hrun, t, ht, hsame⟩ := hM.find_row (Table.mem_iff_get?.mp hs)
      refine ⟨t, List.mem_filter.mpr ⟨Table.mem_of_get? ht, decide_eq_true ?_⟩, hsame.seen⟩
      exact (Step.run_of_info hsame.info).trans hrun
    · rintro ⟨t, ht, rfl⟩
      obtain ⟨ht, hrun⟩ := List.mem_filter.mp ht
      obtain ⟨s, hs, hsame⟩ := hM.find_copy ht (of_decide_eq_true hrun)
      exact ⟨s, Table.mem_of_get? hs, hsame.seen.symm⟩
  constructor
  · have hnodup : (maps.byName.rows.map Step.seen).Nodup := by
      refine List.Nodup.of_map (fun x => x.2.1) ?_
      rw [List.map_map]
      exact maps.byName.nodup_keys
    refine (List.perm_ext_iff_of_nodup hnodup hstore).mpr (fun x => ?_)
    exact List.mem_map.trans (hseen x)
  · have hnodup : (maps.byID.rows.map Step.seen).Nodup := by
      refine List.Nodup.of_map Prod.fst ?_
      rw [List.map_map]
      exact maps.byID.nodup_keys
    refine (List.perm_ext_iff_of_nodup hnodup hstore).mpr (fun x => ?_)
    refine List.mem_map.trans (Iff.trans (exists_congr (fun s => ?_)) (hseen x))
    exact and_congr_left' (hshared s)

theorem Mirror.holds {run : WorkflowRun} {maps : StepMaps} {v : Db} (hM : Mirror run maps.byName v)
    (hshared : maps.Shared) : Note.Holds (some (run.id, maps)) v := by
  intro m hm
  obtain rfl := Option.mem_some_iff.mp hm
  exact hM.hold hshared

section Programs

variable {run : WorkflowRun} {maps : StepMaps} {v : Db}

/-- The copy of the row that has a name. -/
theorem Mirror.copy_of_name (hM : Mirror run maps.byName v) {t : Step} {name : String}
    (ht : t ∈ v.steps) (hrun : t.workflowRunID = run.id) (hname : t.stepName = name) :
    ∃ s, maps.byName.get? name = some s ∧ s.Same t :=
  hname ▸ hM.find_copy ht hrun

/-- One iteration of `propagateSkips`. -/
theorem skipStep_watch (hb : Base v) (hM : Mirror run maps.byName v) (hshared : maps.Shared)
    (changed : Bool) (name : String) :
    Watch (Noted.skipStep run (maps, changed) name) (fun acc v' => (Base v' ∧
      Mirror run acc.1.byName v' ∧ acc.1.Shared) ∧ skipping run.id name v v') v := by
  unfold Noted.skipStep
  dsimp only
  cases hs : maps.byName.get? name with
  | none =>
    refine ⟨⟨hb, hM, hshared⟩, Or.inl ⟨rfl, fun t ht hrun hname => ?_⟩⟩
    obtain ⟨s, hs', -⟩ := hM.copy_of_name ht hrun hname
    cases hs.symm.trans hs'
  | some s =>
    obtain ⟨hrun, t, ht, hsame⟩ := hM.find_row hs
    have hmem : t.status ∈ [s.status] := List.mem_singleton.mpr hsame.status
    by_cases hskip : (s.isFresh && maps.byName.blocked s) = true
    · obtain ⟨hfresh, hblocked⟩ := Bool.and_eq_true_iff.mp hskip
      obtain ⟨r, hr, -, -, hlive⟩ := hM.live
      have htrun : t.workflowRunID = run.id := (Step.run_of_info hsame.info).trans hrun
      have hpending := pending_of_fresh hb ht hfresh hmem
      have hblock := hM.blocked hrun hsame.info hblocked
      simp only [hskip, if_true]
      refine Wp.bind (watch_updateStep (hM.holds hshared) ht hmem RawMessage.isValid_of_none
        (fun now => ?_))
      have hpass : ∀ now', Pass run.id v (.step (t.transition .skipped none none false now) ::
          historyWrites r .stepSkipped (some (.obj [("step", .str s.stepName)])) now') := by
        intro now'
        rw [← Step.name_of_info hsame.info]
        exact .skip (Table.get?_key ht) htrun hpending hblock hr hlive
      have hM' : ∀ now', Mirror run (maps.write { s with status := .skipped }).byName _ :=
        fun now' => hM.changed hs ht (by rfl) hr aside_nil (hpass now').evolves
          (hsame.transition .skipped false now)
      have hshared' : (maps.write { s with status := .skipped }).Shared := hshared.write hs rfl rfl
      refine Wp.bind (watch_appendHistory (r := r) ((hM' now).holds hshared') hr (fun now' => ?_))
      refine ⟨⟨(hpass now').base hb, hM' now', hshared'⟩, Or.inr ⟨t, Table.mem_of_get? ht, htrun,
        ?_, ⟨hpending, hblock⟩, ⟨rfl, t.transition .skipped none none false now,
        ⟨rfl, rfl⟩, rfl⟩, .one (hpass now')⟩⟩
      exact (Step.name_of_info hsame.info).trans (Table.key_of_get? hs)
    · simp only [hskip]
      refine ⟨⟨hb, hM, hshared⟩, Or.inl ⟨rfl, fun x hx hxrun hname hC => hskip ?_⟩⟩
      obtain ⟨s', hs', hsame'⟩ := hM.copy_of_name hx hxrun hname
      obtain rfl := Option.some.inj (hs.symm.trans hs')
      rw [hM.isBlocked trivial hrun hsame'.info hC.2, Bool.and_true]
      simp [Step.isFresh, ← hsame'.status, hC.1]

/-- `propagateSkips`. -/
theorem propagateSkips_watch (hb : Base v) (hM : Mirror run maps.byName v)
    (hshared : maps.Shared) : Watch (Noted.propagateSkips run maps) (fun maps' v' =>
      (Mirror run maps'.byName v' ∧ maps'.Shared) ∧
        ∃ names, Visits (skipping run.id) names v v') v := by
  unfold Noted.propagateSkips
  generalize maps.byName.rows.length + 1 = n
  induction n generalizing maps v with
  | zero => exact ⟨⟨hM, hshared⟩, [], rfl⟩
  | succ n ih =>
    refine Wp.bind (watch_range (hM.holds hshared) (fun names _ => Wp.bind ((Wp.visits
      (I := fun acc v' => Base v' ∧ Mirror run acc.1.byName v' ∧ acc.1.Shared)
      (fun acc name v' h => skipStep_watch h.1 h.2.1 h.2.2 acc.2 name)
      ⟨hb, hM, hshared⟩ names).mono ?_)))
    rintro ⟨maps', changed⟩ v' ⟨⟨hb', hM', hshared'⟩, hvisits⟩
    cases changed with
    | true =>
      refine (ih hb' hM' hshared').mono (fun _ _ h => ⟨h.1, ?_⟩)
      obtain ⟨rest, hrest⟩ := h.2
      exact ⟨names ++ rest, hvisits.trans hrest⟩
    | false => exact ⟨⟨hM', hshared'⟩, names, hvisits⟩

end Programs

end Orchestrator
