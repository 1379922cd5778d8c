import Orchestrator.Solo.Ready

/-!
# Reconciliation by a transaction that runs alone

`checkRunCompletion` leaves the steps and the signals alone. It starts a pending
run that has a step in flight, and when it ends a run it leaves no timer armed. With
the loops before it this gives all that an undisturbed evaluation establishes.
-/

namespace Orchestrator

open Lib Program Actions

/-- A run that is still pending has no step in flight. -/
def Started (runID : UUID) (v : Db) : Prop :=
  ∀ r, v.runs.get? runID = some r → r.status = .pending →
    ∀ t ∈ v.steps, t.workflowRunID = runID → t.status.inFlight = false

/-- A run that has ended has no timer armed. -/
def Disarmed (runID : UUID) (v : Db) : Prop :=
  ∀ r, v.runs.get? runID = some r → runTerminal r.status = true →
    ∀ tm ∈ v.timers, tm.workflowRunID = runID → tm.status ≠ .pending

/-- What an evaluation of a run has established when nobody has disturbed it. The
state between the loops of `dispatchReady` is `m`. -/
structure Evaluated (runID : UUID) (v v' : Db) : Prop where
  path : Passes runID v v'
  swept : Swept (fun _ => True) runID v v'
  visited : ∃ m, Passes runID v m ∧ Heard runID m ∧ Passes runID m v' ∧
    ∀ t ∈ v'.steps, t.workflowRunID = runID → t.status = .pending → ¬ DepsDone m.steps t
  heard : Heard runID v'
  started : Started runID v'
  disarmed : Disarmed runID v'
  quiescent : Quiescent runID v'

/-- A pending timer of the run is cancelled. -/
def Disarms (runID : UUID) (v v' : Db) : Prop :=
  ∃ tm, v.timers.get? tm.id = some tm ∧ tm.status = .pending ∧ tm.workflowRunID = runID ∧
    v' = v.apply (.timer { tm with status := .cancelled })

/-- The timers of a run that has ended may be cancelled. -/
theorem HasEnded.disarms {runID : UUID} {v v' : Db} (hend : HasEnded runID v)
    (h : Relation.ReflTransGen (Disarms runID) v v') :
    Passes runID v v' ∧ Aligned v v' ∧ HasEnded runID v' := by
  induction h with
  | refl => exact ⟨.refl v, ⟨rfl, rfl⟩, hend⟩
  | @tail w w' _ hdis ih =>
    obtain ⟨hpath, halign, hend'⟩ := ih
    obtain ⟨tm, htm, hst, hrun, rfl⟩ := hdis
    obtain ⟨r, hr, hterm⟩ := id hend'
    have hpass : Pass runID w [.timer { tm with status := .cancelled }] :=
      .disarm htm hst hrun hr hterm
    exact ⟨hpath.trans (.one hpass), halign.trans ⟨rfl, rfl⟩, hend'⟩

section Programs

variable {Err : Error → Prop} {run : WorkflowRun} {rs : RunState} {v : Db} {note : Note}

/-- The local view knows whether a step is in flight. -/
theorem Mirror.anyDispatched_iff (hM : Mirror run rs v) :
    rs.anyDispatchedOrRunning = true ↔
      ∃ t ∈ v.steps, t.workflowRunID = run.id ∧ t.status.inFlight = true := by
  rw [RunState.anyDispatchedOrRunning, List.any_eq_true]
  constructor
  · rintro ⟨s, hs, hst⟩
    obtain ⟨hrun, t, ht, hsame⟩ := hM.find_row (Table.mem_iff_get?.mp hs)
    refine ⟨t, Table.mem_of_get? ht, (Step.run_of_info hsame.info).trans hrun, ?_⟩
    rw [StepStatus.inFlight, hsame.status]
    exact hst
  · rintro ⟨t, ht, hrun, hst⟩
    obtain ⟨s, hs, hsame⟩ := hM.find_copy ht hrun
    refine ⟨s, Table.mem_of_get? hs, ?_⟩
    rw [StepStatus.inFlight, hsame.status] at hst
    exact hst

/-- The first part of `checkRunCompletion`. -/
theorem startRun_watch (hnote : note.Holds v) (hM : Mirror run rs v) :
    Watch (noting note (startRun run rs)) (fun _ v' => Passes run.id v v' ∧ Aligned v v' ∧
      Started run.id v' ∧ View (fun _ => True) run rs v') v := by
  obtain ⟨r, hr, hshard, hst, hlive⟩ := hM.live
  have hid : r.id = run.id := Table.key_of_get? hr
  unfold startRun
  split_ifs with hcond
  · obtain ⟨hpending, hany⟩ := hcond
    rw [noting_bind]
    refine Wp.bind (watch_updateRun hnote hr (by simp [hst, hpending]) RawMessage.isValid_of_none
      (fun now => ?_))
    simp only [if_true]
    refine watch_appendHistory (r := r.transition .running none none now) hnote ?_
      (fun now' => ?_)
    · exact hid ▸ Table.get?_put_self v.runs (r.transition .running none none now)
    · have hpass : Pass run.id v (.run (r.transition .running none none now) ::
          historyWrites (r.transition .running none none now) .runStarted none now') :=
        .start hr (hst.trans hpending) (hM.anyDispatched_iff.mp hany)
      have hr' := get?_event (v.apply (.run (r.transition .running none none now)))
        (r.transition .running none none now) .runStarted none now'
      rw [WorkflowRun.id_transition, hid] at hr'
      refine ⟨.one hpass, ⟨rfl, rfl⟩, fun q hq hqst => ?_, ?_⟩
      · obtain rfl := Option.some.inj (hr'.symm.trans hq)
        cases hqst
      · exact hM.toView.putRun rfl (fun _ => trivial) hr' hshard rfl
  · refine ⟨.refl v, ⟨rfl, rfl⟩, fun q hq hqst t ht hrun => ?_, hM.toView⟩
    obtain rfl := Option.some.inj (hr.symm.trans hq)
    refine Bool.eq_false_iff.mpr (fun hfly => hcond ⟨hst.symm.trans hqst, ?_⟩)
    exact hM.anyDispatched_iff.mpr ⟨t, ht, hrun, hfly⟩

/-- The end of a run whose steps have all ended. -/
theorem finishRun_watch (hnote : note.Holds v) (hb : Base v) (hV : View (fun _ => True) run rs v)
    (hall : rs.allTerminal = true) {next : RunStatus} {errMsg : Option String}
    {payload : Option Json} (hout : Outcome v.steps run.id next) :
    Watch (noting note
        (finishRun run next (marshalOutputs rs.outputs) errMsg (finishEvent next) payload))
      (fun _ v' => Passes run.id v v' ∧ Aligned v v' ∧ HasEnded run.id v') v := by
  obtain ⟨r, hr, -, hlive⟩ := hV.row
  have hid : r.id = run.id := Table.key_of_get? hr
  have hpass : ∀ now now', Pass run.id v
      (.run (r.transition next (marshalOutputs (completedOutputs v.steps run.id)) errMsg now) ::
        historyWrites
          (r.transition next (marshalOutputs (completedOutputs v.steps run.id)) errMsg now)
          (finishEvent next) payload now') := fun _ _ =>
    .finish hr (hlive trivial) (hV.allDone hall) hout
  rw [hV.marshalOutputs_eq hb hall, finishRun, noting_bind]
  refine Wp.bind (watch_updateRun hnote hr (mem_live_iff.mpr (hlive trivial))
    (fun o ho => marshalOutputs_isValid ho) (fun now => ?_))
  simp only [if_true]
  rw [Program.discard, noting_bind]
  refine Wp.bind (watch_event (r := r.transition next
    (marshalOutputs (completedOutputs v.steps run.id)) errMsg now) hnote ?_ (fun e now' => ?_))
  · exact hid ▸ Table.get?_put_self v.runs _
  · have hr' := get?_event (v.apply (.run (r.transition next
      (marshalOutputs (completedOutputs v.steps run.id)) errMsg now))) (r.transition next
        (marshalOutputs (completedOutputs v.steps run.id)) errMsg now) (finishEvent next) payload
      now'
    rw [WorkflowRun.id_transition, hid] at hr'
    refine ⟨.one (hpass now now'), ⟨rfl, rfl⟩, _, hr', ?_⟩
    cases next <;> first | exact hout.elim | rfl

/-- `CancelTimersForRun`. -/
theorem cancelTimersForRun_watch (hnote : note.Holds v) (runID : UUID) :
    Watch (noting note (cancelTimersForRun runID)) (fun _ v' =>
      Relation.ReflTransGen (Disarms runID) v v' ∧
      ∀ tm ∈ v'.timers, tm.workflowRunID = runID → tm.status ≠ .pending) v := by
  rw [cancelTimersForRun, noting_bind]
  refine Wp.bind (watch_read hnote (fun d v => (d.shuffle (v.timers.rows.filter (fun t =>
    t.workflowRunID = runID ∧ t.status = .pending))).map (·.id)) (fun _ _ => rfl)
    (fun _ => trivial) (fun d => ?_))
  rw [noting_foldlM]
  refine Wp.mono (Wp.foldlM (I := fun rest _ w => Relation.ReflTransGen (Disarms runID) v w ∧
    w.steps = v.steps ∧
    (∀ id ∈ rest, ∀ tm, w.timers.get? id = some tm → tm.workflowRunID = runID) ∧
    ∀ tm ∈ w.timers, tm.workflowRunID = runID → tm.status = .pending → tm.id ∈ rest)
    ?_ ⟨.refl, rfl, fun id hid tm htm => ?_, fun tm htm hrun hst => ?_⟩) ?_
  · rintro - id rest w - ⟨hpath, hsteps, hown, hleft⟩
    have hnote' : note.Holds w := by
      intro m hm
      rw [Db.stepsOf, hsteps]
      exact hnote m hm
    obtain ⟨hid, hown⟩ := List.forall_mem_cons.mp hown
    have hdrop : ∀ tm ∈ w.timers, tm.id ≠ id → tm.workflowRunID = runID →
        tm.status = .pending → tm.id ∈ rest := fun tm htm hne hrun hst =>
      (List.mem_cons.mp (hleft tm htm hrun hst)).resolve_left hne
    cases htm : w.timers.get? id with
    | none =>
      refine watch_statement hnote' (fun _ _ => ⟨(), [], by simp [Query.exec, htm], trivial,
        hpath, hsteps, hown,
        fun tm' htm' => hdrop tm' htm' (Table.get?_eq_none.mp htm tm' htm')⟩)
    | some tm =>
      have hkey : tm.id = id := Table.key_of_get? htm
      by_cases hst : tm.status = .pending
      · have hdis : Disarms runID w (w.apply (.timer { tm with status := .cancelled })) :=
          ⟨tm, Table.get?_key htm, hst, hid tm htm, rfl⟩
        refine watch_statement hnote' (fun _ _ => ⟨(), [.timer { tm with status := .cancelled }],
          by simp [Query.exec, htm, hst], trivial, hpath.tail hdis, hsteps,
          fun id' hid' tm' htm' => ?_, fun tm' htm' hrun' hst' => ?_⟩)
        · rcases Table.mem_put.mp (Table.mem_of_get? htm') with rfl | ⟨hmem, -⟩
          · exact hid tm htm
          · have hkey' := Table.key_of_get? htm'
            exact hown id' hid' tm' (hkey' ▸ Table.mem_iff_get?.mp hmem)
        · rcases Table.mem_put.mp htm' with rfl | ⟨htm', hne⟩
          · cases hst'
          · exact hdrop tm' htm' (fun h => hne (h.trans hkey.symm)) hrun' hst'
      · refine watch_statement hnote' (fun _ _ => ⟨(), [], by simp [Query.exec, htm, hst], trivial,
          hpath, hsteps, hown,
          fun tm' htm' hrun' hst' => hdrop tm' htm' (fun h => hst ?_) hrun' hst'⟩)
        obtain rfl := Table.eq_of_key_eq htm' (Table.mem_of_get? htm) (h.trans hkey.symm)
        exact hst'
  · obtain ⟨x, hx, rfl⟩ := List.mem_map.mp hid
    rw [(d.shuffle_perm _).mem_iff, List.mem_filter, decide_eq_true_eq] at hx
    obtain rfl := Table.eq_of_key_eq (Table.mem_of_get? htm) hx.1 (Table.key_of_get? htm)
    exact hx.2.1
  · refine List.mem_map_of_mem ((d.shuffle_perm _).mem_iff.mpr (List.mem_filter.mpr ⟨htm, ?_⟩))
    exact decide_eq_true ⟨hrun, hst⟩
  · rintro - w ⟨hpath, -, -, hleft⟩
    exact ⟨hpath, fun tm htm hrun hst => absurd (hleft tm htm hrun hst) List.not_mem_nil⟩

theorem cancelTimersForRun_solo (runID : UUID) (v : Db) :
    Solo Err (cancelTimersForRun runID) (fun _ v' => Relation.ReflTransGen (Disarms runID) v v' ∧
      ∀ tm ∈ v'.timers, tm.workflowRunID = runID → tm.status ≠ .pending) v :=
  (cancelTimersForRun_watch (Note.holds_none v) runID).solo_of_noting

/-- The maps have the steps as long as their rows are the same. -/
theorem Note.Holds.aligned {v' : Db} (h : note.Holds v) (halign : Aligned v v') :
    note.Holds v' := by
  intro m hm
  rw [Db.stepsOf, halign.steps]
  exact h m hm

/-- `checkRunCompletion`. -/
theorem checkRunCompletion_watch (hnote : note.Holds v) (hb : Base v) (hM : Mirror run rs v) :
    Watch (noting note (checkRunCompletion run rs)) (fun _ v' => Passes run.id v v' ∧
      Aligned v v' ∧ Started run.id v' ∧ Disarmed run.id v') v := by
  rw [checkRunCompletion, noting_bind]
  refine Wp.bind ((startRun_watch hnote hM).mono ?_)
  rintro - v₁ ⟨hpath, halign, hstarted, hV⟩
  have hnote₁ := hnote.aligned halign
  have hb₁ := hpath.base hb
  by_cases hall : rs.allTerminal = true
  · simp only [hall, not_true_eq_false, if_false]
    rw [noting_bind]
    refine Wp.bind (watch_range hnote₁ (fun names hperm => ?_))
    have hmem : ∀ s, s ∈ names.filterMap rs.get? ↔ s ∈ rs := by
      intro s
      rw [List.mem_filterMap]
      constructor
      · rintro ⟨name, -, hs⟩
        exact Table.mem_of_get? hs
      · intro hs
        exact ⟨s.stepName, hperm.mem_iff.mpr (List.mem_map_of_mem hs), Table.mem_iff_get?.mp hs⟩
    have hfinish : ∀ {next : RunStatus} {errMsg : Option String} {payload : Option Json},
        Outcome v₁.steps run.id next → Watch (noting note (do
          finishRun run next (marshalOutputs rs.outputs) errMsg (finishEvent next) payload
          cancelTimersForRun run.id)) (fun _ v' => Passes run.id v v' ∧ Aligned v v' ∧
            Started run.id v' ∧ Disarmed run.id v') v₁ := by
      intro next errMsg payload hout
      rw [noting_bind]
      refine Wp.bind ((finishRun_watch hnote₁ hb₁ hV hall hout).mono ?_)
      rintro - v₂ ⟨hpath₂, halign₂, hend⟩
      refine (cancelTimersForRun_watch (hnote₁.aligned halign₂) run.id).mono ?_
      rintro - v₃ ⟨hdisarms, hnone⟩
      obtain ⟨hpath₃, halign₃, r', hr', hterm⟩ := hend.disarms hdisarms
      refine ⟨hpath.trans (hpath₂.trans hpath₃), halign.trans (halign₂.trans halign₃),
        fun r hr hst => ?_, fun _ _ _ => hnone⟩
      obtain rfl := Option.some.inj (hr.symm.trans hr')
      rw [hst] at hterm
      cases hterm
    cases hfind : (names.filterMap rs.get?).find? (fun s => s.status == .failed) with
    | some failedStep =>
      have hfailed : failedStep.status = .failed := by simpa using List.find?_some hfind
      obtain ⟨t, ht, hrun, hst⟩ := hV.exists_of_copy
        ((hmem failedStep).mp (List.mem_of_find?_eq_some hfind)) (by rw [hfailed]; rfl)
      exact hfinish ⟨t, ht, hrun, hst.trans hfailed⟩
    | none =>
      have hnone : ∀ t ∈ v₁.steps, t.workflowRunID = run.id → t.status ≠ .failed := by
        intro t ht hrun hst
        obtain ⟨s, hs, heq⟩ := hV.status_of_allTerminal hall ht hrun
        have hnot := List.find?_eq_none.mp hfind s ((hmem s).mpr hs)
        simp [← heq, hst] at hnot
      simp only
      split_ifs with hcancel
      · obtain ⟨s, hs, hst⟩ := List.any_eq_true.mp hcancel
        have hst' : s.status = .cancelled := by simpa using hst
        obtain ⟨t, ht, hrun, heq⟩ := hV.exists_of_copy ((hmem s).mp hs) (by rw [hst']; rfl)
        exact hfinish ⟨hnone, t, ht, hrun, heq.trans hst'⟩
      · refine hfinish (fun t ht hrun => ⟨hnone t ht hrun, fun hst => hcancel ?_⟩)
        obtain ⟨s, hs, heq⟩ := hV.status_of_allTerminal hall ht hrun
        exact List.any_eq_true.mpr ⟨s, (hmem s).mpr hs, by simp [← heq, hst]⟩
  · simp only [hall]
    refine ⟨hpath, halign, hstarted, fun r hr hend => ?_⟩
    obtain ⟨r', hr', -, hlive⟩ := hV.row
    obtain rfl := Option.some.inj (hr.symm.trans hr')
    rw [hlive trivial] at hend
    cases hend

/-- `reconcileTx` on a run that has not ended, with its maps. The orders of its loops are
among those that the draws considered allow. -/
theorem reconcileTx_watch {P : Draw → Prop} {O : List String → Prop} (hb : Base v)
    {steps : List Step} (hM : Mirror run (newRunState steps) v)
    (hshared : (newStepMaps steps).Shared) (hlive : runTerminal run.status = false)
    (hO : Orders P O run.id v) :
    (Noted.reconcileTx run steps).Wp (watched.restrict P) (fun _ => False) (fun note v' =>
      note.Holds v' ∧ Passes run.id v v' ∧ Swept O run.id v v' ∧ Started run.id v' ∧
        Disarmed run.id v') v := by
  unfold Noted.reconcileTx
  simp only [hlive]
  refine Wp.bind ((propagateSkips_watch hb hM hshared).restrict.mono ?_)
  rintro maps₁ v₁ ⟨⟨hM₁, hshared₁⟩, names₀, hskips⟩
  have hpath₁ := visits_passes hskips
  have hranges : ∀ {names}, Ranges run.id v names ↔ Ranges run.id v₁ names :=
    ranges_passes hpath₁ hb
  refine Wp.bind ((dispatchReady_watch (hpath₁.base hb) hM₁ hshared₁
    (fun d keys hd hsorted hkeys => hO d keys hd hsorted (hranges.mpr hkeys))).mono ?_)
  rintro maps₂ v₂ ⟨⟨hM₂, hshared₂⟩, names₁, names₂, m, hnames₁, hO₁, hresolves, hnames₂, hO₂,
    hdispatches⟩
  have hnote := hM₂.holds hshared₂
  have hpath₂ := hpath₁.trans ((visits_passes hresolves).trans (visits_passes hdispatches))
  refine Wp.bind ((checkRunCompletion_watch hnote (hpath₂.base hb) hM₂).restrict.mono ?_)
  rintro - v₃ ⟨hpath₃, halign, hstarted, hdis⟩
  exact ⟨hnote.aligned halign, hpath₂.trans hpath₃, .intro hskips (hranges.mpr hnames₁) hO₁
    hresolves (hranges.mpr hnames₂) hO₂ hdispatches hpath₃ halign, hstarted, hdis⟩

/-- The loops of `reconcileTx`, where only some draws are considered. -/
theorem reconcileTx_swept {P : Draw → Prop} {O : List String → Prop} (hb : Base v)
    {steps : List Step} (hM : Mirror run (newRunState steps) v)
    (hshared : (newStepMaps steps).Shared) (hlive : runTerminal run.status = false)
    (hO : Orders P O run.id v) :
    (reconcileTx run steps).Wp (backend.restrict P) Err (fun _ v' => (Passes run.id v v' ∧
      Swept O run.id v v') ∧ Started run.id v' ∧ Disarmed run.id v') v := by
  rw [← plain_reconcileTx run]
  exact Wp.bind ((plain_wp (reconcileTx_watch hb hM hshared hlive hO)).mono
    (fun _ _ h => ⟨⟨h.2.1, h.2.2.1⟩, h.2.2.2⟩))

/-- `reconcileTx` on a run that has not ended. -/
theorem reconcileTx_solo (hb : Base v) {steps : List Step}
    (hM : Mirror run (newRunState steps) v) (hshared : (newStepMaps steps).Shared) :
    Solo Err (reconcileTx run steps) (fun _ v' => Evaluated run.id v v') v := by
  have hlive : runTerminal run.status = false := by
    obtain ⟨r, -, -, hst, hlive⟩ := hM.live
    rwa [hst] at hlive
  -- That nothing is left to reconcile is known from the interleaved case.
  have hquiet : Quiet (fun _ => False) [] run.id (fun _ => True) :=
    ⟨fun _ _ => trivial, fun _ hl => hl.elim⟩
  have hspec : engine.Triple (fun _ => False) (fun l => l.run = run.id) Err [] _ _ _ _ :=
    reconcileTx_spec hquiet (fun _ _ => rfl) (fun v hnot => absurd trivial hnot) hlive steps
  have hsettled := Safe.wp hspec hb ⟨[], [], rfl, .nil, List.nil_subset _, rfl, hM.toView⟩
  have hpasses : Solo Err (reconcileTx run steps) _ v := (reconcileTx_swept (P := fun _ => True)
    (O := fun _ => True) hb hM hshared hlive (fun _ _ _ _ _ => trivial)).of_restrict
  refine (hpasses.and hsettled).mono ?_
  rintro - v' ⟨⟨⟨hpath, hswept⟩, hstarted, hdis⟩, w, rfl, w₀, ws, rfl, -, -, rfl, hset⟩
  rw [List.append_nil]
  rw [List.append_nil] at hpath hswept hstarted hdis
  exact ⟨hpath, hswept, hswept.visited hb, hswept.heard hb, hstarted, hdis, (hset trivial).1⟩

end Programs

section Calls

variable {Err : Error → Prop} {R : UUID → Db → Db → Prop} {Q : Db → Prop} {v : Db}

/-- `reconcileTx` is called with what the store has of a run. What it makes of it has the
property `Q`, if it is related to it by `R`. -/
structure Called (R : UUID → Db → Db → Prop) (Q : Db → Prop) (a : Arguments) (v : Db) : Prop where
  ended : runTerminal a.1.status = true → Q v
  base : runTerminal a.1.status = false → Base v
  view : runTerminal a.1.status = false → Mirror a.1 (newRunState a.2) v
  shared : runTerminal a.1.status = false → (newStepMaps a.2).Shared
  evaluated : runTerminal a.1.status = false → ∀ v', R a.1.id v v' → Q v'

/-- The call, if there is one. -/
def CalledIf (R : UUID → Db → Db → Prop) (Q : Db → Prop) : Option Arguments → Db → Prop
  | none, v => Q v
  | some a, v => Called R Q a v

/-- The rows of the run and of its steps have been read. -/
theorem Called.of_rows {run : WorkflowRun} {steps : List Step} {r : WorkflowRun}
    (hr : v.runs.get? run.id = some r) (hshard : r.shardID = run.shardID)
    (hst : r.status = run.status) (hperm : steps.Perm (v.stepsOf run.id))
    (hb : runTerminal run.status = false → Base v) (hended : runTerminal run.status = true → Q v)
    (hevaluated : runTerminal run.status = false → ∀ v', R run.id v v' → Q v') :
    Called R Q (run, steps) v :=
  ⟨hended, hb, fun hlive => .of_rows (hb hlive) hr hshard hst hlive hperm,
    fun hlive => .of_rows (hb hlive) hperm, hevaluated⟩

/-- The steps are read before the call. -/
theorem getSteps_called {run r : WorkflowRun} (hr : v.runs.get? run.id = some r)
    (hshard : r.shardID = run.shardID) (hst : r.status = run.status)
    (hb : runTerminal run.status = false → Base v) (hended : runTerminal run.status = true → Q v)
    (hevaluated : runTerminal run.status = false → ∀ v', R run.id v v' → Q v') :
    Solo Err (Query.getSteps run.id).issue (fun steps => Called R Q (run, steps)) v := by
  refine solo_read (fun d v => (d.shuffle (v.stepsOf run.id)).insertionSort
    (fun a b => a.createdAt ≤ b.createdAt)) (fun _ _ => rfl) (fun d => ?_)
  refine .of_rows hr hshard hst ?_ hb hended hevaluated
  exact (List.perm_insertionSort (fun a b : Step => a.createdAt ≤ b.createdAt) _).trans
    (d.shuffle_perm (v.stepsOf run.id))

theorem Called.mono {Q' : Db → Prop} {a : Arguments} (h : Called R Q a v)
    (hQ : ∀ v', Q v' → Q' v') : Called R Q' a v :=
  ⟨fun hend => hQ _ (h.ended hend), h.base, h.view, h.shared,
    fun hlive v' heval => hQ _ (h.evaluated hlive v' heval)⟩

/-- With such draws an evaluation of a run is one of those that `R` describes. -/
def Describes (P : Draw → Prop) (R : UUID → Db → Db → Prop) : Prop :=
  ∀ (run : WorkflowRun) (steps : List Step) (v : Db), Base v → Mirror run (newRunState steps) v →
    (newStepMaps steps).Shared → (reconcileTx run steps).Wp (backend.restrict P) (fun _ => False)
      (fun _ v' => R run.id v v') v

/-- Whatever is drawn, an evaluation does what `Evaluated` says. -/
theorem describes_evaluated : Describes (fun _ => True) Evaluated :=
  fun _ _ _ hb hM hshared => (reconcileTx_solo hb hM hshared).restrict

/-- Where the draws impose orders on the loops, the evaluation keeps to them. -/
theorem describes_swept (P : Draw → Prop) (O : List String → Prop) :
    Describes P (fun runID v v' => Orders P O runID v → Swept O runID v v') := by
  intro run steps v hb hM hshared
  have hlive : runTerminal run.status = false := by
    obtain ⟨r, -, -, hst, hlive⟩ := hM.live
    rwa [hst] at hlive
  by_cases hO : Orders P O run.id v
  · exact (reconcileTx_swept hb hM hshared hlive hO).mono (fun _ _ h _ => h.1.2)
  · exact (describes_evaluated run steps v hb hM hshared).of_restrict.restrict.mono
      (fun _ _ _ h => absurd h hO)

/-- What follows from the description of an evaluation holds after a call of it. -/
theorem Called.wp {P : Draw → Prop} {a : Arguments} (h : Called R Q a v) (hR : Describes P R) :
    (reconcileTx a.1 a.2).Wp (backend.restrict P) Err (fun _ => Q) v := by
  cases hend : runTerminal a.1.status with
  | true =>
    unfold reconcileTx
    simp only [hend, if_true]
    exact h.ended hend
  | false =>
    exact ((hR a.1 a.2 v (h.base hend) (h.view hend) (h.shared hend)).mono
      (fun _ v' => h.evaluated hend v')).mono_error (fun _ he => he.elim)

theorem Called.solo {a : Arguments} (h : Called Evaluated Q a v) :
    Solo Err (reconcileTx a.1 a.2) (fun _ => Q) v := (h.wp describes_evaluated).of_restrict

theorem Called.watch {a : Arguments} (h : Called R Q a v) :
    Watch (Noted.reconcileTx a.1 a.2) (fun note v' => note.Holds v') v := by
  cases hend : runTerminal a.1.status with
  | true =>
    unfold Noted.reconcileTx
    simp only [hend, if_true]
    exact Note.holds_none v
  | false =>
    exact (reconcileTx_watch (P := fun _ => True) (O := fun _ => True) (h.base hend) (h.view hend)
      (h.shared hend) hend (fun _ _ _ _ _ => trivial)).of_restrict.mono (fun _ _ hrest => hrest.1)

/-- The same if there may be nothing to evaluate. -/
theorem CalledIf.wp {P : Draw → Prop} {o : Option Arguments} (h : CalledIf R Q o v)
    (hR : Describes P R) : (evaluate o).Wp (backend.restrict P) Err (fun _ => Q) v := by
  cases o with
  | none => exact h
  | some a => exact Called.wp h hR

end Calls

end Orchestrator
