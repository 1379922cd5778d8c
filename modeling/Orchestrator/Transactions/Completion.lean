import Orchestrator.Invariant.Quiescent
import Orchestrator.Transactions.Ready

/-!
# Completion of a run

`checkRunCompletion` derives the status and the output of a run from the local
copies of its steps. All copies have ended when it does so, and then they agree
with the rows, whatever else is going on.
-/

namespace Orchestrator

open Lib Actions

section Outputs

/-- Entries with different names are written in one order only. -/
theorem marshalOutputs_perm {l l' : List (String × Option RawMessage)} (h : l.Perm l')
    (hnodup : (l.map (·.1)).Nodup) : marshalOutputs l = marshalOutputs l' := by
  have hsort : l.insertionSort (fun a b => a.1 ≤ b.1) =
      l'.insertionSort (fun a b => a.1 ≤ b.1) := by
    refine List.Perm.eq_of_pairwise (fun a b ha hb hab hba => ?_)
      (List.pairwise_insertionSort _ l) (List.pairwise_insertionSort _ l')
      (((List.perm_insertionSort _ l).trans h).trans (List.perm_insertionSort _ l').symm)
    rw [List.mem_insertionSort] at ha hb
    exact List.inj_on_of_nodup_map hnodup ha (h.mem_iff.mpr hb) (le_antisymm hab hba)
  rw [marshalOutputs, marshalOutputs, hsort]

/-- What `json.Marshal` returns is a document. -/
theorem marshalOutputs_isValid {l : List (String × Option RawMessage)} {o : RawMessage}
    (h : marshalOutputs l = some o) : o.IsValid := by
  rw [marshalOutputs] at h
  obtain ⟨fields, -, ho⟩ := Option.bind_eq_some_iff.mp h
  obtain rfl := Option.some.inj ho
  trivial

variable {Q : Db → Prop} {run : WorkflowRun} {rs : RunState} {v : Db}

/-- The names of the steps of a run are different. -/
theorem nodup_completedOutputs (hb : Base v) (runID : UUID) :
    ((completedOutputs v.steps runID).map (·.1)).Nodup := by
  rw [completedOutputs, List.map_map]
  refine (v.steps.nodup_rows.filter _).map_on (fun t ht t' ht' hname => ?_)
  obtain ⟨ht, hp⟩ := List.mem_filter.mp ht
  obtain ⟨ht', hp'⟩ := List.mem_filter.mp ht'
  have hrun : t.workflowRunID = runID := (of_decide_eq_true hp).1
  obtain ⟨r, hr, hid⟩ := hb.graph.run t ht
  obtain ⟨d, -, hinst⟩ := hb.graph.shape r hr
  exact hinst.unique t ht t' ht' hid.symm
    ((of_decide_eq_true hp').1.trans (hrun.symm.trans hid.symm)) hname

/-- Where all copies have ended, the outputs are those of the rows. -/
theorem View.marshalOutputs_eq (hb : Base v) (hV : View Q run rs v)
    (hall : rs.allTerminal = true) :
    marshalOutputs rs.outputs = marshalOutputs (completedOutputs v.steps run.id) := by
  have hnodup : (rs.outputs.map (·.1)).Nodup := by
    rw [RunState.outputs, List.map_map]
    exact (rs.nodup_rows.filter _).map_on (fun s hs s' hs' hname =>
      Table.eq_of_key_eq (List.mem_of_mem_filter hs) (List.mem_of_mem_filter hs') hname)
  refine marshalOutputs_perm ?_ hnodup
  rw [List.perm_ext_iff_of_nodup hnodup.of_map (nodup_completedOutputs hb run.id).of_map]
  intro o
  simp only [RunState.outputs, completedOutputs, List.mem_map, List.mem_filter, beq_iff_eq,
    decide_eq_true_eq]
  constructor
  · rintro ⟨s, ⟨hs, hst⟩, rfl⟩
    obtain ⟨hrun, t, ht, hcopy, -⟩ := hV.copies s hs
    refine ⟨t, ⟨Table.mem_of_get? ht, (Step.run_of_info hcopy.info).trans hrun, ?_⟩, ?_⟩
    · rw [hcopy.done (by rw [hst]; rfl), hst]
    · rw [Step.name_of_info hcopy.info, hcopy.output hst]
  · rintro ⟨t, ⟨ht, hrun, hst⟩, rfl⟩
    obtain ⟨s, hs, hcopy, -⟩ := hV.find ht hrun
    have hdone : stepTerminal s.status = true := List.all_eq_true.mp hall s (Table.mem_of_get? hs)
    have hst' : s.status = .completed := (hcopy.done hdone).symm.trans hst
    refine ⟨s, ⟨Table.mem_of_get? hs, hst'⟩, ?_⟩
    rw [Step.name_of_info hcopy.info, hcopy.output hst']

end Outputs

/-- There is nothing left to reconcile in the run, and no step is left behind that
was ready in the view `rs`. -/
def Settles (runID : UUID) (rs : RunState) (v : Db) : Prop :=
  Quiescent runID v ∧ ∀ t ∈ v.steps, t.workflowRunID = runID → t.status = .pending →
    ¬ rs.ready t = true

theorem Settles.calm {runID : UUID} {rs : RunState} {v v' : Db} (h : Settles runID rs v)
    (hcalm : Calm runID v v') : Settles runID rs v' :=
  ⟨h.1.calm hcalm, fun t ht hrun hst => h.2 t (hcalm.pending ht hrun hst) hrun hst⟩

theorem Settles.of_allDone {runID : UUID} {rs : RunState} {v : Db} {r : WorkflowRun}
    (hr : v.runs.get? runID = some r) (hend : runTerminal r.status = true)
    (hall : AllDone v.steps runID) : Settles runID rs v := by
  refine ⟨.of_allDone hr hend hall, fun t ht hrun hst => ?_⟩
  have hdone := hall t ht hrun
  rw [hst] at hdone
  cases hdone

/-- The transaction has no action begun, and in a quiet run there is nothing left
to reconcile. -/
def Settled (Q : Db → Prop) (runID : UUID) (rs : RunState) (v : Db) (ws : List Write) : Prop :=
  ws = [] ∧ (Q v → Settles runID rs v)

/-- A run's status has been changed, and the event of the change is still to
come. -/
def RunChanging (F : Db → Prop) (runID : UUID) (expected : List RunStatus) (next : RunStatus)
    (output : Option RawMessage) (errMsg : Option String) (v : Db) (ws : List Write) : Prop :=
  ∃ r now, ws = [.run (r.transition next output errMsg now)] ∧ F v ∧
    v.runs.get? runID = some r ∧ r.status ∈ expected

section Rules

variable {A C : Label → Prop} {Err : Error → Prop} {H H' : List Lock} {Q : Db → Prop}
  {runID : UUID} {F : Db → Prop} {expected : List RunStatus} {next : RunStatus}
  {output : Option RawMessage} {errMsg : Option String}

theorem Settled.robust (hQ : Quiet A H runID Q) {rs : RunState} :
    engine.Robust A H (Settled Q runID rs) := by
  refine hQ.robust ?_
  rintro _ _ _ _ - - hcalm ⟨hws, hset⟩
  exact ⟨hws, fun hq => (hset (hcalm hq).1).calm (hcalm hq).2⟩

theorem RunChanging.robust (hF : engine.Robust A H (fun v _ => F v)) :
    engine.Robust A H (RunChanging F runID expected next output errMsg) := by
  rintro v ws l u hb hl hact hdisj hH ⟨r, now, rfl, hFv, hr, hst⟩
  refine ⟨r, now, rfl, hF v [] l u hb hl hact (by simp) hH hFv, run_transfer hr ?_, hst⟩
  exact same_applyAll v (fun hk => hdisj hk (by simp))

/-- The update of a run's status that an event is to record. -/
theorem changeRun_rule {G : Db → List Write → Prop}
    (hvalid : ∀ o, output = some o → o.IsValid) (hF : engine.Robust A H (fun v _ => F v))
    (hG : engine.Robust A H G)
    (hno : ∀ v, Base v → F v → (∀ r, v.runs.get? runID = some r → r.status ∉ expected) →
      G v []) :
    engine.Triple A C Err H (fun v ws => ws = [] ∧ F v)
      (Query.updateWorkflowRunStatus runID expected next output errMsg).issue H
      (fun ok => if ok then RunChanging F runID expected next output errMsg else G) := by
  refine updateRun_rule hvalid (fun ok => ?_) ?_ ?_
  · cases ok
    · exact hG
    · exact RunChanging.robust hF
  · rintro v ws r now hb ⟨rfl, hFv⟩ hr hst
    exact .begin ⟨r, now, rfl, hFv, hr, hst⟩
  · rintro v ws hb ⟨rfl, hFv⟩ hnot
    exact .begin (hno v hb hFv hnot)

/-- The statuses of a run that has not ended. -/
theorem mem_live_iff {st : RunStatus} :
    st ∈ [RunStatus.pending, .running] ↔ runTerminal st = false := by
  cases st <;> decide

/-- The row of a run after its event. -/
theorem get?_event (v : Db) (r : WorkflowRun) (eventType : EventType) (payload : Option Json)
    (now : Time) : (backend.applyAll v (historyWrites r eventType payload now)).runs.get? r.id =
      some { r with historySeq := r.historySeq + 1 } :=
  Table.get?_put_self v.runs { r with historySeq := r.historySeq + 1 }

/-- The event that records the change of a run's status. -/
theorem RunChanging.lands {G : Db → List Write → Prop} {eventType : EventType}
    {payload : Option Json}
    (hact : ∀ v r now now', Base v → F v → v.runs.get? runID = some r → r.status ∈ expected →
      engine.Lands C H H' G v (.run (r.transition next output errMsg now) ::
        historyWrites (r.transition next output errMsg now) eventType payload now'))
    (v : Db) (ws : List Write) (now' : Time) (hb : Base v)
    (hF : RunChanging F runID expected next output errMsg v ws) :
    ∃ r, (backend.applyAll v ws).runs.get? runID = some r ∧
      engine.Lands C H H' G v (ws ++ historyWrites r eventType payload now') := by
  obtain ⟨r, now, rfl, hFv, hr, hst⟩ := hF
  refine ⟨r.transition next output errMsg now, ?_, hact v r now now' hb hFv hr hst⟩
  have hid : r.id = runID := Table.key_of_get? hr
  exact hid ▸ Table.get?_put_self v.runs (r.transition next output errMsg now)

end Rules

section Programs

variable {A C : Label → Prop} {Err : Error → Prop} {H : List Lock} {Q : Db → Prop}
  {run : WorkflowRun} {K : Prop} {rs : RunState}
  (hQ : Quiet A H run.id Q) (hC : ∀ k : Kind, k.ofReconcile = true → C ⟨run.id, k⟩)

include hQ hC

/-- The first part of `checkRunCompletion`. -/
theorem startRun_spec :
    engine.Triple A C Err H (Viewing Q run K rs) (startRun run rs) H
      (fun _ => Viewing Q run K rs) := by
  unfold startRun
  split_ifs with hcond
  · refine Triple.bind ((changeRun_rule (F := fun v => Viewing Q run K rs v [])
      RawMessage.isValid_of_none (Viewing.robust hQ).at_nil (Viewing.robust hQ)
        (fun v _ hF _ => hF)).pre
        (fun v ws _ hF => ⟨hF.1, hF.1 ▸ hF⟩)) (fun ok => ?_)
    cases ok with
    | false => exact Triple.ret (List.Subset.refl _) (fun _ _ _ hF => hF)
    | true =>
      refine appendHistory_rule (Viewing.robust hQ) (RunChanging.lands ?_)
      rintro v r now now' hb ⟨-, hV, hK⟩ hr hst
      have hid : r.id = run.id := Table.key_of_get? hr
      have hact : Act ⟨r.id, .start⟩ v (.run (r.transition .running none none now) ::
          historyWrites (r.transition .running none none now) .runStarted none now') :=
        .start (Table.get?_key hr) (by simpa using hst)
      have hev := hact.evolves
      obtain ⟨r₀, hr₀, hshard, -⟩ := hV.row
      obtain rfl := Option.some.inj (hr₀.symm.trans hr)
      refine .act (hid ▸ hC .start rfl) hact ⟨rfl, ?_, fun hq => hK (hQ.back hev hq)⟩
      have hr' := get?_event (v.apply (.run (r₀.transition .running none none now)))
        (r₀.transition .running none none now) .runStarted none now'
      rw [WorkflowRun.id_transition, hid] at hr'
      exact hV.putRun rfl (hQ.back hev) hr' hshard rfl
  · exact Triple.ret (List.Subset.refl _) (fun _ _ _ hF => hF)

omit hQ hC in
/-- `CancelTimersForRun`, for an assertion that the change of a timer does not
disturb. -/
theorem cancelTimersForRun_spec {runID : UUID} (hC : C ⟨runID, .cancelTimer⟩) {F : Db → Prop}
    (hF : engine.Robust A H (fun v _ => F v))
    (hstay : ∀ v u, Base v → Act ⟨runID, .cancelTimer⟩ v u → F v → F (backend.applyAll v u)) :
    engine.Triple A C Err H (fun v ws => ws = [] ∧ F v) (cancelTimersForRun runID) H
      (fun _ v ws => ws = [] ∧ F v) := by
  let Known (ids : List UUID) (v : Db) : Prop :=
    ∀ id ∈ ids, ∃ tm, v.timers.get? id = some tm ∧ tm.workflowRunID = runID
  have hknown : ∀ {ids v v'}, v.Evolves v' → Known ids v → Known ids v' := by
    intro ids v v' hev h id hid
    obtain ⟨tm, htm, hrun⟩ := h id hid
    obtain ⟨tm', htm', htt'⟩ := hev.timers tm (Table.mem_of_get? htm)
    refine ⟨tm', ?_, htt'.run.trans hrun⟩
    rw [← Table.key_of_get? htm, ← htt'.id]
    exact Table.mem_iff_get?.mp htm'
  have hrobust : ∀ ids, engine.Robust A H (fun v ws => ws = [] ∧ F v ∧ Known ids v) := fun ids =>
    (Robust.pure (· = [])).and (hF.and (robust_of_evolves (fun _ _ _ _ hev _ h => hknown hev h)))
  refine Triple.bind (read_rule (fun d v => (d.shuffle (v.timers.rows.filter (fun t =>
    t.workflowRunID = runID ∧ t.status = .pending))).map (·.id)) (fun _ _ => rfl) hrobust ?_)
    (fun ids => ?_)
  · rintro v ws d - ⟨rfl, hFv⟩
    refine ⟨rfl, hFv, fun id hid => ?_⟩
    obtain ⟨tm, htm, rfl⟩ := List.mem_map.mp hid
    rw [(d.shuffle_perm _).mem_iff, List.mem_filter] at htm
    exact ⟨tm, Table.mem_iff_get?.mp htm.1, (of_decide_eq_true htm.2).1⟩
  · refine (Triple.foldlM (I := fun _ v ws => ws = [] ∧ F v ∧ Known ids v) (fun _ id hid => ?_)
      ()).post (fun _ v ws _ h => ⟨h.1, h.2.1⟩)
    refine compareAndSet_rule (fun v => v.timers.get? id) (fun tm => tm.status = .pending)
      (fun _ tm => ((), [.timer { tm with status := .cancelled }])) ()
      (fun d v tm htm hst => by simp [Query.exec, htm, hst]) (fun d v hnot => ?_)
      (fun _ => hrobust ids) ?_ (fun v ws _ h _ => .begin h)
    · cases htm : v.timers.get? id with
      | none => simp [Query.exec, htm]
      | some tm => simp [Query.exec, htm, hnot tm htm]
    · rintro v ws tm d hb ⟨rfl, hFv, hids⟩ htm hst -
      obtain ⟨tm', htm', hrun⟩ := hids id hid
      obtain rfl := Option.some.inj (htm'.symm.trans htm)
      have hlabel : (⟨tm'.workflowRunID, .cancelTimer⟩ : Label) = ⟨runID, .cancelTimer⟩ := by
        rw [hrun]
      have hact : Act ⟨runID, .cancelTimer⟩ v [.timer { tm' with status := .cancelled }] :=
        hlabel ▸ .cancelTimer (Table.get?_key htm) hst
      exact .act hC hact
        ⟨rfl, hstay v _ hb hact hFv, hknown hact.evolves hids⟩

/-- The end of a run whose steps have all ended. -/
theorem finishRun_spec {rs₀ : RunState} {next : RunStatus} {errMsg : Option String}
    {payload : Option Json} (hall : rs.allTerminal = true)
    (hout : ∀ v, View Q run rs v → Outcome v.steps run.id next) :
    engine.Triple A C Err H (Viewing Q run K rs)
      (finishRun run next (marshalOutputs rs.outputs) errMsg (finishEvent next) payload) H
      (fun _ => Settled Q run.id rs₀) := by
  refine Triple.bind ((changeRun_rule (F := fun v => Viewing Q run K rs v [])
    (G := Settled Q run.id rs₀) (fun o ho => marshalOutputs_isValid ho)
    (Viewing.robust hQ).at_nil (Settled.robust hQ) ?_).pre
      (fun v ws _ hF => ⟨hF.1, hF.1 ▸ hF⟩)) (fun ok => ?_)
  · rintro v hb ⟨-, hV, -⟩ hnot
    refine ⟨rfl, fun hq => ?_⟩
    obtain ⟨r, hr, -, hlive⟩ := hV.row
    exact absurd (mem_live_iff.mpr (hlive hq)) (hnot r hr)
  · cases ok with
    | false => exact Triple.ret (List.Subset.refl _) (fun _ _ _ hF => hF)
    | true =>
      refine Triple.bind (event_rule (Settled.robust hQ) (RunChanging.lands ?_))
        (fun _ => Triple.ret (List.Subset.refl _) (fun _ _ _ hF => hF.2))
      rintro v r now now' hb ⟨-, hV, -⟩ hr hst
      have hid : r.id = run.id := Table.key_of_get? hr
      have hlive := mem_live_iff.mp hst
      rw [hV.marshalOutputs_eq hb hall, ← hid]
      have hact : Act ⟨r.id, .finish next⟩ v
          (.run (r.transition next (marshalOutputs (completedOutputs v.steps r.id)) errMsg now) ::
            historyWrites
              (r.transition next (marshalOutputs (completedOutputs v.steps r.id)) errMsg now)
              (finishEvent next) payload now') :=
        .finish (Table.get?_key hr) hlive (hid ▸ hV.allDone hall) (hid ▸ hout v hV)
      refine .act (hid ▸ hC (.finish next) rfl) hact ⟨rfl, fun _ => ?_⟩
      refine .of_allDone (get?_event _ _ _ _ _) ?_ (hid ▸ hV.allDone hall)
      have hend := hout v hV
      cases next <;> first | exact hend.elim | rfl

omit hQ hC in
/-- A copy that has ended tells the status of its row. -/
theorem View.status_of_allTerminal {v : Db} (hV : View Q run rs v) (hall : rs.allTerminal = true)
    {t : Step} (ht : t ∈ v.steps) (hrun : t.workflowRunID = run.id) :
    ∃ s ∈ rs, t.status = s.status := by
  obtain ⟨s, hs, hcopy, -⟩ := hV.find ht hrun
  exact ⟨s, Table.mem_of_get? hs,
    hcopy.done (List.all_eq_true.mp hall s (Table.mem_of_get? hs))⟩

omit hQ hC in
/-- What a copy that has ended says is true of a row. -/
theorem View.exists_of_copy {v : Db} (hV : View Q run rs v) {s : Step} (hs : s ∈ rs)
    (hdone : stepTerminal s.status = true) :
    ∃ t ∈ v.steps, t.workflowRunID = run.id ∧ t.status = s.status := by
  obtain ⟨hrun, t, ht, hcopy, -⟩ := hV.copies s hs
  exact ⟨t, Table.mem_of_get? ht, (Step.run_of_info hcopy.info).trans hrun, hcopy.done hdone⟩

/-- `checkRunCompletion`. -/
theorem checkRunCompletion_spec {rs₀ : RunState}
    (hset : ∀ v, View Q run rs v → Q v → K → ¬ rs.allTerminal = true → Settles run.id rs₀ v) :
    engine.Triple A C Err H (Viewing Q run K rs) (checkRunCompletion run rs) H
      (fun _ => Settled Q run.id rs₀) := by
  unfold checkRunCompletion
  refine Triple.bind (startRun_spec hQ hC) (fun _ => ?_)
  by_cases hall : rs.allTerminal = true
  · simp only [hall, not_true_eq_false, if_false]
    refine Triple.bind (range_spec (Viewing.robust hQ) rs) (fun names =>
      Triple.assume (fun hperm => ?_))
    have htimers : engine.Triple A C Err H (Settled Q run.id rs₀) (cancelTimersForRun run.id) H
        (fun _ => Settled Q run.id rs₀) := by
      refine (cancelTimersForRun_spec (hC .cancelTimer rfl)
        (F := fun v => Q v → Settles run.id rs₀ v)
        (hQ.robust (fun _ _ _ _ _ _ hcalm hs hq => (hs (hcalm hq).1).calm (hcalm hq).2))
        (fun v u hb hact hs hq => ?_))
      exact (hs (hQ.back hact.evolves hq)).calm (hact.calm hb (Or.inr rfl))
    have hmem : ∀ s, s ∈ names.filterMap rs.get? ↔ s ∈ rs := by
      intro s
      rw [List.mem_filterMap]
      constructor
      · rintro ⟨name, -, hs⟩
        exact Table.mem_of_get? hs
      · intro hs
        exact ⟨s.stepName, hperm.mem_iff.mpr (List.mem_map_of_mem hs), Table.mem_iff_get?.mp hs⟩
    cases hfind : (names.filterMap rs.get?).find? (fun s => s.status == .failed) with
    | some failedStep =>
      have hfailed : failedStep.status = .failed := by simpa using List.find?_some hfind
      refine Triple.bind (finishRun_spec hQ hC hall (fun v hV => ?_)) (fun _ => htimers)
      obtain ⟨t, ht, hrun, hst⟩ := hV.exists_of_copy
        ((hmem failedStep).mp (List.mem_of_find?_eq_some hfind)) (by rw [hfailed]; rfl)
      exact ⟨t, ht, hrun, hst.trans hfailed⟩
    | none =>
      have hnone : ∀ v, View Q run rs v → ∀ t ∈ v.steps, t.workflowRunID = run.id →
          t.status ≠ .failed := by
        intro v hV t ht hrun hst
        obtain ⟨s, hs, heq⟩ := hV.status_of_allTerminal hall ht hrun
        have hnot := List.find?_eq_none.mp hfind s ((hmem s).mpr hs)
        simp [← heq, hst] at hnot
      simp only
      split_ifs with hcancel
      · obtain ⟨s, hs, hst⟩ := List.any_eq_true.mp hcancel
        have hst' : s.status = .cancelled := by simpa using hst
        refine Triple.bind (finishRun_spec hQ hC hall (fun v hV => ⟨hnone v hV, ?_⟩))
          (fun _ => htimers)
        obtain ⟨t, ht, hrun, heq⟩ := hV.exists_of_copy ((hmem s).mp hs) (by rw [hst']; rfl)
        exact ⟨t, ht, hrun, heq.trans hst'⟩
      · refine Triple.bind (finishRun_spec hQ hC hall (fun v hV t ht hrun =>
          ⟨hnone v hV t ht hrun, fun hst => hcancel ?_⟩)) (fun _ => htimers)
        obtain ⟨s, hs, heq⟩ := hV.status_of_allTerminal hall ht hrun
        exact List.any_eq_true.mpr ⟨s, (hmem s).mpr hs, by simp [← heq, hst]⟩
  · simp only [hall]
    exact Triple.ret (List.Subset.refl _) (fun v ws _ hF =>
      ⟨hF.1, fun hq => hset v hF.2.1 hq (hF.2.2 hq) hall⟩)

end Programs

end Orchestrator
