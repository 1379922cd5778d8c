import Orchestrator.Lib.Solo
import Orchestrator.Memory.Store

/-!
# Evaluations on the memory store

The memory store has no constraints, so its calls do not fail on their own. What can fail
in an evaluation are a missing run, a step that is not as its local copy says, and an
input that is no JSON document. Where the run exists and the inputs are documents, an
evaluation on the memory store ends without an error, whatever else the store holds.
-/

namespace Orchestrator.Memory

open Lib Program

/-- Alone on the memory store, the program ends without an error, and its answer and the
state that it leaves satisfy `Q`. -/
abbrev Sure {α : Type} (p : Prog α) (Q : α → Store → Prop) (s : Store) : Prop :=
  p.Wp backend (fun _ => False) Q s

section Calls

variable {s : Store} {β : Type} {Q : β → Store → Prop}

/-- A call that assigns to nothing. -/
theorem sure_read {op : Query β} (answer : Draw → β)
    (hexec : ∀ d, exec op d s = .ok (answer d, [])) (h : ∀ d, Q (answer d) s) :
    Sure op.issue Q s :=
  Wp.request (fun d _ => ⟨_, [], hexec d, h d⟩)

/-- A call that assigns to rows. -/
theorem sure_assigns {op : Query β} (r : Draw → β × List Write)
    (hexec : ∀ d, exec op d s = assigns (r d))
    (h : ∀ d, Q (r d).1 { s with rows := Orchestrator.backend.applyAll s.rows (r d).2 }) :
    Sure op.issue Q s := by
  refine Wp.request (fun d _ => ⟨(r d).1, (r d).2.map .row, hexec d, ?_⟩)
  rw [rows_applyAll]
  exact h d

/-- A run that exists is not removed by any assignment. -/
theorem isSome_run_applyAll {v : Db} {runID : UUID} (h : (v.runs.get? runID).isSome)
    (ws : List Write) : ((Orchestrator.backend.applyAll v ws).runs.get? runID).isSome := by
  induction ws generalizing v with
  | nil => exact h
  | cons w ws ih =>
    refine ih ?_
    cases w <;> first | exact h | exact Table.isSome_get?_put h

end Calls

/-- The inputs of all steps are JSON documents, as those that come from definitions are. -/
def Documents (s : Store) : Prop := ∀ t ∈ s.rows.steps, t.input.IsValid

/-- The run exists, and the inputs of the steps are documents. Nothing else can make a call
of the engine fail on the memory store. -/
structure Known (runID : UUID) (s : Store) : Prop where
  run : (s.rows.runs.get? runID).isSome
  inputs : Documents s

/-- Each local copy of a step has the status of its row and a document as its input, and no
two copies are of one row. -/
structure Copied (runID : UUID) (rs : RunState) (s : Store) : Prop extends Known runID s where
  row : ∀ c ∈ rs, ∃ t, s.rows.steps.get? c.id = some t ∧ t.status = c.status
  valid : ∀ c ∈ rs, c.input.IsValid
  apart : ∀ c ∈ rs, ∀ c' ∈ rs, c.id = c'.id → c = c'

section Copied

variable {runID : UUID} {rs : RunState} {s : Store} {c c' : Step}

/-- What is known stays so when no step is assigned to. -/
theorem Known.aside (h : Known runID s) (ws : List Write) {n : ℕ}
    (hws : (Orchestrator.backend.applyAll s.rows ws).steps = s.rows.steps) :
    Known runID ⟨Orchestrator.backend.applyAll s.rows ws, n⟩ where
  run := isSome_run_applyAll h.run ws
  inputs := by
    rw [Documents, hws]
    exact h.inputs

/-- It stays so when a step is assigned to that has a document as its input. -/
theorem Known.put (h : Known runID s) {t : Step} (hvalid : t.input.IsValid) :
    Known runID ⟨s.rows.apply (.step t), s.nextOutboxID⟩ where
  run := h.run
  inputs x hx := by
    rcases Table.mem_put.mp hx with rfl | ⟨hx, -⟩
    · exact hvalid
    · exact h.inputs x hx

/-- The copies stay right when no step is assigned to. -/
theorem Copied.aside (h : Copied runID rs s) (ws : List Write) {n : ℕ}
    (hws : (Orchestrator.backend.applyAll s.rows ws).steps = s.rows.steps) :
    Copied runID rs ⟨Orchestrator.backend.applyAll s.rows ws, n⟩ where
  toKnown := h.toKnown.aside ws hws
  row c hc := by
    rw [hws]
    exact h.row c hc
  valid := h.valid
  apart := h.apart

/-- The copies stay right when a step and its copy get the same status. -/
theorem Copied.put (h : Copied runID rs s) (hc : c ∈ rs) (hid : c'.id = c.id)
    (hname : c'.stepName = c.stepName) (hinput : c'.input = c.input) {t : Step}
    (htid : t.id = c.id) (hst : t.status = c'.status) (hvalid : t.input.IsValid) :
    Copied runID (rs.put c') ⟨s.rows.apply (.step t), s.nextOutboxID⟩ where
  toKnown := h.toKnown.put hvalid
  row x hx := by
    change ∃ y, (s.rows.steps.put t).get? x.id = some y ∧ _
    rcases Table.mem_put.mp hx with rfl | ⟨hx, hne⟩
    · exact ⟨t, by rw [hid, ← htid, Table.get?_put_self], hst⟩
    · have hrow : t.id ≠ x.id := fun heq =>
        hne (by rw [h.apart x hx c hc (heq.symm.trans htid), hname])
      rw [Table.get?_put_of_ne hrow]
      exact h.row x hx
  valid x hx := by
    rcases Table.mem_put.mp hx with rfl | ⟨hx, -⟩
    · exact hinput ▸ h.valid c hc
    · exact h.valid x hx
  apart x hx y hy hxy := by
    rcases Table.mem_put.mp hx with rfl | ⟨hx', hnex⟩ <;>
      rcases Table.mem_put.mp hy with rfl | ⟨hy', hney⟩
    · rfl
    · exact absurd (by rw [← h.apart c hc y hy' (hid.symm.trans hxy), hname]) hney
    · exact absurd (by rw [h.apart x hx' c hc (hxy.trans hid), hname]) hnex
    · exact h.apart x hx' y hy' hxy

/-- The steps of a run that have been read give such copies. -/
theorem Known.copied (h : Known runID s) {steps : List Step}
    (hsteps : ∀ t ∈ steps, t ∈ s.rows.steps) : Copied runID (newRunState steps) s := by
  have hmem : ∀ c ∈ newRunState steps, c ∈ s.rows.steps := by
    intro c hc
    rcases Table.mem_of_mem_foldl_put hc with hc | hc
    · exact hsteps c hc
    · exact absurd hc (Table.not_mem_empty c)
  exact ⟨h, fun c hc => ⟨c, Table.mem_iff_get?.mp (hmem c hc), rfl⟩,
    fun c hc => h.inputs c (hmem c hc),
    fun c hc c' hc' => Table.eq_of_key_eq (hmem c hc) (hmem c' hc')⟩

/-- The assignments of `UpdateStepStatus` set the status and leave the key and the input. -/
theorem assignStep_frame (st : Step) (next : StepStatus) (output : Option RawMessage)
    (errMsg : Option String) (bumpAttempt : Bool) (now : Time) :
    (assignStep st next output errMsg bumpAttempt now).id = st.id ∧
      (assignStep st next output errMsg bumpAttempt now).input = st.input ∧
      (assignStep st next output errMsg bumpAttempt now).status = next := by
  simp only [assignStep]
  split_ifs <;> exact ⟨rfl, rfl, rfl⟩

/-- The update of a step from the status of its copy is applied, and the copy may be
given the new status. -/
theorem sure_updateStep (h : Copied runID rs s) (hc : c ∈ rs) {expected : List StepStatus}
    (hexp : c.status ∈ expected) (next : StepStatus) (output : Option RawMessage)
    (errMsg : Option String) (bumpAttempt : Bool) :
    Sure (Query.updateStepStatus c.id expected next output errMsg bumpAttempt).issue
      (fun ok s' => ok = true ∧ ∀ c' : Step, c'.id = c.id → c'.stepName = c.stepName →
        c'.input = c.input → c'.status = next → Copied runID (rs.put c') s') s := by
  obtain ⟨t, ht, hst⟩ := h.row c hc
  have hmem : t.status ∈ expected := hst ▸ hexp
  refine sure_assigns (fun d => (true, [.step (assignStep t next output errMsg bumpAttempt d.now)]))
    (fun d => ?_) (fun d => ⟨rfl, fun c' hid hname hinput hnext => ?_⟩)
  · simp [exec, updateStepStatus, ht, hmem]
  · obtain ⟨hkey, hsame, hstatus⟩ := assignStep_frame t next output errMsg bumpAttempt d.now
    exact h.put hc hid hname hinput (hkey.trans (Table.key_of_get? ht))
      (hstatus.trans hnext.symm) (hsame ▸ h.inputs t (Table.mem_of_get? ht))

/-- The update of a step of whatever status, which may or may not be applied. -/
theorem sure_updateAny (h : Known runID s) (id : UUID) (expected : List StepStatus)
    (next : StepStatus) (output : Option RawMessage) (errMsg : Option String)
    (bumpAttempt : Bool) :
    Sure (Query.updateStepStatus id expected next output errMsg bumpAttempt).issue
      (fun _ s' => Known runID s') s := by
  refine sure_assigns (fun d =>
    updateStepStatus s.rows id expected next output errMsg bumpAttempt d.now) (fun _ => rfl)
    (fun d => ?_)
  unfold updateStepStatus
  cases ht : s.rows.steps.get? id with
  | none => exact h
  | some t =>
    dsimp only
    split_ifs
    · refine h.put ?_
      rw [(assignStep_frame ..).2.1]
      exact h.inputs t (Table.mem_of_get? ht)
    · exact h

/-- `AppendHistory` for a run that exists. -/
theorem sure_event {Q : Option HistoryEvent → Store → Prop} (h : Known runID s)
    (eventType : EventType) (payload : Option Json)
    (hQ : ∀ e r now, Q (some e) { s with
      rows := Orchestrator.backend.applyAll s.rows (historyWrites r eventType payload now) }) :
    Sure (Query.appendHistory runID eventType payload).issue Q s := by
  obtain ⟨r, hr⟩ := Option.isSome_iff_exists.mp h.run
  exact sure_assigns (fun d => (some ⟨runID, r.historySeq + 1, eventType,
    payload.getD (.obj []), d.now⟩, historyWrites r eventType payload d.now))
    (fun d => by simp [exec, hr]) (fun d => hQ _ r d.now)

/-- It is not an error then. -/
theorem sure_appendHistory (h : Copied runID rs s) (eventType : EventType)
    (payload : Option Json) :
    Sure (appendHistory runID eventType payload) (fun _ s' => Copied runID rs s') s :=
  Wp.bind (sure_event h.toKnown eventType payload (fun _ _ _ => h.aside _ rfl))

/-- The names of the steps in some order. -/
theorem sure_range {Q : List String → Store → Prop} (h : ∀ names, Q names s) :
    Sure rs.range Q s :=
  sure_read (fun d => d.shuffle (rs.rows.map (·.stepName))) (fun _ => rfl) (fun _ => h _)

end Copied

section Evaluation

variable {run : WorkflowRun} {rs : RunState} {s : Store}

/-- One iteration of `propagateSkips`. -/
theorem skipStep_sure (h : Copied run.id rs s) (changed : Bool) (name : String) :
    Sure (skipStep run (rs, changed) name) (fun acc s' => Copied run.id acc.1 s') s := by
  unfold skipStep
  dsimp only
  cases hc : rs.get? name with
  | none => exact h
  | some c =>
    have hmem := Table.mem_of_get? hc
    by_cases hskip : (c.isFresh && rs.blocked c) = true
    · simp only [hskip, if_true]
      refine Wp.bind ((sure_updateStep h hmem (List.mem_singleton_self _) _ _ _ _).mono ?_)
      rintro - s' ⟨rfl, hput⟩
      simp only [if_true]
      exact Wp.bind ((sure_appendHistory (hput { c with status := .skipped } rfl rfl rfl rfl)
        _ _).mono (fun _ _ h' => h'))
    · simp only [hskip]
      exact h

/-- `propagateSkips`. -/
theorem propagateSkips_sure (h : Copied run.id rs s) :
    Sure (propagateSkips run rs) (fun rs' s' => Copied run.id rs' s') s := by
  unfold propagateSkips
  generalize rs.rows.length + 1 = n
  induction n generalizing rs s with
  | zero => exact h
  | succ n ih =>
    refine Wp.bind (sure_range (fun names => Wp.bind (Wp.mono (Wp.foldlM
      (I := fun _ acc s' => Copied run.id acc.1 s') (fun acc name _ s' _ hacc =>
        skipStep_sure hacc acc.2 name) h) ?_)))
    rintro ⟨rs', changed⟩ s' h'
    cases changed with
    | true => exact ih h'
    | false => exact h'

/-- A step looks for its signal. It is as before, or it has been completed. -/
theorem resolveSignalWait_sure (h : Copied run.id rs s) {c : Step} (hc : c ∈ rs)
    (signals : List Signal) :
    Sure (resolveSignalWait run c signals) (fun res s' =>
      (res.1 = false → res.2 = c ∧ Copied run.id rs s') ∧ Copied run.id (rs.put res.2) s') s := by
  have hself : rs.put c = rs := Table.put_eq_self (Table.mem_iff_get?.mp hc)
  induction signals with
  | nil => exact ⟨fun _ => ⟨rfl, h⟩, hself.symm ▸ h⟩
  | cons sig signals ih =>
    rw [resolveSignalWait]
    split_ifs with hname
    · exact ih
    · refine Wp.bind (sure_assigns (fun _ => markSignalProcessed s.rows sig.id) (fun _ => rfl)
        (fun _ => ?_))
      cases hsig : s.rows.signals.get? sig.id with
      | none =>
        simp only [markSignalProcessed, hsig]
        exact ih
      | some row =>
        by_cases hused : row.processed = true
        · simp only [markSignalProcessed, hsig, hused]
          exact ih
        · simp only [markSignalProcessed, hsig, hused, Bool.false_eq_true, if_false,
            not_true_eq_false]
          refine Wp.bind ((sure_updateStep (h.aside [.signal { row with processed := true }]
            rfl) hc (List.mem_singleton_self _) _ _ _ _).mono ?_)
          rintro - s' ⟨rfl, hput⟩
          simp only [if_true]
          refine Wp.bind ((sure_appendHistory
            (hput { c with status := .completed, output := some sig.payload } rfl rfl rfl rfl)
            _ _).mono (fun _ s'' h' => ?_))
          exact ⟨fun hfalse => (by cases hfalse), h'⟩

/-- `tryResolveSignalWait`. -/
theorem tryResolveSignalWait_sure (h : Copied run.id rs s) {c : Step} (hc : c ∈ rs) :
    Sure (tryResolveSignalWait run c) (fun res s' =>
      (res.1 = false → res.2 = c ∧ Copied run.id rs s') ∧ Copied run.id (rs.put res.2) s') s :=
  Wp.bind (sure_read (fun d => ((d.shuffle s.rows.signals.rows).filter (fun sig =>
    sig.workflowRunID = run.id ∧ sig.processed = false)).insertionSort
      (fun a b => a.receivedAt ≤ b.receivedAt)) (fun _ => rfl)
    (fun _ => resolveSignalWait_sure h hc _))

/-- `dispatchStep` for a step with a document as its input. -/
theorem dispatchStep_sure (h : Copied run.id rs s) {c : Step} (hc : c ∈ rs)
    {expected : List StepStatus} (hexp : c.status ∈ expected) :
    Sure (dispatchStep run c expected) (fun c' s' => Copied run.id (rs.put c') s') s := by
  unfold dispatchStep
  refine Wp.bind (sure_assigns (fun d => (newAttempt d.uuid c.id run.id (c.attemptCount + 1) d.key
    (queueName c.taskType) d.now, [.attempt (newAttempt d.uuid c.id run.id (c.attemptCount + 1)
      d.key (queueName c.taskType) d.now)])) (fun _ => rfl) (fun d => ?_))
  simp only [h.valid c hc, not_true_eq_false, if_false]
  refine Wp.bind (Wp.request (fun d' _ => ⟨_, _, rfl, ?_⟩))
  refine Wp.bind ((sure_updateStep (s := ⟨Orchestrator.backend.applyAll s.rows
    [.attempt _, .outbox _], _⟩) (h.aside _ rfl) hc hexp _ _ _ _).mono ?_)
  rintro - s' ⟨rfl, hput⟩
  simp only [not_true_eq_false, if_false]
  exact Wp.bind ((sure_appendHistory
    (hput { c with status := .queued, attemptCount := c.attemptCount + 1 } rfl rfl rfl rfl)
    _ _).mono (fun _ _ h' => h'))

/-- A visit of the first loop of `dispatchReady`. -/
theorem resolveWaiting_sure (h : Copied run.id rs s) (name : String) :
    Sure (resolveWaiting run rs name) (fun rs' s' => Copied run.id rs' s') s := by
  unfold resolveWaiting
  cases hc : rs.get? name with
  | none => exact h
  | some c =>
    by_cases hwait : c.status = .waiting
    · simp only [hwait, if_true]
      exact Wp.bind ((tryResolveSignalWait_sure h (Table.mem_of_get? hc)).mono (fun _ _ h' => h'.2))
    · simp only [hwait, if_false]
      exact h

/-- A visit of the second loop of `dispatchReady`. -/
theorem dispatchOne_sure (h : Copied run.id rs s) (name : String) :
    Sure (dispatchOne run rs name) (fun rs' s' => Copied run.id rs' s') s := by
  unfold dispatchOne
  cases hc : rs.get? name with
  | none => exact h
  | some c =>
    have hmem := Table.mem_of_get? hc
    by_cases hgo : (c.isFresh && rs.ready c) = true
    · simp only [hgo, if_true]
      by_cases htype : c.taskType = signalWaitTaskType
      · simp only [htype, if_true]
        refine Wp.bind ((tryResolveSignalWait_sure h hmem).mono ?_)
        rintro ⟨resolved, c'⟩ s' ⟨hparked, hput⟩
        cases resolved with
        | true => exact hput
        | false =>
          obtain ⟨rfl, h'⟩ := hparked rfl
          simp only [Bool.false_eq_true, if_false]
          refine Wp.bind ((sure_updateStep h' hmem (List.mem_singleton_self _) _ _ _ _).mono ?_)
          rintro - s'' ⟨rfl, hput'⟩
          exact hput' _ rfl rfl rfl rfl
      · simp only [htype, if_false]
        exact Wp.bind ((dispatchStep_sure h hmem (List.mem_singleton_self _)).mono
          (fun _ _ h' => h'))
    · simp only [hgo]
      exact h

/-- `dispatchReady`. -/
theorem dispatchReady_sure (h : Copied run.id rs s) :
    Sure (dispatchReady run rs) (fun rs' s' => Copied run.id rs' s') s := by
  refine Wp.bind (sure_range (fun names => Wp.bind (Wp.mono (Wp.foldlM
    (I := fun _ rs' s' => Copied run.id rs' s') (fun rs' name _ s' _ h' =>
      resolveWaiting_sure h' name) h) ?_)))
  intro rs' s' h'
  exact Wp.bind (sure_range (fun names => Wp.foldlM
    (I := fun _ rs' s' => Copied run.id rs' s') (fun rs' name _ s' _ h' =>
      dispatchOne_sure h' name) h'))

/-- `CancelTimersForRun`. -/
theorem cancelTimersForRun_sure (h : Copied run.id rs s) :
    Sure (Orchestrator.cancelTimersForRun run.id) (fun _ s' => Copied run.id rs s') s := by
  refine Wp.bind (sure_read (fun d => (pendingTimersForRun s.rows run.id d).map (·.id))
    (fun _ => rfl) (fun d => Wp.foldlM (I := fun _ _ s' => Copied run.id rs s') ?_ h))
  rintro - id rest s' - h'
  cases htm : s'.rows.timers.get? id with
  | none => exact sure_read (fun _ => ()) (fun _ => by simp [exec, htm]) (fun _ => h')
  | some tm =>
    by_cases hst : tm.status = .pending
    · exact sure_assigns (fun _ => ((), [.timer { tm with status := .cancelled }]))
        (fun _ => by simp [exec, htm, hst]) (fun _ => h'.aside _ rfl)
    · exact sure_read (fun _ => ()) (fun _ => by simp [exec, htm, hst]) (fun _ => h')

/-- `UpdateWorkflowRunStatus`. -/
theorem sure_updateRun (h : Copied run.id rs s) (expected : List RunStatus) (next : RunStatus)
    (output : Option RawMessage) (errMsg : Option String) :
    Sure (Query.updateWorkflowRunStatus run.id expected next output errMsg).issue
      (fun _ s' => Copied run.id rs s') s := by
  refine sure_assigns (fun d =>
    updateWorkflowRunStatus s.rows run.id expected next output errMsg d.now) (fun _ => rfl)
    (fun d => h.aside _ ?_)
  unfold updateWorkflowRunStatus
  split
  · rfl
  · split_ifs <;> rfl

/-- The update of the run's row with its event. -/
theorem finishRun_sure (h : Copied run.id rs s) (next : RunStatus) (output : Option RawMessage)
    (errMsg : Option String) (eventType : EventType) (payload : Option Json) :
    Sure (finishRun run next output errMsg eventType payload) (fun _ s' => Copied run.id rs s')
      s := by
  refine Wp.bind ((sure_updateRun h _ _ _ _).mono ?_)
  intro ok s' h'
  cases ok with
  | false => exact h'
  | true => exact Wp.bind (sure_event h'.toKnown eventType payload (fun _ _ _ => h'.aside _ rfl))

/-- `checkRunCompletion`. -/
theorem checkRunCompletion_sure (h : Copied run.id rs s) :
    Sure (checkRunCompletion run rs) (fun _ _ => True) s := by
  have hstart : Sure (startRun run rs) (fun _ s' => Copied run.id rs s') s := by
    unfold startRun
    split_ifs
    · refine Wp.bind ((sure_updateRun h _ _ _ _).mono ?_)
      intro ok s' h'
      cases ok with
      | true => exact sure_appendHistory h' _ _
      | false => exact h'
    · exact h
  refine Wp.bind (hstart.mono (fun _ s₁ h₁ => ?_))
  by_cases hall : rs.allTerminal = true
  · simp only [hall, not_true_eq_false, if_false]
    refine Wp.bind (sure_range (fun names => ?_))
    have hcancel : ∀ s₂, Copied run.id rs s₂ →
        Sure (Orchestrator.cancelTimersForRun run.id) (fun _ _ => True) s₂ :=
      fun s₂ h₂ => (cancelTimersForRun_sure h₂).mono (fun _ _ _ => trivial)
    split
    · exact Wp.bind ((finishRun_sure h₁ _ _ _ _ _).mono (fun _ s₂ h₂ => hcancel s₂ h₂))
    · split_ifs
      · exact Wp.bind ((finishRun_sure h₁ _ _ _ _ _).mono (fun _ s₂ h₂ => hcancel s₂ h₂))
      · exact Wp.bind ((finishRun_sure h₁ _ _ _ _ _).mono (fun _ s₂ h₂ => hcancel s₂ h₂))
  · simp only [hall]
    exact trivial

/-- `reconcileTx`, with the copies that have been read. -/
theorem reconcileTx_sure {steps : List Step} (h : Copied run.id (newRunState steps) s) :
    Sure (reconcileTx run steps) (fun _ _ => True) s := by
  unfold reconcileTx
  split_ifs
  · exact trivial
  · exact Wp.bind ((propagateSkips_sure h).mono (fun _ _ h₁ =>
      Wp.bind ((dispatchReady_sure h₁).mono (fun _ _ h₂ => checkRunCompletion_sure h₂))))

/-- The steps of a run that exists are read, and the run is evaluated. -/
theorem getSteps_sure (h : Known run.id s) :
    Sure (do
      let steps ← (Query.getSteps run.id).issue
      reconcileTx run steps) (fun _ _ => True) s := by
  refine Wp.bind (sure_read (fun d => ((d.shuffle s.rows.steps.rows).filter (fun st =>
    st.workflowRunID = run.id)).insertionSort (fun a b => a.createdAt ≤ b.createdAt))
    (fun _ => rfl) (fun d => reconcileTx_sure (h.copied (fun t ht => ?_))))
  rw [List.mem_insertionSort, List.mem_filter, (d.shuffle_perm _).mem_iff] at ht
  exact ht.1

end Evaluation

end Orchestrator.Memory
