import Orchestrator.Invariant.Upright

/-!
# History as a log

Every action appends at most one event to the history of its run. What it appends
is determined by what it does to the run and its steps, so the events of a run can be
counted against the rows: the dispatches of a step against its attempts, and each
kind of end against the status.
-/

namespace Orchestrator

open Lib

/-- The events of a run, in the order of `ListHistory`. -/
def eventsOf (E : Table HistoryEvent.key) (runID : UUID) : List HistoryEvent :=
  E.rows.filter (fun e => e.workflowRunID = runID)

/-- What is counted for a step. -/
inductive Tally
  | dispatched | completed | failed | skipped
  deriving DecidableEq, Repr

/-- What an event counts for. -/
def EventType.tally : EventType → Option Tally
  | .stepDispatched => some .dispatched
  | .stepCompleted | .stepCompletedBySignal => some .completed
  | .stepFailed => some .failed
  | .stepSkipped => some .skipped
  | _ => none

/-- The events with which a run ends. -/
def EventType.ends : EventType → Bool
  | .runCompleted | .runFailed | .runCancelled => true
  | _ => false

/-- The member `step` of an event's document. -/
def HistoryEvent.step? (e : HistoryEvent) : Option String :=
  match e.payload with
  | .obj fields =>
    match fields.find? (fun f => f.1 = "step") with
    | some (_, .str name) => some name
    | _ => none
  | _ => none

/-- The event counts for the step of the given name. -/
def HistoryEvent.notes (e : HistoryEvent) (k : Tally) (name : String) : Bool :=
  e.eventType.tally = some k ∧ e.step? = some name

/-- What the events of a step should add up to. -/
def Step.tally (t : Step) : Tally → ℕ
  | .dispatched => t.attemptCount
  | .completed => if t.status = .completed then 1 else 0
  | .failed => if t.status = .failed then 1 else 0
  | .skipped => if t.status = .skipped then 1 else 0

section Events

variable {E : Table HistoryEvent.key} {e : HistoryEvent} {runID : UUID}

theorem mem_eventsOf : e ∈ eventsOf E runID ↔ e ∈ E ∧ e.workflowRunID = runID := by
  simp only [eventsOf, List.mem_filter, decide_eq_true_eq]
  exact Iff.rfl

/-- An event with the next number comes last. -/
theorem eventsOf_put_self (hrun : e.workflowRunID = runID)
    (hlast : ∀ x ∈ E, x.workflowRunID = runID → x.seq < e.seq) :
    eventsOf (E.put e) runID = eventsOf E runID ++ [e] := by
  refine Table.filter_rows_put_last (by simpa using hrun) (fun x hx hxrun => ?_)
  have hxrun : x.workflowRunID = runID := by simpa using hxrun
  refine Prod.Lex.toLex_lt_toLex.mpr (Or.inr ⟨hxrun.trans hrun.symm, hlast x hx hxrun⟩)

/-- The events of other runs stay. -/
theorem eventsOf_put_of_ne (hrun : e.workflowRunID ≠ runID) :
    eventsOf (E.put e) runID = eventsOf E runID := by
  refine Table.filter_rows_put_of_not (by simpa using hrun) (fun x _ hkey => ?_)
  have hsame : x.workflowRunID = e.workflowRunID := congrArg (fun k => (ofLex k).1) hkey
  simpa [hsame] using hrun

end Events

/-- What an event of a given type means for its run. -/
inductive RunMove (kind : Kind) (r r' : WorkflowRun) (type : EventType) : Prop
  | keep : r'.status = r.status → r'.startedAt = r.startedAt → type ≠ .runStarted →
      type.ends = false → RunMove kind r r' type
  | start : r.status = .pending → r'.status = .running → r'.startedAt.isSome = true →
      type = .runStarted → RunMove kind r r' type
  | finish : runTerminal r.status = false → runTerminal r'.status = true →
      r'.startedAt = r.startedAt → type = finishEvent r'.status → RunMove kind r r' type
  | cancel : kind.cancels = true → r'.status = r.status → r'.startedAt = r.startedAt →
      type = .runCancelled → RunMove kind r r' type

/-- What an action does to the history and to what it is counted against. -/
inductive Records (kind : Kind) (v v' : Db) : Prop
  /-- No event is appended. -/
  | quiet : v'.history = v.history → v'.runs = v.runs →
      (∀ t' ∈ v'.steps, ∃ t ∈ v.steps, t'.info = t.info ∧ t'.tally = t.tally) →
      Records kind v v'
  /-- The status of a run is set to cancelled. The event follows. -/
  | cancelled (r r' : WorkflowRun) : kind.cancels = true → v'.history = v.history →
      v'.steps = v.steps → v.runs.get? r.id = some r → v'.runs = v.runs.put r' → r'.id = r.id →
      r'.historySeq = r.historySeq → r'.startedAt = r.startedAt → r'.status = .cancelled →
      Records kind v v'
  /-- An event of a run is appended. -/
  | event (r r' : WorkflowRun) (e : HistoryEvent) : v.runs.get? r.id = some r →
      v'.runs = v.runs.put r' → v'.history = v.history.put e → r'.id = r.id →
      e.workflowRunID = r.id → e.seq = r.historySeq + 1 → r'.historySeq = e.seq →
      RunMove kind r r' e.eventType →
      (∀ t' ∈ v'.steps, ∃ t ∈ v.steps, t'.info = t.info ∧ ∀ k, t'.tally k = t.tally k +
        if t.workflowRunID = r.id ∧ e.notes k t.stepName = true then 1 else 0) →
      Records kind v v'
  /-- A run is created. -/
  | created (r : WorkflowRun) (e : HistoryEvent) : kind = .create →
      v.runs.get? r.id = none → v'.runs = v.runs.put r → v'.history = v.history.put e →
      e.workflowRunID = r.id → e.seq = 1 → r.historySeq = 1 → r.status = .pending →
      r.startedAt = none → e.eventType = .runCreated →
      (∀ t' ∈ v'.steps, t' ∈ v.steps ∨ (t'.workflowRunID = r.id ∧ ∀ k, t'.tally k = 0)) →
      Records kind v v'

section Act

variable {v v₁ : Db} {l : Label} {u : List Write} {k : Kind}

/-- Every step is as before. -/
theorem tallies_same {v' : Db} (h : v'.steps = v.steps) :
    ∀ t' ∈ v'.steps, ∃ t ∈ v.steps, t'.info = t.info ∧ t'.tally = t.tally :=
  fun t ht => ⟨t, h ▸ ht, rfl, rfl⟩

/-- A step changes to a status that is not counted. -/
theorem tallies_put {t t' : Step} (ht : v.steps.get? t.id = some t) (hinfo : t'.info = t.info)
    (htally : ∀ k, t'.tally k = t.tally k) :
    ∀ x' ∈ v.steps.put t', ∃ x ∈ v.steps, x'.info = x.info ∧ x'.tally = x.tally := by
  intro x' hx'
  rcases Table.mem_put.mp hx' with rfl | ⟨hx', -⟩
  · exact ⟨t, Table.mem_of_get? ht, hinfo, funext htally⟩
  · exact ⟨x', hx', rfl, rfl⟩

/-- An event that is about the run only. -/
theorem Records.ofRun {r : WorkflowRun} (r' : WorkflowRun) {e : HistoryEvent} {v' : Db}
    (hr : v.runs.get? r.id = some r) (hruns : v'.runs = v.runs.put r')
    (hhistory : v'.history = v.history.put e) (hsteps : v'.steps = v.steps) (hid : r'.id = r.id)
    (hrun : e.workflowRunID = r.id) (hseq : e.seq = r.historySeq + 1)
    (hcount : r'.historySeq = e.seq) (hmove : RunMove k r r' e.eventType)
    (hnone : e.eventType.tally = none) : Records k v v' := by
  refine .event r r' e hr hruns hhistory hid hrun hseq hcount hmove (fun t ht => ?_)
  refine ⟨t, hsteps ▸ ht, rfl, fun k => ?_⟩
  simp [HistoryEvent.notes, hnone]

/-- An event that is about a step. -/
theorem Records.ofStep {v' : Db} (hb : Base v) {t t' : Step} {r : WorkflowRun}
    {type : EventType} {document : Json} {now : Time} (ht : v.steps.get? t.id = some t)
    (hr : v.runs.get? t.workflowRunID = some r)
    (hruns : v'.runs = v.runs.put { r with historySeq := r.historySeq + 1 })
    (hhistory : v'.history = v.history.put ⟨r.id, r.historySeq + 1, type, document, now⟩)
    (hsteps : v'.steps = v.steps.put t') (hinfo : t'.info = t.info)
    (hkeep : type ≠ .runStarted ∧ type.ends = false)
    (hname : type.tally = none ∨
      (⟨r.id, r.historySeq + 1, type, document, now⟩ : HistoryEvent).step? = some t.stepName)
    (htally : ∀ k, t'.tally k = t.tally k + if type.tally = some k then 1 else 0) :
    Records k v v' := by
  have hid : r.id = t.workflowRunID := Table.key_of_get? hr
  refine .event r _ _ (hid ▸ hr) hruns hhistory rfl rfl rfl rfl (.keep rfl rfl hkeep.1 hkeep.2)
    (fun x' hx' => ?_)
  rcases Table.mem_put.mp (hsteps ▸ hx') with rfl | ⟨hx', hne⟩
  · refine ⟨t, Table.mem_of_get? ht, hinfo, fun k => ?_⟩
    rw [htally k]
    rcases hname with hnone | hname
    · simp [HistoryEvent.notes, hnone]
    · simp [HistoryEvent.notes, hname, hid.symm]
  · -- Another step of the run has another name.
    refine ⟨x', hx', rfl, fun k => ?_⟩
    rw [if_neg, Nat.add_zero]
    rintro ⟨hrun, hnotes⟩
    simp only [HistoryEvent.notes, decide_eq_true_eq] at hnotes
    rcases hname with hnone | hname
    · rw [hnone] at hnotes
      cases hnotes.1
    · have hsame : x' = t := hb.graph.name_unique (Table.mem_of_get? ht) hx' (hrun.trans hid)
        (Option.some.inj (hnotes.2.symm.trans hname))
      exact hne (hsame ▸ (Step.id_of_info hinfo).symm)

/-- The attempt whose end is recorded belongs to a step of its run. -/
theorem Closes.run_of_step (hb : Base v) {a : TaskAttempt} {success : Bool}
    {result : Option RawMessage} {ws : List Write} (hclose : Closes v a success result ws)
    {t : Step} (ht : v.steps.get? a.stepID = some t) : a.workflowRunID = t.workflowRunID := by
  have ha : a ∈ v.attempts := by
    cases hclose with
    | report ha => exact Table.mem_of_get? ha
    | expiry ha => exact Table.mem_of_get? ha
  obtain ⟨t', ht', hid, hrun, -⟩ := hb.ledger.parent a ha
  obtain rfl := Table.eq_of_key_eq ht' (Table.mem_of_get? ht)
    (hid.trans (Table.key_of_get? ht).symm)
  exact hrun

/-- An event about the step of an attempt that has ended. -/
theorem Records.ofClose {v' : Db} (hb : Base v) {a : TaskAttempt} {success : Bool}
    {result : Option RawMessage} {ws : List Write} (hclose : Closes v a success result ws)
    {t t' : Step} {r : WorkflowRun} {type : EventType} {document : Json} {now : Time}
    (ht : v.steps.get? a.stepID = some t) (hr : v.runs.get? a.workflowRunID = some r)
    (hruns : v'.runs = (backend.applyAll v ws).runs.put { r with historySeq := r.historySeq + 1 })
    (hhistory : v'.history = (backend.applyAll v ws).history.put
      ⟨r.id, r.historySeq + 1, type, document, now⟩)
    (hsteps : v'.steps = (backend.applyAll v ws).steps.put t') (hinfo : t'.info = t.info)
    (hkeep : type ≠ .runStarted ∧ type.ends = false)
    (hname : type.tally = none ∨
      (⟨r.id, r.historySeq + 1, type, document, now⟩ : HistoryEvent).step? = some t.stepName)
    (htally : ∀ k, t'.tally k = t.tally k + if type.tally = some k then 1 else 0) :
    Records k v v' := by
  rw [hclose.frame.2.1] at hruns
  rw [hclose.history] at hhistory
  rw [hclose.frame.1] at hsteps
  exact .ofStep hb (Table.get?_key ht) (hclose.run_of_step hb ht ▸ hr) hruns hhistory hsteps hinfo
    hkeep hname htally

/-- The outcome of an attempt counts as its event says. -/
theorem tally_outcome {t : Step} {next : StepStatus} {output : Option RawMessage}
    {errMsg : Option String} {now : Time} {type : EventType}
    (hst : t.status = .queued ∨ t.status = .running)
    (htype : (type = .stepCompleted ∧ next = .completed) ∨ (type = .stepFailed ∧ next = .failed) ∨
      (type = .stepRetryScheduled ∧ next = .retryBackoff)) (k : Tally) :
    (t.transition next output errMsg false now).tally k =
      t.tally k + if type.tally = some k then 1 else 0 := by
  rcases htype with ⟨rfl, rfl⟩ | ⟨rfl, rfl⟩ | ⟨rfl, rfl⟩ <;> rcases hst with hst | hst <;>
    cases k <;> simp [Step.tally, Step.transition, EventType.tally, hst]

/-- What every action records. -/
theorem Act.records (hact : Act l v u) (hb : Base v) :
    Records l.kind v (backend.applyAll v u) := by
  cases hact with
  | @create _ d id name input now steps payload now' hd hr hsteps hnew hnodup =>
    rw [applyAll_create]
    refine .created { newRun id d.id name d.version (shardFor id) input now with historySeq := 1 }
      ⟨id, 1, .runCreated, payload.getD (.obj []), now'⟩ rfl hr (Table.put_put rfl) rfl rfl rfl rfl
      rfl rfl rfl (fun t ht => ?_)
    rcases (Table.mem_foldl_put hnew hnodup).mp ht with ht | ht
    · obtain ⟨ns, -, stepID, at', rfl⟩ := forall₂_right hsteps t ht
      exact Or.inr ⟨rfl, fun k => by cases k <;> rfl⟩
    · exact Or.inl ht
  | skip ht hst _ hr =>
    exact .ofStep hb ht hr rfl rfl rfl rfl ⟨by decide, rfl⟩ (Or.inr rfl)
      (fun k => by cases k <;> simp [Step.tally, Step.transition, EventType.tally, hst])
  | park ht hst =>
    exact .quiet rfl rfl (tallies_put ht rfl
      (fun k => by cases k <;> simp [Step.tally, Step.transition, hst]))
  | resolve _ _ _ _ ht hst _ _ hr =>
    refine .ofStep hb ht hr rfl rfl rfl rfl ⟨by decide, rfl⟩ (Or.inr rfl) (fun k => ?_)
    rcases hst with hst | hst <;>
      cases k <;> simp [Step.tally, Step.transition, EventType.tally, hst]
  | dispatch ht hdisp _ _ _ hr =>
    refine .ofStep hb ht hr rfl rfl rfl rfl ⟨by decide, rfl⟩ (Or.inr rfl) (fun k => ?_)
    rcases hdisp with ⟨hst, -⟩ | hst <;>
      cases k <;> simp [Step.tally, Step.transition, EventType.tally, hst]
  | succeed hclose ht hst _ hr =>
    rw [Backend.applyAll_append]
    exact .ofClose hb hclose ht hr rfl rfl rfl rfl ⟨by decide, rfl⟩ (Or.inr rfl)
      (tally_outcome hst (Or.inl ⟨rfl, rfl⟩))
  | retry hclose ht hst _ _ _ _ hr =>
    rw [Backend.applyAll_append]
    exact .ofClose hb hclose ht hr rfl rfl rfl rfl ⟨by decide, rfl⟩ (Or.inl rfl)
      (tally_outcome hst (Or.inr (Or.inr ⟨rfl, rfl⟩)))
  | giveUp hclose ht hst _ hr =>
    rw [Backend.applyAll_append]
    exact .ofClose hb hclose ht hr rfl rfl rfl rfl ⟨by decide, rfl⟩ (Or.inr rfl)
      (tally_outcome hst (Or.inr (Or.inl ⟨rfl, rfl⟩)))
  | late hclose _ _ htms =>
    have hframe := hclose.frame
    rw [Backend.applyAll_append]
    rcases htms with rfl | ⟨tm, rfl, -⟩
    · exact .quiet hclose.history hframe.2.1 (tallies_same hframe.1)
    · exact .quiet hclose.history hframe.2.1 (tallies_same hframe.1)
  | @start _ r now now' hr hst =>
    refine .ofRun { r.transition .running none none now with historySeq := r.historySeq + 1 } hr
      (Table.put_put rfl) rfl rfl rfl rfl rfl rfl
      (.start hst rfl ?_ rfl) rfl
    cases hat : r.startedAt <;> simp [WorkflowRun.transition, hat]
  | @finish _ r next errMsg payload now now' hr hlive _ hout =>
    have hend : runTerminal next = true ∧ next ≠ .running := by
      cases next <;> first | exact hout.elim | exact ⟨rfl, by decide⟩
    refine .ofRun { r.transition next _ errMsg now with historySeq := r.historySeq + 1 } hr
      (Table.put_put rfl) rfl rfl rfl rfl rfl rfl (.finish hlive hend.1 ?_ rfl) ?_
    · simp [WorkflowRun.transition, hend.2]
    · cases next <;> rfl
  | @cancelStep _ t now ht hlive =>
    refine .quiet rfl rfl (tallies_put ht rfl (fun k => ?_))
    cases k <;> cases hst : t.status <;> simp_all [Step.tally, Step.transition, stepTerminal]
  | cancelRun hr _ =>
    exact .cancelled _ _ rfl rfl rfl hr rfl rfl rfl rfl rfl
  | cancelEvent hr _ =>
    exact .ofRun _ hr rfl rfl rfl rfl rfl rfl rfl (.cancel rfl rfl rfl rfl) rfl
  | log hr =>
    exact .ofRun _ hr rfl rfl rfl rfl rfl rfl rfl (.keep rfl rfl (fun h => by cases h) rfl) rfl
  | running ht hst =>
    exact .quiet rfl rfl (tallies_put ht rfl
      (fun k => by cases k <;> simp [Step.tally, Step.transition, hst]))
  | _ => exact .quiet rfl rfl (tallies_same rfl)

end Act

/-- The events of a run are numbered in order and begin with its creation, and its
start is recorded if it has started. -/
structure RunLogged (es : List HistoryEvent) (r : WorkflowRun) : Prop where
  numbers : es.map (·.seq) = List.range' 1 r.historySeq
  created : ∃ e, es.head? = some e ∧ e.eventType = .runCreated
  started : es.countP (fun e => e.eventType = .runStarted) = if r.startedAt.isSome then 1 else 0
  fresh : r.status = .pending → r.startedAt = none
  running : r.status = .running → r.startedAt.isSome = true

namespace RunLogged

variable {es : List HistoryEvent} {r r' : WorkflowRun} {e : HistoryEvent} {k : Kind}

/-- The status may be set to cancelled without an event. -/
theorem cancel (h : RunLogged es r) (hseq : r'.historySeq = r.historySeq)
    (hat : r'.startedAt = r.startedAt) (hst : r'.status = .cancelled) : RunLogged es r' :=
  ⟨hseq ▸ h.numbers, h.created, hat ▸ h.started, (fun hp => by rw [hst] at hp; cases hp),
    (fun hp => by rw [hst] at hp; cases hp)⟩

/-- An event is appended. -/
theorem append (h : RunLogged es r) (hseq : e.seq = r.historySeq + 1)
    (hcount : r'.historySeq = e.seq) (hmove : RunMove k r r' e.eventType) :
    RunLogged (es ++ [e]) r' := by
  have hnumbers : (es ++ [e]).map (·.seq) = List.range' 1 r'.historySeq := by
    rw [List.map_append, h.numbers, hcount, hseq, List.range'_concat]
    simp [hseq, Nat.add_comm]
  have hcreated : ∃ x, (es ++ [e]).head? = some x ∧ x.eventType = .runCreated := by
    obtain ⟨x, hx, htype⟩ := h.created
    exact ⟨x, by rw [List.head?_append, hx]; rfl, htype⟩
  have hother : e.eventType ≠ .runStarted → r'.startedAt = r.startedAt →
      (es ++ [e]).countP (fun e => e.eventType = .runStarted) =
        if r'.startedAt.isSome then 1 else 0 := by
    intro htype hat
    rw [List.countP_append, h.started, hat]
    simp [htype]
  cases hmove with
  | keep hst hat htype =>
    exact ⟨hnumbers, hcreated, hother htype hat, fun hp => hat.trans (h.fresh (hst ▸ hp)),
      fun hp => hat ▸ h.running (hst ▸ hp)⟩
  | start hpending hrunning hat htype =>
    refine ⟨hnumbers, hcreated, ?_, (fun hp => by rw [hrunning] at hp; cases hp), fun _ => hat⟩
    rw [List.countP_append, h.started, h.fresh hpending, hat]
    simp [htype]
  | finish _ hend hat htype =>
    refine ⟨hnumbers, hcreated, hother ?_ hat, (fun hp => by rw [hp] at hend; cases hend),
      (fun hp => by rw [hp] at hend; cases hend)⟩
    rw [htype]
    cases r'.status <;> decide
  | cancel _ hst hat htype =>
    exact ⟨hnumbers, hcreated, hother (by rw [htype]; decide) hat,
      fun hp => hat.trans (h.fresh (hst ▸ hp)), fun hp => hat ▸ h.running (hst ▸ hp)⟩

end RunLogged

/-- The history is a log of runs and steps. -/
structure Journalled (v : Db) : Prop where
  runs : ∀ r ∈ v.runs, RunLogged (eventsOf v.history r.id) r
  steps : ∀ t ∈ v.steps, ∀ k, (eventsOf v.history t.workflowRunID).countP
    (fun e => e.notes k t.stepName) = t.tally k

namespace Journalled

variable {v v' : Db} {k : Kind} {l : Label} {u : List Write}

theorem empty : Journalled Db.empty :=
  ⟨fun r hr => absurd hr (Table.not_mem_empty r), fun t ht => absurd ht (Table.not_mem_empty t)⟩

/-- The events of a run do not exceed its counter. -/
theorem seq_lt (h : Journalled v) {r : WorkflowRun} (hr : r ∈ v.runs) :
    ∀ x ∈ v.history, x.workflowRunID = r.id → x.seq < r.historySeq + 1 := by
  intro x hx hrun
  have hmem : x.seq ∈ (eventsOf v.history r.id).map (·.seq) :=
    List.mem_map_of_mem (mem_eventsOf.mpr ⟨hx, hrun⟩)
  rw [(h.runs r hr).numbers] at hmem
  have hbound := (List.mem_range'_1.mp hmem).2
  omega

/-- The events after one with the next number has been appended. -/
theorem eventsOf_put (h : Journalled v) {r : WorkflowRun} {e : HistoryEvent} (hr : r ∈ v.runs)
    (hrun : e.workflowRunID = r.id) (hseq : e.seq = r.historySeq + 1) :
    eventsOf (v.history.put e) r.id = eventsOf v.history r.id ++ [e] :=
  eventsOf_put_self hrun (hseq ▸ h.seq_lt hr)

/-- Nothing has been recorded for a run that is new. -/
theorem eventsOf_new (hb : Base v) {r : WorkflowRun} {e : HistoryEvent}
    (hr : v.runs.get? r.id = none) (hrun : e.workflowRunID = r.id) :
    eventsOf (v.history.put e) r.id = [e] := by
  have hnone : ∀ x ∈ v.history, x.workflowRunID ≠ r.id := by
    intro x hx heq
    obtain ⟨q, hq, hid, -⟩ := hb.chronicle x hx
    exact Table.get?_eq_none.mp hr q hq (hid.trans heq)
  have hempty : eventsOf v.history r.id = [] :=
    List.filter_eq_nil_iff.mpr (fun x hx => by simpa using hnone x hx)
  rw [eventsOf_put_self hrun (fun x hx heq => absurd heq (hnone x hx)), hempty, List.nil_append]

/-- What is recorded keeps the log. -/
theorem records (h : Journalled v) (hb : Base v) (hrec : Records k v v') : Journalled v' := by
  cases hrec with
  | quiet hhistory hruns hsteps =>
    refine ⟨hhistory ▸ hruns ▸ h.runs, fun t' ht' k => ?_⟩
    obtain ⟨t, ht, hinfo, htally⟩ := hsteps t' ht'
    rw [hhistory, Step.run_of_info hinfo, Step.name_of_info hinfo, htally]
    exact h.steps t ht k
  | cancelled r r' _ hhistory hsteps hr hruns hid hseq hat hst =>
    refine ⟨fun q hq => ?_, hhistory ▸ hsteps ▸ h.steps⟩
    rw [hhistory]
    rcases Table.mem_put.mp (hruns ▸ hq) with rfl | ⟨hq, -⟩
    · exact hid ▸ (h.runs r (Table.mem_of_get? hr)).cancel hseq hat hst
    · exact h.runs q hq
  | event r r' e hr hruns hhistory hid hrun hseq hcount hmove hsteps =>
    have hmem := Table.mem_of_get? hr
    have hself : eventsOf v'.history r.id = eventsOf v.history r.id ++ [e] := by
      rw [hhistory]
      exact h.eventsOf_put hmem hrun hseq
    have hother : ∀ {id}, id ≠ r.id → eventsOf v'.history id = eventsOf v.history id := by
      intro id hne
      rw [hhistory]
      exact eventsOf_put_of_ne (hrun.trans_ne (Ne.symm hne))
    refine ⟨fun q hq => ?_, fun t' ht' k => ?_⟩
    · rcases Table.mem_put.mp (hruns ▸ hq) with rfl | ⟨hq, hne⟩
      · rw [hid, hself]
        exact (h.runs r hmem).append hseq hcount hmove
      · rw [hother (fun heq => hne (heq.trans hid.symm))]
        exact h.runs q hq
    · obtain ⟨t, ht, hinfo, htally⟩ := hsteps t' ht'
      rw [Step.run_of_info hinfo, Step.name_of_info hinfo, htally, ← h.steps t ht k]
      by_cases hsame : t.workflowRunID = r.id
      · rw [hsame, hself, List.countP_append]
        simp [List.countP_cons]
      · rw [hother hsame, if_neg (fun hx => hsame hx.1), Nat.add_zero]
  | created r e _ hr hruns hhistory hrun hseq hcount hst hat htype hsteps =>
    have hself : eventsOf v'.history r.id = [e] := by
      rw [hhistory]
      exact eventsOf_new hb hr hrun
    have hother : ∀ {id}, id ≠ r.id → eventsOf v'.history id = eventsOf v.history id := by
      intro id hne
      rw [hhistory]
      exact eventsOf_put_of_ne (hrun.trans_ne (Ne.symm hne))
    refine ⟨fun q hq => ?_, fun t ht k => ?_⟩
    · rcases Table.mem_put.mp (hruns ▸ hq) with rfl | ⟨hq, hne⟩
      · rw [hself]
        refine ⟨by simp [hseq, hcount], ⟨e, rfl, htype⟩, ?_, fun _ => hat, fun hp => ?_⟩
        · simp [htype, hat]
        · rw [hst] at hp
          cases hp
      · rw [hother hne]
        exact h.runs q hq
    · rcases hsteps t ht with ht | ⟨htrun, hzero⟩
      · obtain ⟨q, hq, hid⟩ := hb.graph.run t ht
        rw [hother (fun heq => Table.get?_eq_none.mp hr q hq (hid.trans heq))]
        exact h.steps t ht k
      · rw [htrun, hself, hzero]
        simp [HistoryEvent.notes, htype, EventType.tally]

/-- Every action keeps the log. -/
theorem act (h : Journalled v) (hb : Base v) (hact : Act l v u) :
    Journalled (backend.applyAll v u) :=
  h.records hb (hact.records hb)

end Journalled

end Orchestrator
