import Orchestrator.Invariant.Log
import Orchestrator.Solo.Launch
import Orchestrator.System.Dependencies

/-!
# What the history says about runs

In every state of the system the history of a run is a faithful log of it. That the
events are numbered and add up holds after every action. That a run has started, and
that its end is recorded, holds after every transaction.
-/

namespace Orchestrator

open Lib Actions

/-- The end of a run is recorded, and no other one. -/
def Sealed (v : Db) : Prop :=
  ∀ r ∈ v.runs, ((eventsOf v.history r.id).filter (fun e => e.eventType.ends)).map (·.eventType) =
    if runTerminal r.status then [finishEvent r.status] else []

/-- Runs have started, apart from some. -/
def Begun (apart : UUID → Prop) (v : Db) : Prop :=
  ∀ r ∈ v.runs, ¬ apart r.id → r.startedAt.isSome = true

section Records

variable {v v' : Db} {k : Kind} {apart : UUID → Prop} {C : Label → Prop}

theorem ends_finishEvent (st : RunStatus) : (finishEvent st).ends = true := by
  cases st <;> rfl

/-- The end of the run after an event has been appended. -/
theorem sealed_append {es : List HistoryEvent} {r r' : WorkflowRun} {e : HistoryEvent}
    (h : (es.filter (fun e => e.eventType.ends)).map (·.eventType) =
      if runTerminal r.status then [finishEvent r.status] else [])
    (hmove : RunMove k r r' e.eventType) (hk : k.cancels = false) :
    ((es ++ [e]).filter (fun e => e.eventType.ends)).map (·.eventType) =
      if runTerminal r'.status then [finishEvent r'.status] else [] := by
  rw [List.filter_append, List.map_append, h]
  cases hmove with
  | keep hst _ _ hends => simp [hst, hends]
  | start hpending hrunning _ htype => simp [hpending, hrunning, htype, runTerminal, EventType.ends]
  | finish hlive hend _ htype => simp [hlive, hend, htype, ends_finishEvent]
  | cancel hcancels =>
    rw [hk] at hcancels
    cases hcancels

/-- Actions that do not cancel keep the record of ends. -/
theorem Sealed.records (h : Sealed v) (hlog : Journalled v) (hb : Base v) (hrec : Records k v v')
    (hk : k.cancels = false) : Sealed v' := by
  cases hrec with
  | quiet hhistory hruns =>
    intro r hr
    rw [hhistory]
    exact h r (hruns ▸ hr)
  | cancelled r r' hcancels =>
    rw [hk] at hcancels
    cases hcancels
  | event r r' e hr hruns hhistory hid hrun hseq _ hmove =>
    have hmem := Table.mem_of_get? hr
    intro q hq
    rcases Table.mem_put.mp (hruns ▸ hq) with rfl | ⟨hq, hne⟩
    · rw [hid, hhistory, hlog.eventsOf_put hmem hrun hseq]
      exact sealed_append (h r hmem) hmove hk
    · rw [hhistory, eventsOf_put_of_ne (fun heq => hne ((hid.trans hrun.symm).trans heq).symm)]
      exact h q hq
  | created r e _ hr hruns hhistory hrun _ _ hst _ htype =>
    intro q hq
    rcases Table.mem_put.mp (hruns ▸ hq) with rfl | ⟨hq, hne⟩
    · rw [hhistory, Journalled.eventsOf_new hb hr hrun]
      simp [htype, hst, EventType.ends, runTerminal]
    · rw [hhistory, eventsOf_put_of_ne (fun heq => hne (hrun.symm.trans heq).symm)]
      exact h q hq

/-- Actions other than creations keep runs started. -/
theorem Begun.records (h : Begun apart v) (hrec : Records k v v') (hk : k ≠ .create) :
    Begun apart v' := by
  cases hrec with
  | quiet _ hruns => exact fun r hr => h r (hruns ▸ hr)
  | cancelled r r' _ _ _ hr hruns hid _ hat =>
    intro q hq hskip
    rcases Table.mem_put.mp (hruns ▸ hq) with rfl | ⟨hq, -⟩
    · exact hat ▸ h r (Table.mem_of_get? hr) (hid ▸ hskip)
    · exact h q hq hskip
  | event r r' e hr hruns _ hid _ _ _ hmove =>
    intro q hq hskip
    rcases Table.mem_put.mp (hruns ▸ hq) with rfl | ⟨hq, -⟩
    · have hold := h r (Table.mem_of_get? hr) (hid ▸ hskip)
      cases hmove with
      | keep _ hat => exact hat ▸ hold
      | start _ _ hat => exact hat
      | finish _ _ hat => exact hat ▸ hold
      | cancel _ _ hat => exact hat ▸ hold
    · exact h q hq hskip
  | created r e hcreate => exact absurd hcreate hk

theorem Journalled.through (h : Journalled v) (hb : Base v) (hu : Through C v v') : Journalled v' :=
  hu.induct hb h (fun _ _ _ hb _ hact h => h.act hb hact)

theorem Sealed.through (h : Sealed v) (hlog : Journalled v) (hb : Base v) (hu : Through C v v')
    (hC : ∀ l, C l → l.kind.cancels = false) : Sealed v' := by
  refine (hu.induct hb (I := fun w => Journalled w ∧ Sealed w) ⟨hlog, h⟩ ?_).2
  rintro w l u hb hl hact ⟨hlog, h⟩
  exact ⟨hlog.act hb hact, h.records hlog hb (hact.records hb) (hC l hl)⟩

theorem Begun.through (h : Begun apart v) (hb : Base v) (hu : Through C v v')
    (hC : ∀ l, C l → l.kind ≠ .create) : Begun apart v' :=
  hu.induct hb h (fun _ l _ hb hl hact h => h.records (hact.records hb) (hC l hl))

end Records

/-- What comes before an evaluation is a creation, or nothing is created. -/
theorem Lead.steady {P : Signal → Prop} {runID : UUID} {v v₀ : Db} (h : Lead P runID v v₀) :
    (∃ u, Act ⟨runID, .create⟩ v u ∧ v₀ = backend.applyAll v u) ∨
      Through (fun l => l.kind ≠ .create ∧ l.kind.cancels = false) v v₀ := by
  cases h with
  | resume => exact Or.inr (.refl v)
  | create hact => exact Or.inl ⟨_, hact, rfl⟩
  | outcome hk hact =>
    refine Or.inr (.one ?_ hact)
    rcases hk with rfl | rfl | rfl <;> exact ⟨(fun hk => by cases hk), rfl⟩
  | redispatch htm hst _ _ _ _ _ hact =>
    exact Or.inr (.trans (.one ⟨(fun hk => by cases hk), rfl⟩ (.fireTimer htm hst))
      (.one ⟨(fun hk => by cases hk), rfl⟩ hact))
  | @signal sig r payload now hnew hvalid _ hrun _ hr =>
    subst hrun
    have hlog : Act ⟨r.id, .log⟩ (v.apply (.signal sig))
        (historyWrites r .signalReceived payload now) := .log (Table.get?_key hr)
    exact Or.inr (.trans (.one ⟨(fun hk => by cases hk), rfl⟩ (.signal hnew hvalid hr))
      (.one ⟨(fun hk => by cases hk), rfl⟩ hlog))

/-- What holds of the history after every transaction. -/
structure Chronicled (v : Db) : Prop where
  addressed : Addressed v
  posted : Posted v
  logged : Journalled v
  ends : Sealed v
  begun : Begun (fun _ => False) v

namespace Chronicled

variable {P : Signal → Prop} {q : Prop} {runID : UUID} {v v₀ v' : Db} {C : Label → Prop}

theorem empty : Chronicled Db.empty :=
  ⟨.empty, .empty, .empty, fun r hr => absurd hr (Table.not_mem_empty r),
    fun r hr => absurd hr (Table.not_mem_empty r)⟩

/-- Actions that neither create nor cancel a run. -/
theorem through (h : Chronicled v) (hb : Base v) (hu : Through C v v')
    (hC : ∀ l, C l → l.kind ≠ .create ∧ l.kind.cancels = false) : Chronicled v' where
  addressed := hu.induct hb h.addressed (fun _ _ _ _ _ hact h => h.act hact)
  posted := hu.induct hb h.posted (fun _ _ _ _ _ hact h => h.act hact)
  logged := h.logged.through hb hu
  ends := h.ends.through h.logged hb hu (fun l hl => (hC l hl).2)
  begun := h.begun.through hb hu (fun l hl => (hC l hl).1)

/-- A cancellation is recorded as the end of the run. -/
theorem cancel (h : Chronicled v) (ho : Orderly v) {r : WorkflowRun} {u : List Write}
    (hr : v.runs.get? runID = some r) (hlive : runTerminal r.status = false)
    (hu : engine.Steps (Cancelling runID) v u) (hdone : Cancelled runID (backend.applyAll v u))
    (hrec : RecordsCancel runID v (backend.applyAll v u)) :
    Chronicled (backend.applyAll v u) := by
  have hthrough : Through (Cancelling runID) v (backend.applyAll v u) := ⟨u, hu, rfl⟩
  have hb := ho.base
  refine ⟨hthrough.induct hb h.addressed (fun _ _ _ _ _ hact h => h.act hact),
    hthrough.induct hb h.posted (fun _ _ _ _ _ hact h => h.act hact), h.logged.through hb hthrough,
    fun q' hq' => ?_, h.begun.through hb hthrough ?_⟩
  · obtain ⟨e, hrun, htype, -, hhistory⟩ := hrec
    rw [hhistory]
    by_cases hid : q'.id = runID
    · -- No end of the run has been recorded before.
      obtain ⟨q, hq, hst⟩ := hdone.1
      obtain rfl := Table.eq_of_key_eq hq' (Table.mem_of_get? hq)
        (hid.trans (Table.key_of_get? hq).symm)
      have hend : (eventsOf v.history runID).filter (fun e => e.eventType.ends) = [] := by
        have hends := h.ends r (Table.mem_of_get? hr)
        rw [hlive, Table.key_of_get? hr] at hends
        exact List.map_eq_nil_iff.mp hends
      have hevents : (eventsOf (v.history.put e) runID).filter (fun e => e.eventType.ends) =
          [e] := by
        rw [eventsOf, List.filter_filter] at hend ⊢
        rw [Table.filter_rows_put_last (by simp [hrun, htype, EventType.ends])]
        · rw [hend, List.nil_append]
        · intro x hx hpx
          exact absurd hpx (List.filter_eq_nil_iff.mp hend x hx)
      rw [hid, hevents, hst]
      simp [htype, runTerminal, finishEvent]
    · have hcalm := hthrough.calm hb (r := q'.id) (fun l hl => Or.inl (hl.1.trans_ne (Ne.symm hid)))
      have hstatus := hcalm.status
      rw [Table.mem_iff_get?.mp hq', Option.map_some] at hstatus
      obtain ⟨q, hq, hst⟩ := Option.map_eq_some_iff.mp hstatus.symm
      rw [eventsOf_put_of_ne (fun heq => hid (heq.symm.trans hrun)), ← hst]
      have hqid : q.id = q'.id := Table.key_of_get? hq
      rw [← hqid]
      exact h.ends q (Table.mem_of_get? hq)
  · rintro ⟨run, kind⟩ ⟨-, hk | hk⟩ hcreate
    · have hcreate : kind = .create := hcreate
      subst hcreate
      cases hk
    · exact absurd (hk.symm.trans hcreate) (by decide)

/-- The first evaluation of a run starts it. -/
theorem create (h : Chronicled v) (hb : Base v) {u : List Write}
    (hact : Act ⟨runID, .create⟩ v u) (heval : Evaluated runID (backend.applyAll v u) v') :
    Chronicled v' := by
  have hu : Through (Works runID) v v' := (Lead.create (P := fun _ => True) hact).evaluated heval
  have hlaunched := launched hb h.addressed h.posted hact heval
  have hlogged := h.logged.through hb hu
  have hothers : Begun (· = runID) (backend.applyAll v u) := by
    cases hact
    rw [applyAll_create]
    intro r hr hne
    rcases Table.mem_put.mp hr with rfl | ⟨hr, -⟩
    · exact absurd rfl hne
    · rcases Table.mem_put.mp hr with rfl | ⟨hr, -⟩
      · exact absurd rfl hne
      · exact h.begun r hr id
  have hbegun : Begun (· = runID) v' := by
    refine hothers.through (hact.base hb) heval.path.through (fun l hl hcreate => ?_)
    rw [hcreate] at hl
    cases hl.2
  refine ⟨hu.induct hb h.addressed (fun _ _ _ _ _ hact h => h.act hact),
    hu.induct hb h.posted (fun _ _ _ _ _ hact h => h.act hact), hlogged,
    h.ends.through h.logged hb hu (fun _ hl => hl.kind.1), fun r hr _ => ?_⟩
  by_cases hid : r.id = runID
  · obtain ⟨q, hq, hst⟩ := hlaunched.run
    obtain rfl := Table.eq_of_key_eq hr (Table.mem_of_get? hq)
      (hid.trans (Table.key_of_get? hq).symm)
    exact (hlogged.runs r hr).running hst
  · exact hbegun r hr hid

/-- Every change of the store keeps the history a log. -/
theorem shift (h : Chronicled v) (ho : Orderly v) (hs : Shift P q v v') : Chronicled v' := by
  have hb := ho.base
  cases hs with
  | @work u hu =>
    refine h.through (C := Quietly) hb ⟨u, hu, rfl⟩ (fun l hl => ⟨fun hcreate => ?_, hl.calm.2⟩)
    rw [Quietly, hcreate] at hl
    cases hl
  | @late a t success result ws tms hclose ht hst htms =>
    refine h.through hb (.one (C := (· = ⟨a.workflowRunID, .late⟩)) rfl
      (.late hclose ht hst (htms.imp id And.right))) ?_
    rintro l rfl
    exact ⟨(fun hk => by cases hk), rfl⟩
  | @idle tm t r now htm hst =>
    refine h.through hb (.one (C := (· = ⟨tm.workflowRunID, .fireTimer⟩)) rfl
      (.fireTimer htm hst)) ?_
    rintro l rfl
    exact ⟨(fun hk => by cases hk), rfl⟩
  | @note sig r payload now hnew hvalid _ _ hr =>
    have hlog : Act ⟨r.id, .log⟩ (v.apply (.signal sig))
        (historyWrites r .signalReceived payload now) := .log (Table.get?_key hr)
    refine h.through (C := fun l => l.kind = .signal ∨ l.kind = .log) hb
      (.trans (.one (Or.inl rfl) (.signal hnew hvalid hr)) (.one (Or.inr rfl) hlog)) ?_
    rintro ⟨run, kind⟩ (rfl | rfl) <;> exact ⟨(fun hk => by cases hk), rfl⟩
  | @evaluate runID v₀ _ hlead heval =>
    rcases hlead.steady with ⟨u, hact, rfl⟩ | hu
    · exact h.create hb hact heval
    · refine h.through hb (hu.trans (heval.path.through.mono ?_)) (fun _ hl => hl)
      rintro ⟨run, kind⟩ ⟨-, hk⟩
      cases kind <;> first | (cases hk; done) | exact ⟨(fun hk => by cases hk), rfl⟩
  | cancel hr hlive hu hdone _ hrec => exact h.cancel ho hr hlive hu hdone hrec

end Chronicled

/-- The history is a log in every state that is reached. -/
theorem System.Reachable.chronicled {C : System → Move → Prop} {S : System} (h : Reachable C S) :
    Chronicled S.db :=
  h.induct (I := fun S => Chronicled S.db) .empty
    (fun _ _ _ _ hok _ hturn hS => hS.shift hok.orderly (hok.shift hturn))

/-- The events of a step that are of one of some types. -/
def countSteps (es : List HistoryEvent) (types : List EventType) (stepName : String) : ℕ :=
  es.countP (fun e => e.eventType ∈ types ∧ e.step? = some stepName)

/-- The types that count for something are those that are counted for it. -/
theorem Journalled.countSteps {v : Db} (h : Journalled v) {t : Step} (ht : t ∈ v.steps) {k : Tally}
    {types : List EventType} (htypes : ∀ type, type.tally = some k ↔ type ∈ types) :
    Orchestrator.countSteps (eventsOf v.history t.workflowRunID) types t.stepName = t.tally k := by
  rw [← h.steps t ht k]
  simp only [Orchestrator.countSteps, HistoryEvent.notes, htypes]

/-- The history of a run is a faithful log. Its events are numbered in order from
one to the counter of the run. The creation comes first, and the start occurs once.
The events of a step agree with its attempts and its status, and the end of the run
is recorded once it has ended, under its status. -/
theorem history_is_faithful {S : System} (h : System.Reachable System.Any S) (r : WorkflowRun)
    (hr : r ∈ S.db.runs) :
    (eventsOf S.db.history r.id).map (·.seq) = List.range' 1 r.historySeq ∧
    ((eventsOf S.db.history r.id).head?.map (·.eventType)) = some .runCreated ∧
    (eventsOf S.db.history r.id).countP (fun e => e.eventType = .runStarted) = 1 ∧
    (∀ t ∈ S.db.steps, t.workflowRunID = r.id →
      countSteps (eventsOf S.db.history r.id) [.stepDispatched] t.stepName = t.attemptCount ∧
      countSteps (eventsOf S.db.history r.id) [.stepCompleted, .stepCompletedBySignal] t.stepName =
        (if t.status = .completed then 1 else 0) ∧
      countSteps (eventsOf S.db.history r.id) [.stepFailed] t.stepName =
        (if t.status = .failed then 1 else 0) ∧
      countSteps (eventsOf S.db.history r.id) [.stepSkipped] t.stepName =
        (if t.status = .skipped then 1 else 0)) ∧
    ((eventsOf S.db.history r.id).filter (fun e =>
      e.eventType ∈ [EventType.runCompleted, .runFailed, .runCancelled])).map (·.eventType) =
        match r.status with
        | .completed => [.runCompleted]
        | .failed => [.runFailed]
        | .cancelled => [.runCancelled]
        | .pending | .running => [] := by
  have hlog := h.chronicled
  have hrun := hlog.logged.runs r hr
  obtain ⟨e, he, htype⟩ := hrun.created
  refine ⟨hrun.numbers, by rw [he, Option.map_some, htype], ?_, fun t ht hid => ?_, ?_⟩
  · rw [hrun.started, hlog.begun r hr id]
    rfl
  · rw [← hid]
    refine ⟨hlog.logged.countSteps ht (k := .dispatched) ?_,
      hlog.logged.countSteps ht (k := .completed) ?_, hlog.logged.countSteps ht (k := .failed) ?_,
      hlog.logged.countSteps ht (k := .skipped) ?_⟩
    all_goals
      intro type
      cases type <;> decide
  · have hends : ∀ type : EventType, decide (type ∈ [EventType.runCompleted, .runFailed,
        .runCancelled]) = type.ends := by
      intro type
      cases type <;> rfl
    simp only [hends]
    rw [hlog.ends r hr]
    cases r.status <;> rfl

/-- One step has completed, and the other one has been dispatched. -/
theorem history_is_faithful_chain :
    ∃ r ∈ chainSystem.db.runs, (eventsOf chainSystem.db.history r.id).map (·.eventType) =
        [.runCreated, .stepDispatched, .runStarted, .stepCompleted, .stepDispatched] ∧
      (eventsOf chainSystem.db.history r.id).map (·.seq) = List.range' 1 r.historySeq := by
  have hevents : ∃ r ∈ chainSystem.db.runs.rows,
      (eventsOf chainSystem.db.history r.id).map (·.eventType) =
        [.runCreated, .stepDispatched, .runStarted, .stepCompleted, .stepDispatched] := by
    decide +kernel
  obtain ⟨r, hr, hevents⟩ := hevents
  exact ⟨r, hr, hevents, (history_is_faithful (.run .init (fun _ _ _ => trivial)
    (Option.some_get _).symm) r hr).1⟩

end Orchestrator
