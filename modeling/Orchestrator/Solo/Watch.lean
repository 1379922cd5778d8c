import Orchestrator.Engine.Arguments
import Orchestrator.Solo.Visits

/-!
# Statements of a transaction that runs alone

What the statements answer when nobody else is at work. A program whose statements carry
the maps of `runState` may be watched: at each of them the maps have the rows, and each
update is applied. Inside `reconcileTx` no statement fails.
-/

namespace Orchestrator

open Lib Program

/-- What the maps are compared with the rows by. -/
def Step.seen (s : Step) : UUID × String × StepStatus × Option RawMessage × ℕ :=
  (s.id, s.stepName, s.status, s.output, s.attemptCount)

/-- The maps have exactly the steps, as the rows are. -/
structure StepMaps.Hold (maps : StepMaps) (rows : List Step) : Prop where
  byName : (maps.byName.rows.map Step.seen).Perm (rows.map Step.seen)
  byID : (maps.byID.rows.map Step.seen).Perm (rows.map Step.seen)

/-- The answer says that the update of a step, a signal or a run was applied. -/
def Query.Applied : {β : Type} → Query β → β → Prop
  | _, .updateStepStatus .., ok => ok = true
  | _, .markSignalProcessed _, ok => ok = true
  | _, .updateWorkflowRunStatus .., ok => ok = true
  | _, _, _ => True

/-- The maps that are noted have exactly the steps of their run. -/
def Note.Holds (note : Note) (v : Db) : Prop := ∀ m ∈ note, m.2.Hold (v.stepsOf m.1)

/-- Inside `reconcileTx` the maps have the rows, and the statement succeeds. -/
def Noted.Good {β : Type} (op : Noted β) (v : Db) (result : Except Error β) : Prop :=
  op.note.Holds v ∧ (op.note ≠ none → ∃ a, result = .ok a ∧ op.query.Applied a)

/-- The store for statements that carry the maps. -/
abbrev notedBackend : Backend Noted Error Db Write Lock Draw := backend.comap Noted.query

/-- The store that refuses statements that are not good. -/
noncomputable abbrev watched : Backend Noted Error Db Write Lock Draw :=
  notedBackend.guarded Noted.Good (.stepChanged "")

/-- Run alone in the state `v`, the program answers as `Q` says. -/
abbrev Solo {α : Type} (Err : Error → Prop) (p : Prog α) (Q : α → Db → Prop) (v : Db) : Prop :=
  p.Wp backend Err Q v

/-- Run alone in the state `v`, the program answers as `Q` says, and each of its statements
is good. -/
abbrev Watch {α : Type} (p : NotedProg α) (Q : α → Db → Prop) (v : Db) : Prop :=
  p.Wp watched (fun _ => False) Q v

section Rules

variable {Err : Error → Prop} {v : Db} {α β : Type} {Q : β → Db → Prop} {runID : UUID}
  {note : Note}

theorem Note.holds_none (v : Db) : Note.Holds none v := fun m hm => by cases hm

/-- The maps do not matter, whatever draws are considered. -/
theorem plain_wp {P : Draw → Prop} {p : NotedProg β}
    (h : p.Wp (watched.restrict P) (fun _ => False) Q v) :
    (plain p).Wp (backend.restrict P) Err Q v := by
  have hguarded : p.Wp ((notedBackend.restrict P).guarded Noted.Good (.stepChanged ""))
      (fun _ => False) Q v := h
  have hnoted : p.Wp ((backend.restrict P).comap Noted.query) (fun _ => False) Q v :=
    hguarded.unguarded id
  exact ((wp_mapOp p).mpr hnoted).mono_error (fun _ h => h.elim)

/-- What is watched without notes is proved of the program. -/
theorem Watch.solo {p : NotedProg β} (h : Watch p Q v) : Solo Err (plain p) Q v :=
  (plain_wp h.restrict).of_restrict

theorem Watch.solo_of_noting {p : Prog β} (h : Watch (noting note p) Q v) : Solo Err p Q v :=
  plain_noting note p ▸ h.solo

/-- A note is kept through a sequence. -/
theorem noting_bind (p : Prog α) (k : α → Prog β) :
    noting note (p >>= k) = noting note p >>= fun a => noting note (k a) :=
  mapOp_bind p k

theorem noting_foldlM (f : α → β → Prog α) (xs : List β) (c : α) :
    noting note (xs.foldlM f c) = xs.foldlM (fun c x => noting note (f c x)) c := by
  induction xs generalizing c with
  | nil => rfl
  | cons x xs ih =>
    rw [List.foldlM_cons, List.foldlM_cons, noting_bind]
    congr 1
    funext c'
    exact ih c'

/-- Outside `reconcileTx` nothing is asked of the statements. -/
theorem solo_outside {p : Prog β} (h : Solo Err p Q v) :
    (noting none p).Wp watched Err Q v := by
  induction p generalizing v with
  | ret a => exact h
  | fail e => exact h
  | call op next ih =>
    intro d hd
    have hexec : watched.exec (⟨op, none⟩ : Noted _) d v = backend.exec op d v :=
      Backend.exec_guarded ⟨Note.holds_none v, fun hne => absurd rfl hne⟩
    have hcall := h d hd
    rw [hexec]
    cases hres : backend.exec op d v with
    | error e => simpa only [hres] using hcall
    | ok r =>
      simp only [hres] at hcall ⊢
      exact ih r.1 hcall

/-- A statement that succeeds. -/
theorem watch_statement {op : Query β} (hnote : note.Holds v)
    (h : ∀ d, backend.admits op d v → ∃ a ws, backend.exec op d v = .ok (a, ws) ∧ op.Applied a ∧
      Q a (backend.applyAll v ws)) : Watch (noting note op.issue) Q v := by
  change (Program.request (⟨op, note⟩ : Noted β)).Wp watched _ Q v
  refine Wp.request (fun d hd => ?_)
  obtain ⟨a, ws, hexec, happlied, hQ⟩ := h d hd
  have hres : notedBackend.exec (⟨op, note⟩ : Noted β) d v = .ok (a, ws) := hexec
  refine ⟨a, ws, ?_, hQ⟩
  rw [Backend.exec_guarded, hres]
  rw [hres]
  exact ⟨hnote, fun _ => ⟨a, rfl, happlied⟩⟩

/-- A statement that writes nothing. -/
theorem watch_read {op : Query β} (hnote : note.Holds v) (answer : Draw → Db → β)
    (hexec : ∀ d v, backend.exec op d v = .ok (answer d v, [])) (happlied : ∀ a, op.Applied a)
    (h : ∀ d, Q (answer d v) v) : Watch (noting note op.issue) Q v :=
  watch_statement hnote (fun d _ => ⟨_, [], hexec d v, happlied _, h d⟩)

/-- A statement that only reads changes nothing. -/
theorem solo_read {op : Query β} (answer : Draw → Db → β)
    (hexec : ∀ d v, backend.exec op d v = .ok (answer d v, [])) (h : ∀ d, Q (answer d v) v) :
    Solo Err op.issue Q v :=
  Wp.request (fun d _ => ⟨_, [], hexec d v, h d⟩)

/-- The lookup of a row that is there. -/
theorem solo_lookup {op : Query (Option β)} (find : Draw → Db → Option β)
    (hexec : ∀ d v, backend.exec op d v = .ok (find d v, [])) {b : β}
    (hfound : ∀ d, find d v = some b) (h : Q b v) :
    Solo Err (do orNotFound (← op.issue)) Q v := by
  refine Wp.bind (solo_read find hexec (fun d => ?_))
  rw [hfound d]
  exact h

/-- `UpdateStepStatus` on a step in one of the statuses expected. -/
theorem watch_updateStep {Q : Bool → Db → Prop} {id : UUID} {expected : List StepStatus}
    {next : StepStatus} {output : Option RawMessage} {errMsg : Option String} {bump : Bool}
    {t : Step} (hnote : note.Holds v) (ht : v.steps.get? id = some t) (hst : t.status ∈ expected)
    (hvalid : ∀ o, output = some o → o.IsValid)
    (h : ∀ now, Q true (v.apply (.step (t.transition next output errMsg bump now)))) :
    Watch (noting note (Query.updateStepStatus id expected next output errMsg bump).issue) Q v := by
  refine watch_statement hnote (fun d _ =>
    ⟨true, [.step (t.transition next output errMsg bump d.now)], ?_, rfl, h d.now⟩)
  simp [Query.exec, jsonb_of_valid hvalid, ht, hst]
  rfl

/-- `UpdateWorkflowRunStatus` on a run in one of the statuses expected. -/
theorem watch_updateRun {Q : Bool → Db → Prop} {expected : List RunStatus}
    {next : RunStatus} {output : Option RawMessage} {errMsg : Option String} {r : WorkflowRun}
    (hnote : note.Holds v) (hr : v.runs.get? runID = some r) (hst : r.status ∈ expected)
    (hvalid : ∀ o, output = some o → o.IsValid)
    (h : ∀ now, Q true (v.apply (.run (r.transition next output errMsg now)))) :
    Watch (noting note (Query.updateWorkflowRunStatus runID expected next output errMsg).issue)
      Q v := by
  refine watch_statement hnote (fun d _ =>
    ⟨true, [.run (r.transition next output errMsg d.now)], ?_, rfl, h d.now⟩)
  simp [Query.exec, jsonb_of_valid hvalid, hr, hst]
  rfl

/-- `AppendHistory` on a run that exists. -/
theorem watch_event {Q : Option HistoryEvent → Db → Prop} {eventType : EventType}
    {payload : Option Json} {r : WorkflowRun} (hnote : note.Holds v)
    (hr : v.runs.get? runID = some r)
    (h : ∀ e now, Q (some e) (backend.applyAll v (historyWrites r eventType payload now))) :
    Watch (noting note (Query.appendHistory runID eventType payload).issue) Q v := by
  refine watch_statement hnote (fun d _ => ⟨_, _, ?_, trivial, h
    ⟨r.id, r.historySeq + 1, eventType, payload.getD (.obj []), d.now⟩ d.now⟩)
  simp only [backend_exec, Query.exec, hr]

theorem watch_appendHistory {Q : Unit → Db → Prop} {eventType : EventType} {payload : Option Json}
    {r : WorkflowRun} (hnote : note.Holds v) (hr : v.runs.get? runID = some r)
    (h : ∀ now, Q () (backend.applyAll v (historyWrites r eventType payload now))) :
    Watch (noting note (appendHistory runID eventType payload)) Q v := by
  rw [appendHistory, noting_bind]
  exact Wp.bind (watch_event hnote hr (fun _ now => h now))

/-- A `range` statement meets every step once. -/
theorem watch_range {Q : List String → Db → Prop} {rs : RunState} (hnote : note.Holds v)
    (h : ∀ names : List String, names.Perm (rs.rows.map (·.stepName)) → Q names v) :
    Watch (noting note rs.range) Q v :=
  watch_read hnote (fun d _ => d.shuffle (rs.rows.map (·.stepName))) (fun _ _ => rfl)
    (fun _ => trivial) (fun d => h _ (d.shuffle_perm _))

/-- Where only some draws are considered, the order is one of them. -/
theorem restricted_range {P : Draw → Prop} {Q : List String → Db → Prop} {rs : RunState}
    (hnote : note.Holds v) (h : ∀ d, P d → Q (d.shuffle (rs.rows.map (·.stepName))) v) :
    (noting note rs.range).Wp (watched.restrict P) (fun _ => False) Q v := by
  change (Program.request (⟨.mapOrder (rs.rows.map (·.stepName)), note⟩ : Noted _)).Wp _ _ Q v
  refine Wp.request (fun d hd => ⟨d.shuffle (rs.rows.map (·.stepName)), [], ?_, h d hd.1⟩)
  exact Backend.exec_guarded (b := notedBackend) ⟨hnote, fun _ => ⟨_, rfl, trivial⟩⟩

/-- An update of a step in an expected status is applied. -/
theorem solo_updateStep {Q : Bool → Db → Prop} {id : UUID} {expected : List StepStatus}
    {next : StepStatus} {output : Option RawMessage} {errMsg : Option String} {bump : Bool}
    {t : Step} (ht : v.steps.get? id = some t) (hst : t.status ∈ expected)
    (hvalid : ∀ o, output = some o → o.IsValid)
    (h : ∀ now, Q true (v.apply (.step (t.transition next output errMsg bump now)))) :
    Solo Err (Query.updateStepStatus id expected next output errMsg bump).issue Q v :=
  (watch_updateStep (Note.holds_none v) ht hst hvalid h).solo_of_noting

/-- An event of a run that exists is appended. -/
theorem solo_appendHistory {Q : Unit → Db → Prop} {eventType : EventType} {payload : Option Json}
    {r : WorkflowRun} (hr : v.runs.get? runID = some r)
    (h : ∀ now, Q () (backend.applyAll v (historyWrites r eventType payload now))) :
    Solo Err (appendHistory runID eventType payload) Q v :=
  (watch_appendHistory (Note.holds_none v) hr h).solo_of_noting

end Rules

end Orchestrator
