import Orchestrator.Concurrent.Nodes
import Orchestrator.Isolation.Programs

/-!
# Runs do not interfere

A call about one run leaves the rows of all other runs alone, and what it does depends
on the rows of its run and on the definitions only. So calls about different runs can
be exchanged.
-/

namespace Orchestrator

open Lib Program

/-- The run that a call is about: the one it names, the one of the row that it names,
or the one whose identifier it draws. -/
def Call.target (v : Db) (ω : ℕ → Draw) : Call → Option UUID
  | .createRun .. => some (ω 1).uuid
  | .reconcile runID => some runID
  | .handleTaskResult attemptID .. => (v.attempts.get? attemptID).map (·.workflowRunID)
  | .handleFiredTimer timerID => (v.timers.get? timerID).map (·.workflowRunID)
  | .applySignal runID .. => some runID
  | .cancelRun runID => some runID
  | .claimTask _ attemptID .. => (v.attempts.get? attemptID).map (·.workflowRunID)
  | .heartbeat _ attemptID _ => (v.attempts.get? attemptID).map (·.workflowRunID)
  | .registerDefinition _ | .handleExpiredAttempt _ | .reapExpiredAttempts _ => none

/-- The generated identifiers are new when the call is served by itself. -/
def Call.Admissible (c : Call) (ω : ℕ → Draw) (v : Db) : Prop :=
  ∀ σ, c.session v = some σ → σ.prog.Admissible backend ω v σ.writes

/-- The store after a call that is served by itself. The statements of a worker's call
commit one by one, those of the others together. -/
def Call.serve (c : Call) (ω : ℕ → Draw) (v : Db) : Db :=
  match c.session v with
  | none => v
  | some σ =>
    if σ.auto then backend.applyAll v (σ.prog.run backend ω v σ.writes).2
    else (σ.prog.withTx backend ω v σ.writes).2

section

variable {A B : UUID} {v v' : Db} {ω ω' : ℕ → Draw} {K : Set Lock} {c c' : Call}

theorem About.forget {α : Type} {p : Prog α} {Q : Set Lock → α → Prop} (h : About A K p Q) :
    About A K p.discard anything :=
  Within.discard h (fun _ _ _ _ => trivial)

/-- A program about the run keeps stores alike, whether its writes take effect one by
one or together. -/
theorem About.alike {α : Type} {p : Prog α} {Q : Set Lock → α → Prop} (h : About A K p Q)
    (hK : Alike A v v' K v v') (hadm : p.Admissible backend ω v [])
    (hadm' : p.Admissible backend ω v' []) (auto : Bool) :
    ∃ K', Alike A v v' K'
      (if auto then backend.applyAll v (p.run backend ω v []).2 else (p.withTx backend ω v []).2)
      (if auto then backend.applyAll v' (p.run backend ω v' []).2
        else (p.withTx backend ω v' []).2) := by
  have hstart : Alike A v v' K (backend.applyAll v []) (backend.applyAll v' []) := hK
  obtain ⟨answer, u, K', hrun, hrun', hend⟩ :=
    Within.run_eq (Alike.tracks A v v') h hstart hadm hadm'
  cases auto with
  | true =>
    rw [if_pos rfl, if_pos rfl, hrun, hrun']
    exact ⟨K', hend⟩
  | false =>
    rw [if_neg Bool.false_ne_true, if_neg Bool.false_ne_true, withTx, withTx, hrun, hrun']
    cases answer with
    | error e => exact ⟨K, hK⟩
    | ok a => exact ⟨K', hend⟩

/-- What `CreateRun` does once it has a definition and an identifier. -/
def beginRun (name : String) (input : Option RawMessage) (definition : WorkflowDefinition)
    (id : UUID) : Prog UUID := do
  let run ← (Query.createWorkflowRun id definition.id name definition.version (shardFor id)
    (input.getD .emptyObject)).issue
  let steps ← createSteps run.id definition.dag.toNewSteps
  appendHistory run.id .runCreated (some (.obj
    [("name", .str name), ("steps", .num steps.length), ("version", .num definition.version)]))
  reconcileTx run steps
  pure run.id

/-- The definition that `CreateRun` finds. -/
def foundDefinition (name : String) (version : ℤ) (d : Draw) (v : Db) :
    Option WorkflowDefinition :=
  if 0 < version then
    v.definitions.rows.find? (fun r => r.name = name ∧ r.version = version)
  else latestDefinition (d.shuffle (v.definitions.rows.filter (fun r => r.name = name)))

theorem beginRun_about (name : String) (input : Option RawMessage)
    (definition : WorkflowDefinition) : About A K (beginRun name input definition A) anything := by
  refine Within.bind (Q := fun _ r => r.id = A) (.request rfl ?_) (fun K₁ run _ hrun => ?_)
  · rintro r K' ⟨hnames, -⟩
    exact hnames _ (by simp [Query.names])
  · rw [hrun]
    refine (createSteps_about _).bind (fun K₂ steps _ hsteps => ?_)
    refine (appendHistory_about _ _).bind (fun K₃ _ hle _ => ?_)
    exact (reconcileTx_about hrun (fun s hs => hle (hsteps s hs))).bind (fun _ _ _ _ => trivial)

/-- `CreateRun` fails without a definition, and begins the run otherwise. -/
theorem createRun_cases (name : String) (version : ℤ) (input : Option RawMessage) (v : Db) :
    ((foundDefinition name version (ω 0) v = none ∧
      ((createRun name version input).discard.withTx backend ω v []).2 = v) ∨
    ∃ d, foundDefinition name version (ω 0) v = some d ∧
      ((createRun name version input).discard.Admissible backend ω v [] →
        (beginRun name input d (ω 1).uuid).discard.Admissible backend (fun i => ω (i + 2)) v []) ∧
      (createRun name version input).discard.withTx backend ω v [] =
        (beginRun name input d (ω 1).uuid).discard.withTx backend (fun i => ω (i + 2)) v []) := by
  have hlookup : ∃ q : Query (Option WorkflowDefinition),
      lookupDefinition name version = .call q orNotFound ∧ ∀ d u,
        q.exec d u = .ok (foundDefinition name version d u, []) := by
    by_cases hv : 0 < version
    · exact ⟨.getWorkflowDefinition name version, by simp [lookupDefinition, hv],
        fun d u => by simp [Query.exec, foundDefinition, hv]⟩
    · exact ⟨.getLatestWorkflowDefinition name, by simp [lookupDefinition, hv],
        fun d u => by simp [Query.exec, foundDefinition, hv]⟩
  obtain ⟨q, hq, hexec⟩ := hlookup
  have hprog : (createRun name version input).discard = .call q (fun o => orNotFound o >>=
      fun d => .call .newUUID (fun id => (beginRun name input d id).discard)) := by
    rw [Program.discard, createRun, hq]
    refine congrArg (Program.call q) (funext (fun o => ?_))
    cases o <;> rfl
  have hexec' : backend.exec q (ω 0) (backend.applyAll v []) =
      .ok (foundDefinition name version (ω 0) v, []) := hexec (ω 0) v
  rw [hprog]
  cases hfound : foundDefinition name version (ω 0) v with
  | none =>
    rw [hfound] at hexec'
    refine Or.inl ⟨rfl, ?_⟩
    rw [withTx, run_call backend hexec']
    rfl
  | some d =>
    rw [hfound] at hexec'
    refine Or.inr ⟨d, rfl, fun hadm => ?_, ?_⟩
    · have hnext := hadm.2
      rw [hexec'] at hnext
      exact hnext.2
    · rw [withTx, run_call backend hexec']
      rfl

/-- The creation of the run keeps stores alike. -/
theorem createRun_alike {name : String} {version : ℤ} {input : Option RawMessage}
    (hA : (ω 1).uuid = A) (h : Alike A v v' ∅ v v')
    (hadm : (createRun name version input).discard.Admissible backend ω v [])
    (hadm' : (createRun name version input).discard.Admissible backend ω v' []) :
    ∃ K, Alike A v v' K ((createRun name version input).discard.withTx backend ω v []).2
      ((createRun name version input).discard.withTx backend ω v' []).2 := by
  have hfound : foundDefinition name version (ω 0) v' = foundDefinition name version (ω 0) v := by
    rw [foundDefinition, h.same.definitions, foundDefinition]
  rcases createRun_cases (ω := ω) name version input v with
    ⟨hnone, hend⟩ | ⟨d, hd, hbegin, hend⟩ <;>
    rcases createRun_cases (ω := ω) name version input v' with
      ⟨hnone', hend'⟩ | ⟨d', hd', hbegin', hend'⟩
  · rw [hend, hend']
    exact ⟨∅, h⟩
  · rw [hfound, hnone] at hd'
    cases hd'
  · rw [hfound, hd] at hnone'
    cases hnone'
  · rw [hfound, hd] at hd'
    obtain rfl := Option.some.inj hd'
    rw [hend, hend', hA]
    rw [hA] at hbegin hbegin'
    exact (beginRun_about name input d).forget.alike h (hbegin hadm) (hbegin' hadm') false

/-- A call about the run keeps stores alike. -/
theorem Call.alike (htarget : c.target v ω = some A) (hsame : SameRun A v v')
    (hr : Referential v) (hr' : Referential v') (hadm : c.Admissible ω v)
    (hadm' : c.Admissible ω v') : ∃ K, Alike A v v' K (c.serve ω v) (c.serve ω v') := by
  have hnil : Alike A v v' ∅ v v' := ⟨hsame, ⟨hr, hr'⟩, ⟨fun l hl => absurd hl (Set.notMem_empty l),
    fun l hl => absurd hl (Set.notMem_empty l)⟩, fun _ _ => Iff.rfl, fun _ _ => Iff.rfl⟩
  have hrow : ∀ x, v.Has x → x.run? = some A → Alike A v v' {x.key} v v' := by
    intro x hx hrun
    refine { hnil with known := ⟨?_, ?_⟩ }
    · rintro l rfl
      exact ⟨x, hx, rfl, hrun⟩
    · rintro l rfl
      exact ⟨x, (hsame x (Or.inl hrun)).mp hx, rfl, hrun⟩
  have hattempt : ∀ id, (v.attempts.get? id).map (·.workflowRunID) = some A →
      Alike A v v' {.attempt id} v v' := by
    intro id hid
    obtain ⟨a, ha, hrun⟩ := Option.map_eq_some_iff.mp hid
    obtain rfl := Table.key_of_get? ha
    exact hrow (.attempt a) (Table.mem_of_get? ha) (congrArg some hrun)
  cases c with
  | registerDefinition => cases htarget
  | handleExpiredAttempt => cases htarget
  | reapExpiredAttempts => cases htarget
  | createRun name version input =>
    exact createRun_alike (Option.some.inj htarget) hnil (hadm _ rfl) (hadm' _ rfl)
  | reconcile runID =>
    obtain rfl := Option.some.inj htarget
    exact reconcile_about.alike hnil (hadm _ rfl) (hadm' _ rfl) false
  | handleTaskResult attemptID =>
    have hid : Lock.attempt attemptID ∈ ({.attempt attemptID} : Set Lock) := Set.mem_singleton _
    exact (handleTaskResult_about hid ..).forget.alike (hattempt attemptID htarget) (hadm _ rfl)
      (hadm' _ rfl) false
  | handleFiredTimer timerID =>
    obtain ⟨tm, htm, hrun⟩ := Option.map_eq_some_iff.mp htarget
    obtain rfl := Table.key_of_get? htm
    have hid : Lock.timer tm.id ∈ ({.timer tm.id} : Set Lock) := Set.mem_singleton _
    exact (handleFiredTimer_about hid).alike
      (hrow (.timer tm) (Table.mem_of_get? htm) (congrArg some hrun)) (hadm _ rfl) (hadm' _ rfl)
      false
  | applySignal runID name payload =>
    obtain rfl := Option.some.inj htarget
    exact (applySignal_about name payload).alike hnil (hadm _ rfl) (hadm' _ rfl) false
  | cancelRun runID =>
    obtain rfl := Option.some.inj htarget
    exact cancelRun_about.alike hnil (hadm _ rfl) (hadm' _ rfl) false
  | claimTask leaseDuration attemptID =>
    have hid : Lock.attempt attemptID ∈ ({.attempt attemptID} : Set Lock) := Set.mem_singleton _
    exact (claimTask_about hid ..).forget.alike (hattempt attemptID htarget) (hadm _ rfl)
      (hadm' _ rfl) true
  | heartbeat leaseDuration attemptID workerID =>
    have hid : Lock.attempt attemptID ∈ ({.attempt attemptID} : Set Lock) := Set.mem_singleton _
    have habout : About A {.attempt attemptID} (Query.heartbeatTaskAttempt attemptID workerID
        leaseDuration).issue.discard anything := about_call hid (fun _ _ _ => trivial)
    exact habout.alike (hattempt attemptID htarget) (hadm _ rfl) (hadm' _ rfl) true

/-- A call about a run writes rows of that run only, and keeps references in order. -/
theorem Call.others (htarget : c.target v ω = some A) (hr : Referential v)
    (hadm : c.Admissible ω v) : SameOthers A (c.serve ω v) v ∧ Referential (c.serve ω v) := by
  obtain ⟨K, h⟩ := Call.alike htarget (fun _ _ => Iff.rfl) hr hr hadm hadm
  exact ⟨h.others.1, h.refs.1⟩

theorem SameOthers.symm (h : SameOthers A v v') : SameOthers A v' v := fun x hx => (h x hx).symm

theorem SameOthers.sameRun (h : SameOthers A v v') (hne : A ≠ B) : SameRun B v v' := by
  rintro x (hx | hx)
  · exact h x (fun hA => hne (Option.some.inj (hA.symm.trans hx)))
  · exact h x (fun hA => by cases hA.symm.trans hx)

/-- The generated identifiers are new when one call is served after the other. -/
def Call.AdmissibleThen (c : Call) (ω : ℕ → Draw) (c' : Call) (ω' : ℕ → Draw) (v : Db) : Prop :=
  c.Admissible ω v ∧ c'.Admissible ω' (c.serve ω v)

/-- Runs are isolated. A call about one run leaves every row of another one unchanged.
Two calls about different runs leave the same store in either order, if they meet the
same generated identifiers and times. -/
theorem runs_are_isolated {v : Db} (h : Stored v) {A B : UUID} (hne : A ≠ B) {c c' : Call}
    {ω ω' : ℕ → Draw} (hA : c.target v ω = some A) (hB : c'.target v ω' = some B) :
    (c.Admissible ω v → ∀ x : Write, x.run? = some B → ((c.serve ω v).Has x ↔ v.Has x)) ∧
    (c.AdmissibleThen ω c' ω' v → c'.AdmissibleThen ω' c ω v →
      c'.serve ω' (c.serve ω v) = c.serve ω (c'.serve ω' v)) := by
  have hr := h.base.referential
  constructor
  · intro hc x hx
    exact (Call.others hA hr hc).1.sameRun hne x (Or.inl hx)
  · rintro ⟨hc, hafter'⟩ ⟨hc', hafter⟩
    obtain ⟨hothers, hrefs⟩ := Call.others hA hr hc
    obtain ⟨hothers', hrefs'⟩ := Call.others hB hr hc'
    obtain ⟨K, hlike⟩ := Call.alike hA (hothers'.symm.sameRun hne.symm) hr hrefs' hc hafter
    obtain ⟨K', hlike'⟩ := Call.alike hB (hothers.symm.sameRun hne) hr hrefs hc' hafter'
    -- The rows of a run are those that its own call leaves, in either order.
    refine Db.ext_has (fun x => ?_)
    by_cases hxB : x.run? = some B
    · have hxA : x.run? ≠ some A := fun hx => hne (Option.some.inj (hx.symm.trans hxB))
      rw [← hlike'.same x (Or.inl hxB), hlike.others.2 x hxA]
    · rw [hlike'.others.2 x hxB]
      by_cases hxA : x.run? = some A
      · exact hlike.same x (Or.inl hxA)
      · rw [hothers x hxA, hlike.others.2 x hxA, hothers' x hxB]

end

/-- One run is cancelled and another one is created, in either order. -/
theorem runs_are_isolated_join :
    let cancel := Call.cancelRun 201
    let create := Call.createRun "join" 0 none
    let ω : ℕ → Draw := fun i => .tick (500 + i)
    let ω' : ℕ → Draw := fun i => .tick (600 + i)
    cancel.serve ω' (create.serve ω joinWorld.db) = create.serve ω (cancel.serve ω' joinWorld.db) ∧
      (cancel.serve ω' (create.serve ω joinWorld.db)).runs.rows.map (fun r => (r.id, r.status)) =
        [(201, .cancelled), (501, .running)] := by
  intro cancel create ω ω'
  have hstored : Stored joinWorld.db :=
    Or.inr ⟨joinWorld, .run .init (Option.some_get _).symm, rfl⟩
  refine ⟨(runs_are_isolated hstored (A := 501) (B := 201) (by decide) (c := create) rfl rfl).2
    ⟨?_, ?_⟩ ⟨?_, ?_⟩, by decide +kernel⟩
  all_goals
    intro σ hσ
    obtain rfl := Option.some.inj hσ
    decide +kernel

end Orchestrator
