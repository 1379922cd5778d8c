import Orchestrator.Solo.Entry
import Orchestrator.Transactions.Worker

/-!
# Requests that run alone

The creation of a run, a signal and a cancellation, and the transactions whose
statements are all harmless.
-/

namespace Orchestrator

open Lib Program Actions

section Rules

variable {Err : Error → Prop} {v : Db} {α : Type}

/-- What a transaction does is what its statements do. -/
theorem makes_solo {C : Label → Prop} {p : Prog α} (h : p.Calls (Query.Makes C)) (hb : Base v) :
    Solo (fun _ => True) p (fun _ v' => ∃ u, engine.Steps C v u ∧ v' = backend.applyAll v u) v := by
  have hgeneral : ∀ (p : Prog α) (u : List Write), p.Calls (Query.Makes C) →
      engine.Steps C v u → Solo (fun _ => True) p
        (fun _ v' => ∃ u, engine.Steps C v u ∧ v' = backend.applyAll v u)
        (backend.applyAll v u) := by
    intro p
    induction p with
    | ret a => exact fun u _ hu => ⟨u, hu, rfl⟩
    | fail e => exact fun _ _ _ => trivial
    | call op next ih =>
      intro u hcalls hu d _
      have hop := hcalls.1 d (backend.applyAll v u) (Steps.inv hu hb)
      cases hres : backend.exec op d (backend.applyAll v u) with
      | error e => trivial
      | ok r =>
        rw [hres, onOk_ok] at hop
        simp only
        rw [← Backend.applyAll_append]
        exact ih r.1 (u ++ r.2) (hcalls.2 r.1) (hu.append hop)
  exact hgeneral p [] h .nil

/-- A transaction leaves alone what its statements leave alone. -/
theorem keeps_solo {γ : Type} {f : Db → γ} {p : Prog α}
    (h : p.Calls (fun op => ∀ d v, OnOk (backend.exec op d v)
      (fun r => f (backend.applyAll v r.2) = f v))) (v : Db) :
    Solo (fun _ => True) p (fun _ v' => f v' = f v) v := by
  induction p generalizing v with
  | ret a => rfl
  | fail e => trivial
  | call op next ih =>
    intro d _
    have hop := h.1 d v
    cases hres : backend.exec op d v with
    | error e => trivial
    | ok r =>
      rw [hres, onOk_ok] at hop
      exact (ih r.1 (h.2 r.1) (backend.applyAll v r.2)).mono (fun _ v' h' => h'.trans hop)

/-- `RegisterDefinition`. -/
theorem registerDefinition_solo (d : Definition) :
    Solo (fun _ => True) (registerDefinition d)
      (fun _ v' => ∃ u, engine.Steps (·.kind = .define) v u ∧ v' = backend.applyAll v u) v := by
  unfold registerDefinition
  cases hvalid : d.validate with
  | error e => trivial
  | ok d' =>
    dsimp only
    cases hjson : d'.toJSON with
    | none => trivial
    | some dag =>
      have hwf := Definition.validate_wellFormed hvalid hjson
      intro draw hadm
      simp only [backend_exec, Query.exec]
      split_ifs with hany
      · trivial
      · have hnew : v.definitions.get? draw.uuid = none := by
          simpa [Query.admits] using hadm
        exact ⟨_, Steps.one (by rfl) (.define hwf hnew (noDefinition_of_any hany)), rfl⟩

end Rules

section Create

variable {Err : Error → Prop} {v : Db}

/-- The definition that `CreateRun` takes: the one of the version asked for, or the one
of the largest version. -/
structure Chosen (v : Db) (name : String) (version : ℤ) (d : WorkflowDefinition) : Prop where
  mem : d ∈ v.definitions
  named : d.name = name
  versioned : 0 < version → d.version = version
  latest : ¬ 0 < version → ∀ d' ∈ v.definitions, d'.name = name → d'.version ≤ d.version

/-- The lookup of `CreateRun` finds the definition if there is one. -/
theorem lookupDefinition_solo (name : String) (version : ℤ)
    (hnone : (¬ ∃ d, Chosen v name version d) → Err .notFound) :
    Solo Err (lookupDefinition name version) (fun d v' => v' = v ∧ Chosen v name version d) v := by
  have hfound : ∀ answer : Option WorkflowDefinition,
      (answer = none → ¬ ∃ d, Chosen v name version d) →
      (∀ d, answer = some d → Chosen v name version d) →
      Solo Err (orNotFound answer) (fun d v' => v' = v ∧ Chosen v name version d) v := by
    intro answer h h'
    cases answer with
    | none => exact hnone (h rfl)
    | some d => exact ⟨rfl, h' d rfl⟩
  unfold lookupDefinition
  split_ifs with hv
  · refine Wp.bind (solo_read (fun _ v => v.definitions.rows.find?
      (fun r => r.name = name ∧ r.version = version)) (fun _ _ => rfl) (fun _ => hfound _ ?_ ?_))
    · rintro hfind ⟨d, hd⟩
      exact List.find?_eq_none.mp hfind d hd.mem (decide_eq_true ⟨hd.named, hd.versioned hv⟩)
    · intro d hd
      have hrow := List.find?_some hd
      rw [decide_eq_true_eq] at hrow
      exact ⟨List.mem_of_find?_eq_some hd, hrow.1, fun _ => hrow.2, fun h => absurd hv h⟩
  · refine Wp.bind (solo_read (fun d v => latestDefinition (d.shuffle (v.definitions.rows.filter
      (fun r => r.name = name)))) (fun _ _ => rfl) (fun draw => hfound _ ?_ ?_))
    · rintro hlatest ⟨d, hd⟩
      have hempty := (latestDefinition_spec _).1 hlatest
      have hmem : d ∈ draw.shuffle (v.definitions.rows.filter (fun r => r.name = name)) :=
        (draw.shuffle_perm _).mem_iff.mpr (List.mem_filter.mpr ⟨hd.mem, by simpa using hd.named⟩)
      rw [hempty] at hmem
      cases hmem
    · intro d hd
      obtain ⟨hmem, hmax⟩ := (latestDefinition_spec _).2 d hd
      obtain ⟨hrow, hname⟩ := List.mem_filter.mp ((draw.shuffle_perm _).mem_iff.mp hmem)
      refine ⟨hrow, of_decide_eq_true hname, fun h => absurd h hv, fun _ d' hd' hname' => ?_⟩
      exact hmax d' ((draw.shuffle_perm _).mem_iff.mpr
        (List.mem_filter.mpr ⟨hd', by simpa using hname'⟩))

/-- The insertion of the run's row. -/
theorem createWorkflowRun_solo {definition : WorkflowDefinition} (hdef : definition ∈ v.definitions)
    {id : UUID} (hid : v.runs.get? id = none) {name : String} {input : RawMessage}
    (hinvalid : ¬ input.IsValid → Err .invalidJSON) :
    Solo Err (Query.createWorkflowRun id definition.id name definition.version (shardFor id)
        input).issue
      (fun run v' => ∃ now,
        run = newRun id definition.id name definition.version (shardFor id) input now ∧
        v' = backend.applyAll v [.run run] ∧ Creating definition run [] [] v [.run run]) v := by
  intro d _
  have hsome : ¬ (v.definitions.get? definition.id).isNone = true := by
    rw [Table.mem_iff_get?.mp hdef]
    exact Bool.false_ne_true
  have hnone : ¬ (v.runs.get? id).isSome = true := by
    rw [hid]
    exact Bool.false_ne_true
  simp only [backend_exec, Query.exec, if_neg hsome, if_neg hnone]
  split_ifs with hvalid
  · exact ⟨d.now, rfl, rfl, rfl, hdef, ⟨_, _, _, rfl⟩, hid, .nil,
      fun t ht => absurd ht List.not_mem_nil, List.nodup_nil⟩
  · exact hinvalid hvalid

/-- `CreateSteps` for a run that has just been inserted. -/
theorem createSteps_solo (hb : Base v) {definition : WorkflowDefinition} {run : WorkflowRun}
    {steps : List NewStep} (hnames : (steps.map (·.stepName)).Nodup)
    (hinputs : ∀ ns ∈ steps, ∀ m, ns.input = some m → m.IsValid) {ws : List Write}
    (h : Creating definition run [] [] v ws) :
    Solo Err (createSteps run.id steps)
      (fun rows v' => ∃ ws', v' = backend.applyAll v ws' ∧ Creating definition run steps rows v ws')
      (backend.applyAll v ws) := by
  refine (Wp.foldlM (I := fun rest rows v' => ∃ done ws', done ++ rest = steps ∧
    v' = backend.applyAll v ws' ∧ Creating definition run done rows v ws') ?_
    ⟨[], ws, rfl, rfl, h⟩).mono ?_
  · rintro rows ns rest - - ⟨done, ws', hdone, rfl, hcr⟩
    refine Wp.bind (Wp.request (fun d hadm => ?_))
    have hns : ns ∈ steps := hdone ▸ List.mem_append_right _ List.mem_cons_self
    -- The rows of the run are those inserted, and none has the name.
    have hany : ¬ (backend.applyAll v ws').steps.rows.any
        (fun s => s.workflowRunID == run.id && s.stepName == ns.stepName) = true := by
      rw [List.any_eq_true]
      rintro ⟨s, hs, hsame⟩
      simp only [Bool.and_eq_true, beq_iff_eq] at hsame
      rw [hcr.view] at hs
      have hmem : s ∈ rows := (hcr.perm hb).mem_iff.mpr
        (List.mem_filter.mpr ⟨hs, decide_eq_true hsame.1⟩)
      obtain ⟨ns', hns', stepID, now, rfl⟩ := forall₂_right hcr.steps s hmem
      rw [← hdone, List.map_append, List.nodup_append] at hnames
      exact hnames.2.2 _ (List.mem_map_of_mem hns') _ (List.mem_map_of_mem List.mem_cons_self)
        hsame.2
    have hrun : ¬ ((backend.applyAll v ws').runs.get? run.id).isNone = true := by
      rw [hcr.view]
      simp [Db.withRun]
    have hexec : (Query.createStep run.id ns).exec d (backend.applyAll v ws') =
        .ok (newStepRow d.uuid run.id ns d.now, [.step (newStepRow d.uuid run.id ns d.now)]) := by
      simp only [Query.exec, if_neg hany, if_neg hrun, jsonb_of_valid (hinputs ns hns)]
      rfl
    refine ⟨_, _, hexec, done ++ [ns], _, by simpa using hdone,
      (Backend.applyAll_append ..).symm, ?_⟩
    exact hcr.snoc (Option.isNone_iff_eq_none.mp hadm) ns d.now
  · rintro rows - ⟨done, ws', hdone, rfl, hcr⟩
    rw [List.append_nil] at hdone
    exact ⟨ws', rfl, hdone ▸ hcr⟩

/-- A run of the definition is created by the writes. -/
structure Creates (d : WorkflowDefinition) (name : String) (input : RawMessage) (runID : UUID)
    (v : Db) (u : List Write) : Prop where
  act : Act ⟨runID, .create⟩ v u
  run : ∃ now, (backend.applyAll v u).runs.get? runID =
    some { newRun runID d.id name d.version (shardFor runID) input now with historySeq := 1 }
  steps : ∃ rows, List.Forall₂ (fun ns t => ∃ stepID now, t = newStepRow stepID runID ns now)
    d.dag.toNewSteps rows ∧ rows.Perm ((backend.applyAll v u).stepsOf runID)

/-- `CreateRun` up to its call of `reconcileTx`. It fails only without a definition or on an
input that is no document. -/
theorem createRunArgs_solo {R : UUID → Db → Db → Prop} (hb : Base v) (name : String) (version : ℤ)
    (input : Option RawMessage)
    (hnone : (¬ ∃ d, Chosen v name version d) → Err .notFound)
    (hinvalid : ¬ (input.getD .emptyObject).IsValid → Err .invalidJSON) :
    Solo Err (createRunArgs name version input) (fun a => Called R (fun v' =>
      ∃ d u, Chosen v name version d ∧ Creates d name (input.getD .emptyObject) a.1.id v u ∧
        R a.1.id (backend.applyAll v u) v') a) v := by
  refine Wp.bind ((lookupDefinition_solo name version hnone).mono ?_)
  intro definition v₁ h
  obtain ⟨hv₁, hchosen⟩ := h
  rw [hv₁]
  refine Wp.bind (fun d hadm => ?_)
  have hnew : v.runs.get? d.uuid = none := Option.isNone_iff_eq_none.mp hadm
  refine Wp.bind ((createWorkflowRun_solo hchosen.mem hnew hinvalid).mono ?_)
  rintro run - ⟨now, hrun, rfl, hcreating⟩
  have hwf := hb.graph.definitions definition hchosen.mem
  have hnames : (definition.dag.toNewSteps.map (·.stepName)).Nodup := by
    rw [Definition.toNewSteps, List.map_map]
    exact hwf.nodup
  have hinputs : ∀ ns ∈ definition.dag.toNewSteps, ∀ m, ns.input = some m → m.IsValid := by
    intro ns hns m hm
    obtain ⟨spec, hspec, rfl⟩ := List.mem_map.mp hns
    obtain ⟨m', hm', hvalid⟩ := hwf.inputs spec hspec
    exact Option.some.inj (hm'.symm.trans hm) ▸ hvalid
  refine Wp.bind ((createSteps_solo hb hnames hinputs hcreating).mono ?_)
  rintro rows - ⟨ws', rfl, hcreated⟩
  have hrow : (backend.applyAll v ws').runs.get? run.id = some run := by
    rw [hcreated.view]
    exact Table.get?_put_self v.runs run
  generalize some (Json.obj _) = payload
  refine Wp.bind (solo_appendHistory (r := run) hrow (fun now' => ?_))
  have hact : Act ⟨run.id, .create⟩ v (ws' ++ historyWrites run .runCreated payload now') := by
    obtain ⟨name', input', now', hrun⟩ := hcreated.row
    rw [hcreated.writes, List.cons_append, hrun]
    exact .create hcreated.known hcreated.newRun hcreated.steps hcreated.newSteps hcreated.nodup
  have hsteps : rows.Perm ((backend.applyAll v (ws' ++ historyWrites run .runCreated payload
      now')).stepsOf run.id) := by
    rw [Backend.applyAll_append, hcreated.view]
    exact hcreated.perm hb
  have hget : (backend.applyAll v (ws' ++ historyWrites run .runCreated payload now')).runs.get?
      run.id = some { run with historySeq := run.historySeq + 1 } := by
    rw [Backend.applyAll_append]
    exact get?_event ..
  rw [← Backend.applyAll_append]
  have hlive : runTerminal run.status = false := hrun ▸ rfl
  refine Called.of_rows hget rfl rfl hsteps (fun _ => hact.base hb) (fun hterm => ?_)
    (fun _ v' heval =>
      ⟨definition, _, hchosen, ⟨hact, ⟨now, ?_⟩, rows, hcreated.steps, hsteps⟩, heval⟩)
  · rw [hlive] at hterm
    cases hterm
  · have hid : run.id = d.uuid := hrun ▸ rfl
    rw [hget, hid, hrun]
    rfl

/-- `CreateRun`, where only some draws are considered. -/
theorem createRun_wp {E : Error → Prop} {P : Draw → Prop} {R : UUID → Db → Db → Prop}
    (hR : Describes P R) (hb : Base v) (name : String) (version : ℤ) (input : Option RawMessage)
    (hnone : (¬ ∃ d, Chosen v name version d) → E .notFound)
    (hinvalid : ¬ (input.getD .emptyObject).IsValid → E .invalidJSON) :
    (createRun name version input).Wp (backend.restrict P) E (fun runID v' =>
      ∃ d u, Chosen v name version d ∧ Creates d name (input.getD .emptyObject) runID v u ∧
        R runID (backend.applyAll v u) v') v := by
  rw [createRun_eq]
  exact Wp.bind ((createRunArgs_solo hb name version input hnone hinvalid).restrict.mono
    (fun _ _ h => Wp.bind (h.wp hR)))

/-- `CreateRun`. -/
theorem createRun_solo (hb : Base v) (name : String) (version : ℤ) (input : Option RawMessage)
    (hnone : (¬ ∃ d, Chosen v name version d) → Err .notFound)
    (hinvalid : ¬ (input.getD .emptyObject).IsValid → Err .invalidJSON) :
    Solo Err (createRun name version input) (fun runID v' =>
      ∃ d u, Chosen v name version d ∧ Creates d name (input.getD .emptyObject) runID v u ∧
        Evaluated runID (backend.applyAll v u) v') v :=
  (createRun_wp describes_evaluated hb name version input hnone hinvalid).of_restrict

end Create

section Signal

/-- `ApplySignal`, when the signal has been inserted, up to its call of `reconcileTx`. -/
theorem signalledArgs_solo {Err : Error → Prop} {R : UUID → Db → Db → Prop} {v : Db}
    {runID : UUID} {sig : Signal} (hb : Base (v.apply (.signal sig))) {r : WorkflowRun}
    (hr : v.runs.get? runID = some r) (name : String) :
    Solo Err (signalledArgs runID name) (Called R (fun v' => ∃ payload now,
        (runTerminal r.status = true ∧ v' = backend.applyAll v
          (.signal sig :: historyWrites r .signalReceived payload now)) ∨
        (runTerminal r.status = false ∧ R runID (backend.applyAll v
          (.signal sig :: historyWrites r .signalReceived payload now)) v')))
      (v.apply (.signal sig)) := by
  obtain rfl : r.id = runID := Table.key_of_get? hr
  refine Wp.bind (solo_lookup (fun _ v => v.runs.get? r.id) (fun _ _ => rfl)
    (fun _ => by exact hr) ?_)
  refine Wp.bind (solo_appendHistory (r := r) (by exact hr) (fun now => ?_))
  generalize some (Json.obj _) = payload
  have hlog : Act ⟨r.id, .log⟩ (v.apply (.signal sig))
      (historyWrites r .signalReceived payload now) := .log (by exact hr)
  exact Wp.bind (getSteps_called (get?_event (v.apply (.signal sig)) r .signalReceived payload now)
    rfl rfl (fun _ => hlog.base hb) (fun hend => ⟨payload, now, Or.inl ⟨hend, rfl⟩⟩)
    (fun hlive v' heval => ⟨payload, now, Or.inr ⟨hlive, heval⟩⟩))

/-- The signal has been inserted at a time, and the run was evaluated unless it had
ended. -/
def Signalled (R : UUID → Db → Db → Prop) (runID : UUID) (name : String) (at' : Time) (v v' : Db) :
    Prop :=
  ∃ (sig : Signal) (r : WorkflowRun) (payload : Option Json) (now : Time),
    v.signals.get? sig.id = none ∧ sig.payload.IsValid ∧ sig.processed = false ∧
    sig.workflowRunID = runID ∧ sig.signalName = name ∧ sig.receivedAt = at' ∧
    v.runs.get? runID = some r ∧
    ((runTerminal r.status = true ∧ v' = backend.applyAll v
        (.signal sig :: historyWrites r .signalReceived payload now)) ∨
      (runTerminal r.status = false ∧ R runID (backend.applyAll v
        (.signal sig :: historyWrites r .signalReceived payload now)) v'))

/-- The insertion of a signal. -/
theorem exec_insertSignal {v : Db} {runID : UUID} {name : String} {payload : Option RawMessage}
    {d : Draw} (hadm : backend.admits (.insertSignal runID name payload) d v) :
    (backend.exec (.insertSignal runID name payload) d v = .error .foreignKey ∧
        v.runs.get? runID = none ∨
      backend.exec (.insertSignal runID name payload) d v = .error .invalidJSON ∧
        ¬ ∀ o, payload = some o → o.IsValid) ∨
    ∃ (r : WorkflowRun) (doc : RawMessage), v.runs.get? runID = some r ∧
      ((∀ o, payload = some o → o.IsValid) ∧ doc.IsValid) ∧ v.signals.get? d.uuid = none ∧
      backend.exec (.insertSignal runID name payload) d v =
        .ok (⟨d.uuid, runID, name, doc, false, d.now⟩,
          [.signal ⟨d.uuid, runID, name, doc, false, d.now⟩]) := by
  simp only [backend_exec, Query.exec]
  cases hr : v.runs.get? runID with
  | none => exact Or.inl (Or.inl ⟨rfl, rfl⟩)
  | some r =>
    cases hjson : jsonb payload with
    | error e =>
      obtain rfl := jsonb_eq_error hjson
      refine Or.inl (Or.inr ⟨rfl, fun hvalid => ?_⟩)
      rw [jsonb_of_valid hvalid] at hjson
      cases hjson
    | ok payload' =>
      obtain ⟨rfl, hvalid⟩ := jsonb_eq_ok hjson
      have hdoc : (payload'.getD .emptyObject).IsValid := by
        cases payload' with
        | none => trivial
        | some o => exact hvalid o rfl
      have hnew : v.signals.get? d.uuid = none := by simpa [Query.admits] using hadm
      exact Or.inr ⟨r, payload'.getD .emptyObject, rfl, ⟨hvalid, hdoc⟩, hnew, rfl⟩

/-- `ApplySignal` up to its call of `reconcileTx`. -/
theorem applySignalArgs_solo {Err : Error → Prop} {v : Db} (hb : Base v) (runID : UUID)
    (name : String) (payload : Option RawMessage) (hnone : Err .foreignKey)
    (hinvalid : Err .invalidJSON) :
    Solo Err (applySignalArgs runID name payload) (Called Evaluated (fun _ => True)) v := by
  refine Wp.bind (fun d hadm => ?_)
  rcases exec_insertSignal hadm with (⟨herr, -⟩ | ⟨herr, -⟩) | ⟨r, doc, hr, ⟨-, hdoc⟩, hnew, hexec⟩
  · rw [herr]
    exact hnone
  · rw [herr]
    exact hinvalid
  · rw [hexec]
    have hsignal : Base (v.apply (.signal ⟨d.uuid, runID, name, doc, false, d.now⟩)) :=
      Act.base (.signal hnew hdoc hr) hb
    exact (signalledArgs_solo hsignal hr name).mono (fun _ _ h => h.mono (fun _ _ => trivial))

/-- `ApplySignal` for a signal that is not a request to cancel, where only some draws are
considered. It is received when its first statement is executed. -/
theorem applySignal_wp {E : Error → Prop} {P : Draw → Prop} {R : UUID → Db → Db → Prop}
    (hR : Describes P R) {v : Db} (hb : Base v) {runID : UUID} {name : String}
    (hname : name ≠ "__cancel__") {payload : Option RawMessage} {ω : ℕ → Draw}
    (hω : (applySignal runID name payload).Admissible backend ω v []) (hP : ∀ i, P (ω i))
    (hnone : v.runs.get? runID = none → E .foreignKey)
    (hinvalid : (¬ ∀ o, payload = some o → o.IsValid) → E .invalidJSON) :
    Leads backend E (fun _ v' => (∀ o, payload = some o → o.IsValid) ∧
        Signalled R runID name (ω 0).now v v') v []
      ((applySignal runID name payload).run backend ω v []) := by
  rw [applySignal_eq runID hname, applySignalArgs, Program.bind_assoc] at hω ⊢
  obtain ⟨hadm, hrest⟩ := hω
  rcases exec_insertSignal (v := v) hadm with
    (⟨herr, hwhy⟩ | ⟨herr, hwhy⟩) | ⟨r, doc, hr, ⟨hvalid, hdoc⟩, hnew, hok⟩
  · exact Leads.call (fun e hexec => Except.error.inj (herr.symm.trans hexec) ▸ hnone hwhy)
      (fun _ _ hexec => by cases herr.symm.trans hexec)
  · exact Leads.call (fun e hexec => Except.error.inj (herr.symm.trans hexec) ▸ hinvalid hwhy)
      (fun _ _ hexec => by cases herr.symm.trans hexec)
  · refine Leads.call (fun _ hexec => by cases hok.symm.trans hexec) (fun sig ws hexec => ?_)
    rw [hexec, onOk_ok] at hrest
    obtain ⟨rfl, rfl⟩ := Prod.mk.inj (Except.ok.inj (hexec.symm.trans hok))
    have hsignal : Base (v.apply (.signal ⟨(ω 0).uuid, runID, name, doc, false, (ω 0).now⟩)) :=
      Act.base (.signal hnew hdoc hr) hb
    have hrun : (signalledArgs runID name >>= fun a => reconcileTx a.1 a.2).Wp
        (backend.restrict P) E (fun _ v' => (∀ o, payload = some o → o.IsValid) ∧
          Signalled R runID name (ω 0).now v v')
        (v.apply (.signal ⟨(ω 0).uuid, runID, name, doc, false, (ω 0).now⟩)) := by
      refine Wp.bind ((signalledArgs_solo (R := R) hsignal hr name).restrict.mono
        (fun a w hcalled => (hcalled.wp hR).mono ?_))
      rintro - v' ⟨payload, now, hdone⟩
      exact ⟨hvalid, _, r, _, now, hnew, hdoc, rfl, rfl, rfl, rfl, hr, hdone⟩
    exact Wp.leads_of_restrict hrun hrest (fun i => hP (i + 1))

/-- `ApplySignal` for a signal that is not a request to cancel. -/
theorem applySignal_leads {v : Db} (hb : Base v) {runID : UUID} {name : String}
    (hname : name ≠ "__cancel__") {payload : Option RawMessage} {ω : ℕ → Draw}
    (hω : (applySignal runID name payload).Admissible backend ω v []) :
    Leads backend (fun _ => True) (fun _ => Signalled Evaluated runID name (ω 0).now v) v []
      ((applySignal runID name payload).run backend ω v []) :=
  (applySignal_wp describes_evaluated hb hname hω (fun _ => trivial) (fun _ => trivial)
    (fun _ => trivial)).mono (fun _ _ h => h.2)

end Signal

section Cancel

variable {v : Db} {runID : UUID}

/-- The store has one more event, that the run was cancelled. -/
def RecordsCancel (runID : UUID) (v v' : Db) : Prop :=
  ∃ e : HistoryEvent, e.workflowRunID = runID ∧ e.eventType = .runCancelled ∧
    v.history.get? e.key = none ∧ v'.history = v.history.put e

/-- The updates of a cancellation leave the runs and their events alone. -/
theorem cancelSteps_solo (steps : List Step) (v : Db) :
    Solo (fun _ => True) (steps.foldlM (fun _ s => cancelStep s) ())
      (fun _ v' => (v'.runs, v'.history) = (v.runs, v.history)) v := by
  refine keeps_solo (f := fun v => (v.runs, v.history)) (Calls.foldlM (fun _ s _ => ?_) ()) v
  unfold cancelStep
  split_ifs
  · trivial
  · refine ⟨fun d v => ?_, fun _ => trivial⟩
    simp only [backend_exec, Query.exec, jsonb, Bind.bind, Except.bind]
    cases v.steps.get? s.id with
    | none => rfl
    | some t =>
      simp only
      split_ifs <;> rfl

theorem cancelTimersForRun_keeps (runID : UUID) (v : Db) :
    Solo (fun _ => True) (cancelTimersForRun runID)
      (fun _ v' => (v'.runs, v'.history) = (v.runs, v.history)) v := by
  refine keeps_solo (f := fun v => (v.runs, v.history)) (Calls.bind
    (p := (Query.pendingTimersForRun runID).issue) ⟨fun _ _ => rfl, fun _ => trivial⟩
    (fun ids => Calls.foldlM (fun _ id _ => ?_) ())) v
  refine ⟨fun d v => ?_, fun _ => trivial⟩
  simp only [backend_exec, Query.exec]
  cases v.timers.get? id with
  | none => rfl
  | some tm =>
    simp only
    split_ifs <;> rfl

/-- `CancelRun` leaves no timer of the run armed, and records one event. -/
theorem cancelRun_settles (hb : Base v) {r : WorkflowRun} (hr : v.runs.get? runID = some r)
    (hlive : runTerminal r.status = false) :
    Solo (fun _ => True) (cancelRun runID)
      (fun _ v' => (∀ tm ∈ v'.timers, tm.workflowRunID = runID → tm.status ≠ .pending) ∧
        RecordsCancel runID v v') v := by
  refine Wp.bind (solo_lookup (fun _ v => v.runs.get? runID) (fun _ _ => rfl) (fun _ => hr) ?_)
  simp only [hlive]
  refine Wp.bind (solo_read (fun d v => (d.shuffle (v.stepsOf runID)).insertionSort
    (fun a b => a.createdAt ≤ b.createdAt)) (fun _ _ => rfl) (fun d => ?_))
  refine Wp.bind ((cancelSteps_solo _ v).mono (fun _ v₁ hkept₁ => ?_))
  refine Wp.bind (((cancelTimersForRun_solo runID v₁).and
    (cancelTimersForRun_keeps runID v₁)).mono ?_)
  rintro - v₂ ⟨⟨-, hnone⟩, hkept₂⟩
  obtain ⟨hruns, hhistory⟩ := Prod.mk.inj (hkept₂.trans hkept₁)
  have hmem : r.status ∈ [RunStatus.pending, .running] := by
    cases hst : r.status <;> simp_all [runTerminal]
  have hget : v₂.runs.get? runID = some r := by rw [hruns, hr]
  obtain rfl : r.id = runID := Table.key_of_get? hr
  refine Wp.bind (Wp.request (fun d _ => ⟨true, [.run (r.transition .cancelled none none d.now)],
    by simp [Query.exec, jsonb, hget, hmem, Bind.bind, Except.bind], ?_⟩))
  refine solo_appendHistory (r := r.transition .cancelled none none d.now)
    (Table.get?_put_self v₂.runs _) (fun now => ⟨hnone, ⟨r.id, r.historySeq + 1, .runCancelled,
      .obj [], now⟩, rfl, rfl, ?_, ?_⟩)
  · -- Events of the run are numbered up to its counter.
    refine Table.get?_eq_none.mpr (fun e he hkey => ?_)
    obtain ⟨q, hq, hid, hseq, -⟩ := hb.chronicle e he
    obtain ⟨hrun, hnum⟩ := Prod.mk.inj (toLex.injective hkey)
    obtain rfl := Table.eq_of_key_eq hq (Table.mem_of_get? hr) (hid.trans hrun)
    have hnum : e.seq = q.historySeq + 1 := hnum
    omega
  · rw [← hhistory]
    rfl

/-- `CancelRun`. A run that has ended is left as it is. -/
theorem cancelRun_solo (hb : Base v) (runID : UUID) :
    Solo (fun _ => True) (cancelRun runID) (fun _ v' =>
      (HasEnded runID v ∧ v' = v) ∨ ∃ r u, v.runs.get? runID = some r ∧
        runTerminal r.status = false ∧ engine.Steps (Cancelling runID) v u ∧
        v' = backend.applyAll v u ∧ Cancelled runID v' ∧
        (∀ tm ∈ v'.timers, tm.workflowRunID = runID → tm.status ≠ .pending) ∧
        RecordsCancel runID v v') v := by
  cases hr : v.runs.get? runID with
  | none =>
    refine Wp.bind (Wp.bind (solo_read (fun _ v => v.runs.get? runID) (fun _ _ => rfl)
      (fun d => ?_)))
    rw [hr]
    trivial
  | some r =>
    cases hend : runTerminal r.status with
    | true =>
      refine Wp.bind (solo_lookup (fun _ v => v.runs.get? runID) (fun _ _ => rfl)
        (fun _ => hr) ?_)
      simp only [hend, if_true]
      exact Or.inl ⟨⟨r, hr, hend⟩, rfl⟩
    | false =>
      have hspec : Solo (fun _ => True) (cancelRun runID) _ v :=
        Safe.wp (Safe.of_under (cancelRun_spec (A := fun _ => False) (φ := fun _ _ => True)
          (σ := True) (fun _ => Or.inl (fun _ h => h))) (fun _ _ => trivial)) hb
          ⟨[], [], rfl, .nil, List.nil_subset _, rfl⟩
      refine ((cancelRun_settles hb hr hend).and hspec).mono ?_
      rintro - v' ⟨⟨hdis, hrec⟩, u, rfl, hended, hu⟩
      have hne : u ≠ [] := by
        rintro rfl
        obtain ⟨q, hq, hterm⟩ := hended
        obtain rfl := Option.some.inj (hr.symm.trans hq)
        rw [hend] at hterm
        cases hterm
      obtain ⟨hsteps, hcancelled⟩ := hu.resolve_left hne
      exact Or.inr ⟨r, u, rfl, hend, hsteps, rfl, hcancelled trivial, hdis, hrec⟩

end Cancel

end Orchestrator
