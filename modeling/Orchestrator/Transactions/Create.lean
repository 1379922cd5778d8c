import Mathlib.Data.List.Induction
import Orchestrator.Transactions.Requests

/-!
# The creation of a run

`CreateRun` inserts the run and its steps and records the event. The rows are
invisible to others until the transaction commits, and the run's row is locked, so
the copies that it goes on to reconcile are the rows themselves.
-/

namespace Orchestrator

open Lib Actions

/-- A run of a definition has been inserted, with rows for some of its steps. -/
structure Creating (definition : WorkflowDefinition) (run : WorkflowRun) (done : List NewStep)
    (rows : List Step) (v : Db) (ws : List Write) : Prop where
  writes : ws = .run run :: rows.map .step
  known : definition ∈ v.definitions
  row : ∃ name input now,
    run = newRun run.id definition.id name definition.version (shardFor run.id) input now
  newRun : v.runs.get? run.id = none
  steps : List.Forall₂ (fun ns t => ∃ stepID now, t = newStepRow stepID run.id ns now) done rows
  newSteps : ∀ t ∈ rows, v.steps.get? t.id = none
  nodup : (rows.map (·.id)).Nodup

section

variable {A : Label → Prop} {Err : Error → Prop} {H : List Lock} {Q : Db → Prop} {q : Prop}
  {definition : WorkflowDefinition} {run : WorkflowRun} {done : List NewStep} {rows : List Step}

theorem known_robust : engine.Robust A H (fun v _ => definition ∈ v.definitions) := by
  refine robust_of_evolves (fun v v' ws _ hev _ h => ?_)
  obtain ⟨d, hd, rfl⟩ := hev.definitions definition h
  exact hd

theorem Creating.robust : engine.Robust A H (Creating definition run done rows) := by
  intro v ws l u hb hl hact hdisj hH h
  have hsame : ∀ k ∈ backend.locksOf ws, k.Same v (backend.applyAll v u) :=
    fun k hk => same_applyAll v (fun hk' => hdisj hk' hk)
  rw [h.writes] at hsame
  refine ⟨h.writes, known_robust v ws l u hb hl hact hdisj hH h.known, h.row, ?_, h.steps,
    fun t ht => ?_, h.nodup⟩
  · exact Eq.trans (hsame (.run run.id) (by simp)) h.newRun
  · refine Eq.trans (hsame (.step t.id) ?_) (h.newSteps t ht)
    exact List.mem_append_right _ (mem_locksOf_steps ht)

/-- The rows that the transaction sees. -/
theorem Creating.view {v : Db} {ws : List Write} (h : Creating definition run done rows v ws) :
    backend.applyAll v ws = v.withRun run rows := by
  have hcreate := applyAll_create v run rows []
  rw [List.append_nil] at hcreate
  rw [h.writes]
  exact hcreate

/-- The rows inserted are the steps of the run. -/
theorem Creating.perm {v : Db} {ws : List Write} (h : Creating definition run done rows v ws)
    (hb : Base v) : rows.Perm ((v.withRun run rows).stepsOf run.id) := by
  refine (List.perm_ext_iff_of_nodup h.nodup.of_map ((Table.nodup_rows _).filter _)).mpr
    (fun t => ?_)
  rw [List.mem_filter, decide_eq_true_eq]
  change _ ↔ t ∈ rows.foldl Table.put v.steps ∧ _
  rw [Table.mem_foldl_put h.newSteps h.nodup]
  constructor
  · intro ht
    obtain ⟨ns, -, stepID, now, rfl⟩ := forall₂_right h.steps t ht
    exact ⟨Or.inl ht, rfl⟩
  · rintro ⟨ht | ht, hrun⟩
    · exact ht
    · obtain ⟨r, hr, hid⟩ := hb.graph.run t ht
      exact absurd (hid.trans hrun) (Table.get?_eq_none.mp h.newRun r hr)

/-- One more step. -/
theorem Creating.snoc {v : Db} {ws : List Write} (h : Creating definition run done rows v ws)
    {id : UUID} (hid : (backend.applyAll v ws).steps.get? id = none) (ns : NewStep) (now : Time) :
    Creating definition run (done ++ [ns]) (rows ++ [newStepRow id run.id ns now]) v
      (ws ++ [.step (newStepRow id run.id ns now)]) := by
  rw [h.view] at hid
  have hnone : (rows.foldl Table.put v.steps).get? id = none := hid
  rw [Table.get?_eq_none] at hnone
  have hrows : ∀ t ∈ rows, t.id ≠ id := fun t ht =>
    hnone t ((Table.mem_foldl_put h.newSteps h.nodup).mpr (Or.inl ht))
  have hsteps : v.steps.get? id = none := Table.get?_eq_none.mpr (fun t ht =>
    hnone t ((Table.mem_foldl_put h.newSteps h.nodup).mpr (Or.inr ht)))
  refine ⟨by simp [h.writes], h.known, h.row, h.newRun,
    List.rel_append h.steps (.cons ⟨id, now, rfl⟩ .nil), fun t ht => ?_, ?_⟩
  · rcases List.mem_append.mp ht with ht | ht
    · exact h.newSteps t ht
    · rw [List.mem_singleton.mp ht]
      exact hsteps
  · rw [List.map_append, List.nodup_append]
    refine ⟨h.nodup, List.nodup_singleton _, fun x hx y hy => ?_⟩
    obtain ⟨t, ht, rfl⟩ := List.mem_map.mp hx
    rw [List.mem_singleton.mp hy]
    exact hrows t ht

theorem createStep_spec (herr : ∀ e, Err e) (ns : NewStep) :
    engine.Triple A (fun _ => False) Err [] (Creating definition run done rows)
      (Query.createStep run.id ns).issue []
      (fun row => Creating definition run (done ++ [ns]) (rows ++ [row])) := by
  refine statement_rule (fun _ => Creating.robust) (fun v ws d hb h hadm => ?_)
  simp only [backend_exec, Query.exec]
  split_ifs
  · exact Or.inl ⟨_, rfl, herr _⟩
  · exact Or.inl ⟨_, rfl, herr _⟩
  · cases hjson : jsonb ns.input with
    | error e => exact Or.inl ⟨e, rfl, herr _⟩
    | ok o =>
      exact Or.inr ⟨_, _, rfl, .begin (h.snoc (Option.isNone_iff_eq_none.mp hadm) ns d.now)⟩

/-- `CreateSteps`. -/
theorem createSteps_spec (herr : ∀ e, Err e) (steps : List NewStep) :
    engine.Triple A (fun _ => False) Err [] (Creating definition run [] [])
      (createSteps run.id steps) [] (fun rows => Creating definition run steps rows) := by
  refine Triple.pre (Triple.post (Triple.foldlM_suffix (I := fun rest rows v ws =>
    ∃ done, done ++ rest = steps ∧ Creating definition run done rows v ws) ?_ []) ?_) ?_
  · intro rows ns rest _
    refine Triple.exists (fun done => Triple.assume (fun hdone => ?_))
    refine Triple.bind (createStep_spec herr ns) (fun row => Triple.ret (List.Subset.refl _)
      (fun v ws _ h => ⟨done ++ [ns], by simpa using hdone, h⟩))
  · rintro rows v ws - ⟨done, hdone, h⟩
    rw [List.append_nil] at hdone
    exact hdone ▸ h
  · exact fun v ws _ h => ⟨[], rfl, h⟩

/-- The event completes the creation, and the rows are the local view. -/
theorem created_spec (hR : Regime A Err run.id Q q) (payload : Option Json) :
    engine.Triple A (Works run.id) Err [] (Creating definition run definition.dag.toNewSteps rows)
      (appendHistory run.id .runCreated payload) [Lock.run run.id]
      (fun _ v ws => ws = [] ∧ View Q run (newRunState rows) v) := by
  have hquiet : Quiet A [Lock.run run.id] run.id Q := hR.quiet List.mem_cons_self
  refine appendHistory_rule ((Robust.pure (· = [])).and (View.robust hquiet)) ?_
  intro v ws now hb h
  refine ⟨run, by rw [h.view]; exact Table.get?_put_self v.runs run, ?_⟩
  have hact : Act ⟨run.id, .create⟩ v (ws ++ historyWrites run .runCreated payload now) := by
    obtain ⟨name, input, now', hrun⟩ := h.row
    rw [h.writes, List.cons_append, hrun]
    exact .create h.known h.newRun h.steps h.newSteps h.nodup
  refine .lock ⟨rfl, rfl⟩ hact (by simp) ⟨rfl, View.of_rows (hact.base hb) ?_ ?_⟩
  · rw [Backend.applyAll_append]
    refine ⟨_, get?_event .., rfl, fun _ => ?_⟩
    obtain ⟨name, input, now', hrun⟩ := h.row
    rw [hrun]
    rfl
  · rw [Backend.applyAll_append, h.view]
    exact h.perm hb

end

/-- One more row to choose from. -/
theorem latestDefinition_concat (rows : List WorkflowDefinition) (x : WorkflowDefinition) :
    latestDefinition (rows ++ [x]) = (latestDefinition rows).elim (some x)
      (fun b => if b.version < x.version then some x else some b) := by
  unfold latestDefinition
  rw [List.foldl_append, List.foldl_cons, List.foldl_nil]
  generalize List.foldl _ none rows = best
  cases best <;> rfl

/-- The row of the largest version is one of the rows, and there is none only without
rows. -/
theorem latestDefinition_spec (rows : List WorkflowDefinition) :
    (latestDefinition rows = none → rows = []) ∧ ∀ d, latestDefinition rows = some d →
      d ∈ rows ∧ ∀ d' ∈ rows, d'.version ≤ d.version := by
  induction rows using List.reverseRecOn with
  | nil => exact ⟨fun _ => rfl, fun d hd => by cases hd⟩
  | append_singleton rows x ih =>
    obtain ⟨hnone, hsome⟩ := ih
    rw [latestDefinition_concat]
    cases hbest : latestDefinition rows with
    | none =>
      refine ⟨(fun h => by cases h), fun d hd => ?_⟩
      obtain rfl := Option.some.inj hd
      simp [hnone hbest]
    | some b =>
      obtain ⟨hb, hmax⟩ := hsome b hbest
      rw [Option.elim_some]
      split_ifs with hlt
      · refine ⟨(fun h => by cases h), fun d hd => ?_⟩
        obtain rfl := Option.some.inj hd
        refine ⟨by simp, fun d' hd' => ?_⟩
        rcases List.mem_append.mp hd' with hd' | hd'
        · exact (hmax d' hd').trans hlt.le
        · exact (congrArg _ (List.mem_singleton.mp hd')).le
      · refine ⟨(fun h => by cases h), fun d hd => ?_⟩
        obtain rfl := Option.some.inj hd
        refine ⟨List.mem_append_left _ hb, fun d' hd' => ?_⟩
        rcases List.mem_append.mp hd' with hd' | hd'
        · exact hmax d' hd'
        · rw [List.mem_singleton.mp hd']
          exact not_lt.mp hlt

/-- The definition that a run is to be created from. -/
theorem lookupDefinition_spec {A : Label → Prop} {Err : Error → Prop} (herr : ∀ e, Err e)
    (name : String) (version : ℤ) :
    engine.Triple A (fun _ => False) Err [] (fun _ ws => ws = [])
      (lookupDefinition name version) []
      (fun definition v ws => ws = [] ∧ definition ∈ v.definitions) := by
  have hrobust : ∀ definition, engine.Robust A []
      (fun v ws => ws = [] ∧ definition ∈ v.definitions) :=
    fun _ => (Robust.pure (· = [])).and known_robust
  have hfound : ∀ {v : Db} {answer : Option WorkflowDefinition},
      (∀ d, answer = some d → d ∈ v.definitions) → (answer = none ∧ Err .notFound) ∨
        ∃ d, answer = some d ∧ ([] : List Write) = [] ∧ d ∈ v.definitions := by
    intro v answer h
    cases answer with
    | none => exact Or.inl ⟨rfl, herr _⟩
    | some d => exact Or.inr ⟨d, rfl, rfl, h d rfl⟩
  unfold lookupDefinition
  split_ifs
  · refine lookup_rule (fun _ v => v.definitions.rows.find?
      (fun r => r.name = name ∧ r.version = version)) (fun _ _ => rfl) hrobust ?_
    rintro v ws - - rfl
    exact hfound (fun d hd => List.mem_of_find?_eq_some hd)
  · refine lookup_rule (fun d v => latestDefinition (d.shuffle (v.definitions.rows.filter
      (fun r => r.name = name)))) (fun _ _ => rfl) hrobust ?_
    rintro v ws d - rfl
    refine hfound (fun row hrow => ?_)
    exact List.mem_of_mem_filter ((d.shuffle_perm _).mem_iff.mp
      ((latestDefinition_spec _).2 row hrow).1)

/-- The insertion of the run's row. -/
theorem createWorkflowRun_spec {A : Label → Prop} {Err : Error → Prop} (herr : ∀ e, Err e)
    (id : UUID) (definition : WorkflowDefinition) (name : String) (input : RawMessage) :
    engine.Triple A (fun _ => False) Err [] (fun v ws => ws = [] ∧ definition ∈ v.definitions)
      (Query.createWorkflowRun id definition.id name definition.version (shardFor id) input).issue
      []
      (fun run v ws => runTerminal run.status = false ∧ Creating definition run [] [] v ws) := by
  refine statement_rule (fun _ => (Robust.pure (fun _ => _ = _)).and Creating.robust) ?_
  rintro v ws d - ⟨rfl, hdef⟩ -
  simp only [backend_exec, Query.exec, Backend.applyAll_nil]
  split_ifs with hnew
  · exact Or.inl ⟨_, rfl, herr _⟩
  · exact Or.inl ⟨_, rfl, herr _⟩
  · refine Or.inr ⟨_, _, rfl, .begin ⟨rfl, rfl, hdef, ⟨_, _, _, rfl⟩, ?_, .nil,
      fun t ht => absurd ht List.not_mem_nil, List.nodup_nil⟩⟩
    exact Option.not_isSome_iff_eq_none.mp hnew
  · exact Or.inl ⟨_, rfl, herr _⟩

/-- `CreateRun`. -/
theorem createRun_spec {A : Label → Prop} {Err : Error → Prop} {Q : UUID → Db → Prop}
    {q : UUID → Prop} (hR : ∀ runID, Regime A Err runID (Q runID) (q runID)) (herr : ∀ e, Err e)
    (name : String) (version : ℤ) (input : Option RawMessage) :
    Serves A Err (Beginning (fun _ ws => ws = [])) (createRun name version input)
      (fun runID => Concluded (Q runID) runID) := by
  refine Safe.bind (lookupDefinition_spec herr name version) (fun definition => ?_)
  have huuid : engine.Triple A (fun _ => False) Err []
      (fun v ws => ws = [] ∧ definition ∈ v.definitions) Query.newUUID.issue []
      (fun _ v ws => ws = [] ∧ definition ∈ v.definitions) :=
    read_rule (fun d _ => d.uuid) (fun _ _ => rfl)
      (fun _ => (Robust.pure (· = [])).and known_robust) (fun _ _ _ _ hF => hF)
  refine Safe.bind huuid (fun id => Safe.bind (createWorkflowRun_spec herr id definition name
    (input.getD .emptyObject)) (fun run => Holds.assume (fun hlive => ?_)))
  have hquiet : Quiet A [Lock.run run.id] run.id (Q run.id) :=
    (hR run.id).quiet List.mem_cons_self
  refine Safe.bind (createSteps_spec herr _) (fun rows => ?_)
  refine Safe.bind (Safe.pre (created_spec (hR run.id) _) (fun s w hs h => h.mono hs
    (fun _ hl => hl.elim) (List.Subset.refl _) (fun _ _ _ hF => hF))) (fun _ => ?_)
  refine Safe.bind (reconcileTx_spec hquiet works_of_reconcile (hR run.id).err hlive rows)
    (fun _ => Safe.ret (fun s w hs h => .settled (h.mono hs (fun _ hl => hl)
      (List.Subset.refl _) (fun _ _ _ hF => ⟨hF.1, fun hq => (hF.2 hq).1⟩))))

end Orchestrator
