import Mathlib.Algebra.Order.Ring.Rat
import Orchestrator.Acceptance
import Orchestrator.System.History
import Orchestrator.System.Lifecycle

/-!
# Runs are instances of their definitions

A definition that has been registered is found under its name and version, since no
two definitions share both. The run that is created from it has a row for each of its
steps, and when `CreateRun` returns the run has been launched.
-/

namespace Orchestrator

open Lib Program

section Versions

variable {v : Db} {l : Label} {u : List Write}

/-- No two definitions have the same name and version. -/
def Versioned (v : Db) : Prop :=
  ∀ d ∈ v.definitions, ∀ d' ∈ v.definitions, d.name = d'.name → d.version = d'.version → d = d'

/-- An action leaves the definitions alone or adds one under a new name and version. -/
theorem Act.definitions (h : Act l v u) : (backend.applyAll v u).definitions = v.definitions ∨
    ∃ d, v.NoDefinition d.name d.version ∧
      (backend.applyAll v u).definitions = v.definitions.put d := by
  have hclose : ∀ {a success result ws}, Closes v a success result ws →
      (backend.applyAll v ws).definitions = v.definitions := by
    intro a success result ws hclose
    cases hclose <;> rfl
  cases h with
  | define _ _ hno => exact Or.inr ⟨_, hno, rfl⟩
  | create =>
    rw [applyAll_create]
    exact Or.inl rfl
  | succeed hc =>
    rw [Backend.applyAll_append]
    exact Or.inl (hclose hc)
  | retry hc =>
    rw [Backend.applyAll_append]
    exact Or.inl (hclose hc)
  | giveUp hc =>
    rw [Backend.applyAll_append]
    exact Or.inl (hclose hc)
  | late hc _ _ htms =>
    rw [Backend.applyAll_append]
    rcases htms with rfl | ⟨tm, rfl, -⟩ <;> exact Or.inl (hclose hc)
  | _ => exact Or.inl rfl

theorem Versioned.act (h : Versioned v) (hact : Act l v u) :
    Versioned (backend.applyAll v u) := by
  rcases hact.definitions with heq | ⟨x, hno, heq⟩
  · rw [Versioned, heq]
    exact h
  · rw [Versioned, heq]
    intro d hd d' hd' hname hversion
    rcases Table.mem_put.mp hd with rfl | ⟨hold, -⟩ <;>
      rcases Table.mem_put.mp hd' with rfl | ⟨hold', -⟩
    · rfl
    · exact absurd hversion.symm (hno d' hold' hname.symm)
    · exact absurd hversion (hno d hold hname)
    · exact h d hold d' hold' hname hversion

theorem System.Reachable.versioned {C : System → Move → Prop} {S : System} (h : Reachable C S) :
    Versioned S.db :=
  h.induct_db (fun _ hd => absurd hd (Table.not_mem_empty _)) (fun _ _ _ _ hact hv => hv.act hact)

end Versions

section Columns

variable {runID : UUID} {v v' : Db}

/-- An evaluation leaves the columns alone that no update sets. -/
theorem Passes.infos (h : Passes runID v v') (hb : Base v) :
    v'.steps.rows.map Step.info = v.steps.rows.map Step.info := by
  refine h.induct hb (P := fun w => w.steps.rows.map Step.info = v.steps.rows.map Step.info) rfl ?_
  intro w u _ hpass ih
  rcases hpass.steps_eq with heq | ⟨t, t', ht, -, hp, heq⟩
  · rw [heq, ih]
  · have hid : t'.id = t.id := Step.id_of_info hp.1
    rw [heq, Table.map_rows_put (a := t) (hid ▸ ht) hp.1, ih]

theorem stepsOf_infos (v : Db) (runID : UUID) : (v.stepsOf runID).map Step.info =
    (v.steps.rows.map Step.info).filter (fun i => i.workflowRunID = runID) := by
  rw [List.filter_map]
  rfl

/-- The specifications of the steps of a run. -/
def Db.specsOf (v : Db) (runID : UUID) : List NewStep :=
  (v.stepsOf runID).map (fun t => t.info.spec)

/-- The rows of a new run have the columns of its definition. -/
theorem specs_of_rows {steps : List NewStep} {rows : List Step}
    (h : List.Forall₂ (fun ns t => ∃ stepID now, t = newStepRow stepID runID ns now) steps rows)
    (hinputs : ∀ ns ∈ steps, ns.input.isSome = true) : rows.map (fun t => t.info.spec) = steps := by
  induction h with
  | nil => rfl
  | @cons ns t steps rows hrow _ ih =>
    obtain ⟨stepID, now, rfl⟩ := hrow
    obtain ⟨hns, hsteps⟩ := List.forall_mem_cons.mp hinputs
    obtain ⟨m, hm⟩ := Option.isSome_iff_exists.mp hns
    rw [List.map_cons, ih hsteps]
    obtain ⟨name, type, deps, input, _, _, _, _, _⟩ := ns
    obtain rfl : input = some m := hm
    rfl

end Columns

section Launch

variable {runID : UUID} {v : Db}

/-- How a step is when its run has been created. A step without dependencies has been
dispatched, or waits for its signal. Another one is pending. -/
def Step.Initial (t : Step) (v : Db) : Prop :=
  if t.dependsOn ≠ [] then t.status = .pending ∧ ∀ a ∈ v.attempts, a.stepID ≠ t.id
  else if t.taskType = signalWaitTaskType then
    t.status = .waiting ∧ ∀ a ∈ v.attempts, a.stepID ≠ t.id
  else t.status = .queued ∧
    ∃ a ∈ v.attempts, (∀ a' ∈ v.attempts, a'.stepID = t.id ↔ a' = a) ∧ a.attemptNumber = 1 ∧
      a.status = .queued ∧
      ∃ m ∈ v.outbox, (∀ m' ∈ v.outbox, m'.aggregateID = a.id ↔ m' = m) ∧ m.status = .pending

/-- A step that has made no attempt has none. -/
theorem no_attempt_of_count (hb : Base v) {t : Step} (ht : t ∈ v.steps)
    (hcount : t.attemptCount = 0) : ∀ a ∈ v.attempts, a.stepID ≠ t.id := by
  intro a ha hid
  have h := (hb.ledger.numbers t ht a.attemptNumber).mp ⟨a, ha, hid, rfl⟩
  omega

/-- The steps of a run that has been launched. -/
theorem Launched.initial (h : Launched runID v) (hb : Base v) (haddr : Addressed v) {t : Step}
    (ht : t ∈ v.steps) (hrun : t.workflowRunID = runID) : t.Initial v := by
  unfold Step.Initial
  split_ifs with hdeps hsignal
  · obtain ⟨hst, hcount⟩ := h.others t ht hrun hdeps
    exact ⟨hst, no_attempt_of_count hb ht hcount⟩
  · rcases h.roots t ht hrun (not_not.mp hdeps) with ⟨hne, -⟩ | ⟨-, hst, hcount⟩
    · exact absurd hsignal hne
    · exact ⟨hst, no_attempt_of_count hb ht hcount⟩
  · rcases h.roots t ht hrun (not_not.mp hdeps) with ⟨-, hst, hcount⟩ | ⟨heq, -⟩
    swap
    · exact absurd heq hsignal
    obtain ⟨a, ha, hid, hnum⟩ := (hb.ledger.numbers t ht 1).mpr ⟨le_rfl, hcount.ge⟩
    obtain ⟨t', ht', hid', harun, -⟩ := hb.ledger.parent a ha
    obtain rfl := Table.eq_of_key_eq ht ht' (hid.symm.trans hid'.symm)
    obtain ⟨m, hm, hmid⟩ := hb.mailbox.sent a ha
    refine ⟨hst, a, ha, fun a' ha' => ⟨fun hid'' => ?_, fun heq => heq ▸ hid⟩, hnum,
      h.attempts a ha (harun.trans hrun), m, hm, fun m' hm' => ⟨fun hid'' => ?_, fun heq =>
        heq ▸ hmid⟩, h.outbox m hm ?_⟩
    · have hbound := (hb.ledger.numbers t ht a'.attemptNumber).mp ⟨a', ha', hid'', rfl⟩
      exact hb.ledger.slot a' ha' a ha (hid''.trans hid.symm) (by omega)
    · exact hb.mailbox.once m' hm' m hm (hid''.trans hmid.symm)
    · obtain ⟨r, -, t, ht'', -, hstep, hcontent⟩ := haddr.message hm ha hmid
      obtain rfl := Table.eq_of_key_eq ht'' ht (hstep.trans hid)
      exact (congrArg (fun c => c.payload.workflowRunID) hcontent).trans hrun

end Launch

section Registered

variable {d : Definition} {v : Db} {ω : ℕ → Draw} {row : WorkflowDefinition}

/-- What `RegisterDefinition` writes. -/
theorem registerDefinition_run
    (h : ((registerDefinition d).withTx backend ω v []).1 = .ok row) :
    row.dag = d.withDefaults ∧ row.name = d.name ∧ row.version = versionOrDefault d.version ∧
      (registerDefinition d).run backend ω v [] = (.ok row, [.definition row]) := by
  unfold registerDefinition at h ⊢
  cases hvalid : d.validate with
  | error e =>
    rw [hvalid] at h
    cases h
  | ok d' =>
    rw [hvalid] at h
    obtain ⟨-, rfl⟩ := Definition.isDag_of_validate hvalid
    dsimp only at h ⊢
    unfold Definition.toJSON at h ⊢
    split_ifs at h ⊢
    · simp only [withTx, request, run, backend_exec, Query.exec, Backend.applyAll_nil] at h ⊢
      split_ifs at h ⊢
      obtain rfl := Except.ok.inj h
      exact ⟨rfl, rfl, rfl, rfl⟩
    · cases h

/-- What `RegisterDefinition` stores. -/
theorem registerDefinition_row
    (h : ((registerDefinition d).withTx backend ω v []).1 = .ok row) :
    row.dag = d.withDefaults ∧ row.name = d.name ∧ row.version = versionOrDefault d.version ∧
      row ∈ ((registerDefinition d).withTx backend ω v []).2.definitions := by
  obtain ⟨hdag, hname, hversion, hrun⟩ := registerDefinition_run h
  refine ⟨hdag, hname, hversion, ?_⟩
  rw [withTx, hrun]
  exact Table.mem_put_self _ _

/-- A definition that has been registered is the one that is chosen for its name and
version, and for its name as long as it is the latest. -/
theorem Versioned.chosen (h : Versioned v) (hrow : row ∈ v.definitions) (hpos : 0 < row.version)
    {version : ℤ} (hversion : version = row.version ∨ version ≤ 0 ∧ ∀ d' ∈ v.definitions,
      d'.name = row.name → d'.version ≤ row.version) (d' : WorkflowDefinition) :
    Chosen v row.name version d' ↔ d' = row := by
  rcases hversion with rfl | ⟨hle, hmax⟩
  · constructor
    · exact fun hd => h d' hd.mem row hrow hd.named (hd.versioned hpos)
    · rintro rfl
      exact ⟨hrow, rfl, fun _ => rfl, fun hnot => absurd hpos hnot⟩
  · have hnot : ¬ 0 < version := not_lt.mpr hle
    constructor
    · exact fun hd => h d' hd.mem row hrow hd.named
        ((hmax d' hd.mem hd.named).antisymm (hd.latest hnot row hrow rfl))
    · rintro rfl
      exact ⟨hrow, rfl, fun hpos => absurd hpos hnot, fun _ => hmax⟩

/-- The defaults leave positive numbers. -/
theorem positive_of_spec {ns : NewStep} (h : ns ∈ d.withDefaults.toNewSteps) :
    0 < ns.maxAttempts ∧ 0 < ns.initialBackoffMS ∧ 0 < ns.backoffMultiplier ∧
      0 < ns.maxBackoffMS ∧ 0 < ns.timeoutSeconds ∧ ns.input.isSome = true := by
  obtain ⟨s, hs, rfl⟩ := List.mem_map.mp h
  obtain ⟨spec, -, rfl⟩ := List.mem_map.mp hs
  have hpos : ∀ {α : Type} [LinearOrder α] [Zero α] (x c : α), 0 < c →
      0 < if x ≤ 0 then c else x := by
    intro α _ _ x c hc
    split_ifs with hx
    · exact hc
    · exact not_le.mp hx
  exact ⟨hpos _ (1 : ℤ) (by decide), hpos _ (1000 : ℤ) (by decide), hpos _ (2 : ℚ) (by decide),
    hpos _ (60000 : ℤ) (by decide), hpos _ (30 : ℤ) (by decide), spec.isSome_input_withDefaults⟩

end Registered

/-- No run that has been committed is pending. -/
theorem System.Reachable.not_pending {C : System → Move → Prop} {S : System} (h : Reachable C S) :
    ∀ r ∈ S.db.runs, r.status ≠ .pending := by
  intro r hr hst
  have hstarted := h.chronicled.begun r hr id
  rw [(h.chronicled.logged.runs r hr).fresh hst] at hstarted
  cases hstarted

/-- Starting a run instantiates the definition that was registered. Whatever happens
in between, `CreateRun` for its name and version, or for its name as long as it is the
latest version, returns if the input is a document. The run is then running and has one
step for each declared step, with the columns declared or their positive defaults, and
its steps without dependencies have been dispatched or wait for their signals. So no
run is ever pending. -/
theorem createRun_instantiates {S₀ S : System} (h₀ : System.Reachable System.Any S₀)
    {d : Definition} {ω₀ : ℕ → Draw} {row : WorkflowDefinition}
    (hreg : ((registerDefinition d).withTx backend ω₀ S₀.db []).1 = .ok row) {ms : List Move}
    (hlater : System.run (.registerDefinition d ω₀ :: ms) S₀ = some S) {version : ℤ}
    (hversion : version = row.version ∨ version ≤ 0 ∧ ∀ d' ∈ S.db.definitions,
      d'.name = row.name → d'.version ≤ row.version) {input : Option RawMessage}
    (hinput : (input.getD .emptyObject).IsValid) {ω : ℕ → Draw}
    (hω : (createRun row.name version input).Admissible backend ω S.db []) :
    ∃ runID v', (createRun row.name version input).withTx backend ω S.db [] = (.ok runID, v') ∧
      (∃ r, v'.runs.get? runID = some r ∧ r.definitionID = row.id ∧ r.status = .running) ∧
      (v'.specsOf runID).Perm d.withDefaults.toNewSteps ∧
      (∀ t ∈ v'.stepsOf runID, 0 < t.maxAttempts ∧ 0 < t.initialBackoffMS ∧
        0 < t.backoffMultiplier ∧ 0 < t.maxBackoffMS ∧ 0 < t.timeoutSeconds ∧ t.Initial v') ∧
      (∀ r ∈ S.db.runs, r.status ≠ .pending) ∧ ∀ r ∈ v'.runs, r.status ≠ .pending := by
  obtain ⟨hdag, hname, hver, hmem⟩ := registerDefinition_row hreg
  have hS : System.Reachable System.Any S := h₀.run (fun _ _ _ => trivial) hlater
  have hb := hS.ok.orderly.base
  have hrow : row ∈ S.db.definitions := by
    obtain ⟨S₁, hnext, hrest⟩ := Option.bind_eq_some_iff.mp hlater
    have hok₁ := h₀.ok.turn (System.next_turn h₀.ok hnext)
    simp only [System.next] at hnext
    obtain ⟨-, rfl⟩ := System.tx_inv hnext
    obtain ⟨row', hrow', rfl⟩ := (System.run_evolves hok₁ hrest).definitions row hmem
    exact hrow'
  have hpos : 0 < row.version := by
    rw [hver, versionOrDefault]
    split_ifs <;> omega
  have hchosen := hS.versioned.chosen hrow hpos hversion
  have hsolo : Solo (fun _ => False) (createRun row.name version input) _ S.db :=
    createRun_solo hb row.name version input (fun hnone => hnone ⟨row, (hchosen row).mpr rfl⟩)
      (fun hinvalid => hinvalid hinput)
  rcases hsolo.withTx (w := []) hω with ⟨runID, hres, d', u, hd', hcreates, heval⟩ | ⟨e, -, he⟩
  swap
  · exact he.elim
  obtain rfl := (hchosen d').mp hd'
  have hS' : System.Reachable System.Any { S with db :=
      ((createRun d'.name version input).withTx backend ω S.db []).2 } :=
    .step hS (m := .createRun d'.name version input ω) trivial (if_pos hω)
  have hlog := hS.chronicled
  have hlog' := hS'.chronicled
  have hb' := hS'.ok.orderly.base
  have hlaunched := launched hb hlog.addressed hlog.posted hcreates.act heval
  have hb₀ := hcreates.act.base hb
  have hspecs : (Db.specsOf ((createRun d'.name version input).withTx backend ω S.db []).2
      runID).Perm d.withDefaults.toNewSteps := by
    obtain ⟨rows, hrows, hperm⟩ := hcreates.steps
    have hmap : ∀ w : Db, w.specsOf runID = ((w.stepsOf runID).map Step.info).map (·.spec) :=
      fun w => (List.map_map ..).symm
    rw [hmap, stepsOf_infos, heval.path.infos hb₀, ← stepsOf_infos, ← hmap, ← hdag]
    rw [← specs_of_rows hrows (fun ns hns => (positive_of_spec (hdag ▸ hns)).2.2.2.2.2)]
    exact (hperm.map _).symm
  refine ⟨runID, _, Prod.ext hres rfl, ?_, hspecs, ?_, hS.not_pending, hS'.not_pending⟩
  · obtain ⟨r, hr, hst⟩ := hlaunched.run
    obtain ⟨now, hr₀⟩ := hcreates.run
    obtain ⟨r', hr', hev⟩ := (heval.path.evolves hb₀).run hr₀
    obtain rfl := Option.some.inj (hr.symm.trans hr')
    exact ⟨r, hr, hev.definitionID, hst⟩
  · intro t ht
    have hspec : t.info.spec ∈ d.withDefaults.toNewSteps :=
      hspecs.mem_iff.mp (List.mem_map_of_mem ht)
    obtain ⟨ht, hrun⟩ := List.mem_filter.mp ht
    obtain ⟨hmax, hinitial, hmult, hmaxb, htimeout, -⟩ := positive_of_spec hspec
    exact ⟨hmax, hinitial, hmult, hmaxb, htimeout,
      hlaunched.initial hb' hlog'.addressed ht (of_decide_eq_true hrun)⟩

/-- A definition in which one step is dispatched at once, one waits for a signal, and
one depends on both. -/
def gateDefinition : Definition :=
  ⟨"gate", 0, [⟨"a", "work", [], none, 3, 0, 0, 0, 0⟩,
    ⟨"b", "signal_wait", [], none, 0, 0, 0, 0, 0⟩, ⟨"c", "work", ["a", "b"], none, 0, 0, 0, 0, 60⟩]⟩

/-- A second version is registered before the first one is run. -/
theorem createRun_instantiates_gate :
    let S := (System.run [.registerDefinition gateDefinition (.ticks 100), .registerDefinition
      { gateDefinition with version := 2 } (.ticks 110)] .init).get (by decide +kernel)
    ∃ runID v', (createRun "gate" 1 none).withTx backend (.ticks 200) S.db [] = (.ok runID, v') ∧
      (v'.specsOf runID).Perm gateDefinition.withDefaults.toNewSteps ∧
      v'.steps.rows.map (fun t => (t.stepName, t.status, t.maxAttempts, t.timeoutSeconds)) =
        [("a", .queued, 3, 30), ("b", .waiting, 1, 30), ("c", .pending, 1, 60)] := by
  intro S
  have hreg : ((registerDefinition gateDefinition).withTx backend (.ticks 100) Db.empty []).1 =
      .ok ⟨100, "gate", 1, gateDefinition.withDefaults, 100⟩ := rfl
  have hω : (createRun "gate" 1 none).Admissible backend (.ticks 200) S.db [] := by decide +kernel
  obtain ⟨runID, v', hres, -, hspecs, -⟩ := createRun_instantiates .init hreg
    (Option.some_get _).symm (Or.inl rfl) (by exact trivial) hω
  have hrows : ((createRun "gate" 1 none).withTx backend (.ticks 200) S.db []).2.steps.rows.map
      (fun t => (t.stepName, t.status, t.maxAttempts, t.timeoutSeconds)) =
        [("a", .queued, 3, 30), ("b", .waiting, 1, 30), ("c", .pending, 1, 60)] := by
    decide +kernel
  exact ⟨runID, v', hres, hspecs, by rwa [hres] at hrows⟩

end Orchestrator
