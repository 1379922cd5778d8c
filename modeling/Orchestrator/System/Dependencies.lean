import Orchestrator.System.Invariant

/-!
# Dependencies

In every state of the system a step that has been started has all that it depends
on, a step is skipped exactly if something that it depends on, near or far, has
failed, and a run that goes on has a step that goes on or that one more `Reconcile`
starts.
-/

namespace Orchestrator

open Lib Program

/-- A step that has been dispatched, or parked, or has ended by itself has only
dependencies that have completed. -/
theorem dependencies_completed {S : System} (h : System.Reachable System.Any S) {t : Step}
    (ht : t ∈ S.db.steps) (hstarted : 0 < t.attemptCount ∨ t.status ∈
      [StepStatus.queued, .running, .retryBackoff, .waiting, .completed, .failed]) :
    ∀ dep ∈ t.dependsOn, ∃ d ∈ S.db.steps, d.workflowRunID = t.workflowRunID ∧
      d.stepName = dep ∧ d.status = .completed :=
  h.ok.orderly.base.graph.deps t ht hstarted.symm

/-- Consecutive draws. -/
def Draw.ticks (first i : ℕ) : Draw := .tick (first + i)

/-- A worker claims an attempt, with the statements of the call one after the other. -/
def Move.claims (attemptID : UUID) (workerID : String) (first : ℕ) : List Move :=
  .claim defaultLeaseDuration attemptID attemptID workerID ::
    ((List.range' first 4).map (fun n => .claimNext 0 (.tick n)) ++ [.claimReturn 0])

/-- A step that may be tried twice, and one that depends on it. -/
def chainDefinition : Definition :=
  ⟨"chain", 0, [⟨"a", "work", [], none, 2, 0, 0, 0, 0⟩, ⟨"b", "work", ["a"], none, 1, 0, 0, 0, 0⟩]⟩

/-- A run of it is created, and the first attempt of the first step is claimed. -/
def chainMoves : List Move :=
  [.registerDefinition chainDefinition (.ticks 100), .createRun "chain" 0 none (.ticks 200)] ++
    Move.claims 209 "w" 300

/-- The first step has completed. -/
def chainSystem : System :=
  (System.run (chainMoves ++ [.report 209 "w" true none none (.ticks 400)]) .init).get
    (by decide +kernel)

/-- The second step has been dispatched. -/
theorem dependencies_completed_chain :
    ∃ t ∈ chainSystem.db.steps, t.status = .queued ∧ t.dependsOn = ["a"] ∧
      ∀ dep ∈ t.dependsOn, ∃ d ∈ chainSystem.db.steps, d.workflowRunID = t.workflowRunID ∧
        d.stepName = dep ∧ d.status = .completed := by
  have hreach : System.Reachable System.Any chainSystem :=
    .run .init (fun _ _ _ => trivial) (Option.some_get _).symm
  have hqueued : ∃ t ∈ chainSystem.db.steps.rows, t.status = .queued ∧ t.dependsOn = ["a"] := by
    decide +kernel
  obtain ⟨t, ht, hst, hdeps⟩ := hqueued
  exact ⟨t, ht, hst, hdeps, dependencies_completed hreach ht (Or.inr (by simp [hst]))⟩

section Skips

/-- The second step is one that the first depends on. -/
def DependsOn (T : Table Step.id) (t d : Step) : Prop :=
  d ∈ T ∧ d.workflowRunID = t.workflowRunID ∧ d.stepName ∈ t.dependsOn

variable {v : Db}

/-- A step that depends on one that has failed or was skipped has been skipped. -/
theorem Orderly.skipped_of_cut (h : Orderly v) {t : Step} (ht : t ∈ v.steps)
    (hcut : Cut v.steps t) : t.status = .skipped := by
  have hnot : ¬ t.Started := fun hstarted =>
    h.base.graph.not_blocked (h.base.graph.deps t ht hstarted) hcut.blocked
  have hpending : t.status ≠ .pending := fun hst =>
    (h.quiescent _).unblocked t ht rfl hst hcut.blocked
  have hcancelled : t.status ≠ .cancelled := fun hst => (h.tidy _).clean t ht rfl hst hcut
  have hready : t.status ≠ .ready := by
    intro hst
    have hcount := (h.base.ledger.row t ht).count
    simp only [Step.CountOK, hst] at hcount
  simp only [Step.Started, not_or] at hnot
  cases hst : t.status <;> simp_all

/-- The steps above a skipped one include one that has failed. -/
theorem Orderly.failed_above (h : Orderly v) {t : Step} (ht : t ∈ v.steps)
    (hst : t.status = .skipped) :
    ∃ f, Relation.TransGen (DependsOn v.steps) t f ∧ f.status = .failed := by
  obtain ⟨rank, hrank⟩ := h.base.graph.exists_rank ht
  -- Each skipped step depends on one that has failed, or on a skipped one of lower rank.
  have hgeneral : ∀ n, ∀ x ∈ v.steps, x.workflowRunID = t.workflowRunID → rank x.stepName = n →
      x.status = .skipped →
      ∃ f, Relation.TransGen (DependsOn v.steps) x f ∧ f.status = .failed := by
    intro n
    induction n using Nat.strong_induction_on with
    | _ n ih =>
      intro x hx hrun hn hskipped
      obtain ⟨d, hd, hdrun, hname, hfailed | hskipped'⟩ := (h.tidy _).skipped x hx rfl hskipped
      · exact ⟨d, .single ⟨hd, hdrun, hname⟩, hfailed⟩
      · have hlt : rank d.stepName < n := hn ▸ hrank x hx hrun d.stepName hname
        obtain ⟨f, hf, hfailed⟩ := ih _ hlt d hd (hdrun.trans hrun) rfl hskipped'
        exact ⟨f, .head ⟨hd, hdrun, hname⟩ hf, hfailed⟩
  exact hgeneral _ t ht rfl rfl hst

/-- Everything below a step that has failed has been skipped. -/
theorem Orderly.skipped_below (h : Orderly v) {t f : Step} (ht : t ∈ v.steps)
    (hpath : Relation.TransGen (DependsOn v.steps) t f) (hf : f.status = .failed) :
    t.status = .skipped := by
  induction hpath using Relation.TransGen.head_induction_on with
  | single hdep =>
    obtain ⟨hd, hrun, hname⟩ := hdep
    exact h.skipped_of_cut ht ⟨f, hd, hrun, hname, Or.inl hf⟩
  | @head x d hdep _ ih =>
    obtain ⟨hd, hrun, hname⟩ := hdep
    exact h.skipped_of_cut ht ⟨d, hd, hrun, hname, Or.inr (ih hd)⟩

/-- A step is skipped exactly if a step that it depends on, directly or not, has
failed. -/
theorem skipped_iff_failed_above {S : System} (h : System.Reachable System.Any S) {t : Step}
    (ht : t ∈ S.db.steps) : t.status = .skipped ↔
      ∃ f, Relation.TransGen (DependsOn S.db.steps) t f ∧ f.status = .failed := by
  refine ⟨h.ok.orderly.failed_above ht, ?_⟩
  rintro ⟨f, hpath, hf⟩
  exact h.ok.orderly.skipped_below ht hpath hf

/-- Both attempts of the first step of a chain have failed. -/
def failedSystem : System :=
  (System.run (chainMoves ++ [.report 209 "w" false none (some "x") (.ticks 400),
    .fireTimer 405 (.ticks 500)] ++ Move.claims 503 "w" 600 ++
    [.report 503 "w" false none (some "x") (.ticks 700)]) .init).get (by decide +kernel)

/-- The second step has been skipped. -/
theorem skipped_iff_failed_above_chain :
    ∃ t ∈ failedSystem.db.steps, t.stepName = "b" ∧
      ∃ f, Relation.TransGen (DependsOn failedSystem.db.steps) t f ∧ f.status = .failed := by
  have hreach : System.Reachable System.Any failedSystem :=
    .run .init (fun _ _ _ => trivial) (Option.some_get _).symm
  have hskipped : ∃ t ∈ failedSystem.db.steps.rows, t.stepName = "b" ∧ t.status = .skipped := by
    decide +kernel
  obtain ⟨t, ht, hname, hst⟩ := hskipped
  exact ⟨t, ht, hname, (skipped_iff_failed_above hreach ht).mp hst⟩

end Skips

section Progress

variable {v : Db}

/-- The status of a step that is about to be tried, or waits for something. -/
def StepStatus.underWay (st : StepStatus) : Bool :=
  st ∈ [StepStatus.queued, .running, .retryBackoff, .waiting]

/-- A step that goes on and is least in the order of dependencies is under way, or
could be started. -/
theorem Orderly.least_goes_on (h : Orderly v) {t : Step} (ht : t ∈ v.steps)
    (hgoes : stepTerminal t.status = false)
    (hleast : ∀ d ∈ v.steps, d.workflowRunID = t.workflowRunID → d.stepName ∈ t.dependsOn →
      stepTerminal d.status = true) :
    t.status.underWay = true ∨ (t.status = .pending ∧ DepsDone v.steps t) := by
  have hready : t.status ≠ .ready := by
    intro hst
    have hcount := (h.base.ledger.row t ht).count
    simp only [Step.CountOK, hst] at hcount
  by_cases hpending : t.status = .pending
  · refine Or.inr ⟨hpending, fun dep hdep => ?_⟩
    obtain ⟨d, hd, hrun, hname⟩ := h.base.graph.dep_exists ht hdep
    have hended := hleast d hd hrun (hname ▸ hdep)
    refine ⟨d, hd, hrun, hname, StepStatus.eq_completed hended (Bool.eq_false_iff.mpr ?_)⟩
    exact fun hbad => (h.quiescent _).unblocked t ht rfl hpending ⟨d, hd, hrun, hname ▸ hdep, hbad⟩
  · refine Or.inl ?_
    cases hst : t.status <;> simp_all [stepTerminal, StepStatus.underWay]

/-- A run that goes on has a step that is under way or could be started. -/
theorem Orderly.goes_on (h : Orderly v) {r : WorkflowRun} (hr : r ∈ v.runs)
    (hlive : runTerminal r.status = false) : ∃ t ∈ v.steps, t.workflowRunID = r.id ∧
      (t.status.underWay = true ∨ (t.status = .pending ∧ DepsDone v.steps t)) := by
  obtain ⟨t₀, ht₀, hrun₀, hgoes₀⟩ :=
    (h.quiescent r.id).busy r (Table.mem_iff_get?.mp hr) hlive
  obtain ⟨rank, hrank⟩ := h.base.graph.exists_rank ht₀
  obtain ⟨t, ⟨ht, hrun, hgoes⟩, hleast⟩ := exists_least_rank
    (P := fun t : Step => t ∈ v.steps ∧ t.workflowRunID = r.id ∧ stepTerminal t.status = false)
    (fun t => rank t.stepName) ⟨t₀, ht₀, hrun₀, hgoes₀⟩
  refine ⟨t, ht, hrun, h.least_goes_on ht hgoes (fun d hd hdrun hname => ?_)⟩
  refine Bool.of_not_eq_false (fun hgoes' => ?_)
  have hlt := hrank t ht (hrun.trans hrun₀.symm) d.stepName hname
  exact absurd (hleast d ⟨hd, hdrun.trans hrun, hgoes'⟩) (Nat.not_le.mpr hlt)

/-- `Reconcile` on a run that goes on succeeds and evaluates the run. -/
theorem Orderly.reconcile (h : Orderly v) {r : WorkflowRun} (hr : r ∈ v.runs)
    (hlive : runTerminal r.status = false) {ω : ℕ → Draw}
    (hω : (Orchestrator.reconcile r.id).Admissible backend ω v []) :
    ((Orchestrator.reconcile r.id).withTx backend ω v []).1 = .ok () ∧
      Evaluated r.id v ((Orchestrator.reconcile r.id).withTx backend ω v []).2 := by
  have hget : v.runs.get? r.id = some r := Table.mem_iff_get?.mp hr
  rcases (reconcile_solo h.base r.id).withTx hω with ⟨_, hres, r', hr', hdone⟩ | ⟨e, -, hnone⟩
  · obtain rfl := Option.some.inj (hget.symm.trans hr')
    rcases hdone with ⟨hend, -⟩ | ⟨-, heval⟩
    · rw [hlive] at hend
      cases hend
    · exact ⟨hres, heval⟩
  · rw [hget] at hnone
    cases hnone

/-- An evaluation starts the steps that could be started. -/
theorem Evaluated.starts {runID : UUID} {v' : Db} (h : Evaluated runID v v') (hb : Base v)
    {t t' : Step} (ht : t ∈ v.steps) (hrun : t.workflowRunID = runID)
    (hdeps : DepsDone v.steps t) (ht' : t' ∈ v'.steps) (hid : t'.id = t.id) :
    t'.status ≠ .pending := by
  intro hpending
  obtain ⟨m, hm, -, -, hvisited⟩ := h.visited
  have hget' : v'.steps.get? t.id = some t' := hid ▸ Table.mem_iff_get?.mp ht'
  obtain rfl := (h.path.step_get? hb (Table.mem_iff_get?.mp ht) hget').pending hpending
  exact hvisited t' ht' hrun hpending ((hm.evolves hb).depsDone hdeps)

/-- No run is stuck: one that goes on has a step that is under way or could be
started, and one `Reconcile` starts all that could be. -/
theorem never_deadlocked {S : System} (h : System.Reachable System.Any S) {r : WorkflowRun}
    (hr : r ∈ S.db.runs) (hlive : runTerminal r.status = false) :
    (∃ t ∈ S.db.steps, t.workflowRunID = r.id ∧
      (t.status ∈ [StepStatus.queued, .running, .retryBackoff, .waiting] ∨
        (t.status = .pending ∧ DepsDone S.db.steps t))) ∧
    ∀ ω, (reconcile r.id).Admissible backend ω S.db [] →
      ((reconcile r.id).withTx backend ω S.db []).1 = .ok () ∧
      ∀ t ∈ S.db.steps, t.workflowRunID = r.id → t.status = .pending → DepsDone S.db.steps t →
        ∀ t' ∈ ((reconcile r.id).withTx backend ω S.db []).2.steps, t'.id = t.id →
          t'.status ≠ .pending := by
  have horderly := h.ok.orderly
  refine ⟨?_, fun ω hω => ?_⟩
  · obtain ⟨t, ht, hrun, hst⟩ := horderly.goes_on hr hlive
    exact ⟨t, ht, hrun, hst.imp of_decide_eq_true id⟩
  · obtain ⟨hres, heval⟩ := horderly.reconcile hr hlive hω
    exact ⟨hres, fun t ht hrun _ hdeps t' ht' hid =>
      heval.starts horderly.base ht hrun hdeps ht' hid⟩

/-- The second step of a chain that goes on is under way. -/
theorem never_deadlocked_chain :
    ∃ t ∈ chainSystem.db.steps, t.status ∈ [StepStatus.queued, .running, .retryBackoff, .waiting] ∨
      (t.status = .pending ∧ DepsDone chainSystem.db.steps t) := by
  have hreach : System.Reachable System.Any chainSystem :=
    .run .init (fun _ _ _ => trivial) (Option.some_get _).symm
  have hlive : ∃ r ∈ chainSystem.db.runs.rows, runTerminal r.status = false := by decide +kernel
  obtain ⟨r, hr, hlive⟩ := hlive
  obtain ⟨⟨t, ht, -, hst⟩, -⟩ := never_deadlocked hreach hr hlive
  exact ⟨t, ht, hst⟩

end Progress

end Orchestrator
