import Mathlib.Data.List.Perm.Subperm
import Orchestrator.System.Fixpoint
import Orchestrator.System.Outcomes

/-!
# Repeated evaluations

An evaluation visits the steps of a run in any order, and the order decides what a
single call of `Reconcile` does. Repeated calls come to rest, because a call that
leaves something to do has used a signal for a further step. Where no two steps want
the same signal, what the calls come to does not depend on the orders: whether a step
goes on depends on the steps that it depends on and on the signals that were there in
the beginning.
-/

namespace Orchestrator

open Lib Program Actions

/-- The signal is the earliest one that the step can use. -/
structure Signal.First (sig : Signal) (v : Db) (t : Step) : Prop where
  reaches : sig.Reaches v t
  earliest : ∀ g : Signal, g.Reaches v t → sig.receivedAt ≤ g.receivedAt

/-- The status, the output and the number of attempts of a step. -/
def Step.result (t : Step) : StepStatus × Option RawMessage × ℕ :=
  (t.status, t.output, t.attemptCount)

theorem Step.result_status {t t' : Step} (h : t'.result = t.result) : t'.status = t.status :=
  congrArg Prod.fst h

theorem Step.result_count {t t' : Step} (h : t'.result = t.result) :
    t'.attemptCount = t.attemptCount :=
  congrArg (fun r => r.2.2) h

/-- What evaluations that began at `v` and have come to `w` have made of a step. -/
inductive Step.Fate (v w : Db) (t t' : Step) : Prop
  | same : t' = t → Fate v w t t'
  | dispatched : t.status = .pending → t.taskType ≠ signalWaitTaskType → DepsDone w.steps t →
      t'.result = (.queued, t.output, t.attemptCount + 1) → Fate v w t t'
  | parked : t.status = .pending → t.taskType = signalWaitTaskType → DepsDone w.steps t →
      t'.result = (.waiting, t.output, t.attemptCount) → Fate v w t t'
  | heard {sig g : Signal} : t.status = .pending ∨ t.status = .waiting →
      t.taskType = signalWaitTaskType → DepsDone w.steps t → sig.First v t →
      g ∈ w.signals → g.id = sig.id → g.processed = true →
      t'.result = (.completed, some sig.payload, t.attemptCount) → Fate v w t t'

/-- What they have made of a signal. -/
inductive Signal.Fate (runID : UUID) (v w : Db) (g g' : Signal) : Prop
  | same : g' = g → Fate runID v w g g'
  | used {t t' : Step} : t ∈ v.steps → t.workflowRunID = runID →
      t.taskType = signalWaitTaskType → t.status ≠ .completed → g.First v t →
      t' ∈ w.steps → t'.id = t.id → t'.status = .completed →
      g' = { g with processed := true } → Fate runID v w g g'

/-- What has become of the steps of the run and of the signals. -/
structure Course (runID : UUID) (v w : Db) : Prop where
  steps : ∀ t ∈ v.steps, t.workflowRunID = runID →
    ∃ t' ∈ w.steps, t'.info = t.info ∧ t.Fate v w t'
  signals : ∀ g' ∈ w.signals, ∃ g ∈ v.signals, g.Fate runID v w g'

/-- No two steps of the run want the same signal. -/
def DistinctWants (runID : UUID) (v : Db) : Prop :=
  ∀ t ∈ v.steps, ∀ t' ∈ v.steps, t.workflowRunID = runID → t'.workflowRunID = runID →
    t.taskType = signalWaitTaskType → t'.taskType = signalWaitTaskType →
    t.wantName = t'.wantName → t = t'

/-- The signals of the run have been received at different times. -/
def DistinctTimes (runID : UUID) (v : Db) : Prop :=
  ∀ g ∈ v.signals, ∀ g' ∈ v.signals, g.workflowRunID = runID → g'.workflowRunID = runID →
    g.receivedAt = g'.receivedAt → g = g'

section Course

variable {runID : UUID} {v w w' : Db} {t t' : Step} {g g' : Signal}

theorem Step.Fate.evolve (h : t.Fate v w t') (hev : w.Evolves w') : t.Fate v w' t' := by
  cases h with
  | same heq => exact .same heq
  | dispatched hst htype hdeps hres => exact .dispatched hst htype (hev.depsDone hdeps) hres
  | parked hst htype hdeps hres => exact .parked hst htype (hev.depsDone hdeps) hres
  | @heard sig g hst htype hdeps hfirst hg hid hused hres =>
    obtain ⟨g', hg', hkeep⟩ := hev.signals g hg
    exact .heard hst htype (hev.depsDone hdeps) hfirst hg' (hkeep.id.trans hid) (hkeep.done hused)
      hres

theorem Signal.Fate.evolve (h : g.Fate runID v w g') (hev : w.Evolves w') :
    g.Fate runID v w' g' := by
  cases h with
  | same heq => exact .same heq
  | used ht hrun htype hne hfirst ht' hid hst heq =>
    exact .used ht hrun htype hne hfirst (hev.mem_of_terminal ht' (by rw [hst]; rfl)) hid hst heq

theorem Course.refl (v : Db) : Course runID v v :=
  ⟨fun t ht _ => ⟨t, ht, rfl, .same rfl⟩, fun g hg => ⟨g, hg, .same rfl⟩⟩

/-- A step that has not been completed still has the signals that it had, because no
other step wants them. -/
theorem Course.reaches (h : Course runID v w) (hev : v.Evolves w) (hwants : DistinctWants runID v)
    (ht : t ∈ v.steps) (hrun : t.workflowRunID = runID) (htype : t.taskType = signalWaitTaskType)
    (ht' : t' ∈ w.steps) (hinfo : t'.info = t.info) (hne : t'.status ≠ .completed)
    (hg : g.Reaches v t) : g.Reaches w t' := by
  obtain ⟨g', hg', hid, -⟩ := hev.signals g hg.mem
  obtain ⟨g₀, hg₀, hfate⟩ := h.signals g' hg'
  refine Signal.Reaches.of_info (s := t) ?_ hinfo
  cases hfate with
  | same heq =>
    obtain rfl : g₀ = g := Table.eq_of_key_eq hg₀ hg.mem (heq ▸ hid)
    exact ⟨heq ▸ hg', hg.run, hg.name, hg.unused⟩
  | @used x x' hx hxrun hxtype _ hfirst hx' hxid hxst heq =>
    obtain rfl : g₀ = g := Table.eq_of_key_eq hg₀ hg.mem (by rw [← hid, heq])
    obtain rfl := hwants x hx t ht hxrun hrun hxtype htype
      (hfirst.reaches.name.symm.trans hg.name)
    obtain rfl : x' = t' := Table.eq_of_key_eq hx' ht' (hxid.trans (Step.id_of_info hinfo).symm)
    exact absurd hxst hne

/-- A change of one step of the run. -/
theorem Course.steps_put (h : Course runID v w) (hev : w.Evolves w') {x x' : Step}
    (hx : w.steps.get? x.id = some x) (heq : w'.steps = w.steps.put x')
    (hinfo : x'.info = x.info)
    (hnew : ∀ t ∈ v.steps, t.workflowRunID = runID → x.info = t.info → t.Fate v w x →
      t.Fate v w' x') :
    ∀ t ∈ v.steps, t.workflowRunID = runID →
      ∃ t' ∈ w'.steps, t'.info = t.info ∧ t.Fate v w' t' := by
  intro t ht hrun
  obtain ⟨t', ht', hinfo', hfate⟩ := h.steps t ht hrun
  rw [heq]
  by_cases hid : t'.id = x'.id
  · obtain rfl : t' = x :=
      Table.eq_of_key_eq ht' (Table.mem_of_get? hx) (hid.trans (Step.id_of_info hinfo))
    exact ⟨x', Table.mem_put_self _ _, hinfo.trans hinfo', hnew t ht hrun hinfo' hfate⟩
  · exact ⟨t', Table.mem_put.mpr (Or.inr ⟨ht', hid⟩), hinfo', hfate.evolve hev⟩

/-- A change that leaves the steps and the signals alone. -/
theorem Course.frame (h : Course runID v w) (hev : w.Evolves w') (hsteps : w'.steps = w.steps)
    (hsignals : w'.signals = w.signals) : Course runID v w' := by
  refine ⟨fun t ht hrun => ?_, fun g' hg' => ?_⟩
  · obtain ⟨t', ht', hinfo, hfate⟩ := h.steps t ht hrun
    exact ⟨t', hsteps ▸ ht', hinfo, hfate.evolve hev⟩
  · obtain ⟨g, hg, hfate⟩ := h.signals g' (hsignals ▸ hg')
    exact ⟨g, hg, hfate.evolve hev⟩

/-- A pending step has been pending from the beginning. -/
theorem Step.Fate.eq_of_pending (h : t.Fate v w t') (hst : t'.status = .pending) : t' = t := by
  cases h with
  | same heq => exact heq
  | dispatched _ _ _ hres => cases hst.symm.trans (congrArg Prod.fst hres)
  | parked _ _ _ hres => cases hst.symm.trans (congrArg Prod.fst hres)
  | heard _ _ _ _ _ _ _ hres => cases hst.symm.trans (congrArg Prod.fst hres)

/-- A step that waits has waited from the beginning or was pending. -/
theorem Step.Fate.waits (h : t.Fate v w t')
    (hst : t'.status = .pending ∨ t'.status = .waiting) :
    (t.status = .pending ∨ t.status = .waiting) ∧ t'.attemptCount = t.attemptCount := by
  cases h with
  | same heq => exact heq ▸ ⟨hst, rfl⟩
  | dispatched _ _ _ hres =>
    rw [show t'.status = .queued from congrArg Prod.fst hres] at hst
    simp at hst
  | parked hst' _ _ hres => exact ⟨Or.inl hst', congrArg (fun r => r.2.2) hres⟩
  | heard _ _ _ _ _ _ _ hres =>
    rw [show t'.status = .completed from congrArg Prod.fst hres] at hst
    simp at hst

/-- Each single change keeps to the course, where nothing is blocked. -/
theorem Course.pass {u : List Write} (h : Course runID v w) (hpath : Passes runID v w)
    (hb : Base v) (hwants : DistinctWants runID v)
    (hun : ∀ t ∈ w.steps, t.workflowRunID = runID → t.status = .pending → ¬ Blocked w.steps t)
    (hpass : Pass runID w u) : Course runID v (backend.applyAll w u) := by
  have hev := hpass.evolves
  cases hpass with
  | skip hx hrun hst hblocked => exact absurd hblocked (hun _ (Table.mem_of_get? hx) hrun hst)
  | @hear x r now now' sig hx hrun hst htype hdeps hsig hfirst =>
    have hx' := Table.mem_of_get? hx
    have hdone : ∀ t : Step, x.info = t.info → DepsDone w.steps t := by
      intro t hinfo
      rw [DepsDone, ← Step.deps_of_info hinfo, ← Step.run_of_info hinfo]
      exact hdeps
    have hne : x.status ≠ .completed := by
      rcases hst with hst | hst <;> simp [hst]
    -- The signal was there, and it was the earliest one then.
    have hfirst' : ∀ t ∈ v.steps, t.workflowRunID = runID → x.info = t.info → sig.First v t := by
      intro t ht htrun hinfo
      have htype' := (Step.type_of_info hinfo).symm.trans htype
      exact ⟨(hpath.reaches hb hsig).of_info hinfo.symm, fun g hg => hfirst g
        (h.reaches (hpath.evolves hb) hwants ht htrun htype' hx' hinfo hne hg)⟩
    refine ⟨h.steps_put hev hx rfl rfl (fun t ht htrun hinfo hfate => ?_), fun g' hg' => ?_⟩
    · obtain ⟨hst', hcount⟩ := hfate.waits hst
      refine .heard hst' ((Step.type_of_info hinfo).symm.trans htype)
        (hev.depsDone (hdone t hinfo)) (hfirst' t ht htrun hinfo)
        (Table.mem_put_self w.signals { sig with processed := true }) rfl rfl ?_
      rw [← hcount]
      rfl
    · rcases Table.mem_put.mp hg' with rfl | ⟨hg', -⟩
      · obtain ⟨g, hg, hfate⟩ := h.signals sig hsig.mem
        obtain ⟨t, ht, hpasses⟩ := hpath.step_back hb hx'
        have hrun' := (Step.run_of_info hpasses.1).symm.trans hrun
        cases hfate with
        | same heq =>
          subst heq
          refine ⟨sig, hg, .used (t := t) ht hrun'
            ((Step.type_of_info hpasses.1).symm.trans htype) (fun hst' => hne ?_)
            (hfirst' t ht hrun' hpasses.1) (Table.mem_put_self _ _)
            (Step.id_of_info hpasses.1) rfl rfl⟩
          rw [hpasses.eq (by simp [hst']) (by simp [hst']), hst']
        | used _ _ _ _ _ _ _ _ heq =>
          have hunused := hsig.unused
          rw [heq] at hunused
          cases hunused
      · obtain ⟨g, hg, hfate⟩ := h.signals g' hg'
        exact ⟨g, hg, hfate.evolve hev⟩
  | @park x r now hx hrun hst htype hdeps hnone =>
    refine ⟨h.steps_put hev hx rfl rfl (fun t ht htrun hinfo hfate => ?_), fun g' hg' => ?_⟩
    · obtain rfl := hfate.eq_of_pending hst
      exact .parked hst htype (hev.depsDone hdeps) rfl
    · obtain ⟨g, hg, hfate⟩ := h.signals g' hg'
      exact ⟨g, hg, hfate.evolve hev⟩
  | @dispatch x r id key messageID now now₁ now₂ now₃ hx hrun hst htype hdeps =>
    refine ⟨h.steps_put hev hx rfl rfl (fun t ht htrun hinfo hfate => ?_), fun g' hg' => ?_⟩
    · obtain rfl := hfate.eq_of_pending hst
      exact .dispatched hst htype (hev.depsDone hdeps) rfl
    · obtain ⟨g, hg, hfate⟩ := h.signals g' hg'
      exact ⟨g, hg, hfate.evolve hev⟩
  | start => exact h.frame hev rfl rfl
  | finish => exact h.frame hev rfl rfl
  | disarm => exact h.frame hev rfl rfl

/-- A table in which no pending step of the run is blocked stays one when a step is
changed that is then neither pending nor blocks others. -/
theorem unblocked_put {T : Table Step.id} {x : Step} (hp : x.status ≠ .pending)
    (hbad : x.status.isBad = false)
    (hun : ∀ t ∈ T, t.workflowRunID = runID → t.status = .pending → ¬ Blocked T t) :
    ∀ t ∈ T.put x, t.workflowRunID = runID → t.status = .pending → ¬ Blocked (T.put x) t := by
  rintro t ht hrun hst ⟨d, hd, hdrun, hname, hdbad⟩
  rcases Table.mem_put.mp ht with rfl | ⟨ht, -⟩
  · exact hp hst
  · rcases Table.mem_put.mp hd with rfl | ⟨hd, -⟩
    · rw [hbad] at hdbad
      cases hdbad
    · exact hun t ht hrun hst ⟨d, hd, hdrun, hname, hdbad⟩

/-- Where no step is blocked, evaluations block none. -/
theorem Passes.unblocked (h : Passes runID v w) (hb : Base v)
    (hun : ∀ t ∈ v.steps, t.workflowRunID = runID → t.status = .pending → ¬ Blocked v.steps t) :
    ∀ t ∈ w.steps, t.workflowRunID = runID → t.status = .pending → ¬ Blocked w.steps t := by
  refine h.induct hb (P := fun w => ∀ t ∈ w.steps, t.workflowRunID = runID → t.status = .pending →
    ¬ Blocked w.steps t) hun (fun w u _ hpass ih => ?_)
  cases hpass with
  | skip hx hrun hst hblocked => exact absurd hblocked (ih _ (Table.mem_of_get? hx) hrun hst)
  | hear => exact unblocked_put (fun h => by cases h) rfl ih
  | park => exact unblocked_put (fun h => by cases h) rfl ih
  | dispatch => exact unblocked_put (fun h => by cases h) rfl ih
  | start => exact ih
  | finish => exact ih
  | disarm => exact ih

/-- Evaluations keep to the course. -/
theorem Passes.course (h : Passes runID v w) (hb : Base v) (hwants : DistinctWants runID v)
    (hun : ∀ t ∈ v.steps, t.workflowRunID = runID → t.status = .pending → ¬ Blocked v.steps t) :
    Course runID v w := by
  have hboth := h.induct hb (P := fun w => Passes runID v w ∧ Course runID v w)
    ⟨.refl v, .refl v⟩ ?_
  · exact hboth.2
  · rintro w u - hpass ⟨hpath, ih⟩
    exact ⟨hpath.trans (.one hpass), ih.pass hpath hb hwants (hpath.unblocked hb hun) hpass⟩

/-- A step that counts as running goes on to do so. -/
theorem Step.Passes.inFlight (h : t.Passes t') (hfly : t.status.inFlight = true) :
    t'.status.inFlight = true := by
  rcases h.2 with rfl | ⟨hst, -⟩ | ⟨hst, -⟩ | ⟨hst, -⟩ | ⟨-, hst', -⟩
  · exact hfly
  · rw [hst] at hfly
    cases hfly
  · rw [hst] at hfly
    cases hfly
  · rw [hst] at hfly
    cases hfly
  · rw [hst']
    rfl

/-- What a single change makes of the run. -/
theorem Pass.run {u : List Write} (h : Pass runID w u) {r : WorkflowRun}
    (hr : w.runs.get? runID = some r) : ∃ r', (backend.applyAll w u).runs.get? runID = some r' ∧
      (r'.status = r.status ∨ runTerminal r'.status = true ∨
        r.status = .pending ∧ r'.status = .running ∧
          ∃ t ∈ w.steps, t.workflowRunID = runID ∧ t.status.inFlight = true) := by
  obtain rfl : r.id = runID := Table.key_of_get? hr
  have hcount : ∀ {r₁ : WorkflowRun}, w.runs.get? r.id = some r₁ → ∃ r',
      (w.runs.put { r₁ with historySeq := r₁.historySeq + 1 }).get? r.id = some r' ∧
        r'.status = r.status := by
    intro r₁ hr₁
    obtain rfl := Option.some.inj (hr.symm.trans hr₁)
    exact ⟨_, Table.get?_put_self _ _, rfl⟩
  cases h with
  | skip _ _ _ _ hr₁ =>
    obtain ⟨r', hr', hst⟩ := hcount hr₁
    exact ⟨r', hr', Or.inl hst⟩
  | hear _ _ _ _ _ _ _ hr₁ =>
    obtain ⟨r', hr', hst⟩ := hcount hr₁
    exact ⟨r', hr', Or.inl hst⟩
  | dispatch _ _ _ _ _ _ _ _ hr₁ =>
    obtain ⟨r', hr', hst⟩ := hcount hr₁
    exact ⟨r', hr', Or.inl hst⟩
  | park => exact ⟨r, hr, Or.inl rfl⟩
  | disarm => exact ⟨r, hr, Or.inl rfl⟩
  | start hr₁ hst hfly =>
    obtain rfl := Option.some.inj (hr.symm.trans hr₁)
    exact ⟨_, Table.get?_put_self _ _, Or.inr (Or.inr ⟨hst, rfl, hfly⟩)⟩
  | @finish _ next errMsg payload now now' hr₁ _ _ hout =>
    obtain rfl := Option.some.inj (hr.symm.trans hr₁)
    have hend : runTerminal next = true := by cases next <;> first | rfl | exact hout.elim
    exact ⟨_, Table.get?_put_self _ _, Or.inr (Or.inl hend)⟩

/-- What evaluations make of the run. -/
theorem Passes.run (h : Passes runID v w) (hb : Base v) {r : WorkflowRun}
    (hr : v.runs.get? runID = some r) : ∃ r', w.runs.get? runID = some r' ∧
      (r'.status = r.status ∨ runTerminal r'.status = true ∨
        r.status = .pending ∧ r'.status = .running ∧
          ∃ t ∈ w.steps, t.workflowRunID = runID ∧ t.status.inFlight = true) := by
  refine h.induct hb (P := fun w => ∃ r', w.runs.get? runID = some r' ∧
    (r'.status = r.status ∨ runTerminal r'.status = true ∨
      r.status = .pending ∧ r'.status = .running ∧
        ∃ t ∈ w.steps, t.workflowRunID = runID ∧ t.status.inFlight = true))
    ⟨r, hr, Or.inl rfl⟩ ?_
  rintro w u - hpass ⟨r', hr', hcase⟩
  obtain ⟨r'', hr'', hcase'⟩ := hpass.run hr'
  have hfly : (∃ t ∈ w.steps, t.workflowRunID = runID ∧ t.status.inFlight = true) →
      ∃ t ∈ (backend.applyAll w u).steps, t.workflowRunID = runID ∧ t.status.inFlight = true := by
    rintro ⟨t, ht, hrun, hfly⟩
    obtain ⟨t', ht', hp⟩ := hpass.step ht
    exact ⟨t', ht', (Step.run_of_info hp.1).trans hrun, hp.inFlight hfly⟩
  refine ⟨r'', hr'', ?_⟩
  rcases hcase' with heq | hend | ⟨hpend, hst, ht⟩
  · rw [heq]
    exact hcase.imp_right (Or.imp_right (And.imp_right (And.imp_right hfly)))
  · exact Or.inr (Or.inl hend)
  · rcases hcase with heq | hend | ⟨hpend', -⟩
    · exact Or.inr (Or.inr ⟨heq.symm.trans hpend, hst, hfly ht⟩)
    · rw [hpend] at hend
      cases hend
    · exact Or.inr (Or.inr ⟨hpend', hst, hfly ht⟩)

/-- There was a run to be evaluated, if there is one. -/
theorem Passes.run_back (h : Passes runID v w) {r' : WorkflowRun}
    (hr' : w.runs.get? runID = some r') : ∃ r, v.runs.get? runID = some r := by
  rcases Relation.ReflTransGen.cases_head h with rfl | ⟨_, ⟨u, hpass, -⟩, -⟩
  · exact ⟨r', hr'⟩
  · cases hpass with
    | skip _ _ _ _ hr => exact ⟨_, hr⟩
    | hear _ _ _ _ _ _ _ hr => exact ⟨_, hr⟩
    | park _ _ _ _ _ _ hr => exact ⟨_, hr⟩
    | dispatch _ _ _ _ _ _ _ _ hr => exact ⟨_, hr⟩
    | start hr => exact ⟨_, hr⟩
    | finish hr => exact ⟨_, hr⟩
    | disarm _ _ _ hr => exact ⟨_, hr⟩

end Course

/-- Evaluations that began at `v` have come to rest at `w`. -/
structure Final (runID : UUID) (v w : Db) : Prop where
  path : Passes runID v w
  orderly : Orderly w
  unready : ∀ t ∈ w.steps, t.workflowRunID = runID → t.status = .pending → ¬ DepsDone w.steps t
  started : Started runID w

/-- What becomes of a step in the end, given whether it becomes ready. -/
inductive Step.Verdict (v : Db) (t : Step) (ready : Prop) :
    StepStatus × Option RawMessage × ℕ → Prop
  | kept : (t.status = .pending → ¬ ready) → Verdict v t ready t.result
  | dispatched : t.status = .pending → ready → t.taskType ≠ signalWaitTaskType →
      Verdict v t ready (.queued, t.output, t.attemptCount + 1)
  | parked : t.status = .pending → ready → t.taskType = signalWaitTaskType →
      (∀ g : Signal, ¬ g.Reaches v t) → Verdict v t ready (.waiting, t.output, t.attemptCount)
  | heard {sig : Signal} : t.status = .pending → ready → t.taskType = signalWaitTaskType →
      sig.First v t → Verdict v t ready (.completed, some sig.payload, t.attemptCount)

/-- What is found in one store about the run is found in the other: the status of
the run, the status, the output and the number of attempts of each step, the signals
that have been used, and the attempts by their steps and numbers. -/
structure Agrees (runID : UUID) (v v' : Db) : Prop where
  run : ∀ r, v.runs.get? runID = some r → ∃ r', v'.runs.get? runID = some r' ∧ r'.status = r.status
  steps : ∀ t ∈ v.steps, t.workflowRunID = runID →
    ∃ t' ∈ v'.steps, t'.id = t.id ∧ t'.result = t.result
  signals : ∀ g ∈ v.signals, g.workflowRunID = runID →
    ∃ g' ∈ v'.signals, g'.id = g.id ∧ g'.processed = g.processed
  attempts : ∀ a ∈ v.attempts, a.workflowRunID = runID →
    ∃ a' ∈ v'.attempts, a'.stepID = a.stepID ∧ a'.attemptNumber = a.attemptNumber

section Final

variable {runID : UUID} {v w w' : Db} {t t' t'' : Step}

/-- Only one signal is the earliest. -/
theorem Signal.First.unique {g g' : Signal} (h : g.First v t) (h' : g'.First v t)
    (htimes : DistinctTimes runID v) (hrun : t.workflowRunID = runID) : g = g' :=
  htimes g h.reaches.mem g' h'.reaches.mem (h.reaches.run.trans hrun) (h'.reaches.run.trans hrun)
    (le_antisymm (h.earliest g' h'.reaches) (h'.earliest g h.reaches))

/-- What becomes of a step is determined by its dependencies. -/
theorem Step.Verdict.unique {p : Prop} {x y : StepStatus × Option RawMessage × ℕ}
    (h : t.Verdict v p x) (h' : t.Verdict v p y) (htimes : DistinctTimes runID v)
    (hrun : t.workflowRunID = runID) : x = y := by
  cases h with
  | kept hkept =>
    cases h' with
    | kept => rfl
    | dispatched hst hp => exact absurd hp (hkept hst)
    | parked hst hp => exact absurd hp (hkept hst)
    | heard hst hp => exact absurd hp (hkept hst)
  | dispatched hst hp htype =>
    cases h' with
    | kept hkept => exact absurd hp (hkept hst)
    | dispatched => rfl
    | parked _ _ htype' => exact absurd htype' htype
    | heard _ _ htype' => exact absurd htype' htype
  | parked hst hp htype hnone =>
    cases h' with
    | kept hkept => exact absurd hp (hkept hst)
    | dispatched _ _ htype' => exact absurd htype htype'
    | parked => rfl
    | heard _ _ _ hfirst => exact absurd hfirst.reaches (hnone _)
  | heard hst hp htype hfirst =>
    cases h' with
    | kept hkept => exact absurd hp (hkept hst)
    | dispatched _ _ htype' => exact absurd htype htype'
    | parked _ _ _ hnone => exact absurd hfirst.reaches (hnone _)
    | heard _ _ _ hfirst' => rw [hfirst.unique hfirst' htimes hrun]

namespace Final

/-- The steps and signals of a final state have had their fates. -/
theorem course (h : Final runID v w) (hv : Orderly v) (hwants : DistinctWants runID v) :
    Course runID v w :=
  h.path.course hv.base hwants (hv.quiescent runID).unblocked

/-- In a final state every step has its verdict. -/
theorem verdict (h : Final runID v w) (hv : Orderly v) (hwants : DistinctWants runID v)
    (ht : t ∈ v.steps) (hrun : t.workflowRunID = runID) (ht' : t' ∈ w.steps)
    (hid : t'.id = t.id) : t.Verdict v (DepsDone w.steps t) t'.result := by
  have hcourse := h.course hv hwants
  obtain ⟨x, hx, hinfo, hfate⟩ := hcourse.steps t ht hrun
  obtain rfl : x = t' := Table.eq_of_key_eq hx ht' ((Step.id_of_info hinfo).trans hid.symm)
  cases hfate with
  | same heq =>
    subst heq
    exact .kept (fun hst => h.unready _ hx hrun hst)
  | dispatched hst htype hdeps hres =>
    rw [hres]
    exact .dispatched hst hdeps htype
  | parked hst htype hdeps hres =>
    have hwait : x.status = .waiting := congrArg Prod.fst hres
    rw [hres]
    refine .parked hst hdeps htype (fun g hg => ?_)
    exact h.orderly.heard runID x hx ((Step.run_of_info hinfo).trans hrun) hwait g
      (hcourse.reaches (h.path.evolves hv.base) hwants ht hrun htype hx hinfo
        (by simp [hwait]) hg)
  | heard hst htype hdeps hfirst _ _ _ hres =>
    rcases hst with hst | hst
    · rw [hres]
      exact .heard hst hdeps htype hfirst
    · exact absurd hfirst.reaches (hv.heard runID t ht hrun hst _)

/-- A step is ready in one of two ends if it is in the other one, if they agree about
the steps that it depends on. -/
theorem depsDone (h : Final runID v w) (h' : Final runID v w') (hb : Base v)
    (hrun : t.workflowRunID = runID)
    (hsame : ∀ d ∈ v.steps, d.workflowRunID = runID → d.stepName ∈ t.dependsOn →
      ∀ x ∈ w.steps, x.id = d.id → ∀ y ∈ w'.steps, y.id = d.id → y.result = x.result)
    (hdeps : DepsDone w.steps t) : DepsDone w'.steps t := by
  intro dep hdep
  obtain ⟨x, hx, hxrun, hname, hst⟩ := hdeps dep hdep
  obtain ⟨d, hd, hp⟩ := h.path.step_back hb hx
  obtain ⟨y, hy, hp'⟩ := h'.path.step hb hd
  have hinfo : y.info = x.info := hp'.1.trans hp.1.symm
  have hresult := hsame d hd ((Step.run_of_info hp.1).symm.trans (hxrun.trans hrun))
    ((Step.name_of_info hp.1).symm.trans hname ▸ hdep) x hx (Step.id_of_info hp.1) y hy
    (Step.id_of_info hp'.1)
  exact ⟨y, hy, (Step.run_of_info hinfo).trans hxrun, (Step.name_of_info hinfo).trans hname,
    (Step.result_status hresult).trans hst⟩

/-- The ends agree about the steps. -/
theorem result_eq (h : Final runID v w) (h' : Final runID v w') (hv : Orderly v)
    (hwants : DistinctWants runID v) (htimes : DistinctTimes runID v)
    (ht : t ∈ v.steps) (hrun : t.workflowRunID = runID) (ht' : t' ∈ w.steps) (hid' : t'.id = t.id)
    (ht'' : t'' ∈ w'.steps) (hid'' : t''.id = t.id) : t''.result = t'.result := by
  obtain ⟨rank, hrank⟩ := hv.base.graph.exists_rank ht
  rw [hrun] at hrank
  -- By induction along the dependencies.
  induction hn : rank t.stepName using Nat.strong_induction_on generalizing t t' t'' with
  | h n ih =>
    have hsame : ∀ d ∈ v.steps, d.workflowRunID = runID → d.stepName ∈ t.dependsOn →
        ∀ x ∈ w.steps, x.id = d.id → ∀ y ∈ w'.steps, y.id = d.id → y.result = x.result :=
      fun d hd hdrun hdep x hx hxid y hy hyid =>
        ih _ (hn ▸ hrank t ht hrun _ hdep) hd hdrun hx hxid hy hyid rfl
    have hready : DepsDone w'.steps t ↔ DepsDone w.steps t :=
      ⟨h'.depsDone h hv.base hrun (fun d hd hdrun hdep x hx hxid y hy hyid =>
          (hsame d hd hdrun hdep y hy hyid x hx hxid).symm),
        h.depsDone h' hv.base hrun hsame⟩
    have hverdict := h'.verdict hv hwants ht hrun ht'' hid''
    rw [propext hready] at hverdict
    exact hverdict.unique (h.verdict hv hwants ht hrun ht' hid') htimes hrun

/-- Each step of one end is found in the other end. -/
theorem step (h : Final runID v w) (h' : Final runID v w') (hv : Orderly v)
    (hwants : DistinctWants runID v) (htimes : DistinctTimes runID v)
    (ht : t ∈ w.steps) (hrun : t.workflowRunID = runID) :
    ∃ t' ∈ w'.steps, t'.id = t.id ∧ t'.workflowRunID = runID ∧ t'.result = t.result := by
  obtain ⟨x, hx, hp⟩ := h.path.step_back hv.base ht
  obtain ⟨t', ht', hp'⟩ := h'.path.step hv.base hx
  have hinfo : t'.info = t.info := hp'.1.trans hp.1.symm
  exact ⟨t', ht', Step.id_of_info hinfo, (Step.run_of_info hinfo).trans hrun,
    h.result_eq h' hv hwants htimes hx ((Step.run_of_info hp.1).symm.trans hrun) ht
      (Step.id_of_info hp.1) ht' (Step.id_of_info hp'.1)⟩

/-- What all steps of one end have in their status, those of the other end have. -/
theorem all (h : Final runID v w) (h' : Final runID v w') (hv : Orderly v)
    (hwants : DistinctWants runID v) (htimes : DistinctTimes runID v) {p : StepStatus → Prop}
    (hall : ∀ t ∈ w.steps, t.workflowRunID = runID → p t.status) :
    ∀ t ∈ w'.steps, t.workflowRunID = runID → p t.status := by
  intro t ht hrun
  obtain ⟨t', ht', -, hrun', hres⟩ := h'.step h hv hwants htimes ht hrun
  exact Step.result_status hres ▸ hall t' ht' hrun'

/-- A signal that has been used in one end has been used in the other. -/
theorem used (h : Final runID v w) (h' : Final runID v w') (hv : Orderly v)
    (hwants : DistinctWants runID v) (htimes : DistinctTimes runID v) {g g' g'' : Signal}
    (hg : g ∈ v.signals) (hg' : g' ∈ w.signals) (hid' : g'.id = g.id) (hg'' : g'' ∈ w'.signals)
    (hid'' : g''.id = g.id) (hused : g'.processed = true) : g''.processed = true := by
  obtain ⟨g₀, hg₀, hfate⟩ := (h.course hv hwants).signals g' hg'
  cases hfate with
  | same heq =>
    obtain rfl : g' = g := Table.eq_of_key_eq (heq ▸ hg₀) hg hid'
    obtain ⟨y, hy, hkeep⟩ := (h'.path.evolves hv.base).signals g' hg
    obtain rfl : y = g'' := Table.eq_of_key_eq hy hg'' (hkeep.id.trans hid''.symm)
    exact hkeep.done hused
  | @used t t' ht hrun _ hne hfirst ht' hid hst heq =>
    obtain rfl : g₀ = g := Table.eq_of_key_eq hg₀ hg (by rw [← hid', heq])
    obtain ⟨t'', ht'', hinfo, hfate⟩ := (h'.course hv hwants).steps t ht hrun
    have hdone : t''.status = .completed := (Step.result_status (h.result_eq h' hv hwants htimes
      ht hrun ht' hid ht'' (Step.id_of_info hinfo))).trans hst
    cases hfate with
    | same heq' => exact absurd (heq' ▸ hdone) hne
    | dispatched _ _ _ hres => cases hdone.symm.trans (congrArg Prod.fst hres)
    | parked _ _ _ hres => cases hdone.symm.trans (congrArg Prod.fst hres)
    | @heard sig x _ _ _ hfirst' hx hxid hxused =>
      obtain rfl := hfirst.unique hfirst' htimes hrun
      obtain rfl : x = g'' := Table.eq_of_key_eq hx hg'' (hxid.trans hid''.symm)
      exact hxused

/-- The run goes on in both ends or in none. -/
theorem live (h : Final runID v w) (h' : Final runID v w') (hv : Orderly v)
    (hwants : DistinctWants runID v) (htimes : DistinctTimes runID v) {r r' : WorkflowRun}
    (hr : w.runs.get? runID = some r) (hr' : w'.runs.get? runID = some r')
    (hlive : runTerminal r.status = false) : runTerminal r'.status = false := by
  obtain rfl : r.id = runID := Table.key_of_get? hr
  have hid : r'.id = r.id := Table.key_of_get? hr'
  refine Bool.eq_false_iff.mpr (fun hend => ?_)
  have hall' := (h'.orderly.ended_iff (hid.symm ▸ hr')).mp hend
  rw [hid] at hall'
  have hall : AllDone w.steps r.id :=
    h'.all h hv hwants htimes (p := fun st => stepTerminal st = true) hall'
  rw [(h.orderly.ended_iff hr).mpr hall] at hlive
  cases hlive

/-- A run that waits in one end waits in the other, and has waited. -/
theorem pending (h : Final runID v w) (h' : Final runID v w') (hv : Orderly v)
    (hwants : DistinctWants runID v) (htimes : DistinctTimes runID v) {r r' : WorkflowRun}
    (hr : w.runs.get? runID = some r) (hr' : w'.runs.get? runID = some r')
    (hst : r.status = .pending) : r'.status = .pending := by
  have hlive' := h.live h' hv hwants htimes hr hr' (by rw [hst]; rfl)
  obtain ⟨r₀, hr₀⟩ := h.path.run_back hr
  obtain ⟨r₁, hr₁, hcase₁⟩ := h.path.run hv.base hr₀
  obtain rfl := Option.some.inj (hr.symm.trans hr₁)
  obtain ⟨r₂, hr₂, hcase₂⟩ := h'.path.run hv.base hr₀
  obtain rfl := Option.some.inj (hr'.symm.trans hr₂)
  have hst₀ : r₀.status = .pending := by
    rcases hcase₁ with heq | hend | ⟨hst₀, -⟩
    · exact heq.symm.trans hst
    · rw [hst] at hend
      cases hend
    · exact hst₀
  rcases hcase₂ with heq | hend | ⟨-, -, t, ht, hrun, hfly⟩
  · exact heq.trans hst₀
  · rw [hlive'] at hend
    cases hend
  · -- A step in flight would have started the run.
    have hnone := h.all h' hv hwants htimes (p := fun st => st.inFlight = false)
      (h.started r hr hst) t ht hrun
    rw [hfly] at hnone
    cases hnone

/-- The ends agree about the run. -/
theorem status_eq (h : Final runID v w) (h' : Final runID v w') (hv : Orderly v)
    (hwants : DistinctWants runID v) (htimes : DistinctTimes runID v) {r r' : WorkflowRun}
    (hr : w.runs.get? runID = some r) (hr' : w'.runs.get? runID = some r') :
    r'.status = r.status := by
  have hid : r.id = runID := Table.key_of_get? hr
  have hid' : r'.id = runID := Table.key_of_get? hr'
  have hall : ∀ {p : StepStatus → Prop}, (∀ t ∈ w.steps, t.workflowRunID = r.id → p t.status) →
      ∀ t ∈ w'.steps, t.workflowRunID = r'.id → p t.status := by
    intro p hp
    rw [hid] at hp
    rw [hid']
    exact h.all h' hv hwants htimes hp
  have hsome : ∀ {st : StepStatus}, (∃ t ∈ w.steps, t.workflowRunID = r.id ∧ t.status = st) →
      ∃ t ∈ w'.steps, t.workflowRunID = r'.id ∧ t.status = st := by
    rintro st ⟨t, ht, hrun, hst⟩
    obtain ⟨t', ht', -, hrun', hres⟩ := h.step h' hv hwants htimes ht (hrun.trans hid)
    exact ⟨t', ht', hrun'.trans hid'.symm, (Step.result_status hres).trans hst⟩
  have hget : w.runs.get? r.id = some r := hid.symm ▸ hr
  have hget' : w'.runs.get? r'.id = some r' := hid'.symm ▸ hr'
  cases hst : r.status with
  | completed =>
    exact (h'.orderly.completed_iff hget').mpr
      (hall (p := (· = .completed)) ((h.orderly.completed_iff hget).mp hst))
  | failed =>
    obtain ⟨hended, hfailed, hnone⟩ := (h.orderly.failed_iff hget).mp hst
    exact (h'.orderly.failed_iff hget').mpr
      ⟨hall (p := fun st => stepTerminal st = true) hended, hsome hfailed,
        hall (p := (· ≠ .cancelled)) hnone⟩
  | cancelled =>
    exact (h'.orderly.cancelled_iff hget').mpr (hsome ((h.orderly.cancelled_iff hget).mp hst))
  | pending => exact h.pending h' hv hwants htimes hr hr' hst
  | running =>
    have hlive' := h.live h' hv hwants htimes hr hr' (by rw [hst]; rfl)
    cases hst' : r'.status with
    | running => rfl
    | pending =>
      have hpending := h'.pending h hv hwants htimes hr' hr hst'
      rw [hst] at hpending
      cases hpending
    | completed =>
      rw [hst'] at hlive'
      cases hlive'
    | failed =>
      rw [hst'] at hlive'
      cases hlive'
    | cancelled =>
      rw [hst'] at hlive'
      cases hlive'

/-- Evaluations come to the same end. -/
theorem agrees (h : Final runID v w) (h' : Final runID v w') (hv : Orderly v)
    (hwants : DistinctWants runID v) (htimes : DistinctTimes runID v) : Agrees runID w w' where
  run r hr := by
    obtain ⟨r₀, hr₀⟩ := h.path.run_back hr
    obtain ⟨r', hr', -⟩ := h'.path.run hv.base hr₀
    exact ⟨r', hr', h.status_eq h' hv hwants htimes hr hr'⟩
  steps t ht hrun := by
    obtain ⟨t', ht', hid, -, hres⟩ := h.step h' hv hwants htimes ht hrun
    exact ⟨t', ht', hid, hres⟩
  signals g hg _ := by
    obtain ⟨g₀, hg₀, hfate⟩ := (h.course hv hwants).signals g hg
    have hid : g.id = g₀.id := by
      cases hfate with
      | same heq => rw [heq]
      | used _ _ _ _ _ _ _ _ heq => rw [heq]
    obtain ⟨g', hg', hkeep⟩ := (h'.path.evolves hv.base).signals g₀ hg₀
    refine ⟨g', hg', hkeep.id.trans hid.symm,
      Bool.eq_iff_iff.mpr ⟨fun hused => ?_, fun hused => ?_⟩⟩
    · exact h'.used h hv hwants htimes hg₀ hg' hkeep.id hg hid hused
    · exact h.used h' hv hwants htimes hg₀ hg hid hg' hkeep.id hused
  attempts a ha hrun := by
    obtain ⟨t, ht, hid, htrun, -⟩ := h.orderly.base.ledger.parent a ha
    obtain ⟨t', ht', hid', -, hres⟩ := h.step h' hv hwants htimes ht (htrun.symm.trans hrun)
    have hnumber := (h.orderly.base.ledger.numbers t ht a.attemptNumber).mp ⟨a, ha, hid.symm, rfl⟩
    rw [← Step.result_count hres] at hnumber
    obtain ⟨a', ha', hstep, hnumber'⟩ := (h'.orderly.base.ledger.numbers t' ht' _).mpr hnumber
    exact ⟨a', ha', hstep.trans (hid'.trans hid), hnumber'⟩

end Final

end Final

/-- The number of steps of the run that wait for a signal by their type. -/
def signalWaits (runID : UUID) (v : Db) : ℕ :=
  (v.steps.rows.filter (fun t => t.workflowRunID = runID ∧ t.taskType = signalWaitTaskType)).length

/-- The number of those among them that are pending. -/
def pendingWaits (runID : UUID) (v : Db) : ℕ :=
  (v.steps.rows.filter (fun t => (t.workflowRunID = runID ∧ t.taskType = signalWaitTaskType) ∧
    t.status = .pending)).length

/-- `Reconcile` has nothing to do for the run: it is not there, or has ended, or it
can only wait. -/
def Idle (runID : UUID) (v : Db) : Prop :=
  (∀ r, v.runs.get? runID = some r → runTerminal r.status = true) ∨ AtRest runID v

section Repeated

variable {runID : UUID} {v w : Db} {S S' : System}

theorem pendingWaits_le (runID : UUID) (v : Db) : pendingWaits runID v ≤ signalWaits runID v :=
  (List.monotone_filter_right _ (fun t ht => by simp_all)).length_le

/-- An evaluation that leaves something to do has completed a pending step. -/
theorem Evaluated.progress (h : Evaluated runID v w) (hb : Base v) :
    AtRest runID w ∨ pendingWaits runID w < pendingWaits runID v := by
  refine or_iff_not_imp_left.mpr (fun hrest => ?_)
  have hleft : ∃ t ∈ w.steps, t.workflowRunID = runID ∧ t.status = .pending ∧
      DepsDone w.steps t := by
    by_contra hnone
    exact hrest (h.atRest (fun t ht hrun hst hdeps => hnone ⟨t, ht, hrun, hst, hdeps⟩))
  obtain ⟨t, ht, hrun, hst, hdeps⟩ := hleft
  obtain ⟨l, hchain, hleaves, hdone⟩ := h.swept.leaves hb ht hrun hst hdeps
  obtain ⟨d, hdl, hdst, -⟩ := hleaves.last
  obtain ⟨hd, hdrun, -⟩ := hchain.opens hdl
  rw [pendingWaits, pendingWaits, Nat.lt_iff_add_one_le, ← List.length_cons (a := d)]
  refine (List.subperm_of_subset (List.nodup_cons.mpr ⟨fun hmem => ?_, w.steps.nodup_rows.filter _⟩)
    (List.cons_subset.mpr ⟨?_, fun x hx => ?_⟩)).length_le
  · obtain ⟨hmem, hpending⟩ := List.mem_filter.mp hmem
    have hcompleted := (hdone d hdl).status (h.path.base hb) hmem hdrun rfl
    simp [hcompleted] at hpending
  · exact List.mem_filter.mpr ⟨hd, by simp [hdrun, hchain.type hdl, hdst]⟩
  · obtain ⟨hmem, hx⟩ := List.mem_filter.mp hx
    obtain ⟨y, hy, hp⟩ := h.path.step_back hb hmem
    obtain rfl := hp.pending (of_decide_eq_true hx).2
    exact List.mem_filter.mpr ⟨hy, hx⟩

/-- A call of `Reconcile`. -/
theorem System.reconcile_inv {ω : ℕ → Draw} (h : S.next (.reconcile runID ω) = some S') :
    (reconcile runID).Admissible backend ω S.db [] ∧ S'.db = reconciled runID ω S.db := by
  simp only [System.next] at h
  obtain ⟨hω, rfl⟩ := System.tx_inv h
  exact ⟨hω, rfl⟩

/-- A call has nothing to do, and does nothing, or it evaluates the run. -/
theorem System.reconcile_cases {ω : ℕ → Draw} (hb : Base S.db)
    (h : S.next (.reconcile runID ω) = some S') :
    (Idle runID S.db ∧ S'.db = S.db) ∨ Evaluated runID S.db S'.db := by
  obtain ⟨hω, hdb⟩ := System.reconcile_inv h
  rw [hdb]
  rcases reconciled_cases hb hω with ⟨heq, hnone⟩ | ⟨-, -, -, heval⟩
  · exact Or.inl ⟨Or.inl hnone, heq⟩
  · exact Or.inr heval

/-- Evaluating an idle run changes nothing. -/
theorem Idle.reconcile {ω : ℕ → Draw} (hidle : Idle runID S.db) (hb : Base S.db)
    (h : S.next (.reconcile runID ω) = some S') : S'.db = S.db := by
  obtain ⟨hω, hdb⟩ := System.reconcile_inv h
  rw [hdb]
  rcases reconciled_cases hb hω with ⟨heq, -⟩ | ⟨r, hr, hlive, heval⟩
  · exact heq
  · rcases hidle with hnone | hrest
    · rw [hnone r hr] at hlive
      cases hlive
    · exact hrest.passes heval.path

/-- Repeated calls of `Reconcile` with any draws. -/
def Move.reconciles (runID : UUID) (ωs : List (ℕ → Draw)) : List Move :=
  ωs.map (.reconcile runID)

/-- Where there is nothing to do, repeated calls do nothing. -/
theorem Idle.reconciles {ωs : List (ℕ → Draw)} (hidle : Idle runID S.db)
    (h : System.Reachable System.Any S)
    (hrun : System.run (Move.reconciles runID ωs) S = some S') : S'.db = S.db := by
  induction ωs generalizing S with
  | nil => rw [Option.some.inj hrun]
  | cons ω ωs ih =>
    obtain ⟨S₁, hnext, hrest⟩ := Option.bind_eq_some_iff.mp hrun
    have hdb := hidle.reconcile h.ok.orderly.base hnext
    rw [← hdb] at hidle
    exact (ih hidle (h.step trivial hnext) hrest).trans hdb

/-- Repeated calls evaluate the run until there is nothing to do, and each of them
that leaves something to do has completed a pending step. -/
theorem System.reconciles {ωs : List (ℕ → Draw)} (h : System.Reachable System.Any S)
    (hrun : System.run (Move.reconciles runID ωs) S = some S') :
    Passes runID S.db S'.db ∧ (Idle runID S'.db ∨
      pendingWaits runID S'.db + ωs.length ≤ pendingWaits runID S.db) := by
  induction ωs generalizing S with
  | nil =>
    obtain rfl := Option.some.inj hrun
    exact ⟨.refl _, Or.inr le_rfl⟩
  | cons ω ωs ih =>
    obtain ⟨S₁, hnext, hrest⟩ := Option.bind_eq_some_iff.mp hrun
    have h₁ : System.Reachable System.Any S₁ := h.step trivial hnext
    obtain ⟨hpath, hcase⟩ := ih h₁ hrest
    rcases System.reconcile_cases h.ok.orderly.base hnext with ⟨hidle, hdb⟩ | heval
    · rw [hdb] at hpath
      have hdb' := (hdb.symm ▸ hidle : Idle runID S₁.db).reconciles h₁ hrest
      exact ⟨hpath, Or.inl (by rw [hdb', hdb]; exact hidle)⟩
    · refine ⟨heval.path.trans hpath, ?_⟩
      rcases heval.progress h.ok.orderly.base with hatRest | hlt
      · refine Or.inl ?_
        rw [Idle.reconciles (Or.inr hatRest) h₁ hrest]
        exact Or.inr hatRest
      · refine hcase.imp_right (fun hle => ?_)
        rw [List.length_cons]
        omega

/-- After more calls than the run has steps that wait for a signal, there is nothing
to do. -/
theorem System.reconciles_idle {ωs : List (ℕ → Draw)} (h : System.Reachable System.Any S)
    (hlen : signalWaits runID S.db < ωs.length)
    (hrun : System.run (Move.reconciles runID ωs) S = some S') : Idle runID S'.db := by
  refine (System.reconciles h hrun).2.resolve_right (fun hle => ?_)
  have hwaits := pendingWaits_le runID S.db
  omega

/-- More evaluations than signal waits lead to a final state. -/
theorem System.reconciles_final {ωs : List (ℕ → Draw)} (h : System.Reachable System.Any S)
    (hlen : signalWaits runID S.db < ωs.length)
    (hrun : System.run (Move.reconciles runID ωs) S = some S') :
    Final runID S.db S'.db := by
  have horderly : Orderly S'.db := (h.run (fun _ _ _ => trivial) hrun).ok.orderly
  refine ⟨(System.reconciles h hrun).1, horderly, fun t ht hid hst => ?_, fun r hr hst => ?_⟩
  · rcases System.reconciles_idle h hlen hrun with hnone | hrest
    · obtain ⟨r, -, hr, hlive⟩ := horderly.live_of_pending ht hid hst
      rw [hnone r hr] at hlive
      cases hlive
    · exact hrest.unready t ht hid hst
  · rcases System.reconciles_idle h hlen hrun with hnone | hrest
    · have hend := hnone r hr
      rw [hst] at hend
      cases hend
    · exact hrest.started r hr hst

end Repeated

/-- Repeated calls of `Reconcile` stop changing the store after one call more than the
run has steps that wait for a signal, whatever orders they visit the steps in. If no
two of these steps want the same signal and the signals were received at different
times, all orders come to the same: the status of the run, the statuses, outputs and
numbers of attempts of the steps, the signals used and the attempts dispatched. -/
theorem reconcile_confluent {S : System} (h : System.Reachable System.Any S) (runID : UUID) :
    (∀ ωs S', signalWaits runID S.db < ωs.length →
      System.run (Move.reconciles runID ωs) S = some S' →
      ∀ ω S'', S'.next (.reconcile runID ω) = some S'' → S''.db = S'.db) ∧
    (DistinctWants runID S.db → DistinctTimes runID S.db → ∀ ωs ωs' S₁ S₂,
      signalWaits runID S.db < ωs.length → signalWaits runID S.db < ωs'.length →
      System.run (Move.reconciles runID ωs) S = some S₁ →
      System.run (Move.reconciles runID ωs') S = some S₂ → Agrees runID S₁.db S₂.db) := by
  refine ⟨fun ωs S' hlen hrun ω S'' hnext => ?_,
    fun hwants htimes ωs ωs' S₁ S₂ hlen hlen' hrun hrun' => ?_⟩
  · have hbase := (h.run (fun _ _ _ => trivial) hrun).ok.orderly.base
    exact (System.reconciles_idle h hlen hrun).reconcile hbase hnext
  · exact (System.reconciles_final h hlen hrun).agrees (System.reconciles_final h hlen' hrun')
      h.ok.orderly hwants htimes

/-- A step that waits for a signal after another one that does. -/
def queueDefinition : Definition :=
  ⟨"queue", 0, [⟨"a", "work", ["b"], none, 1, 0, 0, 0, 0⟩,
    ⟨"b", "signal_wait", ["c"], none, 1, 0, 0, 0, 0⟩,
    ⟨"c", "signal_wait", ["d"], none, 1, 0, 0, 0, 0⟩, ⟨"d", "work", [], none, 1, 0, 0, 0, 0⟩]⟩

/-- Both signals arrive early, and only the first step that waits uses its one. -/
def queueSystem : System :=
  (System.run ([.registerDefinition queueDefinition (.ticks 100),
    .createRun "queue" 0 none (.ticks 200), .signal 201 "b" none (.ticks 300),
    .signal 201 "c" none (.ticks 350)] ++ Move.claims 211 "w" 400 ++
    [.report 211 "w" true none none (.ticks 500)]) .init).get (by decide +kernel)

/-- Three calls of `Reconcile` that visit the steps one way. -/
def forthSystem : System :=
  (System.run (Move.reconciles 201 [.ticks 600, .ticks 700, .ticks 800]) queueSystem).get
    (by decide +kernel)

/-- Consecutive draws of reversed orders. -/
def Draw.reversed (first i : ℕ) : Draw := { Draw.ticks first i with order := fun _ => Fin.revPerm }

/-- Three calls that visit them the other way. -/
def backSystem : System :=
  (System.run (Move.reconciles 201 [.reversed 600, .reversed 700, .reversed 800]) queueSystem).get
    (by decide +kernel)

/-- Both ways come to the same. -/
theorem reconcile_confluent_queue :
    (∃ t ∈ queueSystem.db.steps.rows, t.stepName = "b" ∧ t.status = .pending) ∧
    (∃ t ∈ forthSystem.db.steps.rows, t.stepName = "a" ∧ t.status = .queued) ∧
    Agrees 201 forthSystem.db backSystem.db := by
  have hreach : System.Reachable System.Any queueSystem :=
    .run .init (fun _ _ _ => trivial) (Option.some_get _).symm
  have hwants : ∀ t ∈ queueSystem.db.steps.rows, ∀ t' ∈ queueSystem.db.steps.rows,
      t.workflowRunID = 201 → t'.workflowRunID = 201 → t.taskType = signalWaitTaskType →
      t'.taskType = signalWaitTaskType → t.wantName = t'.wantName → t.id = t'.id := by
    decide +kernel
  have htimes : ∀ g ∈ queueSystem.db.signals.rows, ∀ g' ∈ queueSystem.db.signals.rows,
      g.receivedAt = g'.receivedAt → g.id = g'.id := by decide +kernel
  have hlen : signalWaits 201 queueSystem.db < 3 := by decide +kernel
  refine ⟨by decide +kernel, by decide +kernel, (reconcile_confluent hreach 201).2
    (fun t ht t' ht' hrun hrun' htype htype' hname => ?_) (fun g hg g' hg' _ _ hat => ?_)
    [.ticks 600, .ticks 700, .ticks 800] [.reversed 600, .reversed 700, .reversed 800] _ _
    hlen hlen (Option.some_get _).symm (Option.some_get _).symm⟩
  · exact Table.eq_of_key_eq ht ht' (hwants t ht t' ht' hrun hrun' htype htype' hname)
  · exact Table.eq_of_key_eq hg hg' (htimes g hg g' hg' hat)

end Orchestrator
