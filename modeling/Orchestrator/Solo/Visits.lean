import Orchestrator.Lib.Solo
import Orchestrator.Solo.Pass

/-!
# The loops of an evaluation

An evaluation visits the steps of a run in loops, in orders that are left open. Those of
`propagateSkips` skip the steps that are blocked. The first loop of `dispatchReady` looks
for the signals of parked steps. The second one dispatches or parks the steps that are
ready, or completes them with a signal. A loop moves on every step that it can move on when
it visits it, and leaves all others alone.
-/

namespace Orchestrator

open Lib

theorem Step.want_of_info {s t : Step} (h : t.info = s.info) : t.wantName = s.wantName := by
  rw [Step.wantName, Step.wantName, Step.input_of_info h, Step.name_of_info h]

theorem Signal.Reaches.of_info {sig : Signal} {v : Db} {s t : Step} (h : sig.Reaches v s)
    (hinfo : t.info = s.info) : sig.Reaches v t :=
  ⟨h.mem, h.run.trans (Step.run_of_info hinfo).symm, h.name.trans (Step.want_of_info hinfo).symm,
    h.unused⟩

/-- A signal that is unused has been there unused. -/
theorem Pass.unused {runID : UUID} {v : Db} {u : List Write} (h : Pass runID v u) {g : Signal}
    (hg : g ∈ (backend.applyAll v u).signals) (hunused : g.processed = false) :
    g ∈ v.signals := by
  cases h with
  | hear =>
    rcases Table.mem_put.mp hg with rfl | ⟨hg, -⟩
    · cases hunused
    · exact hg
  | _ => exact hg

theorem Passes.reaches {runID : UUID} {v v' : Db} (h : Passes runID v v') (hb : Base v)
    {g : Signal} {t : Step} (hg : g.Reaches v' t) : g.Reaches v t := by
  have hmem : ∀ g : Signal, g ∈ v'.signals → g.processed = false → g ∈ v.signals :=
    h.induct hb (P := fun w => ∀ g : Signal, g ∈ w.signals → g.processed = false → g ∈ v.signals)
      (fun _ hg _ => hg) (fun _ _ _ hpass ih g hg hunused =>
        ih g (hpass.unused hg hunused) hunused)
  exact ⟨hmem g hg.mem hg.unused, hg.run, hg.name, hg.unused⟩

/-- No parked step of the run has a signal that it waits for. -/
def Heard (runID : UUID) (v : Db) : Prop :=
  ∀ t ∈ v.steps, t.workflowRunID = runID → t.status = .waiting → ∀ g : Signal, ¬ g.Reaches v t

/-- The steps and the signals are the same rows. -/
structure Aligned (v v' : Db) : Prop where
  steps : v'.steps = v.steps
  signals : v'.signals = v.signals

theorem Aligned.trans {v v' v'' : Db} (h : Aligned v v') (h' : Aligned v' v'') : Aligned v v'' :=
  ⟨h'.steps.trans h.steps, h'.signals.trans h.signals⟩

theorem Aligned.heard {runID : UUID} {v v' : Db} (h : Aligned v v') (hh : Heard runID v) :
    Heard runID v' := by
  intro t ht hrun hst g hg
  exact hh t (h.steps ▸ ht) hrun hst g ⟨h.signals ▸ hg.mem, hg.run, hg.name, hg.unused⟩

/-- The row of one step is replaced. -/
structure Becomes (v : Db) (t t' : Step) (v' : Db) : Prop where
  info : t'.info = t.info
  steps : v'.steps = v.steps.put t'

/-- The step is skipped. -/
def Skips (v : Db) (t : Step) (v' : Db) : Prop :=
  v'.signals = v.signals ∧ ∃ t', Becomes v t t' v' ∧ t'.status = .skipped

/-- The step is completed by a signal, which is used up. -/
def Resolves (v : Db) (t : Step) (v' : Db) : Prop :=
  t.taskType = signalWaitTaskType ∧ ∃ (t' : Step) (sig : Signal), Becomes v t t' v' ∧
    t'.status = .completed ∧ sig.Reaches v t ∧
    v'.signals = v.signals.put { sig with processed := true }

/-- The step is dispatched, or it is parked because there is no signal for it. -/
def Starts (v : Db) (t : Step) (v' : Db) : Prop :=
  v'.signals = v.signals ∧ ∃ t', Becomes v t t' v' ∧
    ((t'.status = .waiting ∧ ∀ g : Signal, ¬ g.Reaches v t) ∨
      (t'.status = .queued ∧ t.taskType ≠ signalWaitTaskType))

/-- The visit of a step of the run. The step is moved on as `M` says if `C` holds of it. -/
def Visit (C : Db → Step → Prop) (M : Db → Step → Db → Prop) (runID : UUID) (name : String)
    (v v' : Db) : Prop :=
  (v' = v ∧ ∀ t ∈ v.steps, t.workflowRunID = runID → t.stepName = name → ¬ C v t) ∨
    ∃ t ∈ v.steps, t.workflowRunID = runID ∧ t.stepName = name ∧ C v t ∧ M v t v' ∧
      Passes runID v v'

/-- A visit by a loop of `propagateSkips`. -/
abbrev skipping : UUID → String → Db → Db → Prop :=
  Visit (fun v t => t.status = .pending ∧ Blocked v.steps t) Skips

/-- A visit by the first loop of `dispatchReady`. -/
abbrev resolving : UUID → String → Db → Db → Prop :=
  Visit (fun v t => t.status = .waiting ∧ ∃ g : Signal, g.Reaches v t) Resolves

/-- A visit by the second loop of `dispatchReady`. -/
abbrev dispatching : UUID → String → Db → Db → Prop :=
  Visit (fun v t => t.status = .pending ∧ DepsDone v.steps t)
    (fun v t v' => Resolves v t v' ∨ Starts v t v')

/-- The names are those of the steps of the run. -/
def Ranges (runID : UUID) (v : Db) (names : List String) : Prop :=
  ∀ x, x ∈ names ↔ ∃ t ∈ v.steps, t.workflowRunID = runID ∧ t.stepName = x

/-- What the loops of an evaluation do, where `dispatchReady` visits the steps in orders
that satisfy `O`. What comes after them touches neither steps nor signals. -/
inductive Swept (O : List String → Prop) (runID : UUID) (v v' : Db) : Prop
  | intro {names₀ names₁ names₂ : List String} {m₀ m w : Db} :
      Visits (skipping runID) names₀ v m₀ →
      Ranges runID v names₁ → O names₁ → Visits (resolving runID) names₁ m₀ m →
      Ranges runID v names₂ → O names₂ → Visits (dispatching runID) names₂ m w →
      Passes runID w v' → Aligned w v' → Swept O runID v v'

section Visits

variable {C : Db → Step → Prop} {M : Db → Step → Db → Prop} {runID : UUID} {name : String}
  {names : List String} {v v' : Db}

theorem Visit.passes (h : Visit C M runID name v v') : Passes runID v v' := by
  rcases h with ⟨rfl, -⟩ | ⟨_, _, _, _, _, _, hpath⟩
  · exact .refl _
  · exact hpath

theorem visits_passes (h : Visits (Visit C M runID) names v v') : Passes runID v v' :=
  h.rule (I := fun _ w => Passes runID v w) (fun _ _ _ _ _ hpath hvisit =>
    hpath.trans hvisit.passes) (.refl v)

/-- A row is as before, or it is the one that has been replaced. -/
theorem Becomes.mem {t t' x : Step} (h : Becomes v t t' v') (hx : x ∈ v'.steps) :
    x = t' ∨ x ∈ v.steps ∧ x.id ≠ t.id := by
  rw [h.steps] at hx
  refine (Table.mem_put.mp hx).imp_right (fun hx => ⟨hx.1, fun hid => hx.2 ?_⟩)
  exact hid.trans (Step.id_of_info h.info).symm

/-- The rows of other steps stay. -/
theorem Becomes.keeps {t t' x : Step} (h : Becomes v t t' v') (ht : t ∈ v.steps) (hx : x ∈ v.steps)
    (hne : x ≠ t) : x ∈ v'.steps := by
  rw [h.steps]
  refine Table.mem_put.mpr (Or.inr ⟨hx, fun hid => hne ?_⟩)
  exact Table.eq_of_key_eq hx ht (hid.trans (Step.id_of_info h.info))

/-- The first loop of `dispatchReady` leaves no parked step with a signal. -/
theorem heard_of_resolving (hb : Base v) (hnames : Ranges runID v names)
    (h : Visits (resolving runID) names v v') : Heard runID v' := by
  have hdone := h.rule (I := fun rest w => Passes runID v w ∧ ∀ t ∈ w.steps,
    t.workflowRunID = runID → t.status = .waiting → t.stepName ∈ rest ∨ ∀ g : Signal,
      ¬ g.Reaches w t) ?_ ⟨.refl v, fun t ht hrun _ => Or.inl ((hnames _).mpr ⟨t, ht, hrun, rfl⟩)⟩
  · exact fun t ht hrun hst => (hdone.2 t ht hrun hst).resolve_left List.not_mem_nil
  · rintro name rest w w' - ⟨hpath, hleft⟩ hvisit
    refine ⟨hpath.trans hvisit.passes, fun t ht hrun hst => ?_⟩
    rcases hvisit with ⟨rfl, hidle⟩ | ⟨s, hs, hsrun, hname, hC, ⟨-, t', sig, hput, hdone, -⟩, hpass⟩
    · refine (hleft t ht hrun hst).elim (fun hmem => ?_) Or.inr
      rcases List.mem_cons.mp hmem with heq | hmem
      · exact Or.inr (fun g hg => hidle t ht hrun heq ⟨hst, g, hg⟩)
      · exact Or.inl hmem
    · rcases hput.mem ht with rfl | ⟨ht, hid⟩
      · rw [hdone] at hst
        cases hst
      · refine (hleft t ht hrun hst).imp (fun hmem => ?_) (fun hnone g hg =>
          hnone g (hpass.reaches (hpath.base hb) hg))
        refine (List.mem_cons.mp hmem).resolve_left (fun heq => hid ?_)
        have hbw := hpath.base hb
        rw [hbw.graph.name_unique hs ht (hrun.trans hsrun.symm) (heq.trans hname.symm)]

/-- The second loop leaves none either, and a step that is still pending was not ready when
the loop began. -/
theorem heard_of_dispatching (hb : Base v) (hnames : Ranges runID v names)
    (hheard : Heard runID v) (h : Visits (dispatching runID) names v v') :
    Heard runID v' ∧ ∀ t ∈ v'.steps, t.workflowRunID = runID → t.status = .pending →
      ¬ DepsDone v.steps t := by
  have hdone := h.rule (I := fun rest w => Passes runID v w ∧ Heard runID w ∧ ∀ t ∈ w.steps,
    t.workflowRunID = runID → t.status = .pending → t.stepName ∈ rest ∨ ¬ DepsDone v.steps t) ?_
    ⟨.refl v, hheard, fun t ht hrun _ => Or.inl ((hnames _).mpr ⟨t, ht, hrun, rfl⟩)⟩
  · exact ⟨hdone.2.1, fun t ht hrun hst =>
      (hdone.2.2 t ht hrun hst).resolve_left List.not_mem_nil⟩
  · rintro name rest w w' - ⟨hpath, hheardw, hleft⟩ hvisit
    have hbw := hpath.base hb
    refine ⟨hpath.trans hvisit.passes, ?_⟩
    rcases hvisit with ⟨rfl, hidle⟩ | ⟨s, hs, hsrun, hname, hC, hmove, hpass⟩
    · refine ⟨hheardw, fun t ht hrun hst => ?_⟩
      refine (hleft t ht hrun hst).elim (fun hmem => ?_) Or.inr
      rcases List.mem_cons.mp hmem with heq | hmem
      · exact Or.inr (fun hdeps => hidle t ht hrun heq ⟨hst, (hpath.evolves hb).depsDone hdeps⟩)
      · exact Or.inl hmem
    · obtain ⟨t', hput, hpending, hwaiting⟩ : ∃ t', Becomes w s t' w' ∧ t'.status ≠ .pending ∧
          (t'.status = .waiting → ∀ g : Signal, ¬ g.Reaches w s) := by
        rcases hmove with ⟨-, t', sig, hput, hst, -⟩ | ⟨-, t', hput, ⟨hst, hnone⟩ | ⟨hst, -⟩⟩ <;>
          refine ⟨t', hput, by simp [hst], fun hwait => ?_⟩
        · rw [hst] at hwait
          cases hwait
        · exact hnone
        · rw [hst] at hwait
          cases hwait
      refine ⟨fun t ht hrun hst g hg => ?_, fun t ht hrun hst => ?_⟩
      · rcases hput.mem ht with rfl | ⟨ht, -⟩
        · exact hwaiting hst g ((hpass.reaches hbw hg).of_info hput.info.symm)
        · exact hheardw t ht hrun hst g (hpass.reaches hbw hg)
      · rcases hput.mem ht with rfl | ⟨ht, hid⟩
        · exact absurd hst hpending
        · refine (hleft t ht hrun hst).imp_left (fun hmem => ?_)
          refine (List.mem_cons.mp hmem).resolve_left (fun heq => hid ?_)
          rw [hbw.graph.name_unique hs ht (hrun.trans hsrun.symm) (heq.trans hname.symm)]

/-- The names of the steps stay. -/
theorem ranges_passes (hpath : Passes runID v v') (hb : Base v) :
    Ranges runID v names ↔ Ranges runID v' names := by
  refine forall_congr' (fun x => iff_congr Iff.rfl ⟨?_, ?_⟩)
  · rintro ⟨t, ht, hrun, hname⟩
    obtain ⟨t', ht', hpass⟩ := hpath.step hb ht
    exact ⟨t', ht', (Step.run_of_info hpass.1).trans hrun, (Step.name_of_info hpass.1).trans hname⟩
  · rintro ⟨t', ht', hrun, hname⟩
    obtain ⟨t, ht, hpass⟩ := hpath.step_back hb ht'
    exact ⟨t, ht, (Step.run_of_info hpass.1).symm.trans hrun,
      (Step.name_of_info hpass.1).symm.trans hname⟩

variable {O : List String → Prop}

theorem Swept.heard (h : Swept O runID v v') (hb : Base v) : Heard runID v' := by
  obtain ⟨hskips, hnames₁, -, hresolves, hnames₂, -, hdispatches, -, halign⟩ := h
  have hm₀ := visits_passes hskips
  have hm := hm₀.trans (visits_passes hresolves)
  have hheard := heard_of_resolving (hm₀.base hb) ((ranges_passes hm₀ hb).mp hnames₁) hresolves
  exact halign.heard (heard_of_dispatching (hm.base hb) ((ranges_passes hm hb).mp hnames₂) hheard
    hdispatches).1

/-- A step that is still pending was not ready between the loops of `dispatchReady`, where
no parked step had a signal. -/
theorem Swept.visited (h : Swept O runID v v') (hb : Base v) :
    ∃ m, Passes runID v m ∧ Heard runID m ∧ Passes runID m v' ∧
      ∀ t ∈ v'.steps, t.workflowRunID = runID → t.status = .pending → ¬ DepsDone m.steps t := by
  obtain ⟨hskips, hnames₁, -, hresolves, hnames₂, -, hdispatches, hpath, halign⟩ := h
  have hm₀ := visits_passes hskips
  have hm := hm₀.trans (visits_passes hresolves)
  have hheard := heard_of_resolving (hm₀.base hb) ((ranges_passes hm₀ hb).mp hnames₁) hresolves
  exact ⟨_, hm, hheard, (visits_passes hdispatches).trans hpath, fun t ht =>
    (heard_of_dispatching (hm.base hb) ((ranges_passes hm hb).mp hnames₂) hheard hdispatches).2 t
      (halign.steps ▸ ht)⟩

end Visits

end Orchestrator
