import Mathlib.Data.List.Perm.Subperm
import Orchestrator.Solo.Visits

/-!
# Steps that an evaluation leaves behind

An evaluation completes steps by signals that have come before, and each of them may make
others ready. If a step has been visited before the last of its dependencies completes in
this way, it is left pending. Whether that can happen is read off the state in which the
evaluation begins: there has to be a chain of steps that can be completed one after the
other, with a signal for each.
-/

namespace Orchestrator

open Lib

/-- What matters about a run for the signals that complete its steps. -/
structure Position where
  /-- The step is pending or parked. -/
  opens : Step → Prop
  /-- The step of this name has completed. -/
  done : String → Prop
  /-- The names of the signals that have not been used. -/
  offers : List String

/-- The step of this name has completed, or it is one of those of the list. -/
def Position.Met (p : Position) (l : List Step) (dep : String) : Prop :=
  p.done dep ∨ ∃ x ∈ l, x.stepName = dep

/-- The steps can be completed by signals one after the other, the last one of the list
first. Parked steps take the signals that they want before the pending ones do. -/
inductive Completable (p : Position) : List Step → Prop
  | nil : Completable p []
  | cons {t l} : Completable p l → p.opens t → t ∉ l → t.taskType = signalWaitTaskType →
      (t.status = .waiting ∨
        ∀ w, p.opens w → w.status = .waiting → w.wantName = t.wantName → w ∈ l) →
      (∀ dep ∈ t.dependsOn, p.Met l dep) → ((t :: l).map Step.wantName).Subperm p.offers →
      Completable p (t :: l)

/-- The step is pending, but its dependencies have completed when the steps of the list have.
One of these is pending as well. -/
structure Position.Leaves (p : Position) (l : List Step) (b : Step) : Prop where
  opens : p.opens b
  pending : b.status = .pending
  out : b ∉ l
  met : ∀ dep ∈ b.dependsOn, p.Met l dep
  last : ∃ t ∈ l, t.status = .pending ∧ t.stepName ∈ b.dependsOn

/-- Some order of visits leaves a step behind. -/
def Position.Strands (p : Position) : Prop := ∃ l b, Completable p l ∧ p.Leaves l b

/-- A step of the run that has the name has completed. -/
def Db.Completes (v : Db) (runID : UUID) (name : String) : Prop :=
  ∃ d ∈ v.steps, d.workflowRunID = runID ∧ d.stepName = name ∧ d.status = .completed

/-- The names of the signals of a run that have not been used. -/
def Db.offers (v : Db) (runID : UUID) : List String :=
  (v.signals.rows.filter (fun g => g.workflowRunID = runID ∧ g.processed = false)).map
    (·.signalName)

/-- The position of a run in the store. -/
def Db.position (v : Db) (runID : UUID) : Position where
  opens t := t ∈ v.steps ∧ t.workflowRunID = runID ∧ (t.status = .pending ∨ t.status = .waiting)
  done := v.Completes runID
  offers := v.offers runID

section Position

variable {p p' : Position} {l : List Step}

/-- Only open steps are completed. -/
theorem Completable.opens (h : Completable p l) {t : Step} (ht : t ∈ l) : p.opens t := by
  induction h with
  | nil => cases ht
  | cons _ hopen _ _ _ _ _ ih =>
    rcases List.mem_cons.mp ht with rfl | ht
    · exact hopen
    · exact ih ht

/-- No step is completed twice. -/
theorem Completable.nodup (h : Completable p l) : l.Nodup := by
  induction h with
  | nil => exact List.nodup_nil
  | cons _ _ hnew _ _ _ _ ih => exact List.nodup_cons.mpr ⟨hnew, ih⟩

/-- Each of the steps takes a signal of its own. -/
theorem Completable.subperm (h : Completable p l) : (l.map Step.wantName).Subperm p.offers := by
  cases h with
  | nil => exact List.nil_subperm
  | cons _ _ _ _ _ _ hsub => exact hsub

/-- Only steps that wait for a signal are completed by one. -/
theorem Completable.type (h : Completable p l) {t : Step} (ht : t ∈ l) :
    t.taskType = signalWaitTaskType := by
  induction h with
  | nil => cases ht
  | cons _ _ _ htype _ _ _ ih =>
    rcases List.mem_cons.mp ht with rfl | ht
    · exact htype
    · exact ih ht

/-- What a step of the list depends on has completed or is in the list. -/
theorem Completable.met (h : Completable p l) {t : Step} (ht : t ∈ l) {dep : String}
    (hdep : dep ∈ t.dependsOn) : p.Met l dep := by
  have hmore : ∀ {l : List Step} {x : Step}, p.Met l dep → p.Met (x :: l) dep :=
    fun h => h.imp_right (fun ⟨y, hy, hname⟩ => ⟨y, List.mem_cons_of_mem _ hy, hname⟩)
  induction h with
  | nil => cases ht
  | cons _ _ _ _ _ hmet _ ih =>
    rcases List.mem_cons.mp ht with rfl | ht
    · exact hmore (hmet dep hdep)
    · exact hmore (ih ht)

/-- The parked steps that want the signal of a pending one are in the list as well. -/
theorem Completable.parked (h : Completable p l) {t w : Step} (ht : t ∈ l)
    (hst : t.status = .pending) (hw : p.opens w) (hwait : w.status = .waiting)
    (hwant : w.wantName = t.wantName) : w ∈ l := by
  induction h with
  | nil => cases ht
  | cons _ _ _ _ hparked _ _ ih =>
    refine List.mem_cons_of_mem _ ?_
    rcases List.mem_cons.mp ht with rfl | ht
    · refine hparked.elim (fun hst' => ?_) (fun hall => hall w hw hwait hwant)
      rw [hst] at hst'
      cases hst'
    · exact ih ht

/-- The positions differ at most in the order of the signals. -/
structure Position.Agrees (p p' : Position) : Prop where
  opens : ∀ t, p.opens t ↔ p'.opens t
  done : ∀ name, p.done name ↔ p'.done name
  offers : p.offers.Perm p'.offers

/-- Agreement goes both ways. -/
theorem Position.Agrees.symm (h : p.Agrees p') : p'.Agrees p :=
  ⟨fun t => (h.opens t).symm, fun name => (h.done name).symm, h.offers.symm⟩

/-- Agreeing positions have met the same dependencies. -/
theorem Position.Agrees.met (h : p.Agrees p') {dep : String} (hmet : p.Met l dep) : p'.Met l dep :=
  hmet.imp_left (h.done dep).mp

/-- The order of the signals does not matter for the chain. -/
theorem Completable.congr (h : Completable p l) (hp : p.Agrees p') : Completable p' l := by
  induction h with
  | nil => exact .nil
  | cons _ hopen hnew htype hparked hdeps hsub ih =>
    exact .cons ih ((hp.opens _).mp hopen) hnew htype
      (hparked.imp_right (fun hall w hw => hall w ((hp.opens w).mpr hw)))
      (fun dep hdep => hp.met (hdeps dep hdep)) (hsub.trans hp.offers.subperm)

/-- Nor does it matter for what the chain leaves behind. -/
theorem Position.Leaves.congr {b : Step} (h : p.Leaves l b) (hp : p.Agrees p') : p'.Leaves l b :=
  ⟨(hp.opens b).mp h.opens, h.pending, h.out, fun dep hdep => hp.met (h.met dep hdep), h.last⟩

end Position

/-- What has happened since the state `v₀`: the steps of the list have been completed by
signals, and no others. -/
structure Heeded (runID : UUID) (v₀ v : Db) (heard : List Step) : Prop where
  path : Passes runID v₀ v
  chain : Completable (v₀.position runID) heard
  done : ∀ t ∈ v.steps, t.workflowRunID = runID → t.status = .completed →
    t ∈ v₀.steps ∨ ∃ x ∈ heard, x.stepName = t.stepName
  closed : ∀ x ∈ heard, v.Completes runID x.stepName
  offers : (v₀.offers runID).Perm (heard.map Step.wantName ++ v.offers runID)

section Ledger

variable {runID : UUID} {v₀ v v' : Db} {heard : List Step} {t t' : Step}

/-- A step that has completed remains so. -/
theorem Db.Completes.evolves {name : String} (h : v.Completes runID name) (hev : v.Evolves v') :
    v'.Completes runID name := by
  obtain ⟨d, hd, hrun, hname, hst⟩ := h
  exact ⟨d, hev.mem_of_terminal hd (by rw [hst]; rfl), hrun, hname, hst⟩

/-- Where the step of a name has completed, it is in no other status. -/
theorem Db.Completes.status {name : String} (h : v.Completes runID name) (hb : Base v)
    (ht : t ∈ v.steps) (hrun : t.workflowRunID = runID) (hname : t.stepName = name) :
    t.status = .completed := by
  obtain ⟨d, hd, hdrun, hdname, hst⟩ := h
  rw [hb.graph.name_unique hd ht (hrun.trans hdrun.symm) (hname.trans hdname.symm)]
  exact hst

/-- A step moves on that is neither pending nor parked, and does not become so. -/
theorem Becomes.opens (h : Becomes v t t' v') (ht : t ∈ v.steps)
    (hst : t.status ≠ .pending ∧ t.status ≠ .waiting)
    (hst' : t'.status ≠ .pending ∧ t'.status ≠ .waiting) (x : Step) :
    (v.position runID).opens x ↔ (v'.position runID).opens x := by
  constructor
  · rintro ⟨hx, hrun, hopen⟩
    refine ⟨h.keeps ht hx ?_, hrun, hopen⟩
    rintro rfl
    exact hopen.elim hst.1 hst.2
  · rintro ⟨hx, hrun, hopen⟩
    rcases h.mem hx with rfl | ⟨hx, -⟩
    · exact absurd hopen (not_or.mpr hst')
    · exact ⟨hx, hrun, hopen⟩

/-- The names that have completed after one step has moved on. -/
theorem Becomes.completes (h : Becomes v t t' v') (ht : t ∈ v.steps)
    (hrun : t.workflowRunID = runID) (hst : t.status ≠ .completed) {name : String} :
    v'.Completes runID name ↔
      v.Completes runID name ∨ t'.status = .completed ∧ t.stepName = name := by
  constructor
  · rintro ⟨d, hd, hdrun, hname, hdst⟩
    rcases h.mem hd with rfl | ⟨hd, -⟩
    · exact Or.inr ⟨hdst, (Step.name_of_info h.info).symm.trans hname⟩
    · exact Or.inl ⟨d, hd, hdrun, hname, hdst⟩
  · rintro (⟨d, hd, hdrun, hname, hdst⟩ | ⟨hdst, hname⟩)
    · refine ⟨d, h.keeps ht hd ?_, hdrun, hname, hdst⟩
      rintro rfl
      exact hst hdst
    · exact ⟨t', h.steps ▸ Table.mem_put_self _ _, (Step.run_of_info h.info).trans hrun,
        (Step.name_of_info h.info).trans hname, hdst⟩

/-- No step gets another name. -/
theorem Becomes.ranges (h : Becomes v t t' v') (ht : t ∈ v.steps) {names : List String} :
    Ranges runID v' names ↔ Ranges runID v names := by
  refine forall_congr' (fun x => iff_congr Iff.rfl ⟨?_, ?_⟩)
  · rintro ⟨s, hs, hrun, hname⟩
    rcases h.mem hs with rfl | ⟨hs, -⟩
    · exact ⟨t, ht, (Step.run_of_info h.info).symm.trans hrun,
        (Step.name_of_info h.info).symm.trans hname⟩
    · exact ⟨s, hs, hrun, hname⟩
  · rintro ⟨s, hs, hrun, hname⟩
    by_cases heq : s = t
    · exact ⟨t', h.steps ▸ Table.mem_put_self _ _, (Step.run_of_info h.info).trans (heq ▸ hrun),
        (Step.name_of_info h.info).trans (heq ▸ hname)⟩
    · exact ⟨s, h.keeps ht hs heq, hrun, hname⟩

/-- A name is offered if an unprocessed signal of the run has it. -/
theorem mem_offers {name : String} : name ∈ v.offers runID ↔ ∃ g ∈ v.signals,
    g.workflowRunID = runID ∧ g.processed = false ∧ g.signalName = name := by
  rw [Db.offers, List.mem_map]
  refine exists_congr (fun g => ?_)
  rw [List.mem_filter, decide_eq_true_eq, and_assoc, and_assoc]
  exact Iff.rfl

/-- A signal that is used is not offered any more. -/
theorem Resolves.offers (h : Resolves v t v') (hrun : t.workflowRunID = runID) :
    (v.offers runID).Perm (t.wantName :: v'.offers runID) := by
  obtain ⟨-, _, sig, -, -, hsig, hsignals⟩ := h
  rw [← hsig.name]
  refine (Table.filter_rows_perm (t := v.signals) (u := v'.signals) (r := sig) ?_ (fun hmem => ?_)
    (fun a ha => ?_)).map (·.signalName)
  · simp [hsig.run, hrun, hsig.unused]
  · rw [hsignals] at hmem
    rcases Table.mem_put.mp hmem with heq | ⟨-, hne⟩
    · have hused := congrArg Signal.processed heq
      rw [hsig.unused] at hused
      cases hused
    · exact hne rfl
  · rw [hsignals, Table.mem_put]
    constructor
    · intro hmem
      by_cases hid : a.id = sig.id
      · exact Or.inl (Table.eq_of_key_eq hmem hsig.mem hid)
      · exact Or.inr (Or.inr ⟨hmem, hid⟩)
    · rintro (rfl | rfl | ⟨hmem, -⟩)
      · exact hsig.mem
      · simp at ha
      · exact hmem

/-- At the start no signal has been heeded. -/
theorem Heeded.start (v₀ : Db) : Heeded runID v₀ v₀ [] :=
  ⟨.refl v₀, .nil, fun _ ht _ _ => Or.inl ht, fun _ hx => absurd hx List.not_mem_nil, .refl _⟩

/-- The store stays well formed meanwhile. -/
theorem Heeded.base (h : Heeded runID v₀ v heard) (hb : Base v₀) : Base v := h.path.base hb

/-- A step is moved on without a signal. -/
theorem Heeded.move (h : Heeded runID v₀ v heard) (hb : Base v₀) (hpath : Passes runID v v')
    (hput : Becomes v t t' v') (hst : t'.status ≠ .completed) (hsignals : v'.signals = v.signals) :
    Heeded runID v₀ v' heard where
  path := h.path.trans hpath
  chain := h.chain
  done x hx hrun hdone := by
    rcases hput.mem hx with rfl | ⟨hx, -⟩
    · exact absurd hdone hst
    · exact h.done x hx hrun hdone
  closed x hx := (h.closed x hx).evolves (hpath.evolves (h.base hb))
  offers := by
    have hsame : v'.offers runID = v.offers runID := by rw [Db.offers, Db.offers, hsignals]
    exact hsame ▸ h.offers

/-- A step is completed by a signal. -/
theorem Heeded.hear (h : Heeded runID v₀ v heard) (hb : Base v₀) (ht : t ∈ v.steps)
    (hopen : (v₀.position runID).opens t) (hdeps : DepsDone v.steps t) (hres : Resolves v t v')
    (hpath : Passes runID v v') (hparked : t.status = .waiting ∨ ∀ w,
      (v₀.position runID).opens w → w.status = .waiting → w.wantName = t.wantName → w ∈ heard) :
    Heeded runID v₀ v' (t :: heard) := by
  obtain ⟨-, hrun, hst⟩ := id hopen
  have hev := hpath.evolves (h.base hb)
  have hoffers : (v₀.offers runID).Perm ((t :: heard).map Step.wantName ++ v'.offers runID) :=
    h.offers.trans ((List.Perm.append_left _ (hres.offers hrun)).trans List.perm_middle)
  obtain ⟨htype, t', sig, hput, hdone, -⟩ := hres
  have hname : t'.stepName = t.stepName := Step.name_of_info hput.info
  have hnew : t ∉ heard := by
    intro hmem
    have hdone := (h.closed t hmem).status (h.base hb) ht hrun rfl
    rcases hst with hst | hst <;> rw [hdone] at hst <;> cases hst
  have hmet : ∀ dep ∈ t.dependsOn, (v₀.position runID).Met heard dep := by
    intro dep hdep
    obtain ⟨d, hd, hdrun, rfl, hdst⟩ := hdeps dep hdep
    exact (h.done d hd (hdrun.trans hrun) hdst).imp_left
      (fun hd => ⟨d, hd, hdrun.trans hrun, rfl, hdst⟩)
  refine ⟨h.path.trans hpath, .cons h.chain hopen hnew htype hparked hmet ?_, fun x hx hxrun hxst =>
    ?_, fun x hx => ?_, hoffers⟩
  · exact (List.sublist_append_left _ _).subperm.trans hoffers.symm.subperm
  · rcases hput.mem hx with rfl | ⟨hx, -⟩
    · exact Or.inr ⟨t, List.mem_cons_self, hname.symm⟩
    · exact (h.done x hx hxrun hxst).imp_right
        (fun ⟨y, hy, heq⟩ => ⟨y, List.mem_cons_of_mem t hy, heq⟩)
  · rcases List.mem_cons.mp hx with rfl | hx
    · exact ⟨t', hput.steps ▸ Table.mem_put_self _ _, (Step.run_of_info hput.info).trans hrun,
        hname, hdone⟩
    · exact (h.closed x hx).evolves hev

end Ledger

/-- Until the second loop of `dispatchReady` only parked steps have been completed. -/
structure Parking (runID : UUID) (v₀ v : Db) (heard : List Step) : Prop extends
    Heeded runID v₀ v heard where
  waiting : ∀ x ∈ heard, x.status = .waiting
  kept : ∀ t ∈ v.steps, t.workflowRunID = runID → t.status = .waiting → t ∈ v₀.steps

/-- In the second loop the steps that were parked have been completed or have no signal. -/
structure Listening (runID : UUID) (v₀ v : Db) (heard : List Step) : Prop extends
    Heeded runID v₀ v heard where
  quiet : ∀ x, (v₀.position runID).opens x → x.status = .waiting →
    x ∈ heard ∨ ∀ g : Signal, ¬ g.Reaches v x

section Loops

variable {runID : UUID} {v₀ v v' : Db} {heard : List Step} {name : String} {names : List String}

/-- The first loop starts with nothing heeded. -/
theorem Parking.start (v₀ : Db) : Parking runID v₀ v₀ [] :=
  ⟨.start v₀, fun _ hx => absurd hx List.not_mem_nil, fun _ ht _ _ => ht⟩

/-- A step is skipped. -/
theorem Parking.skip (h : Parking runID v₀ v heard) (hb : Base v₀) {t : Step} (hs : Skips v t v')
    (hpath : Passes runID v v') : Parking runID v₀ v' heard := by
  obtain ⟨hsignals, t', hput, hst⟩ := hs
  refine ⟨h.move hb hpath hput (by simp [hst]) hsignals, h.waiting, fun x hx hrun hxst => ?_⟩
  rcases hput.mem hx with rfl | ⟨hx, -⟩
  · rw [hst] at hxst
    cases hxst
  · exact h.kept x hx hrun hxst

/-- A parked step is completed. -/
theorem Parking.resolve (h : Parking runID v₀ v heard) (hb : Base v₀) {t : Step}
    (ht : t ∈ v.steps) (hrun : t.workflowRunID = runID) (hst : t.status = .waiting)
    (hres : Resolves v t v') (hpath : Passes runID v v') : Parking runID v₀ v' (t :: heard) := by
  have hdeps : DepsDone v.steps t := (h.base hb).graph.deps t ht (Or.inl (by simp [hst]))
  refine ⟨h.hear hb ht ⟨h.kept t ht hrun hst, hrun, Or.inr hst⟩ hdeps hres hpath (Or.inl hst),
    List.forall_mem_cons.mpr ⟨hst, h.waiting⟩, fun x hx hxrun hxst => ?_⟩
  obtain ⟨-, t', sig, hput, hdone, -⟩ := hres
  rcases hput.mem hx with rfl | ⟨hx, -⟩
  · rw [hdone] at hxst
    cases hxst
  · exact h.kept x hx hxrun hxst

/-- After the first loop of `dispatchReady`. -/
theorem Parking.listening (h : Parking runID v₀ v heard) (hb : Base v₀) (hheard : Heard runID v) :
    Listening runID v₀ v heard := by
  refine ⟨h.toHeeded, fun x hopen hst => ?_⟩
  obtain ⟨x', hx', hpass⟩ := h.path.step hb hopen.1
  have hrun : x'.workflowRunID = runID := (Step.run_of_info hpass.1).trans hopen.2.1
  rcases hpass.2 with rfl | ⟨h', -⟩ | ⟨h', -⟩ | ⟨h', -⟩ | ⟨-, hdone, -⟩
  · exact Or.inr (hheard x' hx' hrun hst)
  · rw [hst] at h'
    cases h'
  · rw [hst] at h'
    cases h'
  · rw [hst] at h'
    cases h'
  · refine Or.inl ?_
    rcases h.done x' hx' hrun hdone with hmem | ⟨y, hy, hname⟩
    · rw [Table.eq_of_key_eq hmem hopen.1 (Step.id_of_info hpass.1), hst] at hdone
      cases hdone
    · obtain ⟨hy₀, hyrun, -⟩ := h.chain.opens hy
      have heq := hb.graph.name_unique hy₀ hopen.1 (hopen.2.1.trans hyrun.symm)
        ((Step.name_of_info hpass.1).symm.trans hname.symm)
      exact heq ▸ hy

/-- A pending step is completed. -/
theorem Listening.resolve (h : Listening runID v₀ v heard) (hb : Base v₀) {t : Step}
    (ht : t ∈ v.steps) (hrun : t.workflowRunID = runID) (hst : t.status = .pending)
    (hdeps : DepsDone v.steps t) (hres : Resolves v t v') (hpath : Passes runID v v') :
    Listening runID v₀ v' (t :: heard) := by
  obtain ⟨t₀, ht₀, hpass⟩ := h.path.step_back hb ht
  obtain rfl := hpass.pending hst
  obtain ⟨-, t', sig, -, -, hsig, -⟩ := id hres
  refine ⟨h.hear hb ht ⟨ht₀, hrun, Or.inl hst⟩ hdeps hres hpath (Or.inr (fun w hw hwait hwant =>
    (h.quiet w hw hwait).resolve_right (fun hnone => hnone sig ?_))), fun x hx hxst => ?_⟩
  · exact ⟨hsig.mem, hsig.run.trans (hrun.trans hw.2.1.symm), hsig.name.trans hwant.symm,
      hsig.unused⟩
  · exact (h.quiet x hx hxst).imp (List.mem_cons_of_mem t) (fun hnone g hg =>
      hnone g (hpath.reaches (h.base hb) hg))

/-- A pending step is dispatched or parked. -/
theorem Listening.move (h : Listening runID v₀ v heard) (hb : Base v₀) {t : Step}
    (hs : Starts v t v') (hpath : Passes runID v v') : Listening runID v₀ v' heard := by
  obtain ⟨hsignals, t', hput, hst⟩ := hs
  refine ⟨h.toHeeded.move hb hpath hput ?_ hsignals, fun x hx hxst => ?_⟩
  · rcases hst with ⟨hst, -⟩ | ⟨hst, -⟩ <;> simp [hst]
  · exact (h.quiet x hx hxst).imp_right (fun hnone g hg =>
      hnone g (hpath.reaches (h.base hb) hg))

/-- The loops before the second one of `dispatchReady`. -/
theorem parking_of_visits {m₀ m : Db} {names₀ : List String} (hb : Base v₀)
    (hskips : Visits (skipping runID) names₀ v₀ m₀) (h : Visits (resolving runID) names m₀ m) :
    ∃ heard, Parking runID v₀ m heard := by
  refine h.rule (I := fun _ w => ∃ heard, Parking runID v₀ w heard) ?_ (hskips.rule
    (I := fun _ w => ∃ heard, Parking runID v₀ w heard) ?_ ⟨[], .start v₀⟩)
  · rintro name rest w w' - ⟨heard, hpark⟩ (⟨rfl, -⟩ | ⟨t, ht, hrun, -, hC, hres, hpath⟩)
    · exact ⟨heard, hpark⟩
    · exact ⟨t :: heard, hpark.resolve hb ht hrun hC.1 hres hpath⟩
  · rintro name rest w w' - ⟨heard, hpark⟩ (⟨rfl, -⟩ | ⟨t, -, -, -, -, hskip, hpath⟩)
    · exact ⟨heard, hpark⟩
    · exact ⟨heard, hpark.skip hb hskip hpath⟩

/-- The second loop of `dispatchReady`. -/
theorem listening_of_visits (hb : Base v₀) (hlisten : Listening runID v₀ v heard)
    (h : Visits (dispatching runID) names v v') :
    ∃ more, Listening runID v₀ v' (more ++ heard) ∧ ∀ x ∈ more, x.status = .pending := by
  refine h.rule (I := fun _ w => ∃ more, Listening runID v₀ w (more ++ heard) ∧
    ∀ x ∈ more, x.status = .pending) ?_ ⟨[], hlisten, fun _ hx => absurd hx List.not_mem_nil⟩
  rintro name rest w w' - ⟨more, hw, hmore⟩ (⟨rfl, -⟩ | ⟨t, ht, hrun, -, hC, hres | hs, hpath⟩)
  · exact ⟨more, hw, hmore⟩
  · exact ⟨t :: more, hw.resolve hb ht hrun hC.1 hC.2 hres hpath,
      List.forall_mem_cons.mpr ⟨hC.1, hmore⟩⟩
  · exact ⟨more, hw.move hb hs hpath, hmore⟩

/-- Where an evaluation has left a step although it could go on, it has completed a chain of
steps for which that was possible. -/
theorem Swept.leaves {O : List String → Prop} (h : Swept O runID v v') (hb : Base v) {b : Step}
    (hmem : b ∈ v'.steps) (hrun : b.workflowRunID = runID) (hst : b.status = .pending)
    (hdeps : DepsDone v'.steps b) :
    ∃ l, Completable (v.position runID) l ∧ (v.position runID).Leaves l b ∧
      ∀ x ∈ l, v'.Completes runID x.stepName := by
  obtain ⟨hskips, hnames₁, -, hresolves, hnames₂, -, hdispatches, -, halign⟩ := h
  rename_i m₀ m w
  rw [halign.steps] at hmem hdeps
  have hm₀ := visits_passes hskips
  obtain ⟨heard, hpark⟩ := parking_of_visits hb hskips hresolves
  have hheard := heard_of_resolving (hm₀.base hb) ((ranges_passes hm₀ hb).mp hnames₁) hresolves
  have hunready := (heard_of_dispatching (hpark.base hb) ((ranges_passes hpark.path hb).mp hnames₂)
    hheard hdispatches).2 b hmem hrun hst
  obtain ⟨more, hlisten, hmore⟩ := listening_of_visits hb (hpark.listening hb hheard) hdispatches
  obtain ⟨b₀, hb₀, hpass⟩ := hlisten.path.step_back hb hmem
  obtain rfl := hpass.pending hst
  have hmet : ∀ dep ∈ b.dependsOn, (v.position runID).Met (more ++ heard) dep := by
    intro dep hdep
    obtain ⟨d, hd, hdrun, rfl, hdst⟩ := hdeps dep hdep
    exact (hlisten.done d hd (hdrun.trans hrun) hdst).imp_left
      (fun hd => ⟨d, hd, hdrun.trans hrun, rfl, hdst⟩)
  refine ⟨more ++ heard, hlisten.chain, ⟨⟨hb₀, hrun, Or.inl hst⟩, hst, fun hout => ?_, hmet, ?_⟩,
    fun x hx => ?_⟩
  · rw [(hlisten.closed b hout).status (hlisten.base hb) hmem hrun rfl] at hst
    cases hst
  · -- What had not completed between the loops of `dispatchReady` has been pending.
    unfold DepsDone at hunready
    push Not at hunready
    obtain ⟨dep, hdep, hnot⟩ := hunready
    have hnotm : ¬ m.Completes runID dep := fun ⟨d, hd, hdrun, hname, hdst⟩ =>
      hnot d hd (hdrun.trans hrun.symm) hname hdst
    rcases hmet dep hdep with hdone | ⟨x, hx, rfl⟩
    · exact absurd (Db.Completes.evolves hdone (hpark.path.evolves hb)) hnotm
    · rcases List.mem_append.mp hx with hx | hx
      · exact ⟨x, List.mem_append_left _ hx, hmore x hx, hdep⟩
      · exact absurd (hpark.closed x hx) hnotm
  · rw [Db.Completes, halign.steps]
    exact hlisten.closed x hx

end Loops

end Orchestrator
