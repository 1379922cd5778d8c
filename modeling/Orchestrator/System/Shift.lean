import Orchestrator.Solo.Requests
import Orchestrator.System.Model

/-!
# How the store changes

Every move leaves the store as it is or changes it in one of a few ways: a worker,
the reaper or the relay notes what it does, an outcome or a timer comes too late, a
run is evaluated after something has happened to it, or a run is cancelled. What
holds of the store is shown for these changes.
-/

namespace Orchestrator

open Lib Program Actions

/-- What an entry point does to a run before it evaluates it. The signals that may
arrive are those in `P`. -/
inductive Lead (P : Signal → Prop) (runID : UUID) (v : Db) : Db → Prop
  | resume {r} : v.runs.get? runID = some r → runTerminal r.status = false → Lead P runID v v
  | create {u} : Act ⟨runID, .create⟩ v u → Lead P runID v (backend.applyAll v u)
  | outcome {k u} : k = .succeed ∨ k = .retry ∨ k = .giveUp → Act ⟨runID, k⟩ v u →
      Lead P runID v (backend.applyAll v u)
  | redispatch {tm t now now' u} : v.timers.get? tm.id = some tm → tm.status = .pending →
      tm.stepID = some t.id → v.steps.get? t.id = some t → t.status = .retryBackoff →
      t.workflowRunID = runID → tm.workflowRunID = runID →
      Act ⟨runID, .dispatch⟩ (v.apply (.timer (tm.fire now))) u →
      Redispatched (v.apply (.timer (tm.fire now))) t now' u →
      Lead P runID v (backend.applyAll (v.apply (.timer (tm.fire now))) u)
  | signal {sig : Signal} {r payload now} : v.signals.get? sig.id = none → sig.payload.IsValid →
      sig.processed = false → sig.workflowRunID = runID → P sig →
      v.runs.get? runID = some r → runTerminal r.status = false →
      Lead P runID v (backend.applyAll v
        (.signal sig :: historyWrites r .signalReceived payload now))

/-- How a move changes the store. The signals that may arrive are those in `P`, and
a timer may be left behind by a late failure only under `q`. -/
inductive Shift (P : Signal → Prop) (q : Prop) (v : Db) : Db → Prop
  /-- Workers, the reaper and the relay note what they do. -/
  | work {u} : engine.Steps Quietly v u → Shift P q v (backend.applyAll v u)
  /-- The outcome of an attempt whose step has been cancelled. -/
  | late {a t success result ws tms} : Closes v a success result ws →
      v.steps.get? a.stepID = some t → t.status = .cancelled →
      tms = [] ∨ (q ∧ ∃ tm, tms = [.timer tm] ∧ IsRetryTimer tm t ∧
        tm.shardID = shardFor t.workflowRunID ∧ v.timers.get? tm.id = none) →
      Shift P q v (backend.applyAll v (ws ++ tms))
  /-- A timer whose step does not wait for it. -/
  | idle {tm t r now} : v.timers.get? tm.id = some tm → tm.status = .pending →
      tm.stepID = some t.id → v.steps.get? t.id = some t → v.runs.get? tm.workflowRunID = some r →
      t.status ≠ .retryBackoff ∨ runTerminal r.status = true →
      Shift P q v (v.apply (.timer (tm.fire now)))
  /-- A signal for a run that has ended. -/
  | note {sig : Signal} {r payload now} : v.signals.get? sig.id = none → sig.payload.IsValid →
      sig.processed = false → P sig → v.runs.get? sig.workflowRunID = some r →
      runTerminal r.status = true →
      Shift P q v (backend.applyAll v (.signal sig :: historyWrites r .signalReceived payload now))
  /-- A run is evaluated. -/
  | evaluate {runID v₀ v'} : Lead P runID v v₀ → Evaluated runID v₀ v' → Shift P q v v'
  /-- A run is cancelled. -/
  | cancel {runID r u} : v.runs.get? runID = some r → runTerminal r.status = false →
      engine.Steps (Cancelling runID) v u → Cancelled runID (backend.applyAll v u) →
      (∀ tm ∈ (backend.applyAll v u).timers, tm.workflowRunID = runID → tm.status ≠ .pending) →
      RecordsCancel runID v (backend.applyAll v u) → Shift P q v (backend.applyAll v u)

section Actions

variable {P : Signal → Prop} {q : Prop} {runID : UUID} {v v₀ v' : Db}

/-- The second state results from actions with labels in `C`. -/
def Through (C : Label → Prop) (v v' : Db) : Prop :=
  ∃ u, engine.Steps C v u ∧ v' = backend.applyAll v u

variable {C C' : Label → Prop}

theorem Through.refl (v : Db) : Through C v v := ⟨[], .nil, rfl⟩

theorem Through.one {l : Label} {u : List Write} (hl : C l) (h : Act l v u) :
    Through C v (backend.applyAll v u) :=
  ⟨u, Steps.one hl h, rfl⟩

theorem Through.trans (h : Through C v v₀) (h' : Through C v₀ v') : Through C v v' := by
  obtain ⟨u, hu, rfl⟩ := h
  obtain ⟨u', hu', rfl⟩ := h'
  exact ⟨u ++ u', hu.append hu', (Backend.applyAll_append ..).symm⟩

theorem Through.mono (h : Through C v v') (hC : ∀ l, C l → C' l) : Through C' v v' := by
  obtain ⟨u, hu, rfl⟩ := h
  exact ⟨u, hu.mono hC, rfl⟩

/-- What every such action keeps. -/
theorem Through.induct (h : Through C v v') (hb : Base v) {I : Db → Prop} (h0 : I v)
    (hstep : ∀ v l u, Base v → C l → Act l v u → I v → I (backend.applyAll v u)) : I v' := by
  obtain ⟨u, hu, rfl⟩ := h
  exact Steps.induct hu hb h0 hstep

theorem Through.base (h : Through C v v') (hb : Base v) : Base v' :=
  h.induct hb hb (fun _ _ _ hb _ hact _ => hact.base hb)

/-- Actions move the store forward. -/
theorem Through.evolves (h : Through C v v') (hb : Base v) : v.Evolves v' :=
  h.induct hb (.refl v) (fun _ _ _ _ _ hact hev => hev.trans hact.evolves)

theorem Through.calm (h : Through C v v') (hb : Base v) {r : UUID}
    (hC : ∀ l, C l → l.run ≠ r ∨ l.kind.calm = true) : Calm r v v' := by
  obtain ⟨u, hu, rfl⟩ := h
  exact Calm.of_steps hb hu hC

/-- An evaluation is made of actions on the run. -/
theorem Passes.through (h : Passes runID v v') :
    Through (fun l => l.run = runID ∧ l.kind.ofReconcile = true) v v' := by
  induction h with
  | refl => exact .refl v
  | tail _ hu ih =>
    obtain ⟨u, hpass, rfl⟩ := hu
    obtain ⟨k, hk, hact⟩ := hpass.act
    exact ih.trans (.one ⟨rfl, hk⟩ hact)

/-- The kinds of actions that come before an evaluation. -/
def Kind.leads : Kind → Bool
  | .create | .succeed | .retry | .giveUp | .fireTimer | .dispatch | .signal | .log => true
  | _ => false

/-- What comes before an evaluation is made of actions on the run. -/
theorem Lead.through (h : Lead P runID v v₀) :
    Through (fun l => l.run = runID ∧ l.kind.leads = true) v v₀ := by
  cases h with
  | resume => exact .refl v
  | create hact => exact .one ⟨rfl, rfl⟩ hact
  | outcome hk hact => exact .one ⟨rfl, by rcases hk with rfl | rfl | rfl <;> rfl⟩ hact
  | redispatch htm hst _ _ _ _ hrun hact =>
    subst hrun
    exact .trans (.one ⟨rfl, rfl⟩ (.fireTimer htm hst)) (.one ⟨rfl, rfl⟩ hact)
  | @signal sig r payload now hnew hvalid _ hrun _ hr =>
    subst hrun
    have hid : r.id = sig.workflowRunID := Table.key_of_get? hr
    have hlog : Act ⟨r.id, .log⟩ (v.apply (.signal sig))
        (historyWrites r .signalReceived payload now) := .log (Table.get?_key hr)
    exact .trans (.one ⟨rfl, rfl⟩ (.signal hnew hvalid hr)) (.one ⟨hid, rfl⟩ hlog)

/-- All that is done to a run that is evaluated. -/
theorem Lead.evaluated (h : Lead P runID v v₀) (he : Evaluated runID v₀ v') :
    Through (Works runID) v v' := by
  refine (h.through.mono (fun l hl => ?_)).trans (he.path.through.mono (fun l hl => ?_))
  · obtain ⟨run, kind⟩ := l
    obtain ⟨rfl, hk⟩ := hl
    cases kind <;> first | exact ⟨rfl, rfl⟩ | cases hk
  · obtain ⟨run, kind⟩ := l
    obtain ⟨rfl, hk⟩ := hl
    exact works_of_reconcile kind hk

/-- Every change of the store is made of actions. -/
theorem Shift.through (h : Shift P q v v') : Through (fun _ => True) v v' := by
  cases h with
  | work hu => exact ⟨_, hu.mono (fun _ _ => trivial), rfl⟩
  | late hclose ht hst htms =>
    exact .one trivial (.late hclose ht hst (htms.imp id And.right))
  | idle htm hst => exact .one trivial (.fireTimer htm hst)
  | @note sig r payload now hnew hvalid _ _ hr =>
    have hlog : Act ⟨r.id, .log⟩ (v.apply (.signal sig))
        (historyWrites r .signalReceived payload now) := .log (Table.get?_key hr)
    exact .trans (.one trivial (.signal hnew hvalid hr)) (.one trivial hlog)
  | evaluate hlead heval => exact (hlead.evaluated heval).mono (fun _ _ => trivial)
  | cancel _ _ hu => exact ⟨_, hu.mono (fun _ _ => trivial), rfl⟩

theorem Shift.evolves (h : Shift P q v v') (hb : Base v) : v.Evolves v' := h.through.evolves hb

end Actions

section Heard

variable {r : UUID} {l : Label} {v : Db} {u : List Write}

/-- A signal that is unused has been there unused, or it is new. -/
theorem Act.unused (hact : Act l v u) {g : Signal} (hg : g ∈ (backend.applyAll v u).signals)
    (hunused : g.processed = false) : g ∈ v.signals ∨ l = ⟨g.workflowRunID, .signal⟩ := by
  have hprocessed : ∀ {sig : Signal}, g ∈ v.signals.put { sig with processed := true } →
      g ∈ v.signals ∨ l = ⟨g.workflowRunID, .signal⟩ := by
    intro sig hg
    rcases Table.mem_put.mp hg with rfl | ⟨hg, -⟩
    · cases hunused
    · exact Or.inl hg
  cases hact with
  | create =>
    rw [applyAll_create] at hg
    exact Or.inl hg
  | resolve => exact hprocessed hg
  | burn => exact hprocessed hg
  | signal =>
    rcases Table.mem_put.mp hg with rfl | ⟨hg, -⟩
    · exact Or.inr rfl
    · exact Or.inl hg
  | succeed hclose =>
    cases hclose
    exact Or.inl hg
  | retry hclose => cases hclose <;> exact Or.inl hg
  | giveUp hclose => cases hclose <;> exact Or.inl hg
  | late hclose _ _ htms =>
    rcases htms with rfl | ⟨tm, rfl, -⟩
    · cases hclose <;> exact Or.inl hg
    · cases hclose <;> exact Or.inl hg
  | _ => exact Or.inl hg

/-- An action that neither changes the steps of a run nor brings a signal. -/
theorem Heard.act (h : Heard r v) (hb : Base v) (hact : Act l v u)
    (hl : l.run ≠ r ∨ (l.kind.calm = true ∧ l.kind ≠ .signal)) :
    Heard r (backend.applyAll v u) := by
  intro t ht hrun hst g hg
  obtain ⟨t₀, ht₀, hdrift⟩ := (hact.calm hb (hl.imp id And.left)).back t ht hrun
  obtain rfl := hdrift.eq_of_ne (by rw [hst]; decide)
  rcases hact.unused hg.mem hg.unused with hold | rfl
  · exact h t ht₀ hrun hst g ⟨hold, hg.run, hg.name, hg.unused⟩
  · exact hl.elim (fun hne => hne (hg.run.trans hrun)) (fun hk => hk.2 rfl)

theorem Through.heard {C : Label → Prop} {v' : Db} (h : Through C v v') (hb : Base v)
    (hh : Heard r v)
    (hC : ∀ l, C l → l.run ≠ r ∨ (l.kind.calm = true ∧ l.kind ≠ .signal)) : Heard r v' :=
  h.induct hb hh (fun _ l _ hb hl hact hh => hh.act hb hact (hC l hl))

/-- No step of a run that has ended waits for a signal. -/
theorem Heard.of_allDone (hall : AllDone v.steps r) : Heard r v := by
  intro t ht hrun hst
  have hdone := hall t ht hrun
  rw [hst] at hdone
  cases hdone

end Heard

/-- What holds of the store whenever no transaction is at work. -/
structure Orderly (v : Db) : Prop extends Coherent v where
  tidy : ∀ runID, Tidy runID v
  quiescent : ∀ runID, Quiescent runID v
  heard : ∀ runID, Heard runID v

namespace Orderly

variable {P : Signal → Prop} {q : Prop} {runID : UUID} {v v' : Db}

/-- The empty store is in order. -/
theorem empty : Orderly Db.empty where
  toCoherent := .empty
  tidy _ := ⟨(fun _ hr => by cases hr), (fun _ ht => by cases ht), (fun _ ht => by cases ht)⟩
  quiescent _ := ⟨(fun _ hr => by cases hr), (fun _ ht => by cases ht), (fun _ _ ht => by cases ht)⟩
  heard _ _ ht := by cases ht

/-- Every run of an orderly store is upright. -/
theorem upright (h : Orderly v) (runID : UUID) : Upright runID v := (h.sound runID).upright h.base

/-- Actions that do not cancel keep why steps are skipped and runs cancelled. -/
theorem through {C : Label → Prop} (h : Orderly v) (hu : Through C v v')
    (hC : ∀ l, C l → l.kind.cancels = false) : Coherent v' ∧ ∀ runID, Tidy runID v' := by
  refine hu.induct h.base (I := fun w => Coherent w ∧ ∀ runID, Tidy runID w)
    ⟨h.toCoherent, h.tidy⟩ ?_
  rintro w l u hb hl hact ⟨hco, htidy⟩
  have hk := hC l hl
  refine ⟨⟨hact.base hb, fun runID => (hco.sound runID).act hb hact (Or.inr hk)⟩, fun runID => ?_⟩
  exact (htidy runID).act ((hco.sound runID).upright hb) hb hact (Or.inr hk)

/-- Actions that leave every run alone. -/
theorem calm {C : Label → Prop} (h : Orderly v) (hu : Through C v v')
    (hC : ∀ l, C l → l.kind.calm = true ∧ l.kind.cancels = false)
    (hheard : ∀ runID, Heard runID v') : Orderly v' := by
  obtain ⟨hco, htidy⟩ := h.through hu (fun l hl => (hC l hl).2)
  exact ⟨hco, htidy, fun runID => (h.quiescent runID).calm
    (hu.calm h.base (fun l hl => Or.inr (hC l hl).1)), hheard⟩

/-- The evaluation of a run. -/
theorem evaluate {v₀ : Db} (h : Orderly v) (hlead : Lead P runID v v₀)
    (heval : Evaluated runID v₀ v') : Orderly v' := by
  have hu := hlead.evaluated heval
  obtain ⟨hco, htidy⟩ := h.through hu (fun _ hl => hl.kind.1)
  refine ⟨hco, htidy, fun r => ?_, fun r => ?_⟩
  · by_cases hr : r = runID
    · exact hr ▸ heval.quiescent
    · exact (h.quiescent r).calm (hu.calm h.base (fun l hl => Or.inl (hl.1.trans_ne (Ne.symm hr))))
  · by_cases hr : r = runID
    · exact hr ▸ heval.heard
    · exact hu.heard h.base (h.heard r) (fun l hl => Or.inl (hl.1.trans_ne (Ne.symm hr)))

end Orderly

section Cancel

variable {runID : UUID} {v : Db} {u : List Write}

/-- A cancellation changes steps that go on, and cancels them. -/
theorem cancelled_of_changed (hb : Base v) (h : engine.Steps (Cancelling runID) v u) {t' : Step}
    (ht' : t' ∈ (backend.applyAll v u).steps) : t' ∈ v.steps ∨ (t'.status = .cancelled ∧
      ∃ t ∈ v.steps, t'.info = t.info ∧ t'.attemptCount = t.attemptCount ∧
        stepTerminal t.status = false) := by
  refine Steps.induct h hb (P := fun w => ∀ t' ∈ w.steps, t' ∈ v.steps ∨
    (t'.status = .cancelled ∧ ∃ t ∈ v.steps, t'.info = t.info ∧
      t'.attemptCount = t.attemptCount ∧ stepTerminal t.status = false))
    (fun t' ht' => Or.inl ht') ?_ t' ht'
  rintro w ⟨run, kind⟩ ws - ⟨-, hk⟩ hact ih x hx
  have hact : Act ⟨run, kind⟩ w ws := hact
  cases hact with
  | cancelStep ht hlive =>
    rcases Table.mem_put.mp hx with rfl | ⟨hx, -⟩
    · refine Or.inr ⟨rfl, ?_⟩
      rcases ih _ (Table.mem_of_get? ht) with hold | ⟨hst, -⟩
      · exact ⟨_, hold, rfl, rfl, hlive⟩
      · rw [hst] at hlive
        cases hlive
    · exact ih x hx
  | cancelRun => exact ih x hx
  | cancelEvent => exact ih x hx
  | cancelTimer => exact ih x hx
  | _ => simp [Kind.cancels] at hk

/-- A cancelled run is tidy. -/
theorem Orderly.tidy_cancel (h : Orderly v) {r : WorkflowRun} (hr : v.runs.get? runID = some r)
    (hlive : runTerminal r.status = false) (hu : engine.Steps (Cancelling runID) v u)
    (hdone : Cancelled runID (backend.applyAll v u)) : Tidy runID (backend.applyAll v u) := by
  have hev : v.Evolves (backend.applyAll v u) := Through.evolves ⟨u, hu, rfl⟩ h.base
  have hback : ∀ d ∈ (backend.applyAll v u).steps, d.status ≠ .cancelled → d ∈ v.steps :=
    fun d hd hne => (cancelled_of_changed h.base hu hd).resolve_right (fun hx => hne hx.1)
  refine ⟨fun _ _ _ => ?_, fun t ht hrun hst => ?_, fun t' ht' hrun hst hcut => ?_⟩
  · obtain ⟨t, ht, hrun, hgoes⟩ := (h.quiescent runID).busy r hr hlive
    obtain ⟨t', ht', htev⟩ := hev.steps t ht
    have hrun' : t'.workflowRunID = runID := (Step.run_of_info htev.info).trans hrun
    refine ⟨t', ht', hrun', ?_⟩
    rcases cancelled_of_changed h.base hu ht' with hold | hx
    · obtain rfl := Table.eq_of_key_eq hold ht (Step.id_of_info htev.info)
      have hend := hdone.2.1 t' ht' hrun'
      rw [hgoes] at hend
      cases hend
    · exact hx.1
  · have hold := hback t ht (by rw [hst]; decide)
    exact ((h.tidy runID).skipped t hold hrun hst).evolve hev rfl
  · obtain ⟨d, hd, hdrun, hname, hdst⟩ := hcut
    have hd₀ : d ∈ v.steps := hback d hd (by rcases hdst with hs | hs <;> rw [hs] <;> decide)
    rcases cancelled_of_changed h.base hu ht' with hold | ⟨-, t, ht, hinfo, -, hgoes⟩
    · obtain ⟨q, hq, hend⟩ := (h.upright runID).cancelled t' hold hrun hst
      obtain rfl := Option.some.inj (hr.symm.trans hq)
      rw [hlive] at hend
      cases hend
    · -- A step that goes on depends on no step that has failed or was skipped.
      have hrun₀ : t.workflowRunID = runID := (Step.run_of_info hinfo).symm.trans hrun
      have hblocked : Blocked v.steps t := Cut.blocked ⟨d, hd₀,
        hdrun.trans (Step.run_of_info hinfo), Step.deps_of_info hinfo ▸ hname, hdst⟩
      by_cases hpending : t.status = .pending
      · exact (h.quiescent runID).unblocked t ht hrun₀ hpending hblocked
      · refine h.base.graph.not_blocked (h.base.graph.deps t ht (Or.inl ?_)) hblocked
        have hready : t.status ≠ .ready := by
          have hcount := (h.base.ledger.row t ht).count
          intro hs
          simp only [Step.CountOK, hs] at hcount
        cases hs : t.status <;> simp_all [stepTerminal]

end Cancel

/-- Every change keeps the store in order. -/
theorem Orderly.shift {P : Signal → Prop} {q : Prop} {v v' : Db} (h : Orderly v)
    (hs : Shift P q v v') : Orderly v' := by
  cases hs with
  | @work u hu =>
    have hthrough : Through Quietly v (backend.applyAll v u) := ⟨u, hu, rfl⟩
    refine h.calm hthrough (fun l hl => hl.calm) (fun r => hthrough.heard h.base (h.heard r)
      (fun l hl => Or.inr ⟨hl.calm.1, fun hk => ?_⟩))
    rw [Quietly, hk] at hl
    cases hl
  | @late a t success result ws tms hclose ht hst htms =>
    have hact : Act ⟨a.workflowRunID, .late⟩ v (ws ++ tms) :=
      .late hclose ht hst (htms.imp id And.right)
    refine h.calm (.one (C := (· = ⟨a.workflowRunID, .late⟩)) rfl hact) ?_
      (fun r => (h.heard r).act h.base hact (Or.inr ⟨rfl, fun hk => by cases hk⟩))
    rintro l rfl
    exact ⟨rfl, rfl⟩
  | @idle tm t r now htm hst =>
    have hact : Act ⟨tm.workflowRunID, .fireTimer⟩ v [.timer (tm.fire now)] := .fireTimer htm hst
    refine h.calm (.one (C := (· = ⟨tm.workflowRunID, .fireTimer⟩)) rfl hact) ?_
      (fun r => (h.heard r).act h.base hact (Or.inr ⟨rfl, fun hk => by cases hk⟩))
    rintro l rfl
    exact ⟨rfl, rfl⟩
  | @note sig r payload now hnew hvalid _ _ hr hend =>
    have hsignal : Act ⟨sig.workflowRunID, .signal⟩ v [.signal sig] := .signal hnew hvalid hr
    have hlog : Act ⟨r.id, .log⟩ (v.apply (.signal sig))
        (historyWrites r .signalReceived payload now) := .log (Table.get?_key hr)
    refine h.calm (C := fun l => l.kind = .signal ∨ l.kind = .log)
      (.trans (.one (Or.inl rfl) hsignal) (.one (Or.inr rfl) hlog)) ?_ (fun r' => ?_)
    · rintro ⟨run, kind⟩ (rfl | rfl) <;> exact ⟨rfl, rfl⟩
    · by_cases hid : sig.workflowRunID = r'
      · subst hid
        exact .of_allDone ((h.upright _).ended r hr hend)
      · have hheard : Heard r' (v.apply (.signal sig)) :=
          (h.heard r').act h.base hsignal (Or.inl hid)
        exact hheard.act (hsignal.base h.base) hlog (Or.inr ⟨rfl, fun hk => by cases hk⟩)
  | evaluate hlead heval => exact h.evaluate hlead heval
  | @cancel runID r u hr hlive hu hdone =>
    have hthrough : Through (Cancelling runID) v (backend.applyAll v u) := ⟨u, hu, rfl⟩
    obtain ⟨r', hr', hst⟩ := hdone.1
    have hend : runTerminal r'.status = true := by
      rw [hst]
      rfl
    have hother : ∀ {id : UUID}, id ≠ runID → ∀ l, Cancelling runID l → l.run ≠ id :=
      fun hne l hl => hl.1.trans_ne (Ne.symm hne)
    refine ⟨h.toCoherent.cancel hu hdone, fun id => ?_, fun id => ?_, fun id => ?_⟩
    · by_cases hid : id = runID
      · exact hid ▸ h.tidy_cancel hr hlive hu hdone
      · have hkeep := hthrough.induct h.base (I := fun w => Sound id w ∧ Tidy id w)
          ⟨h.sound id, h.tidy id⟩ (fun w l u hb hl hact hw =>
            ⟨hw.1.act hb hact (Or.inl (hother hid l hl)),
              hw.2.act (hw.1.upright hb) hb hact (Or.inl (hother hid l hl))⟩)
        exact hkeep.2
    · by_cases hid : id = runID
      · exact hid ▸ .of_allDone hr' hend hdone.2.1
      · exact (h.quiescent id).calm (hthrough.calm h.base (fun l hl => Or.inl (hother hid l hl)))
    · by_cases hid : id = runID
      · exact hid ▸ .of_allDone hdone.2.1
      · exact hthrough.heard h.base (h.heard id) (fun l hl => Or.inl (hother hid l hl))

end Orchestrator
