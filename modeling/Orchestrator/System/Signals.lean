import Mathlib.Data.Set.Function
import Orchestrator.System.Accounting

/-!
# Signals and the steps that wait for them

Every step that a signal has completed can be given a signal of its own that it has
used. Signals of one name are used in the order in which they were received, since
an evaluation takes the earliest one and time does not run backwards. A step that
waits has no signal that it could use.
-/

namespace Orchestrator

open Lib Program Actions

/-- The step has been completed by a signal. -/
def Step.ByName (t : Step) : Prop := t.status = .completed ∧ t.taskType = signalWaitTaskType

/-- The signal has completed the step. -/
structure Signal.Used (sig : Signal) (t : Step) : Prop where
  processed : sig.processed = true
  run : sig.workflowRunID = t.workflowRunID
  name : sig.signalName = t.wantName
  payload : t.output = some sig.payload

/-- The steps that signals have completed are given signals of their own. -/
structure Paired (v : Db) (f : UUID → UUID) : Prop where
  used : ∀ t ∈ v.steps, t.ByName → ∃ sig, v.signals.get? (f t.id) = some sig ∧ sig.Used t
  own : ∀ t ∈ v.steps, ∀ t' ∈ v.steps, t.ByName → t'.ByName → f t.id = f t'.id → t = t'

section Paired

variable {l : Label} {v : Db} {u : List Write}

/-- A step that is written with another status than completed. -/
theorem mem_of_put_byName {T : Table Step.id} {x t : Step} (hT : T = v.steps)
    (ht : t ∈ T.put x) (hst : t.ByName) (hx : ¬ x.ByName) : t ∈ v.steps := by
  rcases Table.mem_put.mp ht with rfl | ⟨ht, -⟩
  · exact absurd hst hx
  · exact hT ▸ ht

/-- Only a signal completes a step that waits for one. -/
theorem Act.byName (hb : Base v) (hact : Act l v u) {t : Step}
    (ht : t ∈ (backend.applyAll v u).steps) (hst : t.ByName) : t ∈ v.steps ∨ l.kind = .resolve := by
  have hother : ∀ {x : Step}, x.status ≠ .completed → ¬ x.ByName := fun hne h => hne h.1
  cases hact with
  | create _ _ hsteps hnew hnodup =>
    rw [applyAll_create] at ht
    refine Or.inl ((Table.mem_foldl_put hnew hnodup).mp ht |>.resolve_left (fun hmem => ?_))
    obtain ⟨ns, -, stepID, now, rfl⟩ := forall₂_right hsteps t hmem
    cases hst.1
  | skip => exact Or.inl (mem_of_put_byName rfl ht hst (hother (fun h => by cases h)))
  | park => exact Or.inl (mem_of_put_byName rfl ht hst (hother (fun h => by cases h)))
  | resolve => exact Or.inr rfl
  | dispatch => exact Or.inl (mem_of_put_byName rfl ht hst (hother (fun h => by cases h)))
  | @succeed _ a x _ result ws _ now _ hclose hx hfly =>
    rw [Backend.applyAll_append] at ht
    refine Or.inl (mem_of_put_byName hclose.frame.1 ht hst (fun hbyName => ?_))
    -- A step that waits for a signal makes no attempts.
    have hrow := hb.ledger.row x (Table.mem_of_get? hx)
    have hzero := hrow.signal hbyName.2
    have hpos := hrow.count_of_inFlight hfly
    omega
  | retry hclose =>
    rw [Backend.applyAll_append] at ht
    exact Or.inl (mem_of_put_byName hclose.frame.1 ht hst (hother (fun h => by cases h)))
  | giveUp hclose =>
    rw [Backend.applyAll_append] at ht
    exact Or.inl (mem_of_put_byName hclose.frame.1 ht hst (hother (fun h => by cases h)))
  | late hclose _ _ htms =>
    rw [Backend.applyAll_append] at ht
    rcases htms with rfl | ⟨tm, rfl, -⟩ <;> exact Or.inl (hclose.frame.1 ▸ ht)
  | cancelStep => exact Or.inl (mem_of_put_byName rfl ht hst (hother (fun h => by cases h)))
  | running => exact Or.inl (mem_of_put_byName rfl ht hst (hother (fun h => by cases h)))
  | _ => exact Or.inl ht

theorem Signal.Used.evolve {sig sig' : Signal} {t : Step} (h : sig.Used t)
    (hev : sig.Evolves sig') : sig'.Used t :=
  ⟨hev.done h.processed, hev.run.trans h.run, hev.name.trans h.name, hev.payload ▸ h.payload⟩

/-- The signals that steps have used stay so. -/
theorem Paired.keep {v' : Db} {f : UUID → UUID} (h : Paired v f) (hev : v.Evolves v')
    (hsteps : ∀ t ∈ v'.steps, t.ByName → t ∈ v.steps) : Paired v' f where
  used t ht hst := by
    obtain ⟨sig, hsig, hused⟩ := h.used t (hsteps t ht hst) hst
    obtain ⟨sig', hsig', hss⟩ := hev.signal hsig
    exact ⟨sig', hsig', hused.evolve hss⟩
  own t ht t' ht' hst hst' heq := h.own t (hsteps t ht hst) t' (hsteps t' ht' hst') hst hst' heq

/-- A signal that has not been used completes a step and becomes its own. -/
theorem Paired.extend {v' : Db} {f : UUID → UUID} (h : Paired v f) (hev : v.Evolves v')
    {sig sig' : Signal} {t t' : Step} (hsig : v.signals.get? sig.id = some sig)
    (hunused : sig.processed = false) (hsig' : v'.signals.get? sig.id = some sig')
    (hused : sig'.Used t') (hid : t'.id = t.id) (hsteps : v'.steps = v.steps.put t') :
    Paired v' (Function.update f t.id sig.id) := by
  have hfresh : ∀ x ∈ v.steps, x.ByName → f x.id ≠ sig.id := by
    intro x hx hst heq
    obtain ⟨y, hy, hused⟩ := h.used x hx hst
    rw [heq, hsig] at hy
    obtain rfl := Option.some.inj hy
    rw [hused.processed] at hunused
    cases hunused
  have hcases : ∀ x ∈ v'.steps, x = t' ∨ (x ∈ v.steps ∧ x.id ≠ t.id) := by
    intro x hx
    rw [hsteps] at hx
    rw [← hid]
    exact Table.mem_put.mp hx
  refine ⟨fun x hx hst => ?_, fun x hx y hy hxst hyst heq => ?_⟩
  · rcases hcases x hx with rfl | ⟨hx, hne⟩
    · rw [hid, Function.update_self]
      exact ⟨sig', hsig', hused⟩
    · rw [Function.update_of_ne hne]
      obtain ⟨y, hy, hyused⟩ := h.used x hx hst
      obtain ⟨y', hy', hyy⟩ := hev.signal hy
      exact ⟨y', hy', hyused.evolve hyy⟩
  · rcases hcases x hx with rfl | ⟨hx, hxne⟩ <;> rcases hcases y hy with rfl | ⟨hy, hyne⟩
    · rfl
    · rw [hid, Function.update_self, Function.update_of_ne hyne] at heq
      exact absurd heq.symm (hfresh y hy hyst)
    · rw [hid, Function.update_self, Function.update_of_ne hxne] at heq
      exact absurd heq (hfresh x hx hxst)
    · rw [Function.update_of_ne hxne, Function.update_of_ne hyne] at heq
      exact h.own x hx y hy hxst hyst heq

/-- Every action keeps the pairing, where a signal that completes a step becomes its
own. -/
theorem Paired.act (h : ∃ f, Paired v f) (hb : Base v) (hact : Act l v u) :
    ∃ f, Paired (backend.applyAll v u) f := by
  obtain ⟨f, hf⟩ := h
  have hev := hact.evolves
  by_cases hk : l.kind = .resolve
  · cases hact with
    | @resolve _ t sig r now now' hsig hunused hrun hname ht hst htype =>
      have hused : Signal.Used { sig with processed := true }
          (t.transition .completed (some sig.payload) none false now) := ⟨rfl, hrun, hname, rfl⟩
      exact ⟨_, hf.extend hev hsig hunused (Table.get?_put_self v.signals _) hused (t := t) rfl rfl⟩
    | _ => cases hk
  · exact ⟨f, hf.keep hev (fun t ht hst => (hact.byName hb ht hst).resolve_right hk)⟩

end Paired

/-- The signals belong to runs and were received up to now, and those of one name
have been used in the order in which they were received. -/
structure InOrder (now : Time) (v : Db) : Prop where
  known : ∀ g ∈ v.signals, ∃ r, v.runs.get? g.workflowRunID = some r
  past : ∀ g ∈ v.signals, g.receivedAt ≤ now
  fifo : ∀ g ∈ v.signals, ∀ g' ∈ v.signals, g.workflowRunID = g'.workflowRunID →
    g.signalName = g'.signalName → g.receivedAt < g'.receivedAt → g'.processed = true →
    g.processed = true

namespace InOrder

variable {P : Signal → Prop} {q : Prop} {now now' : Time} {runID : UUID} {v v₀ v' : Db}

theorem of_eq (h : InOrder now v) (hev : v.Evolves v') (heq : v'.signals = v.signals) :
    InOrder now v' := by
  refine ⟨fun g hg => ?_, heq ▸ h.past, heq ▸ h.fifo⟩
  obtain ⟨r, hr⟩ := h.known g (heq ▸ hg)
  obtain ⟨r', hr', -⟩ := hev.run hr
  exact ⟨r', hr'⟩

theorem mono (h : InOrder now v) (hle : now ≤ now') : InOrder now' v :=
  ⟨h.known, fun g hg => (h.past g hg).trans hle, h.fifo⟩

/-- A signal is received. -/
theorem receive (h : InOrder now v) {sig : Signal} {r : WorkflowRun} {payload : Option Json}
    {now₁ : Time} (hunused : sig.processed = false) (hle : now ≤ sig.receivedAt)
    (hr : v.runs.get? sig.workflowRunID = some r)
    (hev : v.Evolves (backend.applyAll v
      (.signal sig :: historyWrites r .signalReceived payload now₁))) :
    InOrder sig.receivedAt (backend.applyAll v
      (.signal sig :: historyWrites r .signalReceived payload now₁)) := by
  refine ⟨fun g hg => ?_, fun g hg => ?_, fun g hg g' hg' hrun hname hlt hused => ?_⟩
  · have hold : ∃ r, v.runs.get? g.workflowRunID = some r := by
      rcases Table.mem_put.mp hg with rfl | ⟨hg, -⟩
      · exact ⟨r, hr⟩
      · exact h.known g hg
    obtain ⟨r', hr'⟩ := hold
    obtain ⟨r'', hr'', -⟩ := hev.run hr'
    exact ⟨r'', hr''⟩
  · rcases Table.mem_put.mp hg with rfl | ⟨hg, -⟩
    · exact le_rfl
    · exact (h.past g hg).trans hle
  · rcases Table.mem_put.mp hg' with rfl | ⟨hold', -⟩
    · rw [hunused] at hused
      cases hused
    · rcases Table.mem_put.mp hg with rfl | ⟨hold, -⟩
      · exact absurd ((h.past g' hold').trans hle) hlt.not_ge
      · exact h.fifo g hold g' hold' hrun hname hlt hused

/-- An evaluation takes the earliest signal of a name. -/
theorem pass {u : List Write} (h : InOrder now v) (hpass : Pass runID v u) :
    InOrder now (backend.applyAll v u) := by
  have hev := hpass.evolves
  cases hpass with
  | @hear t r now₁ now₂ sig ht hrun hst htype hdeps hsig hfirst =>
    refine ⟨fun g hg => ?_, fun g hg => ?_, fun g hg g' hg' hrun' hname hlt hused => ?_⟩
    · have hold : ∃ r, v.runs.get? g.workflowRunID = some r := by
        rcases Table.mem_put.mp hg with rfl | ⟨hg, -⟩
        · exact h.known sig hsig.mem
        · exact h.known g hg
      obtain ⟨r', hr'⟩ := hold
      obtain ⟨r'', hr'', -⟩ := hev.run hr'
      exact ⟨r'', hr''⟩
    · rcases Table.mem_put.mp hg with rfl | ⟨hg, -⟩
      · exact h.past sig hsig.mem
      · exact h.past g hg
    · rcases Table.mem_put.mp hg with rfl | ⟨hg, -⟩
      · rfl
      · rcases Table.mem_put.mp hg' with rfl | ⟨hg', -⟩
        · -- A signal received before the one taken had been used.
          by_contra hunused
          exact absurd (hfirst g ⟨hg, hrun'.trans hsig.run, hname.trans hsig.name,
            Bool.eq_false_iff.mpr hunused⟩) hlt.not_ge
        · exact h.fifo g hg g' hg' hrun' hname hlt hused
  | _ => exact h.of_eq hev rfl

/-- What comes before an evaluation, and the time when it is done. -/
theorem lead (h : InOrder now v) (hb : Base v) (hlead : Lead P runID v v₀)
    (hP : ∀ sig, P sig → now ≤ sig.receivedAt ∧ sig.receivedAt ≤ now') (hle : now ≤ now') :
    InOrder now' v₀ := by
  have hev := hlead.through.evolves hb
  cases hlead with
  | resume => exact h.mono hle
  | create hact =>
    refine (h.mono hle).of_eq hev ?_
    cases hact with
    | create =>
      rw [applyAll_create]
      rfl
  | outcome hk hact =>
    refine (h.mono hle).of_eq hev ?_
    cases hact with
    | succeed hclose =>
      cases hclose
      rfl
    | retry hclose => cases hclose <;> rfl
    | giveUp hclose => cases hclose <;> rfl
    | _ => simp at hk
  | redispatch _ _ _ _ _ _ _ hact =>
    refine (h.mono hle).of_eq hev ?_
    cases hact
    rfl
  | @signal sig _ _ _ _ _ hunused hrun harrives hr =>
    obtain ⟨hge, hle'⟩ := hP sig harrives
    subst hrun
    exact (h.receive hunused hge hr hev).mono hle'

/-- Every change of the store uses signals in their order. -/
theorem shift (h : InOrder now v) (hb : Base v) (hs : Shift P q v v')
    (hP : ∀ sig, P sig → now ≤ sig.receivedAt ∧ sig.receivedAt ≤ now') (hle : now ≤ now') :
    InOrder now' v' := by
  have hev := hs.evolves hb
  have hquiet : ∀ {C : Label → Prop} {u : List Write}, engine.Steps C v u →
      (∀ l, C l → l.kind.ofWorker = true ∨ l.kind.cancels = true ∨ l.kind = .cancelTimer) →
      InOrder now' (backend.applyAll v u) := by
    intro C u hu hC
    refine Steps.induct hu hb (P := InOrder now') (h.mono hle) ?_
    rintro w ⟨run, kind⟩ ws - hl hact ih
    have hact : Act ⟨run, kind⟩ w ws := hact
    have hev := hact.evolves
    have hk := hC _ hl
    cases hact <;> first | exact ih.of_eq hev rfl | simp [Kind.ofWorker, Kind.cancels] at hk
  cases hs with
  | work hu => exact hquiet hu (fun l hl => Or.inl hl)
  | late hclose _ _ htms =>
    refine (h.mono hle).of_eq hev ?_
    rw [Backend.applyAll_append]
    rcases htms with rfl | ⟨-, tm, rfl, -⟩ <;> cases hclose <;> rfl
  | idle => exact (h.mono hle).of_eq hev rfl
  | @note sig _ _ _ _ _ hunused harrives hr =>
    obtain ⟨hge, hle'⟩ := hP sig harrives
    exact (h.receive hunused hge hr hev).mono hle'
  | evaluate hlead heval =>
    exact heval.path.induct (hlead.through.base hb) (h.lead hb hlead hP hle)
      (fun _ _ _ hpass h => h.pass hpass)
  | cancel _ _ hu => exact hquiet hu (fun l hl => Or.inr hl.2)

end InOrder

namespace System

variable {S S' : System} {m : Move}

/-- Every move keeps the order in which signals are used. -/
theorem inOrder_turn (h : InOrder S.clock S.db) (hok : S.Ok) (hturn : Turn S m S') :
    InOrder S'.clock S'.db := by
  have hb := hok.orderly.base
  have hshift := hok.shift hturn
  have hnone : (∀ sig, ¬ Arrives S m sig) → S'.clock = S.clock → InOrder S'.clock S'.db := by
    intro hnone hclock
    rw [hclock]
    exact h.shift hb hshift (fun sig harrives => absurd harrives (hnone sig)) le_rfl
  cases hturn with
  | quiet _ _ _ _ _ hclock harrives =>
    refine h.shift hb hshift (fun sig hsig => ?_) hclock
    rw [harrives sig hsig]
    exact ⟨hclock, le_rfl⟩
  | arrive => exact h
  | claimEnds => exact h
  | _ => exact hnone (fun _ harrives => harrives) rfl

/-- Signals are used in their order in every state that is reached. -/
theorem Reachable.inOrder {C : System → Move → Prop} (h : Reachable C S) :
    InOrder S.clock S.db := by
  refine h.induct (I := fun S => InOrder S.clock S.db) ?_
    (fun _ _ _ _ hok _ hturn horder => inOrder_turn horder hok hturn)
  exact ⟨fun _ hg => absurd hg List.not_mem_nil, fun _ hg => absurd hg List.not_mem_nil,
    fun _ hg => absurd hg List.not_mem_nil⟩

/-- Steps can be paired with their signals in every state that is reached. -/
theorem Reachable.paired {C : System → Move → Prop} (h : Reachable C S) : ∃ f, Paired S.db f := by
  refine h.induct (I := fun S => ∃ f, Paired S.db f) ?_ (fun S _ _ _ hok _ hturn hpaired => ?_)
  · exact ⟨id, fun _ ht => absurd ht List.not_mem_nil, fun _ ht => absurd ht List.not_mem_nil⟩
  · exact (hok.shift hturn).through.induct hok.orderly.base hpaired
      (fun _ _ _ hb _ hact h => Paired.act h hb hact)

end System

/-- The steps of a run that signals have completed. -/
abbrev SignalledStep (v : Db) (runID : UUID) : Type :=
  { t : Step // t ∈ v.steps ∧ t.workflowRunID = runID ∧ t.ByName }

/-- The signals of a run that have been used. -/
abbrev UsedSignal (v : Db) (runID : UUID) : Type :=
  { g : Signal // g ∈ v.signals ∧ g.workflowRunID = runID ∧ g.processed = true }

/-- A pairing maps the steps of a run one to one to signals that have been used. -/
theorem Paired.injection {v : Db} {p : UUID → UUID} (h : Paired v p) (runID : UUID) :
    ∃ f : SignalledStep v runID → UsedSignal v runID, Function.Injective f ∧
      ∀ t, (f t).1.signalName = t.1.wantName ∧ t.1.output = some (f t).1.payload := by
  have hall : ∀ t : SignalledStep v runID, ∃ g : UsedSignal v runID,
      v.signals.get? (p t.1.id) = some g.1 ∧ g.1.signalName = t.1.wantName ∧
        t.1.output = some g.1.payload := by
    rintro ⟨t, ht, hrun, hst⟩
    obtain ⟨g, hg, hused⟩ := h.used t ht hst
    exact ⟨⟨g, Table.mem_of_get? hg, hused.run.trans hrun, hused.processed⟩, hg, hused.name,
      hused.payload⟩
  choose f hget hname houtput using hall
  refine ⟨f, fun t t' heq => Subtype.ext ?_, fun t => ⟨hname t, houtput t⟩⟩
  have hid : p t.1.id = p t'.1.id :=
    (Table.key_of_get? (hget t)).symm.trans (heq ▸ Table.key_of_get? (hget t'))
  exact h.own t.1 t.2.1 t'.1 t'.2.1 t.2.2.2 t'.2.2.2 hid

/-- The steps of a run that signals have completed are mapped one to one to signals
of the run that have been used, where a signal has the name that its step wants and
the step has its payload as its output. Of two signals with one name, the later one
is not used before the earlier one. No step waits while there is an unused signal
that it wants. -/
theorem signals_matched_in_order {S : System} (h : System.Reachable System.Any S) (runID : UUID) :
    (∃ f : SignalledStep S.db runID → UsedSignal S.db runID, Function.Injective f ∧
      ∀ t, (f t).1.signalName = t.1.wantName ∧ t.1.output = some (f t).1.payload) ∧
    (∀ g ∈ S.db.signals, ∀ g' ∈ S.db.signals, g.workflowRunID = runID →
      g'.workflowRunID = runID → g.signalName = g'.signalName → g.receivedAt < g'.receivedAt →
      g'.processed = true → g.processed = true) ∧
    ∀ t ∈ S.db.steps, t.workflowRunID = runID → t.status = .waiting →
      ¬ ∃ g ∈ S.db.signals, g.workflowRunID = runID ∧ g.signalName = t.wantName ∧
        g.processed = false := by
  obtain ⟨p, hpaired⟩ := h.paired
  refine ⟨hpaired.injection runID, fun g hg g' hg' hrun hrun' hname hlt hused => ?_,
    fun t ht hrun hst => ?_⟩
  · exact h.inOrder.fifo g hg g' hg' (hrun.trans hrun'.symm) hname hlt hused
  · rintro ⟨g, hg, hgrun, hname, hunused⟩
    exact h.ok.orderly.heard runID t ht hrun hst g ⟨hg, hgrun.trans hrun.symm, hname, hunused⟩

/-- A step that waits for a signal once another one has completed, and a step that
depends on it and comes first. -/
def earlyDefinition : Definition :=
  ⟨"early", 0, [⟨"b", "work", ["s"], none, 1, 0, 0, 0, 0⟩,
    ⟨"s", "signal_wait", ["a"], none, 1, 0, 0, 0, 0⟩, ⟨"a", "work", [], none, 1, 0, 0, 0, 0⟩]⟩

/-- Two signals arrive before the first step has completed. -/
def earlyMoves : List Move :=
  [.registerDefinition earlyDefinition (.ticks 100), .createRun "early" 0 none (.ticks 200),
    .signal 201 "s" none (.ticks 300), .signal 201 "s" none (.ticks 350)] ++
    Move.claims 210 "w" 400

/-- The signals have arrived, and the first step is being carried out. -/
def unheardSystem : System := (System.run earlyMoves .init).get (by decide +kernel)

/-- The first step has completed. -/
def earlySystem : System :=
  (unheardSystem.next (.report 210 "w" true none none (.ticks 500))).get (by decide +kernel)

/-- The earlier one of the two signals has completed the step that waited. -/
theorem signals_matched_in_order_early :
    ∃ t ∈ earlySystem.db.steps, t.status = .completed ∧ t.taskType = signalWaitTaskType ∧
      ∃ g ∈ earlySystem.db.signals, g.processed = true ∧ g.signalName = t.wantName ∧
        t.output = some g.payload := by
  have hunheard : System.Reachable System.Any unheardSystem :=
    .run .init (fun _ _ _ => trivial) (Option.some_get _).symm
  have hreach : System.Reachable System.Any earlySystem :=
    hunheard.step trivial (Option.some_get _).symm
  have hdone : ∃ t ∈ earlySystem.db.steps.rows, t.workflowRunID = 201 ∧ t.status = .completed ∧
      t.taskType = signalWaitTaskType := by decide +kernel
  obtain ⟨t, ht, hrun, hst, htype⟩ := hdone
  obtain ⟨⟨f, -, hf⟩, -⟩ := signals_matched_in_order hreach 201
  have hmatch := hf ⟨t, ht, hrun, hst, htype⟩
  obtain ⟨hmem, -, hused⟩ := (f ⟨t, ht, hrun, hst, htype⟩).2
  exact ⟨t, ht, hst, htype, _, hmem, hused, hmatch.1, hmatch.2⟩

end Orchestrator
