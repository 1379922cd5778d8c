import Orchestrator.Solo.Steering
import Orchestrator.System.Lifecycle
import Orchestrator.System.Signals
import Orchestrator.System.Timers

/-!
# When an evaluation leaves nothing to do

An evaluation visits every pending step once. It leaves a step that could go on if the last
of its dependencies is completed by a signal after the step has been visited. Whether some
order of visits does so can be read off the state before the call: there has to be a chain of
steps that signals can complete one after the other, and a step that waits for them. Where
there is none, another evaluation changes nothing, whatever the order. Where there is one,
some order leaves the step behind.
-/

namespace Orchestrator

open Lib Program Actions

section Evaluation

variable {runID : UUID} {v v' : Db}

/-- Nothing can be done about the run. -/
structure AtRest (runID : UUID) (v : Db) : Prop where
  unblocked : ∀ t ∈ v.steps, t.workflowRunID = runID → t.status = .pending → ¬ Blocked v.steps t
  unready : ∀ t ∈ v.steps, t.workflowRunID = runID → t.status = .pending → ¬ DepsDone v.steps t
  heard : Heard runID v
  started : Started runID v
  busy : ∀ r, v.runs.get? runID = some r → runTerminal r.status = false → ¬ AllDone v.steps runID
  disarmed : Disarmed runID v

/-- An evaluation after which no pending step could go on has left nothing to do. -/
theorem Evaluated.atRest (h : Evaluated runID v v')
    (hready : ∀ t ∈ v'.steps, t.workflowRunID = runID → t.status = .pending →
      ¬ DepsDone v'.steps t) : AtRest runID v' where
  unblocked := h.quiescent.unblocked
  unready := hready
  heard := h.heard
  started := h.started
  busy r hr hlive hall := by
    obtain ⟨t, ht, hrun, hgoes⟩ := h.quiescent.busy r hr hlive
    rw [hall t ht hrun] at hgoes
    cases hgoes
  disarmed := h.disarmed

/-- Where nothing can be done, nothing changes. -/
theorem AtRest.passes (h : AtRest runID v) (hpath : Passes runID v v') : v' = v := by
  induction hpath with
  | refl => rfl
  | tail _ hu ih =>
    subst ih
    obtain ⟨u, hpass, -⟩ := hu
    exfalso
    cases hpass with
    | skip ht hrun hst hblocked =>
      exact h.unblocked _ (Table.mem_of_get? ht) hrun hst hblocked
    | hear ht hrun hst _ hdeps hsig =>
      rcases hst with hst | hst
      · exact h.unready _ (Table.mem_of_get? ht) hrun hst hdeps
      · exact h.heard _ (Table.mem_of_get? ht) hrun hst _ hsig
    | park ht hrun hst _ hdeps => exact h.unready _ (Table.mem_of_get? ht) hrun hst hdeps
    | dispatch ht hrun hst _ hdeps => exact h.unready _ (Table.mem_of_get? ht) hrun hst hdeps
    | start hr hst hfly =>
      obtain ⟨t, ht, hrun, hinFlight⟩ := hfly
      rw [h.started _ hr hst t ht hrun] at hinFlight
      cases hinFlight
    | finish hr hlive hall => exact h.busy _ hr hlive hall
    | disarm htm hst hrun hr hend =>
      exact h.disarmed _ hr hend _ (Table.mem_of_get? htm) hrun hst

/-- The store that a call of `Reconcile` leaves. -/
abbrev reconciled (runID : UUID) (ω : ℕ → Draw) (v : Db) : Db :=
  ((reconcile runID).withTx backend ω v []).2

/-- What a call of `Reconcile` does. -/
theorem reconciled_cases (hb : Base v) {ω : ℕ → Draw}
    (hω : (reconcile runID).Admissible backend ω v []) :
    (reconciled runID ω v = v ∧ ∀ r, v.runs.get? runID = some r → runTerminal r.status = true) ∨
      ∃ r, v.runs.get? runID = some r ∧ runTerminal r.status = false ∧
        Evaluated runID v (reconciled runID ω v) := by
  rcases (reconcile_solo hb runID).withTx (w := []) hω with ⟨-, -, r, hr, hcase⟩ | ⟨e, hres, hnone⟩
  · rcases hcase with ⟨hend, heq⟩ | ⟨hlive, heval⟩
    · refine Or.inl ⟨heq, fun r' hr' => ?_⟩
      rw [← Option.some.inj (hr.symm.trans hr')]
      exact hend
    · exact Or.inr ⟨r, hr, hlive, heval⟩
  · refine Or.inl ⟨by rw [reconciled, hres], fun r hr => ?_⟩
    rw [hnone] at hr
    cases hr

/-- `Reconcile` leaves a run alone about which nothing can be done, or that has
ended. -/
theorem reconciled_eq (hb : Base v) {ω : ℕ → Draw}
    (hω : (reconcile runID).Admissible backend ω v [])
    (h : HasEnded runID v ∨ AtRest runID v) : reconciled runID ω v = v := by
  rcases reconciled_cases hb hω with ⟨heq, -⟩ | ⟨r, hr, hlive, heval⟩
  · exact heq
  · rcases h with ⟨r', hr', hend⟩ | hrest
    · rw [← Option.some.inj (hr.symm.trans hr'), hlive] at hend
      cases hend
    · exact hrest.passes heval.path

/-- A run with a pending step goes on. -/
theorem Orderly.live_of_pending (h : Orderly v) {t : Step} (ht : t ∈ v.steps)
    (hrun : t.workflowRunID = runID) (hst : t.status = .pending) :
    ∃ r ∈ v.runs, v.runs.get? runID = some r ∧ runTerminal r.status = false := by
  obtain ⟨r, hr, hrid⟩ := h.base.graph.run t ht
  have hget : v.runs.get? runID = some r := hrid.trans hrun ▸ Table.mem_iff_get?.mp hr
  refine ⟨r, hr, hget, Bool.eq_false_iff.mpr (fun hend => ?_)⟩
  have hterm := (h.upright runID).ended r hget hend t ht hrun
  rw [hst] at hterm
  cases hterm

end Evaluation

/-- The move is a call of the engine that ends with an evaluation of the run: it
creates the run, accepts a report for it, fires a timer of it, applies a signal to
it or reconciles it. -/
inductive Concerns (S : System) (runID : UUID) : Move → Prop
  | create {name version input ω} :
      ((createRun name version input).withTx backend ω S.db []).1 = .ok runID →
      Concerns S runID (.createRun name version input ω)
  | report {attemptID workerID success output errMsg ω a} :
      S.db.attempts.get? attemptID = some a → a.workflowRunID = runID →
      ((handleTaskResult attemptID workerID success output errMsg).withTx backend ω S.db []).1 =
        .ok true → Concerns S runID (.report attemptID workerID success output errMsg ω)
  | fire {timerID ω tm} : S.db.timers.get? timerID = some tm → tm.workflowRunID = runID →
      tm.status = .pending → Concerns S runID (.fireTimer timerID ω)
  | signal {name payload ω} :
      ((applySignal runID name payload).withTx backend ω S.db []).1 = .ok () →
      Concerns S runID (.signal runID name payload ω)
  | reconcile {ω} : ((reconcile runID).withTx backend ω S.db []).1 = .ok () →
      Concerns S runID (.reconcile runID ω)

/-- The same call with other draws. -/
def Move.redraw (ω : ℕ → Draw) : Move → Move
  | .createRun name version input _ => .createRun name version input ω
  | .reconcile runID _ => .reconcile runID ω
  | .report attemptID workerID success output errMsg _ =>
    .report attemptID workerID success output errMsg ω
  | .fireTimer timerID _ => .fireTimer timerID ω
  | .signal runID name payload _ => .signal runID name payload ω
  | m => m

/-- The draws of the call have a property. -/
def Move.Draws (P : Draw → Prop) : Move → Prop
  | .createRun _ _ _ ω | .reconcile _ ω | .report _ _ _ _ _ ω | .fireTimer _ ω | .signal _ _ _ ω =>
    ∀ i, P (ω i)
  | _ => True

/-- The names of the signals that the call stores. -/
def Move.brings : Move → List String
  | .signal _ name _ _ => [name]
  | _ => []

/-- The call reports success of the step of this name. -/
def Move.Reports (S : System) : Move → String → Prop
  | .report attemptID _ success _ _ _, name => success = true ∧ ∃ a t,
      S.db.attempts.get? attemptID = some a ∧ S.db.steps.get? a.stepID = some t ∧ t.stepName = name
  | _, _ => False

/-- The position of a run when the evaluation by the call begins. The step of a report has
completed by then, and a signal is stored. -/
def System.position (S : System) (runID : UUID) (m : Move) : Position where
  opens := (S.db.position runID).opens
  done name := S.db.Completes runID name ∨ m.Reports S name
  offers := m.brings ++ S.db.offers runID

/-- Steps of the run can be completed one after the other by signals that have come before
or come by the call, the last one of them pending up to now, and another pending step has
all its dependencies completed then. The call does not cancel the run. -/
def Early (S : System) (runID : UUID) (m : Move) : Prop :=
  (∀ payload ω, m ≠ .signal runID "__cancel__" payload ω) ∧ (S.position runID m).Strands

/-- The evaluation of the run by the call begins in the state `v₀`. -/
structure Begins (S : System) (runID : UUID) (m : Move) (v₀ : Db) : Prop where
  base : Base v₀
  agrees : (S.position runID m).Agrees (v₀.position runID)
  ranges : ∀ names, Ranges runID v₀ names ↔ Ranges runID S.db names
  stays : ∀ payload ω, m ≠ .signal runID "__cancel__" payload ω

section Concerns

variable {S S' : System} {runID : UUID} {m : Move} {R : UUID → Db → Db → Prop}

/-- The evaluation begins when a step has moved on. -/
theorem begins_of_becomes {v₀ : Db} (hb₀ : Base v₀) {t t' : Step} (hput : Becomes S.db t t' v₀)
    (ht : t ∈ S.db.steps) (hrun : t.workflowRunID = runID)
    (hst : t.status ∉ [StepStatus.pending, .waiting, .completed])
    (hst' : t'.status ≠ .pending ∧ t'.status ≠ .waiting) (hsignals : v₀.signals = S.db.signals)
    (hdone : ∀ name, m.Reports S name ↔ t'.status = .completed ∧ t.stepName = name)
    (hbrings : m.brings = []) (hstays : ∀ payload ω, m ≠ .signal runID "__cancel__" payload ω) :
    Begins S runID m v₀ := by
  simp only [List.mem_cons, List.not_mem_nil, or_false, not_or] at hst
  refine ⟨hb₀, ⟨hput.opens ht ⟨hst.1, hst.2.1⟩ hst', fun name => ?_, ?_⟩,
    fun names => hput.ranges ht, hstays⟩
  · exact (or_congr_right (hdone name)).trans (hput.completes ht hrun hst.2.2).symm
  · simp only [System.position, Db.position, hbrings, Db.offers, hsignals]
    exact .refl _

/-- An accepted report ends with the evaluation of a run that goes on. -/
theorem Applies.begins {v' : Db} {a : TaskAttempt} {attemptID : UUID} {workerID : String}
    {success : Bool} {output : Option RawMessage} {errMsg : Option String} {ω : ℕ → Draw}
    {ws : List Write} (h : Applies R S.db a success ws v') (horderly : Orderly S.db)
    (ha : S.db.attempts.get? attemptID = some a) : HasEnded a.workflowRunID S.db ∨
      ∃ v₀, Begins S a.workflowRunID (.report attemptID workerID success output errMsg ω) v₀ ∧
        R a.workflowRunID v₀ v' := by
  have hb := horderly.base
  have hparent : ∀ {t}, S.db.steps.get? a.stepID = some t → t.workflowRunID = a.workflowRunID :=
    fun ht => (hb.ledger.parent_of_get? (Table.mem_of_get? ha) ht).1.symm
  cases h with
  | change hk hact hmoves heval =>
    obtain ⟨t, t', ht, hfly, hput, hst'⟩ := hmoves.step
    refine Or.inr ⟨_, begins_of_becomes (hact.base hb) hput (Table.mem_of_get? ht) (hparent ht)
      ?_ ?_ hmoves.signals (fun name => ?_) rfl (fun _ _ => Move.noConfusion), heval⟩
    · rcases hfly with hst | hst <;> simp [hst]
    · rcases hst' with ⟨-, hst⟩ | ⟨-, hst | hst⟩ <;> simp [hst]
    · rcases hst' with ⟨rfl, hst⟩ | ⟨rfl, hst⟩
      · refine ⟨fun ⟨_, a', x, ha', hx, hname⟩ => ⟨hst, ?_⟩,
          fun hname => ⟨rfl, a, t, ha, ht, hname.2⟩⟩
        obtain rfl := Option.some.inj (ha.symm.trans ha')
        obtain rfl := Option.some.inj (ht.symm.trans hx)
        exact hname
      · refine ⟨fun hname => (Bool.false_ne_true hname.1).elim, fun hname => ?_⟩
        rcases hst with hst | hst <;> rw [hst] at hname <;> cases hname.1
  | late ht hcancelled =>
    -- The run was cancelled with the step.
    exact Or.inl ((horderly.upright _).cancelled _ (Table.mem_of_get? ht) (hparent ht) hcancelled)

/-- So does the firing of a timer. -/
theorem Fires.begins {v' : Db} {tm : Timer} {ω : ℕ → Draw} (h : Fires R S.db tm.id v')
    (hb : Base S.db) (harmed : Armed tm.workflowRunID S.db)
    (htm : S.db.timers.get? tm.id = some tm) (hst : tm.status = .pending) :
    HasEnded tm.workflowRunID S.db ∨
      ∃ v₀, Begins S tm.workflowRunID (.fireTimer tm.id ω) v₀ ∧ R tm.workflowRunID v₀ v' := by
  cases h with
  | unarmed hnone => exact absurd hst (hnone tm htm)
  | @idle tm' t r now htm' _ hstep ht hr hidle =>
    obtain rfl := Option.some.inj (htm.symm.trans htm')
    rcases hidle with hne | hend
    · exact Or.inl ((harmed.backs_off hb (Table.mem_of_get? htm) hst hstep ht).resolve_right hne)
    · exact Or.inl ⟨r, hr, hend⟩
  | @retry tm' t r now now' u htm' _ hstep ht _ hback _ hrun hact hdis heval =>
    obtain rfl := Option.some.inj (htm.symm.trans htm')
    have hfire : Base (S.db.apply (.timer (tm.fire now))) := Act.base (.fireTimer htm hst) hb
    have hput : Becomes S.db t (t.transition .queued none none true now') _ := ⟨rfl, hdis.steps⟩
    refine Or.inr ⟨_, begins_of_becomes (hact.base hfire) hput (Table.mem_of_get? ht)
      hrun (by simp [hback]) ⟨nofun, nofun⟩ hdis.signals
      (fun name => ⟨False.elim, fun h => by cases h.1⟩) rfl (fun _ _ => Move.noConfusion), heval⟩

/-- So does the arrival of a signal. -/
theorem Signalled.begins {name : String} {payload : Option RawMessage} {ω : ℕ → Draw}
    {at' : Time} {v' : Db} (h : Signalled R runID name at' S.db v') (hb : Base S.db)
    (hname : name ≠ "__cancel__") : HasEnded runID S.db ∨
      ∃ v₀, Begins S runID (.signal runID name payload ω) v₀ ∧ R runID v₀ v' := by
  obtain ⟨sig, r, document, now, hnew, hvalid, hunused, hrun, rfl, -, hr, hcase⟩ := h
  rcases hcase with ⟨hend, -⟩ | ⟨hlive, heval⟩
  · exact Or.inl ⟨r, hr, hend⟩
  · have hlead : Lead (fun _ => True) runID S.db (backend.applyAll S.db
        (.signal sig :: historyWrites r .signalReceived document now)) :=
      .signal hnew hvalid hunused hrun trivial hr hlive
    refine Or.inr ⟨_, ⟨hlead.through.base hb, ⟨fun _ => Iff.rfl, fun _ => iff_of_eq (or_false _),
      ?_⟩, fun _ => Iff.rfl, fun _ _ heq => hname (Move.signal.inj heq).2.1⟩, heval⟩
    refine ((Table.filter_rows_perm (t := S.db.signals.put sig) (u := S.db.signals) (r := sig)
      (p := fun g => g.workflowRunID = runID ∧ g.processed = false) (by simp [hrun, hunused])
      (fun hmem => ?_) (fun g _ => ?_)).map (·.signalName)).symm
    · cases hnew.symm.trans (Table.mem_iff_get?.mp hmem)
    · rw [Table.mem_put]
      refine or_congr_right ⟨And.left, fun hg => ⟨hg, fun hid => ?_⟩⟩
      cases hnew.symm.trans (hid ▸ Table.mem_iff_get?.mp hg)

/-- A call with such draws finds the run ended, or ends it, or it creates it or finds it, and
evaluates it. -/
theorem Concerns.begins {P : Draw → Prop} (h : Concerns S runID m) (hR : Describes P R)
    (hP : m.Draws P) (hok : S.Ok) (harmed : Armed runID S.db) (horder : InOrder S.clock S.db)
    (hnext : S.next m = some S') :
    (HasEnded runID S.db ∨
        HasEnded runID S'.db ∧ ∃ payload ω, m = .signal runID "__cancel__" payload ω) ∨
      (S.db.runs.get? runID = none ∧ ∃ v₀, Base v₀ ∧ v₀.offers runID = [] ∧ R runID v₀ S'.db) ∨
      ∃ v₀, Begins S runID m v₀ ∧ R runID v₀ S'.db := by
  have hb := hok.orderly.base
  cases h with
  | @create name version input ω hres =>
    simp only [System.next] at hnext
    obtain ⟨hω, rfl⟩ := System.tx_inv hnext
    rcases ((createRun_wp (E := fun _ => True) hR hb name version input (fun _ => trivial)
      (fun _ => trivial)).leads_of_restrict (w := []) hω hP).withTx with
      ⟨id, hid, d, u, -, hcreates, heval⟩ | ⟨e, herr, -⟩
    · obtain rfl := Except.ok.inj (hid.symm.trans hres)
      refine Or.inr (Or.inl ?_)
      have hact := hcreates.act
      have hb₀ := hact.base hb
      cases hact with
      | create _ hnone =>
        refine ⟨hnone, _, hb₀, List.eq_nil_iff_forall_not_mem.mpr (fun x hx => ?_), heval⟩
        -- There are no signals for a run that is not there.
        obtain ⟨g, hg, hgrun, -⟩ := mem_offers.mp hx
        rw [applyAll_create] at hg
        obtain ⟨r, hr⟩ := horder.known g hg
        rw [hgrun, hnone] at hr
        cases hr
    · rw [herr] at hres
      cases hres
  | @report attemptID workerID success output errMsg ω a ha hrun hres =>
    simp only [System.next] at hnext
    obtain ⟨hω, rfl⟩ := System.tx_inv hnext
    subst hrun
    rcases ((handleTaskResult_wp (E := fun _ => True) hR hb hok.orderly.upright attemptID workerID
      success output errMsg (fun _ => trivial) (fun _ => trivial)).leads_of_restrict (w := []) hω
      hP).withTx with ⟨accepted, hacc, hcase⟩ | ⟨e, herr, -⟩
    · rcases hcase with ⟨rfl, -⟩ | ⟨rfl, a', now, ha', -, -, happ⟩
      · cases hacc.symm.trans hres
      · obtain rfl := Option.some.inj (ha.symm.trans ha')
        exact (happ.begins hok.orderly ha).imp Or.inl Or.inr
    · rw [herr] at hres
      cases hres
  | @fire timerID ω tm htm hrun hst =>
    simp only [System.next] at hnext
    obtain ⟨hω, rfl⟩ := System.tx_inv hnext
    subst hrun
    obtain rfl : tm.id = timerID := Table.key_of_get? htm
    rcases ((handleFiredTimer_wp (E := fun _ => False) hR hb tm.id).leads_of_restrict (w := []) hω
      hP).withTx with ⟨-, -, hfires⟩ | ⟨e, -, hfalse⟩
    · exact (hfires.begins hb harmed htm hst).imp Or.inl Or.inr
    · exact hfalse.elim
  | @signal name payload ω hres =>
    have hev := System.next_evolves hok hnext
    simp only [System.next] at hnext
    split_ifs at hnext
    obtain ⟨hω, rfl⟩ := System.tx_inv hnext
    by_cases hname : name = "__cancel__"
    · refine Or.inl ?_
      subst hname
      rw [applySignal, if_pos rfl] at hω hres
      rcases (cancelRun_solo hb runID).withTx (w := []) hω with ⟨-, -, hcase⟩ | ⟨e, herr, -⟩
      · rcases hcase with ⟨hend, -⟩ | ⟨_, _, _, _, _, _, ⟨⟨r, hr, hst⟩, _⟩, _⟩
        · exact Or.inl hend
        · exact Or.inr ⟨⟨r, hr, by rw [hst]; rfl⟩, payload, ω, rfl⟩
      · rw [herr] at hres
        cases hres
    · rcases (applySignal_wp (E := fun _ => True) hR hb hname hω hP (fun _ => trivial)
        (fun _ => trivial)).withTx with ⟨-, -, -, hsig⟩ | ⟨e, herr, -⟩
      · exact (hsig.begins hb hname).imp Or.inl Or.inr
      · rw [herr] at hres
        cases hres
  | @reconcile ω hres =>
    simp only [System.next] at hnext
    obtain ⟨hω, rfl⟩ := System.tx_inv hnext
    rcases ((reconcile_wp hR hb runID).leads_of_restrict (w := []) hω hP).withTx with
      ⟨-, -, r, hr, ⟨hend, -⟩ | ⟨hlive, heval⟩⟩ | ⟨e, herr, -⟩
    · exact Or.inl (Or.inl ⟨r, hr, hend⟩)
    · exact Or.inr (Or.inr ⟨_, ⟨hb, ⟨fun _ => Iff.rfl, fun _ => iff_of_eq (or_false _), .refl _⟩,
        fun _ => Iff.rfl, fun _ _ => Move.noConfusion⟩, heval⟩)
    · rw [herr] at hres
      cases hres

/-- A call on a run that is there can be made as well with other draws. -/
theorem Concerns.again (h : Concerns S runID m) (hok : S.Ok) (hnext : S.next m = some S')
    (hstays : ∀ payload ω, m ≠ .signal runID "__cancel__" payload ω) {r : WorkflowRun}
    (hr : S.db.runs.get? runID = some r) (σ : (n : ℕ) → Equiv.Perm (Fin n)) :
    ∃ ω S'', (∀ i, (ω i).order = σ) ∧ Concerns S runID (m.redraw ω) ∧
      S.next (m.redraw ω) = some S'' := by
  have hb := hok.orderly.base
  cases h with
  | @create name version input ω hres =>
    exfalso
    simp only [System.next] at hnext
    obtain ⟨hω, -⟩ := System.tx_inv hnext
    have hsolo : Solo (fun _ => True) (createRun name version input) _ S.db :=
      createRun_solo hb name version input (fun _ => trivial) (fun _ => trivial)
    rcases hsolo.withTx (w := []) hω with ⟨id, hid, d, u, -, hcreates, -⟩ | ⟨e, herr, -⟩
    · obtain rfl := Except.ok.inj (hid.symm.trans hres)
      have hact := hcreates.act
      cases hact with
      | create _ hnone => cases hnone.symm.trans hr
    · rw [herr] at hres
      cases hres
  | @report attemptID workerID success output errMsg ω a ha hrun hres =>
    simp only [System.next] at hnext
    obtain ⟨hω, -⟩ := System.tx_inv hnext
    rcases (handleTaskResult_solo hb hok.orderly.upright attemptID workerID success output
      errMsg).withTx (w := []) hω with ⟨accepted, hacc, hcase⟩ | ⟨e, herr, -⟩
    · rcases hcase with ⟨rfl, -⟩ | ⟨rfl, a', now, ha', hlease, hvalid, -⟩
      · cases hacc.symm.trans hres
      · obtain rfl := Option.some.inj (ha.symm.trans ha')
        obtain rfl : a.id = attemptID := Table.key_of_get? ha
        obtain ⟨ω', hω', hdraws⟩ :=
          S.exists_draws (handleTaskResult a.id workerID success output errMsg) [] 0 σ
        rcases (handleTaskResult_accepts hb hok.orderly.upright ha hlease success hvalid
          errMsg).withTx (w := []) hω' with ⟨accepted, hok', rfl, -⟩ | ⟨e, -, hfalse⟩
        · exact ⟨ω', _, fun i => (hdraws i).2, .report ha hrun hok', if_pos hω'⟩
        · exact hfalse.elim
    · rw [herr] at hres
      cases hres
  | @fire timerID ω tm htm hrun hst =>
    obtain ⟨ω', hω', hdraws⟩ := S.exists_draws (handleFiredTimer timerID) [] 0 σ
    exact ⟨ω', _, fun i => (hdraws i).2, .fire htm hrun hst, if_pos hω'⟩
  | @signal name payload ω hres =>
    simp only [System.next] at hnext
    split_ifs at hnext
    obtain ⟨hω, -⟩ := System.tx_inv hnext
    have hname : name ≠ "__cancel__" := fun heq => hstays payload ω (heq ▸ rfl)
    obtain ⟨ω', hω', hdraws⟩ := S.exists_draws (applySignal runID name payload) [] S.clock σ
    rcases (applySignal_wp (E := fun _ => True) describes_evaluated hb hname hω (fun _ => trivial)
      (fun _ => trivial) (fun _ => trivial)).withTx with ⟨-, -, hvalid, -⟩ | ⟨e, herr, -⟩
    · rcases (applySignal_wp (E := fun _ => False) describes_evaluated hb hname hω'
        (fun _ => trivial) (fun hnone => by cases hnone.symm.trans hr)
        (fun hinvalid => hinvalid hvalid)).withTx with ⟨_, hok', -⟩ | ⟨e, -, hfalse⟩
      · exact ⟨ω', _, fun i => (hdraws i).2, .signal hok',
          (if_pos (hdraws 0).1).trans (if_pos hω')⟩
      · exact hfalse.elim
    · rw [herr] at hres
      cases hres
  | @reconcile ω hres =>
    obtain ⟨ω', hω', hdraws⟩ := S.exists_draws (Orchestrator.reconcile runID) [] 0 σ
    rcases (reconcile_solo hb runID).withTx (w := []) hω' with ⟨_, hok', -⟩ | ⟨e, -, hnone⟩
    · exact ⟨ω', _, fun i => (hdraws i).2, .reconcile hok', if_pos hω'⟩
    · cases hnone.symm.trans hr

/-- Where nothing is early, a call leaves nothing to do. -/
theorem Concerns.atRest (h : Concerns S runID m) (hreach : System.Reachable System.Any S)
    (hearly : ¬ Early S runID m) (hnext : S.next m = some S') :
    HasEnded runID S'.db ∨ AtRest runID S'.db := by
  have hev := System.next_evolves hreach.ok hnext
  have hdraws : m.Draws (fun _ => True) := by cases h <;> exact fun _ => trivial
  rcases h.begins describes_evaluated hdraws hreach.ok (hreach.armed runID) hreach.inOrder
    hnext with (hend | ⟨hend, -⟩) | ⟨-, v₀, hb₀, hoffers, heval⟩ | ⟨v₀, hbegins, heval⟩
  · exact Or.inl (hend.evolve hev)
  · exact Or.inl hend
  · refine Or.inr (heval.atRest (fun t ht hrun hst hdeps => ?_))
    obtain ⟨l, hchain, hleaves, -⟩ := heval.swept.leaves hb₀ ht hrun hst hdeps
    obtain ⟨x, hx, -⟩ := hleaves.last
    have hmem := hchain.subperm.subset (List.mem_map_of_mem hx)
    rw [show (v₀.position runID).offers = [] from hoffers] at hmem
    cases hmem
  · refine Or.inr (heval.atRest (fun t ht hrun hst hdeps => ?_))
    obtain ⟨l, hchain, hleaves, -⟩ := heval.swept.leaves hbegins.base ht hrun hst hdeps
    exact hearly ⟨hbegins.stays, l, t, hchain.congr hbegins.agrees.symm,
      hleaves.congr hbegins.agrees.symm⟩

/-- Otherwise it leaves a step that could go on, if its draws are such. -/
theorem Early.leaves (h : Early S runID m) (hm : Concerns S runID m)
    (hreach : System.Reachable System.Any S) (hnext : S.next m = some S') :
    ∃ ω S'', Concerns S runID (m.redraw ω) ∧ S.next (m.redraw ω) = some S'' ∧
      ∃ t ∈ S''.db.steps, t.workflowRunID = runID ∧ t.status = .pending ∧
        DepsDone S''.db.steps t := by
  obtain ⟨hstays, l, b, hchain, hleaves⟩ := h
  have hb := hreach.ok.orderly.base
  obtain ⟨hbmem, hbrun, -⟩ := hleaves.opens
  obtain ⟨r, -, hr, hlive⟩ := hreach.ok.orderly.live_of_pending hbmem hbrun hleaves.pending
  obtain ⟨σ, hσ⟩ := exists_fronts hb (l := l) (b := b) (List.forall_mem_cons.mpr
    ⟨⟨hbmem, hbrun⟩, fun t ht => ⟨(hchain.opens ht).1, (hchain.opens ht).2.1⟩⟩)
    (List.nodup_cons.mpr ⟨hleaves.out, hchain.nodup⟩)
  obtain ⟨ω, S'', hdraws, hm', hnext'⟩ := hm.again hreach.ok hnext hstays hr σ
  have hP : (m.redraw ω).Draws (fun d => d.order = σ) := by cases hm <;> exact hdraws
  have hposition : S.position runID (m.redraw ω) = S.position runID m := by cases hm <;> rfl
  have hstays' : ∀ payload ω', m.redraw ω ≠ .signal runID "__cancel__" payload ω' := by
    cases hm with
    | signal => exact fun _ _ heq => hstays _ _ (by rw [(Move.signal.inj heq).2.1])
    | _ => exact fun _ _ => Move.noConfusion
  rcases hm'.begins (describes_swept _ (Fronts l b)) hP hreach.ok (hreach.armed runID)
    hreach.inOrder hnext' with (hend | ⟨-, payload, ω', heq⟩) | ⟨hnone, -⟩ | ⟨v₀, hbegins, heval⟩
  · obtain ⟨r', hr', hend⟩ := hend
    rw [Option.some.inj (hr.symm.trans hr'), hend] at hlive
    cases hlive
  · exact absurd heq (hstays' payload ω')
  · cases hnone.symm.trans hr
  · have hagrees := hposition ▸ hbegins.agrees
    have hswept := heval (fun d keys hd hsorted hkeys =>
      hσ d hd keys hsorted ((hbegins.ranges keys).mp hkeys))
    obtain ⟨hmem, hdeps⟩ :=
      (hleaves.congr hagrees).swept (hchain.congr hagrees) hbegins.base hswept
    exact ⟨ω, S'', hm', hnext', b, hmem, hbrun, hleaves.pending, hdeps⟩

end Concerns

/-- A call that ends with an evaluation of a run leaves nothing to do where no signals are
early: no pending step of the run could go on, if the run goes on, and `Reconcile` leaves
the store exactly as it is. Where they are, the call can leave a pending step that could go
on, and then `Reconcile` changes the store. -/
theorem evaluation_complete {S S' : System} (h : System.Reachable System.Any S) {runID : UUID}
    {m : Move} (hm : Concerns S runID m) (hnext : S.next m = some S') :
    (¬ Early S runID m → (∀ ω, (reconcile runID).Admissible backend ω S'.db [] →
        ((reconcile runID).withTx backend ω S'.db []).2 = S'.db) ∧
      ∀ r ∈ S'.db.runs, r.id = runID → runTerminal r.status = false →
        ∀ t ∈ S'.db.steps, t.workflowRunID = runID → t.status = .pending →
          ¬ DepsDone S'.db.steps t) ∧
    (Early S runID m → ∃ ω S'', Concerns S runID (m.redraw ω) ∧ S.next (m.redraw ω) = some S'' ∧
      (∃ r ∈ S''.db.runs, r.id = runID ∧ runTerminal r.status = false) ∧
      (∃ t ∈ S''.db.steps, t.workflowRunID = runID ∧ t.status = .pending ∧
        DepsDone S''.db.steps t) ∧
      ∀ ω', (reconcile runID).Admissible backend ω' S''.db [] →
        ((reconcile runID).withTx backend ω' S''.db []).2 ≠ S''.db) := by
  refine ⟨fun hearly => ?_, fun hearly => ?_⟩
  · have hok' := (h.step trivial hnext).ok
    have hrest := hm.atRest h hearly hnext
    refine ⟨fun ω hω => reconciled_eq hok'.orderly.base hω hrest, fun r hr hid hlive => ?_⟩
    refine (hrest.resolve_left ?_).unready
    rintro ⟨r', hr', hend⟩
    rw [← hid, Table.mem_iff_get?.mp hr] at hr'
    rw [← Option.some.inj hr', hlive] at hend
    cases hend
  · obtain ⟨ω, S'', hm', hnext', t, ht, hrun, hst, hdeps⟩ := hearly.leaves hm h hnext
    have hok' := (h.step trivial hnext').ok
    have hb := hok'.orderly.base
    obtain ⟨r, hr, hget, hlive⟩ := hok'.orderly.live_of_pending ht hrun hst
    refine ⟨ω, S'', hm', hnext', ⟨r, hr, Table.key_of_get? hget, hlive⟩,
      ⟨t, ht, hrun, hst, hdeps⟩, fun ω' hω' heq => ?_⟩
    rcases reconciled_cases hb hω' with ⟨-, hended⟩ | ⟨-, -, -, heval⟩
    · rw [hended r hget] at hlive
      cases hlive
    · rw [reconciled, heq] at heval
      exact heval.starts hb ht hrun hdeps ht rfl hst

/-- A step waits for a signal, and another one depends on it. -/
def waitingSystem : System :=
  (System.run ([.registerDefinition earlyDefinition (.ticks 100),
    .createRun "early" 0 none (.ticks 200)] ++ Move.claims 210 "w" 300 ++
    [.report 210 "w" true none none (.ticks 400)]) .init).get (by decide +kernel)

/-- The signal has arrived. -/
def heardSystem : System :=
  (waitingSystem.next (.signal 201 "s" none (.ticks 500))).get (by decide +kernel)

/-- Signals have arrived before the step that wants them could wait for them, and the report
is accepted that makes it ready. -/
theorem concerns_unheard :
    Concerns unheardSystem 201 (.report 210 "w" true none none (.ticks 500)) := by
  have hattempt : ∃ a, unheardSystem.db.attempts.get? 210 = some a ∧ a.workflowRunID = 201 :=
    Option.map_eq_some_iff.mp (by decide +kernel)
  obtain ⟨a, ha, hrun⟩ := hattempt
  exact .report ha hrun (by decide +kernel)

/-- `Reconcile` dispatches a step afterwards. -/
theorem reconciled_early :
    (reconcile 201).Admissible backend (.ticks 600) earlySystem.db [] ∧
    ((reconcile 201).withTx backend (.ticks 600) earlySystem.db []).2 ≠ earlySystem.db := by
  refine ⟨by decide +kernel, fun heq => ?_⟩
  have hattempts := congrArg (fun v => v.attempts.rows.length) heq
  revert hattempts
  decide +kernel

/-- Nothing is left to do when a signal has reached a step that waits for it. Signals that
have come before are early for the report that makes the step ready, but not for a call of
`Reconcile` before. -/
theorem evaluation_complete_heard :
    ((∃ t ∈ heardSystem.db.steps, t.stepName = "b" ∧ t.status = .queued) ∧
      ((reconcile 201).withTx backend (.ticks 600) heardSystem.db []).2 = heardSystem.db) ∧
    Early unheardSystem 201 (.report 210 "w" true none none (.ticks 500)) ∧
    ¬ Early unheardSystem 201 (.reconcile 201 (.ticks 500)) := by
  refine ⟨?_, ?_, ?_⟩
  · have hreach : System.Reachable System.Any waitingSystem :=
      .run .init (fun _ _ _ => trivial) (Option.some_get _).symm
    have hres : ((applySignal 201 "s" none).withTx backend (.ticks 500) waitingSystem.db []).1 =
        .ok () := by decide +kernel
    have hnone : ∀ t ∈ waitingSystem.db.steps.rows, t.status = .pending →
        t.taskType ≠ signalWaitTaskType := by decide +kernel
    have hearly : ¬ Early waitingSystem 201 (.signal 201 "s" none (.ticks 500)) := by
      rintro ⟨-, l, b, hchain, hleaves⟩
      obtain ⟨t, ht, hst, -⟩ := hleaves.last
      exact hnone t (hchain.opens ht).1 hst (hchain.type ht)
    have hω : (reconcile 201).Admissible backend (.ticks 600) heardSystem.db [] := by
      decide +kernel
    have hqueued : ∃ t ∈ heardSystem.db.steps.rows, t.stepName = "b" ∧ t.status = .queued := by
      decide +kernel
    exact ⟨hqueued, ((evaluation_complete hreach (.signal hres) (Option.some_get _).symm).1
      hearly).1 _ hω⟩
  · by_contra hearly
    have hreach : System.Reachable System.Any unheardSystem :=
      .run .init (fun _ _ _ => trivial) (Option.some_get _).symm
    have hnext : unheardSystem.next (.report 210 "w" true none none (.ticks 500)) =
        some earlySystem := (Option.some_get _).symm
    exact reconciled_early.2 (((evaluation_complete hreach concerns_unheard hnext).1 hearly).1 _
      reconciled_early.1)
  · have hblocked : ∀ t ∈ unheardSystem.db.steps.rows, t.taskType = signalWaitTaskType →
        ∃ dep ∈ t.dependsOn, ∀ d ∈ unheardSystem.db.steps.rows, d.stepName = dep →
          d.status ≠ .completed ∧ d.taskType ≠ signalWaitTaskType := by decide +kernel
    rintro ⟨-, l, b, hchain, hleaves⟩
    obtain ⟨t, ht, -⟩ := hleaves.last
    obtain ⟨dep, hdep, hnot⟩ := hblocked t (hchain.opens ht).1 (hchain.type ht)
    rcases hchain.met ht hdep with (⟨d, hd, -, hname, hst⟩ | hreports) | ⟨x, hx, hname⟩
    · exact (hnot d hd hname).1 hst
    · exact hreports
    · exact (hnot x (hchain.opens hx).1 hname).2 (hchain.type hx)

/-- Signals have arrived before the step that wants them could wait for them. An
accepted report lets it use one, but a step that depends on it has been visited
before. It is left pending, and `Reconcile` changes the store. -/
theorem evaluation_incomplete :
    System.Reachable System.Any unheardSystem ∧
    Concerns unheardSystem 201 (.report 210 "w" true none none (.ticks 500)) ∧
    (∃ S', unheardSystem.next (.report 210 "w" true none none (.ticks 500)) = some S' ∧
      (∃ t ∈ S'.db.steps.rows, t.status = .pending ∧ ∀ dep ∈ t.dependsOn,
        ∃ d ∈ S'.db.steps.rows, d.workflowRunID = t.workflowRunID ∧ d.stepName = dep ∧
          d.status = .completed) ∧
      (reconcile 201).Admissible backend (.ticks 600) S'.db [] ∧
      ((reconcile 201).withTx backend (.ticks 600) S'.db []).2 ≠ S'.db) :=
  ⟨.run .init (fun _ _ _ => trivial) (Option.some_get _).symm, concerns_unheard, earlySystem,
    (Option.some_get _).symm, by decide +kernel, reconciled_early⟩

end Orchestrator
