import Orchestrator.Transactions.Create
import Orchestrator.Transactions.Worker

/-!
# Calls and the sessions that serve them

The calls that nodes and workers make, each with the program that serves it. The
transaction of the reaper for one expired attempt is a call of its own. It begins
with the note that the expiry is being dealt with, so there is at most one that
commits.
-/

namespace Orchestrator

open Lib Actions

/-- The calls that are served. -/
inductive Call
  | registerDefinition (d : Definition)
  | createRun (name : String) (version : ℤ) (input : Option RawMessage)
  | reconcile (runID : UUID)
  | handleTaskResult (attemptID : UUID) (workerID : String) (success : Bool)
      (output : Option RawMessage) (errMsg : Option String)
  | handleFiredTimer (timerID : UUID)
  | handleExpiredAttempt (attemptID : UUID)
  | applySignal (runID : UUID) (name : String) (payload : Option RawMessage)
  | cancelRun (runID : UUID)
  | claimTask (leaseDuration : ℕ) (attemptID idempotencyKey : UUID) (workerID : String)
  | heartbeat (leaseDuration : ℕ) (attemptID : UUID) (workerID : String)
  | reapExpiredAttempts (limit : ℕ)

/-- The session that serves a call. An expired attempt is dealt with only as long
as nobody has done so. -/
def Call.session (c : Call) (v : Db) : Option (Session Query Error Write Call) :=
  match c with
  | .registerDefinition d => some ⟨c, false, (Orchestrator.registerDefinition d).discard, []⟩
  | .createRun name version input =>
    some ⟨c, false, (Orchestrator.createRun name version input).discard, []⟩
  | .reconcile runID => some ⟨c, false, Orchestrator.reconcile runID, []⟩
  | .handleTaskResult attemptID workerID success output errMsg =>
    some ⟨c, false, (Orchestrator.handleTaskResult attemptID workerID success output
      errMsg).discard, []⟩
  | .handleFiredTimer timerID => some ⟨c, false, Orchestrator.handleFiredTimer timerID, []⟩
  | .handleExpiredAttempt attemptID =>
    match v.attempts.get? attemptID with
    | none => none
    | some a =>
      if a.status = .expired ∧ v.handled.get? attemptID = none then
        some ⟨c, false, Orchestrator.handleExpiredAttempt a, [.handled attemptID]⟩
      else none
  | .applySignal runID name payload =>
    some ⟨c, false, Orchestrator.applySignal runID name payload, []⟩
  | .cancelRun runID => some ⟨c, false, Orchestrator.cancelRun runID, []⟩
  | .claimTask leaseDuration attemptID key workerID =>
    some ⟨c, true, (Orchestrator.claimTask leaseDuration attemptID key workerID).discard, []⟩
  | .heartbeat leaseDuration attemptID workerID =>
    some ⟨c, true, (Query.heartbeatTaskAttempt attemptID workerID
      leaseDuration).issue.discard, []⟩
  | .reapExpiredAttempts limit =>
    some ⟨c, true, (Query.reapExpiredAttempts limit).issue.discard, []⟩

/-- The run that a call asks to cancel. -/
def Call.cancelTarget : Call → Option UUID
  | .cancelRun runID => some runID
  | .applySignal runID name _ => if name = "__cancel__" then some runID else none
  | _ => none

/-- The run that a call reads without locking its row before it reads the steps. -/
def Call.unlockedTarget : Call → Option UUID
  | .reconcile runID => some runID
  | .applySignal runID _ _ => some runID
  | _ => none

/-- A number of statements of one session, with consecutive draws. -/
def Call.turns (i first count : ℕ) : List (Action Call Draw) :=
  (List.range' first count).map (fun n => .exec i (.tick n))

section

variable {A : Label → Prop} {c : Call} {s : Db} {σ : Session Query Error Write Call}

/-- What a session needs to be admitted to an interleaving. -/
def Admitted (A : Label → Prop) (φ : {β : Type} → Query β → Db → Prop) (s : Db)
    (σ : Session Query Error Write Call) (Post : Db → List Write → Prop) : Prop :=
  ∃ P, Stable engine.Inv (engine.Rely A) P ∧ P s σ.writes ∧
    Safe (backend.under φ) engine.Inv (engine.Rely A) (fun _ _ _ => True) P σ.prog
      (fun _ => Post)

/-- A session that has not written anything. -/
theorem Admitted.of_serves {φ : {β : Type} → Query β → Db → Prop} {F : Db → List Write → Prop}
    {Post : Db → List Write → Prop} (hF : engine.Robust A [] F) (hs : F s [])
    (hwrites : σ.writes = []) (h : Serves A (fun _ => True) (Beginning F) σ.prog (fun _ => Post)) :
    Admitted A φ s σ Post := by
  refine ⟨Beginning F, hF.stable, ?_, h.under⟩
  rw [hwrites]
  exact ⟨[], [], rfl, .nil, List.nil_subset _, hs⟩

/-- The obligation of a session that is admitted, where more than the invariant of
the rows is known. -/
theorem Admitted.start {φ : {β : Type} → Query β → Db → Prop} {J : Db → Prop}
    {Post Post' : Db → List Write → Prop} (h : Admitted A φ s σ Post) (hJ : ∀ s, J s → Base s)
    (hpost : ∀ s w, J s → Post s w → Post' s w) :
    ∃ P, Stable J (engine.Rely A) P ∧ P s σ.writes ∧
      Safe (backend.under φ) J (engine.Rely A) (fun _ _ _ => True) P σ.prog (fun _ => Post') := by
  obtain ⟨P, hstable, hP, hsafe⟩ := h
  refine ⟨P, fun s s' w hs hs' => hstable s s' w (hJ s hs) (hJ s' hs'), hP, ?_⟩
  exact (hsafe.mono hJ (fun _ _ _ _ _ hr => hr) (fun _ _ => rfl) (fun _ _ _ => rfl)
    (fun _ _ _ hd => hd)).post (fun _ => hpost)

/-- A call that does not cancel a run ends in one of the two ways. -/
theorem Call.admitted {φ : {β : Type} → Query β → Db → Prop} {Q : UUID → Db → Prop}
    {q : UUID → Prop} (hR : ∀ runID, Regime A (fun _ => True) runID (Q runID) (q runID))
    (hup : ∀ runID, q runID → Upright runID s)
    (hquiet : ∀ runID, c.unlockedTarget = some runID → Quiet A [] runID (Q runID))
    (hcancel : c.cancelTarget = none) (hσ : c.session s = some σ) (hauto : σ.auto = false) :
    Admitted A φ s σ (fun s w => ∃ runID, Concluded (Q runID) runID s w) := by
  have hfresh : Fresh q s [] := ⟨rfl, hup⟩
  have hnil : engine.Robust A [] (fun _ ws => ws = []) := Robust.pure (· = [])
  cases c with
  | registerDefinition d =>
    obtain rfl := Option.some.inj hσ
    exact .of_serves hnil rfl rfl (Safe.bind (registerDefinition_spec (fun _ => trivial) Q d)
      (fun _ => Safe.ret (fun _ _ _ h => h)))
  | createRun name version input =>
    obtain rfl := Option.some.inj hσ
    exact .of_serves hnil rfl rfl (Safe.bind (createRun_spec hR (fun _ => trivial) name version
      input) (fun id => Safe.ret (fun _ _ _ h => ⟨id, h⟩)))
  | reconcile runID =>
    obtain rfl := Option.some.inj hσ
    exact .of_serves hnil rfl rfl (Safe.post (reconcile_spec (hR runID) (hquiet runID rfl) trivial)
      (fun _ _ _ _ h => ⟨runID, h⟩))
  | handleTaskResult attemptID workerID success output errMsg =>
    obtain rfl := Option.some.inj hσ
    exact .of_serves (Fresh.robust hR) hfresh rfl (Safe.bind (handleTaskResult_spec hR
      (fun _ => trivial) attemptID workerID success output errMsg)
      (fun _ => Safe.ret (fun _ _ _ h => h.2)))
  | handleFiredTimer timerID =>
    obtain rfl := Option.some.inj hσ
    exact .of_serves (Fresh.robust hR) hfresh rfl (handleFiredTimer_spec hR timerID)
  | handleExpiredAttempt attemptID =>
    simp only [Call.session] at hσ
    cases ha : s.attempts.get? attemptID with
    | none =>
      rw [ha] at hσ
      cases hσ
    | some a =>
      obtain rfl : a.id = attemptID := Table.key_of_get? ha
      rw [ha] at hσ
      simp only at hσ
      split_ifs at hσ with hdue
      obtain rfl := Option.some.inj hσ
      refine ⟨engine.Holds (Idles a.workflowRunID) [] (Closed (q a.workflowRunID) a false none),
        (Closed.robust (hR _)).stable, ?_, Safe.under (Safe.post
          (handleExpiredAttempt_spec (hR a.workflowRunID)) (fun _ _ _ _ h => ⟨_, h⟩))⟩
      exact ⟨[], _, rfl, .nil, List.nil_subset _, ⟨a, .expiry ha hdue.1 hdue.2, rfl, rfl⟩, hup _⟩
  | applySignal runID name payload =>
    obtain rfl := Option.some.inj hσ
    have hname : name ≠ "__cancel__" := by
      intro hname
      simp [Call.cancelTarget, hname] at hcancel
    exact .of_serves hnil rfl rfl (Safe.post (applySignal_spec (hR runID) (hquiet runID rfl)
      (fun _ => trivial) name payload hname) (fun _ _ _ _ h => ⟨runID, h⟩))
  | cancelRun runID => cases hcancel
  | claimTask leaseDuration attemptID key workerID =>
    obtain rfl := Option.some.inj hσ
    cases hauto
  | heartbeat leaseDuration attemptID workerID =>
    obtain rfl := Option.some.inj hσ
    cases hauto
  | reapExpiredAttempts limit =>
    obtain rfl := Option.some.inj hσ
    cases hauto

/-- A call that cancels a run. -/
theorem Call.admitted_cancel {φ : {β : Type} → Query β → Db → Prop} {ψ : Prop} {runID : UUID}
    (hsure : Sure A φ ψ) (hcancel : c.cancelTarget = some runID) (hσ : c.session s = some σ) :
    Admitted A φ s σ (fun s w => HasEnded runID (backend.applyAll s w) ∧
      (w = [] ∨ engine.Steps (Cancelling runID) s w ∧
        (ψ → Cancelled runID (backend.applyAll s w)))) := by
  have hnil : engine.Robust A [] (fun _ ws => ws = []) := Robust.pure (· = [])
  have hbegin : Beginning (fun _ ws => ws = []) s [] :=
    ⟨[], [], rfl, .nil, List.nil_subset _, rfl⟩
  cases c with
  | cancelRun id =>
    obtain rfl := Option.some.inj hcancel
    obtain rfl := Option.some.inj hσ
    exact ⟨_, hnil.stable, hbegin, cancelRun_spec hsure⟩
  | applySignal id name payload =>
    simp only [Call.cancelTarget] at hcancel
    split_ifs at hcancel with hname
    obtain rfl := Option.some.inj hcancel
    obtain rfl := Option.some.inj hσ
    refine ⟨_, hnil.stable, hbegin, ?_⟩
    rw [Orchestrator.applySignal, if_pos hname]
    exact cancelRun_spec hsure
  | _ => cases hcancel

/-- The calls of workers and of the reaper, whose statements commit one by one. -/
theorem Call.harmless (hσ : c.session s = some σ) (hauto : σ.auto = true) :
    σ.writes = [] ∧ σ.prog.Calls Query.Harmless := by
  cases c with
  | claimTask leaseDuration attemptID key workerID =>
    obtain rfl := Option.some.inj hσ
    exact ⟨rfl, (claimTask_harmless leaseDuration attemptID key workerID).bind (fun _ => trivial)⟩
  | heartbeat leaseDuration attemptID workerID =>
    obtain rfl := Option.some.inj hσ
    exact ⟨rfl, harmless_heartbeat _ _ _, fun _ => trivial⟩
  | reapExpiredAttempts limit =>
    obtain rfl := Option.some.inj hσ
    exact ⟨rfl, harmless_reap limit, fun _ => trivial⟩
  | handleExpiredAttempt attemptID =>
    simp only [Call.session] at hσ
    split at hσ
    · cases hσ
    · split_ifs at hσ
      obtain rfl := Option.some.inj hσ
      cases hauto
  | _ =>
    obtain rfl := Option.some.inj hσ
    cases hauto

/-- The obligation of such a call. -/
theorem Call.startAuto {φ : {β : Type} → Query β → Db → Prop} {J K : Db → Prop}
    {R : List Write → Db → Db → Prop} {G : Db → List Write → Prop} (hJ : ∀ s, J s → Base s)
    (hkeep : ∀ s w, J s → engine.Steps Attends s w → J (backend.applyAll s w) ∧ G s w)
    (hK : ∀ s, J s → K s) (hσ : c.session s = some σ) (hauto : σ.auto = true) :
    σ.writes = [] ∧ ∃ P, (∀ s s', J s → J s' → R [] s s' → P s → P s') ∧ P s ∧
      SafeAuto (backend.under φ) J R G P σ.prog (fun _ => K) := by
  obtain ⟨hnil, hcalls⟩ := Call.harmless hσ hauto
  refine ⟨hnil, fun _ => True, fun _ _ _ _ _ _ => trivial, trivial,
    SafeAuto.of_calls hcalls (fun op hop s d hs _ => ?_) (fun _ => hK)⟩
  have hsteps := hop d s (hJ s hs)
  change OnOk (backend.exec op d s) _
  cases hexec : backend.exec op d s with
  | error e => trivial
  | ok r =>
    rw [hexec] at hsteps
    exact hkeep s r.2 hs hsteps

end

end Orchestrator
