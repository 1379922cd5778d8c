import Orchestrator.Service
import Orchestrator.System.Invariant

/-!
# Several nodes at work on the same runs

Calls of any kind are served at once, statement by statement. Every committed
state satisfies the invariant of the rows, so steps, attempts and outbox rows agree
whatever the interleaving.
-/

namespace Orchestrator

open Lib Actions

/-- Every call may arrive at any time. -/
def nodes : Service Query Error Db Write Call where
  begin := Call.session
  allows := fun _ _ _ _ => True
  decAllows := fun _ _ _ _ => isTrue trivial

/-- The session of a call is about the call. -/
theorem Call.tag_session {c : Call} {s : Db} {σ : Session Query Error Write Call}
    (h : c.session s = some σ) : σ.tag = c := by
  cases c with
  | handleExpiredAttempt attemptID =>
    simp only [Call.session] at h
    split at h
    · cases h
    · split_ifs at h
      obtain rfl := Option.some.inj h
      rfl
  | _ =>
    obtain rfl := Option.some.inj h
    rfl

/-- What calls commit is a sequence of actions that marks no message, whatever is
excluded. -/
theorem session_obligations {svc : Service Query Error Db Write Call}
    (hbegin : svc.begin = Call.session) :
    World.Obligations backend svc Base (engine.Rely (fun _ => True))
      (engine.Steps (·.kind ≠ .publish)) (fun _ _ _ => True)
      (fun _ => engine.Steps (·.kind ≠ .publish)) (fun _ _ => True) where
  start c s σ hσ hs hauto := by
    rw [hbegin] at hσ
    rw [Call.tag_session hσ]
    cases hcancel : c.cancelTarget with
    | none =>
      refine (Call.admitted (Q := fun _ _ => False) (q := fun _ => False) (fun _ => Regime.free)
        (fun _ hq => hq.elim) (fun _ _ => Regime.free.quiet_of_not id) hcancel hσ hauto).start
        (fun _ hs => hs) ?_
      rintro s w - ⟨_, h⟩
      exact h.steps.mono (fun _ hl => hl.kind.2)
    | some runID =>
      refine (Call.admitted_cancel (ψ := False) (fun h => h.elim) hcancel hσ).start
        (fun _ hs => hs) (fun s w _ h => ?_)
      rcases h.2 with rfl | ⟨h, -⟩
      · exact .nil
      · exact h.mono (fun _ hl => hl.unpublished)
  startAuto c s σ hσ hs hauto := by
    rw [hbegin] at hσ
    exact Call.startAuto (fun _ hs => hs) (fun s w hs h =>
      ⟨Steps.inv h hs, h.mono (fun _ hl => hl.2)⟩) (fun _ _ => trivial) hσ hauto
  inv _ s w hs h := Steps.inv h hs
  guarantee _ _ _ _ h := h
  result _ _ _ _ _ := trivial
  rely s w w' _ h hdisj := ⟨w', h.mono (fun _ _ => trivial), hdisj, rfl⟩
  kept _ _ _ _ _ _ := trivial

/-- Every state that nodes commit satisfies the invariant of the rows. -/
theorem nodes_base {W : World Query Error Db Write Call}
    (h : World.Reachable backend nodes Db.empty W) : Base W.db :=
  (h.ok (session_obligations rfl) Base.empty).inv

/-- What every action keeps holds of every state that nodes commit. -/
theorem nodes_induct {W : World Query Error Db Write Call} {I : Db → Prop}
    (h : World.Reachable backend nodes Db.empty W) (h0 : I Db.empty)
    (hstep : ∀ v l u, Base v → Act l v u → I v → I (backend.applyAll v u)) : I W.db :=
  h.induct (session_obligations rfl) Base.empty h0 (fun _ _ hs hsteps hI =>
    Steps.induct hsteps hs hI (fun v l u hb _ hact => hstep v l u hb hact))

/-- The states of the store that are reached, by transactions one after the other or
by interleaved ones. -/
def Stored (v : Db) : Prop :=
  (∃ S, System.Reachable System.Any S ∧ S.db = v) ∨
    ∃ W : World Query Error Db Write Call, World.Reachable backend nodes Db.empty W ∧ W.db = v

/-- What every action keeps holds of every state of the store. -/
theorem Stored.induct {v : Db} {I : Db → Prop} (h : Stored v) (h0 : I Db.empty)
    (hstep : ∀ v l u, Base v → Act l v u → I v → I (backend.applyAll v u)) : I v := by
  rcases h with ⟨S, hS, rfl⟩ | ⟨W, hW, rfl⟩
  · exact hS.induct_db h0 hstep
  · exact nodes_induct hW h0 hstep

/-- Every state of the store satisfies the invariant of the rows. -/
theorem Stored.base {v : Db} (h : Stored v) : Base v :=
  h.induct Base.empty (fun _ _ _ hb hact _ => hact.base hb)

/-- However the nodes interleave, a step and an attempt number have one attempt,
an attempt has one outbox row, a step counts its attempts correctly, and at most
one of them is queued or leased. -/
theorem nodes_never_dispatch_twice {W : World Query Error Db Write Call}
    (h : World.Reachable backend nodes Db.empty W) :
    (∀ a ∈ W.db.attempts, ∀ a' ∈ W.db.attempts, a.stepID = a'.stepID →
      a.attemptNumber = a'.attemptNumber → a = a') ∧
    (∀ a ∈ W.db.attempts, ∃! m, m ∈ W.db.outbox ∧ m.aggregateID = a.id) ∧
    (∀ t ∈ W.db.steps, t.attemptCount =
      (W.db.attempts.rows.filter (fun a => a.stepID = t.id)).length) ∧
    (∀ a ∈ W.db.attempts, ∀ a' ∈ W.db.attempts, a.stepID = a'.stepID →
      (a.status = .queued ∨ a.status = .leased) → (a'.status = .queued ∨ a'.status = .leased) →
      a = a') := by
  have hb := nodes_base h
  have hopen : ∀ a : TaskAttempt, a.status = .queued ∨ a.status = .leased →
      Open W.db.handled a := fun a ha => ha.imp id Or.inl
  refine ⟨hb.ledger.slot, fun a ha => ?_, fun t ht => (hb.ledger.length_attempts ht).symm,
    fun a ha a' ha' hstep hlive hlive' =>
      hb.ledger.open_unique ha ha' hstep (hopen a hlive) (hopen a' hlive')⟩
  obtain ⟨m, hm, hid⟩ := hb.mailbox.sent a ha
  exact ⟨m, ⟨hm, hid⟩, fun m' hm' => hb.mailbox.once m' hm'.1 m hm (hm'.2.trans hid.symm)⟩

/-- Two steps and a third that joins them. -/
def joinDefinition : Definition :=
  ⟨"join", 0, [⟨"a", "work", [], none, 0, 0, 0, 0, 0⟩, ⟨"b", "work", [], none, 0, 0, 0, 0, 0⟩,
    ⟨"c", "work", ["a", "b"], none, 0, 0, 0, 0, 0⟩]⟩

/-- Both steps are claimed, and both workers report before either report has
committed. -/
def joinSchedule : List (Action Call Draw) :=
  [.start (.registerDefinition joinDefinition)] ++ Call.turns 0 100 1 ++ [.commit 0] ++
  [.start (.createRun "join" 0 none)] ++ Call.turns 1 200 20 ++ [.commit 1] ++
  [.start (.claimTask defaultLeaseDuration 210 210 "w1"),
    .start (.claimTask defaultLeaseDuration 214 214 "w2")] ++
  Call.turns 2 300 4 ++ Call.turns 3 310 4 ++ [.commit 2, .commit 3] ++
  [.start (.handleTaskResult 210 "w1" true none none),
    .start (.handleTaskResult 214 "w2" true none none)] ++
  Call.turns 4 320 5 ++ Call.turns 5 330 4 ++ Call.turns 4 340 4 ++ [.commit 4] ++
  Call.turns 5 360 9 ++ [.commit 5]

/-- The world at the end of the schedule. -/
def joinWorld : World Query Error Db Write Call :=
  (World.run backend nodes joinSchedule (.init Db.empty)).get (by decide +kernel)

/-- The third step has been dispatched, once. -/
theorem nodes_never_dispatch_twice_join :
    joinWorld.db.attempts.rows.map (fun a => (a.stepID, a.attemptNumber, a.status)) =
      [(203, 1, .succeeded), (204, 1, .succeeded), (205, 1, .queued)] ∧
    ∀ a ∈ joinWorld.db.attempts, ∃! m, m ∈ joinWorld.db.outbox ∧ m.aggregateID = a.id :=
  ⟨by decide +kernel, (nodes_never_dispatch_twice (.run .init (Option.some_get _).symm)).2.1⟩

end Orchestrator
