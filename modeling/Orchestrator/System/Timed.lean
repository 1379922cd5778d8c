import Mathlib.Algebra.Order.Ring.Rat
import Orchestrator.System.Timers

/-!
# Moves in time

The statements of a transaction read the clock one after the other, and no transaction reads
it before those that it comes after. Moves that neither end an attempt nor make a new one are
steady: what holds along their actions and along evaluations holds along them.
-/

namespace Orchestrator

open Lib Program Actions

section Clock

/-- The draws of a transaction that takes place between two times. -/
structure InTime (lo hi : Time) (ω : ℕ → Draw) : Prop where
  mono : Monotone (fun i => (ω i).now)
  lower : ∀ i, lo ≤ (ω i).now
  upper : ∀ i, (ω i).now ≤ hi
  rand : ∀ i, 0 ≤ (ω i).rand ∧ (ω i).rand < 1

/-- The move takes place between two times. -/
def Move.Within (lo hi : Time) : Move → Prop
  | .registerDefinition _ ω | .createRun _ _ _ ω | .reconcile _ ω | .report _ _ _ _ _ ω
  | .fireTimer _ ω | .signal _ _ _ ω | .cancel _ ω | .outcome _ ω | .relay _ _ ω => InTime lo hi ω
  | .reap _ d | .heartbeat _ _ _ d | .claimNext _ d => lo ≤ d.now ∧ d.now ≤ hi
  | .lose _ | .claim .. | .deliver .. | .claimReturn _ | .claimLost _ | .relayFails _ _ _ =>
    lo ≤ hi

theorem InTime.le {lo hi : Time} {ω : ℕ → Draw} (h : InTime lo hi ω) : lo ≤ hi :=
  (h.lower 0).trans (h.upper 0)

theorem Move.Within.le {lo hi : Time} {m : Move} (h : m.Within lo hi) : lo ≤ hi := by
  cases m with
  | reap limit d => exact h.1.trans h.2
  | heartbeat leaseDuration attemptID workerID d => exact h.1.trans h.2
  | claimNext i d => exact h.1.trans h.2
  | lose i => exact h
  | claim leaseDuration attemptID key workerID => exact h
  | deliver leaseDuration i workerID => exact h
  | claimReturn i => exact h
  | claimLost i => exact h
  | relayFails shardIDs batchSize n => exact h
  | _ => exact InTime.le h

end Clock

/-- The kinds of actions that neither end an attempt nor make a new one. -/
def Kind.steady : Kind → Bool
  | .dispatch | .succeed | .retry | .giveUp | .late | .expire => false
  | _ => true

section Moves

variable {S S' : System}

/-- The moves that neither end an attempt nor make one again. -/
def Move.steady : Move → Bool
  | .report _ _ _ _ _ _ | .fireTimer _ _ | .reap _ _ | .outcome _ _ => false
  | _ => true

/-- The move is a heartbeat. -/
def Move.beats : Move → Bool
  | .heartbeat .. => true
  | _ => false

/-- The relation holds along evaluations and along steady actions. Leases are renewed only by
a heartbeat. -/
structure Carried (beats : Bool) (R : Db → Db → Prop) : Prop where
  refl : ∀ v, R v v
  trans : ∀ {v v' v''}, R v v' → R v' v'' → R v v''
  pass : ∀ {runID v u}, Base v → Pass runID v u → R v (backend.applyAll v u)
  act : ∀ {l v u}, Base v → Act l v u → l.kind.steady = true →
    (l.kind = .heartbeat → beats = true) → R v (backend.applyAll v u)

section Carried

variable {m : Move} {beats : Bool} {R : Db → Db → Prop} {v v' : Db}

/-- What single passes carry, an evaluation carries. -/
theorem Carried.passes (hR : Carried beats R) {runID : UUID} (h : Passes runID v v')
    (hb : Base v) : R v v' :=
  h.induct hb (hR.refl v) (fun _ _ hb hpass hs => hR.trans hs (hR.pass hb hpass))

/-- The kinds of the actions of moves other than heartbeats. -/
def Kind.plain : Kind → Bool
  | .heartbeat => false
  | k => k.steady

theorem Kind.plain_iff {k : Kind} : k.plain = true ↔ k.steady = true ∧ k ≠ .heartbeat := by
  cases k <;> simp [Kind.plain, Kind.steady]

/-- One plain action carries the relation. -/
theorem Carried.one (hR : Carried beats R) {l : Label} {u : List Write} (hb : Base v)
    (hact : Act l v u) (hk : l.kind.plain = true) : R v (backend.applyAll v u) :=
  hR.act hb hact (Kind.plain_iff.mp hk).1 (fun heq => absurd heq (Kind.plain_iff.mp hk).2)

/-- Plain actions one after the other carry it. -/
theorem Carried.through (hR : Carried beats R) {C : Label → Prop} (h : Through C v v')
    (hb : Base v) (hC : ∀ l, C l → l.kind.plain = true) : R v v' :=
  h.induct hb (hR.refl v) (fun _ l _ hb hl hact hs => hR.trans hs (hR.one hb hact (hC l hl)))

/-- A transaction along which the relation holds whenever it succeeds. -/
theorem Carried.tx (hR : Carried beats R) {α : Type} {p : Prog α} {ω : ℕ → Draw}
    {E : Error → Prop} {Q : α → Db → Prop} {f : Except Error α → Db → System}
    (h : S.tx p ω [] f = some S')
    (hp : p.Admissible backend ω S.db [] → Leads backend E Q S.db [] (p.run backend ω S.db []))
    (hdb : ∀ res db, (f res db).db = db ∨ (f res db).db = S.db)
    (hQ : ∀ a db, Q a db → R S.db db) : R S.db S'.db := by
  obtain ⟨res, db, rfl, hres⟩ := System.tx_leads h hp
  rcases hdb res db with heq | heq
  · rw [heq]
    rcases hres with ⟨a, -, ha⟩ | ⟨e, -, rfl, -⟩
    · exact hQ a db ha
    · exact hR.refl _
  · rw [heq]
    exact hR.refl _

/-- The cancellation of a run. -/
theorem Carried.cancel (hR : Carried beats R) {runID : UUID} (hb : Base v)
    (h : (HasEnded runID v ∧ v' = v) ∨ ∃ r u, v.runs.get? runID = some r ∧
      runTerminal r.status = false ∧ engine.Steps (Cancelling runID) v u ∧
      v' = backend.applyAll v u ∧ Cancelled runID v' ∧
      (∀ tm ∈ v'.timers, tm.workflowRunID = runID → tm.status ≠ .pending) ∧
      RecordsCancel runID v v') : R v v' := by
  rcases h with ⟨-, rfl⟩ | ⟨r, u, -, -, hu, rfl, -⟩
  · exact hR.refl _
  · refine hR.through ⟨u, hu, rfl⟩ hb (fun l hl => ?_)
    obtain ⟨run, kind⟩ := l
    obtain ⟨-, hk | rfl⟩ := hl
    · cases kind <;> first | rfl | cases hk
    · rfl

/-- Whatever a statement of a claim writes. -/
theorem ByClaim.plain {l : Label} (h : ByClaim l) : l.kind.plain = true := by
  rcases h with h | h <;> rw [h] <;> rfl

/-- So does every steady move of the system. -/
theorem Carried.next (hR : Carried m.beats R) (hok : S.Ok) (hm : m.steady = true)
    (h : S.next m = some S') : R S.db S'.db := by
  have hb := hok.orderly.base
  cases m with
  | report => cases hm
  | fireTimer => cases hm
  | reap => cases hm
  | outcome => cases hm
  | registerDefinition d ω =>
    simp only [System.next] at h
    refine hR.tx h (fun hω => (registerDefinition_solo d).run hω) (fun _ _ => Or.inl rfl) ?_
    rintro - - ⟨u, hu, rfl⟩
    exact hR.through ⟨u, hu, rfl⟩ hb (fun l hl => by rw [hl]; rfl)
  | createRun name version input ω =>
    simp only [System.next] at h
    refine hR.tx (E := fun _ => True) h (fun hω =>
      (createRun_solo hb name version input (fun _ => trivial) (fun _ => trivial)).run hω)
      (fun _ _ => Or.inl rfl) ?_
    rintro runID db ⟨d, u, -, hcreates, heval⟩
    exact hR.trans (hR.one hb hcreates.act rfl)
      (hR.passes heval.path (hcreates.act.base hb))
  | reconcile runID ω =>
    simp only [System.next] at h
    refine hR.tx h (fun hω => (reconcile_solo hb runID).run hω) (fun _ _ => Or.inl rfl) ?_
    rintro - db ⟨r, -, ⟨-, rfl⟩ | ⟨-, heval⟩⟩
    · exact hR.refl _
    · exact hR.passes heval.path hb
  | signal runID name payload ω =>
    simp only [System.next] at h
    split_ifs at h
    by_cases hname : name = "__cancel__"
    · rw [applySignal, if_pos hname] at h
      exact hR.tx h (fun hω => (cancelRun_solo hb runID).run hω) (fun _ _ => Or.inl rfl)
        (fun _ _ hdone => hR.cancel hb hdone)
    · refine hR.tx h (fun hω => applySignal_leads hb hname hω) (fun _ _ => Or.inl rfl) ?_
      rintro - db ⟨sig, r, document, now, hnew, hvalid, -, hrun, -, -, hr, hdone⟩
      subst hrun
      have hnoted : Through (fun l => l.kind.plain = true) S.db (backend.applyAll S.db
          (.signal sig :: historyWrites r .signalReceived document now)) :=
        .trans (.one (l := ⟨sig.workflowRunID, .signal⟩) rfl (.signal hnew hvalid hr))
          (.one (l := ⟨r.id, .log⟩) rfl (.log (Table.get?_key hr)))
      have hdone₀ := hR.through hnoted hb (fun _ hl => hl)
      rcases hdone with ⟨-, rfl⟩ | ⟨-, heval⟩
      · exact hdone₀
      · exact hR.trans hdone₀ (hR.passes heval.path (hnoted.base hb))
  | cancel runID ω =>
    simp only [System.next] at h
    exact hR.tx h (fun hω => (cancelRun_solo hb runID).run hω) (fun _ _ => Or.inl rfl)
      (fun _ _ hdone => hR.cancel hb hdone)
  | heartbeat leaseDuration attemptID workerID d =>
    simp only [System.next, System.statement] at h
    split_ifs at h
    have hmakes := makes_heartbeat attemptID workerID leaseDuration d S.db hb
    cases hexec : backend.exec (.heartbeatTaskAttempt attemptID workerID leaseDuration) d
      S.db with
    | error e =>
      rw [hexec] at h
      obtain rfl := Option.some.inj h
      exact hR.refl _
    | ok res =>
      rw [hexec] at h hmakes
      obtain rfl := Option.some.inj h
      have hbeats : Through (fun l => l.kind = .heartbeat) S.db
          (backend.applyAll S.db res.2) := ⟨_, hmakes, rfl⟩
      exact hbeats.induct hb (hR.refl _) (fun _ l _ hb hl hact hs =>
        hR.trans hs (hR.act hb hact (by rw [hl]; rfl) (fun _ => rfl)))
  | claimNext i d =>
    obtain ⟨c, hc, h⟩ := Option.bind_eq_some_iff.mp h
    have hcalls := hok.calls c (List.mem_of_getElem? hc)
    unfold System.claimNext at h
    split at h
    · rename_i op rest hprog
      rw [hprog] at hcalls
      have hmakes := hcalls.1 d S.db hb
      split_ifs at h
      split at h
      · obtain rfl := Option.some.inj h
        exact hR.refl _
      · rename_i answer ws hexec
        obtain rfl := Option.some.inj h
        rw [hexec, onOk_ok] at hmakes
        exact hR.through ⟨_, hmakes, rfl⟩ hb (fun _ hl => hl.plain)
    · cases h
  | claimReturn i =>
    obtain ⟨c, -, h⟩ := Option.bind_eq_some_iff.mp h
    unfold System.claimReturn at h
    split at h
    · obtain rfl := Option.some.inj h
      exact hR.refl _
    · cases h
  | deliver leaseDuration i workerID =>
    obtain ⟨msg, -, rfl⟩ := Option.map_eq_some_iff.mp h
    exact hR.refl _
  | relay shardIDs batchSize ω =>
    simp only [System.next] at h
    refine hR.tx h (fun hω => (makes_solo (relayTick_makes shardIDs batchSize) hb).run hω)
      (fun res _ => ?_) ?_
    · cases res
      · exact Or.inr rfl
      · exact Or.inl rfl
    · rintro - - ⟨u, hu, rfl⟩
      exact hR.through ⟨u, hu, rfl⟩ hb (fun l hl => by rw [hl]; rfl)
  | lose i =>
    simp only [System.next] at h
    split_ifs at h
    obtain rfl := Option.some.inj h
    exact hR.refl _
  | claimLost i =>
    simp only [System.next] at h
    split_ifs at h
    obtain rfl := Option.some.inj h
    exact hR.refl _
  | claim leaseDuration attemptID key workerID =>
    obtain rfl := Option.some.inj h
    exact hR.refl _
  | relayFails shardIDs batchSize n =>
    obtain rfl := Option.some.inj h
    exact hR.refl _

end Carried

/-- What the move of a timer does to it and its step. -/
theorem System.fires_next (hb : Base S.db) {timerID : UUID} {ω : ℕ → Draw}
    (h : S.next (.fireTimer timerID ω) = some S') : Fires Evaluated S.db timerID S'.db := by
  have hsolo : Solo (fun _ => False) (handleFiredTimer timerID)
      (fun _ v' => Fires Evaluated S.db timerID v') S.db := handleFiredTimer_solo hb timerID
  simp only [System.next] at h
  obtain ⟨res, db, rfl, hres⟩ := System.tx_leads h (fun hω => hsolo.run hω)
  rcases hres with ⟨_, rfl, hfires⟩ | ⟨e, -, -, hfalse⟩
  · exact hfires
  · exact hfalse.elim

end Moves

end Orchestrator
