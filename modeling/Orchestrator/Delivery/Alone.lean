import Orchestrator.Delivery.Model

/-!
# Ticks that nobody disturbs

A tick of the relay as one move, and one that is cut short as another, are what a tick
does call by call while no session and no other tick is under way.
-/

namespace Orchestrator

open Lib Program

namespace Delivery

variable {D : Delivery}

/-- The loop of a tick as a transaction: the rows are marked. -/
def marks (rows : List OutboxMessage) : Prog Unit :=
  rows.foldlM (fun _ row => (Query.markOutboxPublished row.id).issue) ()

/-- The publication and the mark of each row. -/
def rowEvents : (ℕ → Draw) → List OutboxMessage → List Event
  | _, [] => []
  | ω, _ :: rows => .exec 0 (ω 0) :: .exec 0 (ω 0) :: rowEvents (fun i => ω (i + 1)) rows

/-- `MarkOutboxPublished` does not fail. -/
theorem exec_mark (id : ℕ) (d : Draw) (v : Db) :
    ∃ ws, backend.exec (.markOutboxPublished id) d v = .ok ((), ws) := by
  simp only [backend_exec, Query.exec]
  cases v.outbox.get? id with
  | none => exact ⟨_, rfl⟩
  | some m => exact ⟨_, rfl⟩

/-- The first of some marks is made. -/
theorem run_marks_cons {m : OutboxMessage} (rows : List OutboxMessage) {ω : ℕ → Draw} {v : Db}
    {w ws : List Write}
    (h : backend.exec (.markOutboxPublished m.id) (ω 0) (backend.applyAll v w) = .ok ((), ws)) :
    (marks (m :: rows)).run backend ω v w =
      (marks rows).run backend (fun i => ω (i + 1)) v (w ++ ws) := by
  change Program.run backend (.call (Query.markOutboxPublished m.id) (fun _ => marks rows))
    ω v w = _
  exact run_call backend h

/-- The marks of a tick are made, and it returns. -/
theorem run_marks_ret {α : Type} (a : α) (rows : List OutboxMessage) (ω : ℕ → Draw) (v : Db)
    (w : List Write) : (marks rows >>= fun _ => .ret a).run backend ω v w =
      (.ok a, ((marks rows).run backend ω v w).2) := by
  induction rows generalizing ω w with
  | nil => rfl
  | cons m rows ih =>
    obtain ⟨ws, hws⟩ := exec_mark m.id (ω 0) (backend.applyAll v w)
    rw [run_marks_cons rows hws, ← ih]
    change Program.run backend (.call (Query.markOutboxPublished m.id)
      (fun _ => marks rows >>= fun _ => .ret a)) ω v w = _
    exact run_call backend hws

/-- The relay's transaction as one move marks the rows that it fetches. -/
theorem relayTick_withTx (shardIDs : Option (List ℕ)) (batchSize : ℕ) (ω : ℕ → Draw) (v : Db) :
    (relayTick shardIDs batchSize).withTx backend ω v [] =
      (.ok (fetchSkippingLocked [] shardIDs batchSize v), backend.applyAll v
        ((marks (fetchSkippingLocked [] shardIDs batchSize v)).run backend (fun i => ω (i + 1))
          v []).2) := by
  have hfetch : backend.exec (.fetchAndLockPendingOutbox shardIDs batchSize) (ω 0)
      (backend.applyAll v []) = .ok (fetchSkippingLocked [] shardIDs batchSize v, []) := by
    simp [Query.exec, fetchSkippingLocked]
  have hrun : (relayTick shardIDs batchSize).run backend ω v [] =
      (marks (fetchSkippingLocked [] shardIDs batchSize v) >>= fun _ =>
        .ret (fetchSkippingLocked [] shardIDs batchSize v)).run backend (fun i => ω (i + 1)) v [] :=
    run_call backend hfetch
  rw [withTx, hrun, run_marks_ret]

/-- Where there is one tick and no session, no lock is in the way. -/
theorem next_alone {W : World Query Error Db Write Call} {ticks : List Tick}
    {stream : List (String × TaskPayload)} {ev : Event}
    (hsessions : sessionLocks ⟨W, ticks, stream⟩ = []) (hticks : ticks.length ≤ 1)
    (h : D.move ev = some ⟨W, ticks, stream⟩) : D.next ev = some ⟨W, ticks, stream⟩ := by
  refine Option.filter_eq_some_iff.mpr ⟨h, decide_eq_true ?_⟩
  rw [Apart, hsessions, List.nil_append]
  cases ticks with
  | nil => exact .nil
  | cons t ticks =>
    obtain rfl := List.length_eq_zero_iff.mp (Nat.le_zero.mp (Nat.le_of_succ_le_succ hticks))
    exact List.pairwise_singleton _ _

/-- A tick goes through the first rows of its batch. -/
theorem run_rowEvents (hsessions : D.sessionLocks = []) (rows rest : List OutboxMessage)
    (ω : ℕ → Draw) (n : ℕ) (w : List Write) (locked : List Lock)
    (stream : List (String × TaskPayload)) :
    run (rowEvents ω rows) ⟨D.world, [⟨(rows ++ rest).foldlM publishRow n, w, locked⟩], stream⟩ =
      some ⟨D.world, [⟨rest.foldlM publishRow (n + rows.length),
        ((marks rows).run backend ω D.db w).2, locked⟩], stream ++ rows.map System.published⟩ := by
  induction rows generalizing ω n w stream with
  | nil => simp [rowEvents, run, marks, Program.run]
  | cons m rows ih =>
    obtain ⟨ws, hws⟩ := exec_mark m.id (ω 0) (backend.applyAll D.db w)
    have hpublish : next ⟨D.world, [⟨((m :: rows) ++ rest).foldlM publishRow n, w, locked⟩],
        stream⟩ (.exec 0 (ω 0)) = some ⟨D.world, [⟨.call (.markOutboxPublished m.id)
          (fun _ => (rows ++ rest).foldlM publishRow (n + 1)), w, locked⟩],
          stream ++ [System.published m]⟩ :=
      next_alone hsessions le_rfl rfl
    have hmark : next ⟨D.world, [⟨.call (.markOutboxPublished m.id)
          (fun _ => (rows ++ rest).foldlM publishRow (n + 1)), w, locked⟩],
          stream ++ [System.published m]⟩ (.exec 0 (ω 0)) =
        some ⟨D.world, [⟨(rows ++ rest).foldlM publishRow (n + 1), w ++ ws, locked⟩],
          stream ++ [System.published m]⟩ := by
      refine next_alone hsessions le_rfl ?_
      simp only [move, List.getElem?_cons_zero, Option.bind_some, exec, db] at hws ⊢
      rw [hws]
      rfl
    rw [rowEvents, run, hpublish, Option.bind_some, run, hmark, Option.bind_some, ih,
      run_marks_cons rows hws]
    simp only [List.length_cons, List.map_cons, List.append_assoc, List.singleton_append]
    rw [Nat.add_assoc, Nat.add_comm 1]

/-- A tick that begins alone fetches what is pending. -/
theorem later_fetch (hsessions : D.sessionLocks = []) (hticks : D.ticks = [])
    (shardIDs : Option (List ℕ)) (batchSize : ℕ) : ∃ locked, D.Later ⟨D.world,
      [⟨(fetchSkippingLocked [] shardIDs batchSize D.db).foldlM publishRow 0, [], locked⟩],
      D.stream⟩ := by
  obtain ⟨W, ticks, stream⟩ := D
  obtain rfl : ticks = [] := hticks
  have hbegin : next ⟨W, [], stream⟩ (.tick shardIDs batchSize) =
      some ⟨W, [⟨Relay.tick shardIDs batchSize, [], []⟩], stream⟩ :=
    next_alone hsessions le_rfl rfl
  have htaken : taken ⟨W, [⟨Relay.tick shardIDs batchSize, [], []⟩], stream⟩ 0 = [] := by
    have hnone : sessionLocks ⟨W, [⟨Relay.tick shardIDs batchSize, [], []⟩], stream⟩ = [] :=
      hsessions
    rw [taken, hnone]
    rfl
  have hfetch : next ⟨W, [⟨Relay.tick shardIDs batchSize, [], []⟩], stream⟩
      (.exec 0 (.tick 0)) = some ⟨W, [⟨(fetchSkippingLocked (taken ⟨W,
        [⟨Relay.tick shardIDs batchSize, [], []⟩], stream⟩ 0) shardIDs batchSize W.db).foldlM
          publishRow 0, [], _⟩], stream⟩ :=
    next_alone hsessions le_rfl rfl
  rw [htaken] at hfetch
  exact ⟨_, .head ⟨_, hbegin⟩ (.single ⟨_, hfetch⟩)⟩

section Ends

variable {W : World Query Error Db Write Call} {stream : List (String × TaskPayload)}

/-- A tick that has returned commits. -/
theorem next_commit {n : ℕ} {w : List Write} {locked : List Lock}
    (hsessions : sessionLocks ⟨W, [], stream⟩ = []) : Next ⟨W, [⟨.ret n, w, locked⟩], stream⟩
      ⟨{ W with db := backend.applyAll W.db w }, [], stream⟩ :=
  ⟨.commit 0, next_alone hsessions (Nat.zero_le 1) rfl⟩

/-- A tick may stop anywhere. -/
theorem next_stop {t : Tick} (hsessions : sessionLocks ⟨W, [], stream⟩ = []) :
    Next ⟨W, [t], stream⟩ ⟨W, [], stream⟩ := by
  refine ⟨.stop 0 false, next_alone hsessions (Nat.zero_le 1) ?_⟩
  simp [move]

end Ends

/-- A tick as one move is one that nobody disturbs. -/
theorem relay_alone {S S' : System} (hdb : S.db = D.db) (hstream : S.stream = D.stream)
    (hsessions : D.sessionLocks = []) (hticks : D.ticks = []) {shardIDs : Option (List ℕ)}
    {batchSize : ℕ} {ω : ℕ → Draw} (h : S.next (.relay shardIDs batchSize ω) = some S') :
    ∃ D', D.Later D' ∧ D'.db = S'.db ∧ D'.stream = S'.stream := by
  obtain ⟨locked, hfetch⟩ := later_fetch hsessions hticks shardIDs batchSize
  have htx := relayTick_withTx shardIDs batchSize ω D.db
  generalize fetchSkippingLocked [] shardIDs batchSize D.db = rows at hfetch htx
  have hrows := run_rowEvents hsessions rows [] (fun i => ω (i + 1)) 0 [] locked D.stream
  rw [List.append_nil] at hrows
  refine ⟨_, (hfetch.trans (later_of_run hrows)).tail (next_commit hsessions), ?_⟩
  simp only [System.next] at h
  obtain ⟨-, rfl⟩ := System.tx_inv h
  rw [hdb, htx, hstream]
  exact ⟨rfl, rfl⟩

/-- A tick that fails or is cut short is one as well. -/
theorem relayFails_alone {S S' : System} (hdb : S.db = D.db) (hstream : S.stream = D.stream)
    (hsessions : D.sessionLocks = []) (hticks : D.ticks = []) {shardIDs : Option (List ℕ)}
    {batchSize n : ℕ} (h : S.next (.relayFails shardIDs batchSize n) = some S') :
    ∃ D', D.Later D' ∧ D'.db = S'.db ∧ D'.stream = S'.stream := by
  obtain ⟨locked, hfetch⟩ := later_fetch hsessions hticks shardIDs batchSize
  have hpending : S.pendingOutbox shardIDs batchSize =
      fetchSkippingLocked [] shardIDs batchSize D.db := by
    simp [System.pendingOutbox, fetchSkippingLocked, hdb]
  generalize fetchSkippingLocked [] shardIDs batchSize D.db = rows at hfetch hpending
  have hrows := run_rowEvents hsessions (rows.take n) (rows.drop n) Draw.tick 0 [] locked D.stream
  rw [List.take_append_drop] at hrows
  refine ⟨_, (hfetch.trans (later_of_run hrows)).tail (next_stop hsessions), ?_⟩
  obtain rfl := Option.some.inj h
  rw [hpending, hstream]
  exact ⟨hdb.symm, rfl⟩

end Delivery

end Orchestrator
