import Mathlib.Tactic.NormNum
import Orchestrator.Lib.Fleet
import Orchestrator.System.Timed

/-!
# The timer poller

`internal/timers/poller.go`. Pollers of any number of nodes ask the store for timers that are
due and hand them to the engine one by one, while workers, clients, reapers and relays go on.
A timer may be listed by several pollers, and a poller may stop at any point. A tick that comes
to its end has overlooked none of those that were due when it started.
-/

namespace Orchestrator

open Lib Program

section Dated

variable {v v' : Db}

/-- The rows are the same timer, which is set for the same time. -/
structure Timer.SameDate (tm tm' : Timer) : Prop where
  id : tm'.id = tm.id
  fireAt : tm'.fireAt = tm.fireAt
  shardID : tm'.shardID = tm.shardID

/-- The time for which a timer is set does not change. -/
def Dated (v v' : Db) : Prop := Table.Grows Timer.SameDate v.timers v'.timers

/-- Where nothing is written no timer is set anew. -/
theorem Dated.refl (v : Db) : Dated v v := Table.Grows.refl (fun _ => ⟨rfl, rfl, rfl⟩) _

/-- Dates that are kept twice are kept. -/
theorem Dated.trans {v'' : Db} (h : Dated v v') (h' : Dated v' v'') : Dated v v'' :=
  Table.Grows.trans (fun hab hbc => ⟨hbc.id.trans hab.id, hbc.fireAt.trans hab.fireAt,
    hbc.shardID.trans hab.shardID⟩) h h'

/-- A timer is set, or the row of one is written with the time that it had. -/
theorem dated_put {M : Table Timer.id} {tm : Timer}
    (h : ∀ x, M.get? tm.id = some x → x.SameDate tm) :
    Table.Grows Timer.SameDate M (M.put tm) :=
  Table.Grows.put (fun _ => ⟨rfl, rfl, rfl⟩) h

/-- No action of a transaction changes when an existing timer fires. -/
theorem Act.dated {l : Label} {u : List Write} (hact : Act l v u) :
    Dated v (backend.applyAll v u) := by
  have hfresh : ∀ {M : Table Timer.id} {tm : Timer}, M.get? tm.id = none →
      ∀ x, M.get? tm.id = some x → x.SameDate tm := by
    intro M tm hnone x hx
    rw [hnone] at hx
    cases hx
  cases hact with
  | create =>
    rw [applyAll_create]
    exact .refl v
  | succeed hclose =>
    rw [Backend.applyAll_append, Dated, ← hclose.frame.2.2]
    exact Dated.refl (backend.applyAll v _)
  | giveUp hclose =>
    rw [Backend.applyAll_append, Dated, ← hclose.frame.2.2]
    exact Dated.refl (backend.applyAll v _)
  | retry hclose _ _ _ _ _ hnew =>
    rw [Backend.applyAll_append, Dated, ← hclose.frame.2.2]
    rw [← hclose.frame.2.2] at hnew
    exact dated_put (hfresh hnew)
  | late hclose _ _ htms =>
    rw [Backend.applyAll_append, Dated, ← hclose.frame.2.2]
    rcases htms with rfl | ⟨tm, rfl, -, -, hnew⟩
    · exact Dated.refl (backend.applyAll v _)
    · rw [← hclose.frame.2.2] at hnew
      exact dated_put (hfresh hnew)
  | fireTimer htm =>
    refine dated_put (fun x hx => ?_)
    obtain rfl := Option.some.inj (htm.symm.trans hx)
    exact ⟨rfl, rfl, rfl⟩
  | cancelTimer htm =>
    refine dated_put (fun x hx => ?_)
    obtain rfl := Option.some.inj (htm.symm.trans hx)
    exact ⟨rfl, rfl, rfl⟩
  | _ => exact .refl v

/-- No move of the system changes when an existing timer fires. -/
theorem System.Reachable.next_dated {C : System → Move → Prop} {S S' : System} {m : Move}
    (h : Reachable C S) (hm : S.next m = some S') : Dated S.db S'.db :=
  (h.ok.shift (next_turn h.ok hm)).through.induct h.ok.orderly.base (.refl _)
    (fun _ _ _ _ _ hact hdated => hdated.trans hact.dated)

end Dated

namespace Poller

/-- The calls of a poller. Errors are only logged, so an error of `HandleFiredTimer` is not
told from its success. -/
inductive Call : Type → Type
  | listDueTimers (shardIDs : Option (List ℕ)) (limit : ℕ) : Call (Option (List Timer))
  | handleFiredTimer (timerID : UUID) : Call Unit

/-- The loop of `tick`. -/
def fire : List Timer → Program Call Empty Unit
  | [] => pure ()
  | t :: due => do
    request (.handleFiredTimer t.id)
    fire due

/-- `tick`, for a poller with the given `BatchSize` and the shards that `ShardIDs` returns. -/
def tick (batchSize : ℕ) (shardIDs : Option (List ℕ)) : Program Call Empty Unit := do
  match ← request (.listDueTimers shardIDs batchSize) with
  | none => pure ()
  | some due => fire due

/-- The system, and the time. -/
structure State : Type 1 where
  sys : System
  now : Time

/-- The effect of a move. -/
def State.after (s : State) (m : Move) (time : Time) : State := ⟨(s.sys.next m).getD s.sys, time⟩

/-- A move that is not possible only takes time. -/
theorem State.after_of_none {s : State} {m : Move} (h : s.sys.next m = none) (time : Time) :
    s.after m time = { s with now := time } := by
  rw [State.after, h]
  rfl

/-- A move that is possible is made. -/
theorem State.after_of_some {s : State} {m : Move} {S : System} (h : s.sys.next m = some S)
    (time : Time) : s.after m time = ⟨S, time⟩ := by
  rw [State.after, h]
  rfl

/-- What a call does by the given time, unless Postgres does not answer. -/
def Call.exec : {β : Type} → ℕ → Call β → Option (ℕ → Draw) × Time → State → β × State
  | _, _, .listDueTimers _ _, (none, time), s => (none, { s with now := time })
  | _, _, .listDueTimers shardIDs limit, (some ω, time), s =>
    (some (Postgres.listDueTimers shardIDs limit (ω 0) s.sys.db), { s with now := time })
  | _, _, .handleFiredTimer _, (none, time), s => ((), { s with now := time })
  | _, _, .handleFiredTimer timerID, (some ω, time), s =>
    ((), s.after (.fireTimer timerID ω) time)

/-- Ticks of pollers with their batch sizes, and the other moves of the system. -/
def polling : Protocol Call ℕ State (Option (ℕ → Draw) × Time) (Move × Time)
    (Option (List ℕ)) where
  exec := Call.exec
  drift e s := s.after e.1 e.2
  prog := tick

/-- What may occur: a tick starts or is given up, one of its requests is carried out by some
time, or the system makes another move. -/
abbrev Event := Occurrence ℕ (Option (ℕ → Draw) × Time) (Move × Time) (Option (List ℕ))

/-- The time goes on, and no one else fires timers. -/
def Punctual (now : Time) : Event → Prop
  | .drift (m, time) => m.Within now time ∧ ∀ timerID ω, m ≠ .fireTimer timerID ω
  | .exec _ (draws, time) => now ≤ time ∧ ∀ ω, draws = some ω → InTime now time ω
  | .start _ _ | .drop _ => True

variable {S : Fleet Call ℕ State}
  {xs : List (Fleet Call ℕ State × Event)}

section Schedule

/-- The time after an occurrence. -/
def clockAfter (now : Time) : Event → Time
  | .drift e => e.2
  | .exec _ d => d.2
  | .start _ _ | .drop _ => now

/-- Each occurrence takes place between the end of the one before and its own. -/
def Schedule (now : Time) : List Event → Prop
  | [] => True
  | o :: os => Punctual now o ∧ Schedule (clockAfter now o) os

/-- The clock goes on as the occurrence says. -/
theorem now_of_step {S' : Fleet Call ℕ State} {o : Event}
    (h : polling.step S o = some S') : S'.state.now = clockAfter S.state.now o := by
  cases o with
  | drift e =>
    obtain rfl := Option.some.inj h
    rfl
  | start k l =>
    obtain rfl := Option.some.inj h
    rfl
  | exec i d =>
    obtain ⟨draws, time⟩ := d
    simp only [Protocol.step] at h
    split at h
    · rename_i k β call next hi
      obtain rfl := Option.some.inj h
      cases call <;> cases draws <;> rfl
    · cases h
  | drop i =>
    obtain ⟨c, -, rfl⟩ := Option.map_eq_some_iff.mp h
    rfl

/-- The occurrences of a schedule that is run are all punctual. -/
theorem Schedule.punctual
    {os : List Event} {r : List (Fleet Call ℕ State × Event) × Fleet Call ℕ State}
    (h : Schedule S.state.now os) (hrun : polling.run S os = some r) :
    ∀ x ∈ r.1, Punctual x.1.state.now x.2 := by
  induction os generalizing S r with
  | nil =>
    obtain rfl := Option.some.inj hrun
    exact fun x hx => by cases hx
  | cons o os ih =>
    obtain ⟨S₁, hstep, hrun⟩ := Option.bind_eq_some_iff.mp hrun
    obtain ⟨r, hr, rfl⟩ := Option.map_eq_some_iff.mp hrun
    refine List.forall_mem_cons.mpr ⟨h.1, ih ?_ hr⟩
    rw [now_of_step hstep]
    exact h.2

end Schedule

/-- Draws made at one time. -/
def draws (time first i : ℕ) : Draw := { Draw.tick (first + i) with now := time, clock := time }

/-- Draws made at one time are in time if that time is. -/
theorem inTime_draws {lo hi time first : ℕ} :
    InTime lo hi (draws time first) ↔ lo ≤ time ∧ time ≤ hi := by
  refine ⟨fun h => ⟨h.lower 0, h.upper 0⟩, fun h => ⟨fun _ _ _ => le_rfl, fun _ => h.1,
    fun _ => h.2, fun _ => ?_⟩⟩
  simp only [draws, Draw.tick]
  constructor <;> norm_num

/-- The first attempt of a chain fails. A poller ticks too early, and again. -/
def chainSchedule : List Event :=
  [.drift (.registerDefinition chainDefinition (draws 0 100), 0),
    .drift (.createRun "chain" 0 none (draws 10 200), 10)] ++
  List.zipWith (fun m time => .drift (m, time)) (Move.claims 209 "w" 300)
    [300, 300, 301, 302, 303, 303] ++
  [.drift (.report 209 "w" false none (some "x") (draws 1000 400), 1000),
    .start 100 none, .exec 0 (some (draws 1900 500), 1900),
    .start 100 none, .exec 1 (some (draws 2000 600), 2000), .exec 1 (some (draws 2100 700), 2100)]

section Ticks

/-- The timer is not armed any more. -/
def Disposed (timerID : UUID) (v : Db) : Prop :=
  ∃ tm, v.timers.get? timerID = some tm ∧ tm.status ≠ .pending

/-- A timer that is not armed is not armed again. -/
theorem Disposed.evolve {timerID : UUID} {v v' : Db} (h : Disposed timerID v)
    (hev : v.Evolves v') : Disposed timerID v' := by
  obtain ⟨tm, htm, hst⟩ := h
  obtain ⟨tm', htm', hsame⟩ := hev.timers tm (Table.mem_of_get? htm)
  have hid : tm'.id = timerID := hsame.id.trans (Table.key_of_get? htm)
  exact ⟨tm', hid ▸ Table.mem_iff_get?.mp htm', by rw [hsame.done hst]; exact hst⟩

/-- `HandleFiredTimer` leaves no timer armed. -/
theorem disposed_of_fired {S S' : System} (hreach : System.Reachable System.Any S) {timerID : UUID}
    {ω : ℕ → Draw} (hnext : S.next (.fireTimer timerID ω) = some S') {tm : Timer}
    (htm : S.db.timers.get? timerID = some tm) : Disposed timerID S'.db := by
  have hb := hreach.ok.orderly.base
  have hfired : ∀ {x : Timer} {now : Time}, S.db.timers.get? timerID = some x →
      Disposed timerID (S.db.apply (.timer (x.fire now))) := by
    intro x now hx
    refine ⟨x.fire now, ?_, fun h => by cases h⟩
    have hid : x.id = timerID := Table.key_of_get? hx
    rw [← hid]
    exact Table.get?_put_self _ (x.fire now)
  cases System.fires_next hb hnext with
  | unarmed hnot heq =>
    rw [heq]
    exact ⟨tm, htm, hnot tm htm⟩
  | idle hx _ _ _ _ _ heq =>
    rw [heq]
    exact hfired hx
  | @retry x t r now now' u hx hst _ _ _ _ _ _ hact _ heval =>
    have htimer : Act ⟨x.workflowRunID, .fireTimer⟩ S.db [.timer (x.fire now)] :=
      .fireTimer (Table.get?_key hx) hst
    have hbase : Base (S.db.apply (.timer (x.fire now))) := htimer.base hb
    exact ((hfired hx).evolve hact.evolves).evolve (heval.path.evolves (hact.base hbase))

/-- The timers that are due in some shards. -/
def dueTimers (shardIDs : Option (List ℕ)) (now : Time) (v : Db) : List Timer :=
  v.timers.rows.filter (fun tm => tm.status = .pending ∧ tm.fireAt ≤ now ∧
    rowsShardFilter shardIDs tm.shardID = some true)

/-- All of them are listed if there is room. -/
theorem mem_listDueTimers {shardIDs : Option (List ℕ)} {limit : ℕ} {d : Draw} {v : Db}
    (hroom : (dueTimers shardIDs d.now v).length ≤ limit) {tm : Timer}
    (h : tm ∈ dueTimers shardIDs d.now v) : tm ∈ Postgres.listDueTimers shardIDs limit d v := by
  have hperm := (List.perm_insertionSort (fun a b : Timer => a.fireAt ≤ b.fireAt)
    (d.shuffle (dueTimers shardIDs d.now v))).trans (d.shuffle_perm _)
  have hlisted : Postgres.listDueTimers shardIDs limit d v =
      (d.shuffle (dueTimers shardIDs d.now v)).insertionSort (fun a b => a.fireAt ≤ b.fireAt) :=
    List.take_of_length_le (hperm.length_eq.trans_le hroom)
  rw [hlisted]
  exact hperm.mem_iff.mpr h

/-- The second state comes later. -/
structure State.Later (s s' : State) : Prop where
  evolves : s.sys.db.Evolves s'.sys.db
  dated : Dated s.sys.db s'.sys.db
  now : s.now ≤ s'.now

/-- Time passes, and nothing else. -/
theorem State.Later.wait (s : State) {time : Time} (hle : s.now ≤ time) :
    s.Later { s with now := time } := ⟨.refl _, .refl _, hle⟩

/-- A move leads from a reachable state to a later one. -/
theorem later_after {s : State} (hreach : System.Reachable System.Any s.sys) (m : Move)
    {time : Time} (hle : s.now ≤ time) :
    System.Reachable System.Any (s.after m time).sys ∧ s.Later (s.after m time) := by
  cases hnext : s.sys.next m with
  | none =>
    rw [State.after_of_none hnext]
    exact ⟨hreach, .wait s hle⟩
  | some S =>
    rw [State.after_of_some hnext]
    exact ⟨hreach.step trivial hnext,
      (hreach.ok.shift (System.next_turn hreach.ok hnext)).evolves hreach.ok.orderly.base,
      hreach.next_dated hnext, hle⟩

/-- A request of a poller leads from a reachable state to a later one. -/
theorem later_exec {s : State} (hreach : System.Reachable System.Any s.sys) {β : Type} (k : ℕ)
    (call : Call β) (draws : Option (ℕ → Draw)) {time : Time} (hle : s.now ≤ time) :
    System.Reachable System.Any (call.exec k (draws, time) s).2.sys ∧
      s.Later (call.exec k (draws, time) s).2 := by
  cases call with
  | listDueTimers shardIDs limit => cases draws <;> exact ⟨hreach, .wait s hle⟩
  | handleFiredTimer timerID =>
    cases draws with
    | none => exact ⟨hreach, .wait s hle⟩
    | some ω => exact later_after hreach (.fireTimer timerID ω) hle

/-- What a run of the pollers and the others reaches can be reached by moves. -/
theorem reachable_of_trace {S' : Fleet Call ℕ State} (h : polling.Trace S xs S')
    (hxs : ∀ x ∈ xs, Punctual x.1.state.now x.2)
    (hreach : System.Reachable System.Any S.state.sys) :
    System.Reachable System.Any S'.state.sys := by
  induction h with
  | nil => exact hreach
  | @cons S S₁ S' o xs hstep _ ih =>
    obtain ⟨ho, hxs⟩ := List.forall_mem_cons.mp hxs
    refine ih hxs ?_
    cases o with
    | drift e =>
      obtain rfl := Option.some.inj hstep
      exact (later_after hreach e.1 ho.1.le).1
    | start k l =>
      obtain rfl := Option.some.inj hstep
      exact hreach
    | exec j d =>
      obtain ⟨draws, time⟩ := d
      simp only [Protocol.step] at hstep
      split at hstep
      · obtain rfl := Option.some.inj hstep
        exact (later_exec hreach _ _ draws ho.1).1
      · cases hstep
    | drop j =>
      obtain ⟨c, -, rfl⟩ := Option.map_eq_some_iff.mp hstep
      exact hreach

/-- The time of the timer, which is in one of the shards, has come. -/
def Awaits (timerID : UUID) (shardIDs : Option (List ℕ)) (s : State) : Prop :=
  ∃ tm, s.sys.db.timers.get? timerID = some tm ∧ tm.fireAt ≤ s.now ∧
    rowsShardFilter shardIDs tm.shardID = some true

/-- A timer that was due stays due. -/
theorem Awaits.later {timerID : UUID} {shardIDs : Option (List ℕ)} {s s' : State}
    (h : Awaits timerID shardIDs s) (hs : s.Later s') : Awaits timerID shardIDs s' := by
  obtain ⟨tm, htm, hfire, hshard⟩ := h
  obtain ⟨tm', htm', hsame⟩ := hs.dated tm (Table.mem_of_get? htm)
  have hid : tm'.id = timerID := hsame.id.trans (Table.key_of_get? htm)
  exact ⟨tm', hid ▸ Table.mem_iff_get?.mp htm', hsame.fireAt ▸ hfire.trans hs.now,
    hsame.shardID ▸ hshard⟩

/-- A tick that has not listed the timers yet, or has a list with the timer on it, unless the
timer is not armed any more. -/
def Ahead (timerID : UUID) (batchSize : ℕ) (shardIDs : Option (List ℕ)) (v : Db)
    (p : Program Call Empty Unit) : Prop :=
  p = tick batchSize shardIDs ∨
    ∃ due, p = fire due ∧ ((∃ tm ∈ due, tm.id = timerID) ∨ Disposed timerID v)

/-- What others do meanwhile does not take the timer from the list. -/
theorem Ahead.evolve {timerID : UUID} {batchSize : ℕ} {shardIDs : Option (List ℕ)} {v v' : Db}
    {p : Program Call Empty Unit} (h : Ahead timerID batchSize shardIDs v p)
    (hev : v.Evolves v') : Ahead timerID batchSize shardIDs v' p := by
  rcases h with h | ⟨due, h, hdue⟩
  · exact Or.inl h
  · exact Or.inr ⟨due, h, hdue.imp id (fun hdone => hdone.evolve hev)⟩

/-- A request is served: the caller is told of all timers that are due, and the transaction of
`HandleFiredTimer` takes place. -/
def Call.isServed (ω : ℕ → Draw) (s : State) : {β : Type} → Call β → Bool
  | _, .listDueTimers shardIDs limit =>
    decide ((dueTimers shardIDs (ω 0).now s.sys.db).length ≤ limit)
  | _, .handleFiredTimer timerID => (s.sys.next (.fireTimer timerID ω)).isSome

/-- The call is not given up, and its requests are served. -/
def serves (i : ℕ) (S : Fleet Call ℕ State) : Event → Bool
  | .drop j => j != i
  | .exec j (draws, _) =>
    if j = i then
      match draws, S.calls[i]? with
      | some ω, some (_, .call op _) => op.isServed ω S.state
      | _, _ => false
    else true
  | .drift _ | .start _ _ => true

variable {timerID : UUID} {batchSize i : ℕ} {shardIDs : Option (List ℕ)}
  {S' : Fleet Call ℕ State}

/-- What the next request of a tick leads to. -/
theorem Ahead.exec {s : State} (hreach : System.Reachable System.Any s.sys) {β : Type}
    {k : ℕ} {call : Call β} {next : β → Program Call Empty Unit}
    (h : Ahead timerID batchSize shardIDs s.sys.db (.call call next))
    (hawaits : Awaits timerID shardIDs s) {ω : ℕ → Draw} {time : Time} (hnow : s.now ≤ (ω 0).now)
    (hle : s.now ≤ time)
    (hserved : call.isServed ω s = true) :
    Ahead timerID batchSize shardIDs (call.exec k (some ω, time) s).2.sys.db
      (next (call.exec k (some ω, time) s).1) := by
  obtain ⟨tm, htm, hfire, hshard⟩ := hawaits
  rcases h with h | ⟨due, h, hdue⟩
  · cases h
    refine Or.inr ⟨Postgres.listDueTimers shardIDs batchSize (ω 0) s.sys.db, rfl, ?_⟩
    by_cases hst : tm.status = .pending
    · refine Or.inl ⟨tm, mem_listDueTimers (of_decide_eq_true hserved) ?_, Table.key_of_get? htm⟩
      exact List.mem_filter.mpr ⟨Table.mem_of_get? htm,
        decide_eq_true ⟨hst, hfire.trans hnow, hshard⟩⟩
    · exact Or.inr ⟨tm, htm, hst⟩
  · cases due with
    | nil => cases h
    | cons x due =>
      cases h
      refine Or.inr ⟨due, rfl, ?_⟩
      have hlater := (later_exec hreach k (.handleFiredTimer x.id) (some ω) hle).2
      rcases hdue with ⟨y, hy, hid⟩ | hdone
      · rcases List.mem_cons.mp hy with rfl | hy
        · obtain ⟨S₁, hnext⟩ := Option.isSome_iff_exists.mp hserved
          refine Or.inr ?_
          change Disposed timerID (s.after (.fireTimer y.id ω) time).sys.db
          rw [State.after_of_some hnext, ← hid]
          exact disposed_of_fired hreach hnext (hid ▸ htm)
        · exact Or.inl ⟨y, hy, hid⟩
      · exact Or.inr (hdone.evolve hlater.evolves)

/-- Whatever happens next, the timer stays on the list of the tick or is disposed of. -/
theorem Ahead.step (hreach : System.Reachable System.Any S.state.sys)
    {c : ℕ × Program Call Empty Unit} (hc : S.calls[i]? = some c)
    (h : Ahead timerID batchSize shardIDs S.state.sys.db c.2)
    (hawaits : Awaits timerID shardIDs S.state)
    {o : Event} (ho : Punctual S.state.now o) (hserves : serves i S o = true)
    (hstep : polling.step S o = some S') :
    System.Reachable System.Any S'.state.sys ∧ Awaits timerID shardIDs S'.state ∧
      ∃ c', S'.calls[i]? = some c' ∧ Ahead timerID batchSize shardIDs S'.state.sys.db c'.2 := by
  cases o with
  | drift e =>
    obtain rfl := Option.some.inj hstep
    obtain ⟨hreach', hlater⟩ := later_after hreach e.1 ho.1.le
    exact ⟨hreach', hawaits.later hlater, c, hc, h.evolve hlater.evolves⟩
  | start k l =>
    obtain rfl := Option.some.inj hstep
    have hlt := (List.getElem?_eq_some_iff.mp hc).1
    exact ⟨hreach, hawaits, c, (List.getElem?_append_left hlt).trans hc, h⟩
  | exec j d =>
    obtain ⟨draws, time⟩ := d
    simp only [Protocol.step] at hstep
    split at hstep
    · rename_i k β call next hj
      obtain rfl := Option.some.inj hstep
      obtain ⟨hreach', hlater⟩ := later_exec hreach k call draws ho.1
      refine ⟨hreach', hawaits.later hlater, ?_⟩
      by_cases hji : j = i
      · subst hji
        obtain rfl := Option.some.inj (hj.symm.trans hc)
        simp only [serves, if_true, hj] at hserves
        have hlt := (List.getElem?_eq_some_iff.mp hj).1
        cases draws with
        | none => cases hserves
        | some ω =>
          exact ⟨_, List.getElem?_set_self hlt,
            h.exec hreach hawaits ((ho.2 ω rfl).lower 0) ho.1 hserves⟩
      · exact ⟨c, (List.getElem?_set_ne hji).trans hc, h.evolve hlater.evolves⟩
    · cases hstep
  | drop j =>
    obtain ⟨c', -, rfl⟩ := Option.map_eq_some_iff.mp hstep
    exact ⟨hreach, hawaits, c, (List.getElem?_set_ne (bne_iff_ne.mp hserves)).trans hc, h⟩

/-- A tick that comes to its end has overlooked no timer that was due when it started: none of
those in its shards is armed any more, whatever others have done meanwhile. -/
theorem no_timer_overlooked (hreach : System.Reachable System.Any S.state.sys)
    (hstart : S.calls[i]? = some (batchSize, tick batchSize shardIDs))
    (h : polling.Trace S xs S') (hxs : ∀ x ∈ xs, Punctual x.1.state.now x.2)
    (hserves : ∀ x ∈ xs, serves i x.1 x.2 = true) {k : ℕ} (hend : S'.calls[i]? = some (k, .ret ()))
    {tm : Timer} (htm : tm ∈ S.state.sys.db.timers) (hfire : tm.fireAt ≤ S.state.now)
    (hshard : rowsShardFilter shardIDs tm.shardID = some true) :
    ∃ tm', S'.state.sys.db.timers.get? tm.id = some tm' ∧ tm'.status ≠ .pending := by
  have hawaits : Awaits tm.id shardIDs S.state := ⟨tm, Table.mem_iff_get?.mp htm, hfire, hshard⟩
  have hahead : ∃ c, S.calls[i]? = some c ∧
      Ahead tm.id batchSize shardIDs S.state.sys.db c.2 := ⟨_, hstart, Or.inl rfl⟩
  clear hstart htm hfire hshard
  induction h with
  | nil =>
    obtain ⟨c, hc, hahead⟩ := hahead
    obtain rfl := Option.some.inj (hend.symm.trans hc)
    rcases hahead with hahead | ⟨due, hdue, hlisted⟩
    · cases hahead
    · cases due with
      | nil => exact hlisted.resolve_left (fun hmem => by simp at hmem)
      | cons x due => cases hdue
  | cons hstep _ ih =>
    obtain ⟨c, hc, hahead⟩ := hahead
    obtain ⟨ho, hxs⟩ := List.forall_mem_cons.mp hxs
    obtain ⟨hserve, hserves⟩ := List.forall_mem_cons.mp hserves
    obtain ⟨hreach', hawaits', hahead'⟩ := hahead.step hreach hc hawaits ho hserve hstep
    exact ih hreach' hxs hserves hend hawaits' hahead'

/-- The first attempt of a chain has failed, and its timer is due. -/
def dueSchedule : List Event :=
  chainSchedule.take 9 ++ [.drift (.claim defaultLeaseDuration 209 209 "v", 2000)]

/-- The run up to the tick. -/
def duePolled := (polling.run ⟨⟨.init, 0⟩, []⟩ dueSchedule).get (by decide +kernel)

/-- A poller ticks, and a second one fires the timer that the first one has listed. -/
def raceSchedule : List Event :=
  [.exec 0 (some (draws 2010 600), 2010), .start 100 none, .exec 1 (some (draws 2020 700), 2020),
    .exec 1 (some (draws 2030 800), 2030), .exec 0 (some (draws 2040 900), 2040)]

/-- The run of the two pollers from there. -/
def racePolled :=
  (polling.run ⟨duePolled.2.state, [(100, tick 100 none)]⟩ raceSchedule).get (by decide +kernel)

/-- The timer of the chain is not armed any more. -/
theorem no_timer_overlooked_race :
    ∃ tm ∈ duePolled.2.state.sys.db.timers, tm.status = .pending ∧
      ∃ tm', racePolled.2.state.sys.db.timers.get? tm.id = some tm' ∧ tm'.status ≠ .pending := by
  have hdue : polling.run ⟨⟨.init, 0⟩, []⟩ dueSchedule = some duePolled :=
    (Option.some_get _).symm
  have hrace : polling.run ⟨duePolled.2.state, [(100, tick 100 none)]⟩ raceSchedule =
      some racePolled := (Option.some_get _).symm
  have hschedule : Schedule 0 dueSchedule := by
    simp [dueSchedule, chainSchedule, Move.claims, List.range', Schedule, Punctual, clockAfter,
      Move.Within, Draw.tick, inTime_draws]
  have hreach := reachable_of_trace (Protocol.trace_of_run hdue) (hschedule.punctual hdue) .init
  have hnow : duePolled.2.state.now = 2000 := by decide +kernel
  have hschedule' : Schedule duePolled.2.state.now raceSchedule := by
    rw [hnow]
    simp [raceSchedule, Schedule, Punctual, clockAfter, inTime_draws]
  have hpunctual : ∀ x ∈ racePolled.1, Punctual x.1.state.now x.2 :=
    Schedule.punctual (S := ⟨duePolled.2.state, [(100, tick 100 none)]⟩) hschedule' hrace
  have hserves : ∀ x ∈ racePolled.1, serves 0 x.1 x.2 = true := by decide +kernel
  have hover : (racePolled.2.calls[0]?).any (fun c => c.2.isOver) = true := by decide +kernel
  have htimer : ∃ tm ∈ duePolled.2.state.sys.db.timers.rows, tm.status = .pending ∧
      tm.fireAt ≤ duePolled.2.state.now ∧ rowsShardFilter none tm.shardID = some true := by
    decide +kernel
  obtain ⟨tm, htm, hst, hfire, hshard⟩ := htimer
  refine ⟨tm, htm, hst, ?_⟩
  cases hc : racePolled.2.calls[0]? with
  | none =>
    rw [hc] at hover
    cases hover
  | some c =>
    rw [hc] at hover
    have hend : racePolled.2.calls[0]? = some (c.1, .ret ()) := by
      rw [hc, ← Program.eq_ret_of_isOver hover]
    exact no_timer_overlooked (S := ⟨duePolled.2.state, [(100, tick 100 none)]⟩) hreach rfl
      (Protocol.trace_of_run hrace) hpunctual hserves hend htm hfire hshard

end Ticks

end Poller

end Orchestrator
