import Orchestrator.Delivery.Model
import Orchestrator.Lib.Outbox

/-!
# The relay and the nodes keep the outbox in order

A tick marks only rows whose message it has published, and the nodes mark none. So
every event is a step of a transactional outbox, or none at all, whatever else is under
way.
-/

namespace Orchestrator

open Lib Actions

/-- The row is in the outbox, as it was or marked. -/
def Db.Keeps (v : Db) (m : OutboxMessage) : Prop := ∃ n ∈ v.outbox, m.Evolves n

theorem Db.Keeps.evolves {v v' : Db} {m : OutboxMessage} (h : v.Keeps m) (hev : v.Evolves v') :
    v'.Keeps m := by
  obtain ⟨n, hn, hmn⟩ := h
  obtain ⟨k, hk, hnk⟩ := hev.outbox n hn
  exact ⟨k, hk, hmn.trans hnk⟩

/-- There is one row of an identifier. -/
theorem Db.Keeps.get? {v : Db} {m n : OutboxMessage} (h : v.Keeps m)
    (hn : v.outbox.get? m.id = some n) : m.Evolves n := by
  obtain ⟨k, hk, hmk⟩ := h
  have hkey : k.id = n.id := hmk.id.trans (Table.key_of_get? hn).symm
  obtain rfl := Table.eq_of_key_eq hk (Table.mem_of_get? hn) hkey
  exact hmk

/-- What was inserted as a message is published as such, however its row evolves. -/
theorem OutboxMessage.Evolves.published {m n : OutboxMessage} (h : m.Evolves n) :
    System.published n = System.published m := by
  rw [System.published, System.published, h.payload, h.stream]

/-- A row of the outbox was there before, or has been written. -/
theorem mem_outbox_applyAll {v : Db} {w : List Write} {m : OutboxMessage}
    (h : m ∈ (backend.applyAll v w).outbox) : m ∈ v.outbox ∨ Write.outbox m ∈ w := by
  induction w generalizing v with
  | nil => exact Or.inl h
  | cons x w ih =>
    rcases ih h with hm | hm
    · cases x with
      | outbox n =>
        rcases Table.mem_put.mp hm with rfl | ⟨hm, -⟩
        · exact Or.inr List.mem_cons_self
        · exact Or.inl hm
      | _ => exact Or.inl hm
    · exact Or.inr (List.mem_cons_of_mem x hm)

/-- The relay alone marks messages. An action of anyone else that writes a message
inserts it. -/
theorem Act.letter {l : Label} {v : Db} {u : List Write} (h : Act l v u) (hl : l.kind ≠ .publish)
    {m : OutboxMessage} (hm : Write.outbox m ∈ u) :
    v.outbox.get? m.id = none ∧ m.status = .pending := by
  have hclosed : ∀ {a success result ws}, Closes v a success result ws → Write.outbox m ∉ ws := by
    intro a success result ws hclose
    cases hclose <;> simp
  cases h with
  | dispatch _ _ _ _ hnew =>
    simp only [historyWrites, List.mem_cons, reduceCtorEq, Write.outbox.injEq, List.not_mem_nil,
      or_false, false_or] at hm
    rw [hm]
    exact ⟨hnew, rfl⟩
  | publish => exact absurd rfl hl
  | succeed hclose | retry hclose | giveUp hclose =>
    simp [historyWrites, hclosed hclose] at hm
  | late hclose _ _ htms =>
    rcases htms with rfl | ⟨tm, rfl, -⟩ <;> simp [hclosed hclose] at hm
  | _ => simp [historyWrites] at hm

/-- What a call of the nodes commits: actions that do not mark a message. -/
abbrev Posts (v : Db) (w : List Write) : Prop := engine.Steps (·.kind ≠ .publish) v w

/-- The messages committed by the nodes are new, and pending. -/
theorem Posts.fresh {v : Db} {w : List Write} (h : Posts v w) (hb : Base v) {m : OutboxMessage}
    (hm : Write.outbox m ∈ w) : v.outbox.get? m.id = none ∧ m.status = .pending := by
  induction h with
  | nil => cases hm
  | @snoc w u l hw hl hact ih =>
    rcases List.mem_append.mp hm with hm | hm
    · exact ih hm
    · have hev : v.Evolves (backend.applyAll v w) :=
        Through.evolves (C := (·.kind ≠ .publish)) ⟨w, hw, rfl⟩ hb
      obtain ⟨hnew, hpending⟩ := hact.letter hl hm
      rw [Table.get?_eq_none] at hnew ⊢
      refine ⟨fun n hn hid => ?_, hpending⟩
      obtain ⟨k, hk, hnk⟩ := hev.outbox n hn
      exact hnew k hk (hnk.id.trans hid)

/-- Nodes commit nothing else. -/
theorem nodes_posts : World.Obligations backend nodes Base (engine.Rely (fun _ => True)) Posts
    (fun _ _ _ => True) (fun _ => Posts) (fun _ _ => True) := session_obligations rfl

/-- What may remain of a tick that has made some writes. -/
inductive Remains (v : Db) (stream : List (String × TaskPayload)) :
    List Write → RelayProg ℕ → Prop
  | all {shardIDs : Option (List ℕ)} {limit : ℕ} :
      Remains v stream [] (Relay.tick shardIDs limit)
  | rows {w : List Write} {rows : List OutboxMessage} {published : ℕ} : (∀ m ∈ rows, v.Keeps m) →
      Remains v stream w (rows.foldlM publishRow published)
  /-- The message of a row has just been published. -/
  | mark {w : List Write} {m : OutboxMessage} {rows : List OutboxMessage} {published : ℕ} :
      System.published m ∈ stream → v.Keeps m → (∀ m ∈ rows, v.Keeps m) →
      Remains v stream w
        (.call (.markOutboxPublished m.id) (fun _ => rows.foldlM publishRow (published + 1)))

/-- A tick under way marks what it has published. -/
structure Tick.Fits (t : Tick) (v : Db) (stream : List (String × TaskPayload)) : Prop where
  steps : engine.Steps (·.kind = .publish) v t.writes
  marks : ∀ x ∈ t.writes, ∃ m, x = .outbox m ∧ v.Keeps m ∧ System.published m ∈ stream
  remains : Remains v stream t.writes t.prog

section Tick

variable {t : Tick} {v v' : Db} {log log' : List (String × TaskPayload)} {w : List Write}

theorem Remains.later {p : RelayProg ℕ} (h : Remains v log w p) (hev : v.Evolves v')
    (hlog : log ⊆ log') : Remains v' log' w p := by
  cases h with
  | all => exact .all
  | rows hrows => exact .rows (fun m hm => (hrows m hm).evolves hev)
  | mark hsent hm hrows =>
    exact .mark (hlog hsent) (hm.evolves hev) (fun m hm => (hrows m hm).evolves hev)

/-- What others publish does not matter to a tick. -/
theorem Tick.Fits.publish (h : t.Fits v log) (hlog : log ⊆ log') :
    t.Fits v log' where
  steps := h.steps
  marks x hx := by
    obtain ⟨m, hxm, hm, hsent⟩ := h.marks x hx
    exact ⟨m, hxm, hm, hlog hsent⟩
  remains := h.remains.later (.refl v) hlog

/-- What others commit does not matter to a tick whose locks they do not need. -/
theorem Tick.Fits.commit (h : t.Fits v log) (hb : Base v)
    (hw : engine.Steps (fun _ => True) v w)
    (hdisj : (backend.locksOf t.writes).Disjoint (backend.locksOf w)) :
    t.Fits (backend.applyAll v w) log := by
  have hev : v.Evolves (backend.applyAll v w) := Through.evolves ⟨w, hw, rfl⟩ hb
  refine ⟨(Steps.keep hb hw h.steps hdisj).1, fun x hx => ?_, h.remains.later hev (fun _ hx => hx)⟩
  obtain ⟨m, hxm, hm, hsent⟩ := h.marks x hx
  exact ⟨m, hxm, hm.evolves hev, hsent⟩

/-- The nodes need no lock of a tick when they commit. -/
theorem Tick.Fits.disjoint (h : t.Fits v log) (hb : Base v) (hw : Posts v w) :
    (backend.locksOf t.writes).Disjoint (backend.locksOf w) := by
  intro l hl hl'
  obtain ⟨x, hx, hlx⟩ := List.mem_flatMap.mp hl
  obtain ⟨y, hy, hly⟩ := List.mem_flatMap.mp hl'
  obtain ⟨m, rfl, ⟨n, hn, hmn⟩, -⟩ := h.marks x hx
  obtain rfl := List.mem_singleton.mp hlx
  obtain ⟨m', rfl, hid⟩ : ∃ m', y = .outbox m' ∧ m'.id = m.id := by
    cases y <;> simp at hly
    exact ⟨_, rfl, hly.symm⟩
  have hnone := (hw.fresh hb hy).1
  rw [hid, Table.get?_eq_none] at hnone
  exact hnone n hn hmn.id

end Tick

namespace Delivery

variable {D D' : Delivery} {i : ℕ} {t : Tick} {d : Draw}

/-- What a tick is about to publish is the message of a row. -/
theorem sending_cases (h : t.Fits D.db D.stream) :
    t.sending = [] ∨ ∃ m, D.db.Keeps m ∧ t.sending = [System.published m] := by
  obtain ⟨prog, writes, locked⟩ := t
  obtain ⟨-, -, hremains⟩ := h
  dsimp only at hremains
  cases hremains with
  | all => exact Or.inl rfl
  | @rows _ rows n hrows =>
    cases rows with
    | nil => exact Or.inl rfl
    | cons m rows => exact Or.inr ⟨m, hrows m List.mem_cons_self, rfl⟩
  | mark => exact Or.inl rfl

/-- What `MarkOutboxPublished` writes is the row that it finds, marked. -/
theorem mark_writes {id : ℕ} {v : Db} {a : Unit} {ws : List Write}
    (h : backend.exec (.markOutboxPublished id) d v = .ok (a, ws)) {x : Write} (hx : x ∈ ws) :
    ∃ n, v.outbox.get? id = some n ∧
      x = .outbox { n with status := .published, publishedAt := some d.now } := by
  simp only [backend_exec, Query.exec] at h
  split at h
  · obtain ⟨-, rfl⟩ := Prod.mk.inj (Except.ok.inj h)
    cases hx
  · rename_i n hn
    obtain ⟨-, rfl⟩ := Prod.mk.inj (Except.ok.inj h)
    exact ⟨n, hn, List.mem_singleton.mp hx⟩

/-- A call of a tick publishes the message of a row, or nothing. -/
theorem exec_inv (hb : Base D.db) (hfits : t.Fits D.db D.stream) (h : D.exec i t d = some D') :
    D'.world = D.world ∧ (∃ new, D'.stream = D.stream ++ new ∧
      (new = [] ∨ ∃ m, D.db.Keeps m ∧ new = [System.published m])) ∧
    ∃ t', D'.ticks = D.ticks.set i t' ∧ t'.Fits D.db D'.stream := by
  obtain ⟨prog, writes, locked⟩ := t
  obtain ⟨hsteps, hmarks, hremains⟩ := hfits
  dsimp only at hsteps hmarks hremains
  cases hremains with
  | all =>
    obtain rfl := Option.some.inj h
    refine ⟨rfl, ⟨[], (List.append_nil _).symm, Or.inl rfl⟩, _, rfl, hsteps, hmarks,
      .rows (fun m hm => ⟨m, mem_of_mem_fetch hm, .refl m⟩)⟩
  | @rows _ rows n hrows =>
    cases rows with
    | nil => cases h
    | cons m rows =>
      obtain rfl := Option.some.inj h
      have hm := hrows m List.mem_cons_self
      refine ⟨rfl, ⟨[System.published m], rfl, Or.inr ⟨m, hm, rfl⟩⟩, _, rfl, hsteps,
        fun x hx => ?_, .mark (List.mem_append_right _ List.mem_cons_self) hm
          (fun m' hm' => hrows m' (List.mem_cons_of_mem m hm'))⟩
      obtain ⟨m', hxm, hm', hsent⟩ := hmarks x hx
      exact ⟨m', hxm, hm', List.mem_append_left _ hsent⟩
  | @mark _ m rows n hsent hm hrows =>
    have hview : D.db.Evolves (backend.applyAll D.db writes) :=
      Through.evolves ⟨writes, hsteps, rfl⟩ hb
    have hmakes := makes_publish m.id d (backend.applyAll D.db writes) (Steps.inv hsteps hb)
    simp only [Delivery.exec] at h
    cases hexec : backend.exec (.markOutboxPublished m.id) d (backend.applyAll D.db writes) with
    | error e =>
      exfalso
      simp only [backend_exec, Query.exec] at hexec
      split at hexec <;> cases hexec
    | ok r =>
      rw [hexec] at h hmakes
      obtain rfl := Option.some.inj h
      refine ⟨rfl, ⟨[], (List.append_nil _).symm, Or.inl rfl⟩, _, rfl, hsteps.append hmakes,
        List.forall_mem_append.mpr ⟨hmarks, fun x hx => ?_⟩, .rows hrows⟩
      obtain ⟨n, hn, rfl⟩ := mark_writes hexec hx
      have hmn := (hm.evolves hview).get? hn
      obtain ⟨k, hk, hmk⟩ := hm
      refine ⟨_, rfl, ⟨k, hk, ?_⟩, ?_⟩
      · exact ⟨hmk.id.trans hmn.id.symm, hmk.aggregateID.trans hmn.aggregateID.symm,
          hmk.payload.trans hmn.payload.symm, hmk.stream.trans hmn.stream.symm⟩
      · exact hmn.published.symm ▸ hsent

/-- What can be seen of the outbox: the messages of its rows, those of rows that have been
marked, and the streams. -/
def seen (v : Db) (stream : List (String × TaskPayload)) : Outbox (String × TaskPayload) where
  committed := { x | ∃ m ∈ v.outbox, System.published m = x }
  settled := { x | ∃ m ∈ v.outbox, m.status ≠ .pending ∧ System.published m = x }
  sent := stream

/-- The outbox of a state. -/
def outbox (D : Delivery) : Outbox (String × TaskPayload) := seen D.db D.stream

/-- A commit that marks only what has been published. -/
theorem seen_commit {v : Db} {w : List Write} {stream : List (String × TaskPayload)}
    (hb : Base v) (hw : engine.Steps (fun _ => True) v w)
    (hmarks : ∀ m, Write.outbox m ∈ w → m.status ≠ .pending → System.published m ∈ stream) :
    (seen v stream).Step (seen (backend.applyAll v w) stream) := by
  refine .commit (fun x hx => ?_) (fun x hx => ?_)
  · obtain ⟨m, hm, rfl⟩ := hx
    have hev : v.Evolves (backend.applyAll v w) := Through.evolves ⟨w, hw, rfl⟩ hb
    obtain ⟨n, hn, hmn⟩ := hev.outbox m hm
    exact ⟨n, hn, hmn.published⟩
  · obtain ⟨m, hm, hmarked, rfl⟩ := hx
    rcases mem_outbox_applyAll hm with hold | hnew
    · exact Or.inl ⟨m, hold, hmarked, rfl⟩
    · exact Or.inr (hmarks m hnew hmarked)

/-- The message of a row is published. -/
theorem seen_publish {v : Db} {stream : List (String × TaskPayload)} {m : OutboxMessage}
    (h : v.Keeps m) : (seen v stream).Step (seen v (stream ++ [System.published m])) := by
  obtain ⟨n, hn, hmn⟩ := h
  exact .send (o := seen v stream) ⟨n, hn, hmn.published⟩

/-- What holds in every state. -/
structure Ok (D : Delivery) : Prop where
  world : D.world.Ok backend nodes Base (engine.Rely (fun _ => True)) Posts (fun _ _ _ => True)
    (fun _ => Posts) (fun _ _ => True)
  apart : D.Apart
  ticks : ∀ t ∈ D.ticks, t.Fits D.db D.stream

/-- What an event does to the rows and the streams. -/
structure Advances (D D' : Delivery) : Prop where
  through : Through (fun _ => True) D.db D'.db
  outbox : Relation.ReflGen Outbox.Step D.outbox D'.outbox

theorem Ok.base (hok : D.Ok) : Base D.db := hok.world.inv

theorem Ok.init : init.Ok := by
  refine ⟨World.Reachable.ok nodes_posts Base.empty .init, .nil, fun t ht => ?_⟩
  exact absurd ht List.not_mem_nil

/-- Ticks may come, go on or end while the rows stay. Each publishes the message of a row
at most. -/
theorem Ok.beside (hok : D.Ok) (hworld : D'.world = D.world) (hapart : D'.Apart)
    {new : List (String × TaskPayload)} (hstream : D'.stream = D.stream ++ new)
    (hnew : new = [] ∨ ∃ m, D.db.Keeps m ∧ new = [System.published m])
    (hticks : ∀ t ∈ D'.ticks, t ∈ D.ticks ∨ t.Fits D.db D'.stream) :
    D'.Ok ∧ D.Advances D' := by
  have hdb : D'.db = D.db := congrArg World.db hworld
  refine ⟨⟨hworld ▸ hok.world, hapart, fun t ht => ?_⟩, ?_, ?_⟩
  · rw [hdb]
    rcases hticks t ht with hold | hfits
    · exact (hok.ticks t hold).publish (hstream ▸ List.subset_append_left _ _)
    · exact hfits
  · rw [hdb]
    exact .refl _
  · rw [outbox, outbox, hdb, hstream]
    rcases hnew with rfl | ⟨m, hm, rfl⟩
    · rw [List.append_nil]
    · exact .single (seen_publish hm)

/-- The nodes go on. -/
theorem Ok.node (hok : D.Ok) {act : Action Call Draw}
    (hnext : World.next backend nodes act D.world = some D'.world) (hapart : D'.Apart)
    (hstream : D'.stream = D.stream) (hticks : D'.ticks = D.ticks) : D'.Ok ∧ D.Advances D' := by
  have hworld := hok.world.step nodes_posts hnext
  rcases hok.world.step_db nodes_posts hnext with hsame | ⟨w, hw, hdb⟩
  · have hdb : D'.db = D.db := hsame
    refine ⟨⟨hworld, hapart, fun t ht => ?_⟩, ?_, ?_⟩
    · rw [hdb, hstream]
      exact hok.ticks t (hticks ▸ ht)
    · rw [hdb]
      exact .refl _
    · rw [outbox, outbox, hdb, hstream]
  · have hdb : D'.db = backend.applyAll D.db w := hdb
    have hsteps : engine.Steps (fun _ => True) D.db w := hw.mono (fun _ _ => trivial)
    refine ⟨⟨hworld, hapart, fun t ht => ?_⟩, ⟨w, hsteps, hdb⟩, .single ?_⟩
    · have hfits := hok.ticks t (hticks ▸ ht)
      rw [hdb, hstream]
      exact hfits.commit hok.base hsteps (hfits.disjoint hok.base hw)
    · rw [outbox, outbox, hdb, hstream]
      exact seen_commit hok.base hsteps (fun m hm hmarked =>
        absurd (hw.fresh hok.base hm).2 hmarked)

/-- The locks of a tick are its own. -/
theorem Apart.tick (h : D.Apart) (ht : D.ticks[i]? = some t) :
    (∀ j σ, D.world.session? j = some σ →
      (backend.locksOf t.writes).Disjoint (backend.locksOf σ.writes)) ∧
    ∀ t' ∈ D.ticks.eraseIdx i, (backend.locksOf t'.writes).Disjoint (backend.locksOf t.writes) := by
  obtain ⟨-, hticks, hsessions⟩ := List.pairwise_append.mp h
  have hsub : ∀ t : Tick, backend.locksOf t.writes ⊆ t.locks :=
    fun t => List.subset_append_right _ _
  have hmem := List.mem_of_getElem? ht
  refine ⟨fun j σ hj x hx hx' => ?_, fun t' ht' x hx hx' => ?_⟩
  · have hσ : backend.locksOf σ.writes ∈ D.sessionLocks := by
      refine List.mem_filterMap.mpr ⟨some σ, ?_, rfl⟩
      exact List.mem_of_getElem? (Option.join_eq_some_iff.mp hj)
    exact hsessions _ hσ _ (List.mem_map_of_mem hmem) x hx' (hsub t hx)
  · obtain ⟨hlt, rfl⟩ := List.getElem?_eq_some_iff.mp ht
    have hpairs := List.pairwise_map.mp hticks
    have hperm := (List.getElem_cons_eraseIdx_perm hlt).symm
    have hrest := hperm.pairwise hpairs (fun hab y hy hy' => hab y hy' hy)
    exact List.rel_of_pairwise_cons hrest ht' x (hsub _ hx') (hsub t' hx)

/-- A tick commits. -/
theorem Ok.commit (hok : D.Ok) (ht : D.ticks[i]? = some t) (hapart : D'.Apart)
    (hworld : D'.world = { D.world with db := backend.applyAll D.db t.writes })
    (hstream : D'.stream = D.stream) (hticks : D'.ticks = D.ticks.eraseIdx i) :
    D'.Ok ∧ D.Advances D' := by
  have hfits := hok.ticks t (List.mem_of_getElem? ht)
  have hsteps : engine.Steps (fun _ => True) D.db t.writes :=
    hfits.steps.mono (fun _ _ => trivial)
  have hdb : D'.db = backend.applyAll D.db t.writes := congrArg World.db hworld
  obtain ⟨hsessions, hothers⟩ := hok.apart.tick ht
  refine ⟨⟨?_, hapart, fun t' ht' => ?_⟩, ⟨t.writes, hsteps, hdb⟩, .single ?_⟩
  · rw [hworld]
    exact hok.world.beside (Steps.inv hsteps hok.base) (fun w' hdisj => ⟨_, hsteps, hdisj, rfl⟩)
      (fun _ _ => trivial) hsessions
  · rw [hticks] at ht'
    rw [hdb, hstream]
    exact (hok.ticks t' (List.mem_of_mem_eraseIdx ht')).commit hok.base hsteps (hothers t' ht')
  · rw [outbox, outbox, hdb, hstream]
    refine seen_commit hok.base hsteps (fun m hm _ => ?_)
    obtain ⟨m', heq, -, hsent⟩ := hfits.marks _ hm
    exact Write.outbox.inj heq ▸ hsent

/-- One event keeps `Delivery.Ok`, and is a step of the outbox if it is any. -/
theorem Ok.next (hok : D.Ok) (h : D.Next D') : D'.Ok ∧ D.Advances D' := by
  obtain ⟨ev, hev⟩ := h
  obtain ⟨hmove, hapart⟩ := Option.filter_eq_some_iff.mp hev
  have hapart : D'.Apart := of_decide_eq_true hapart
  cases ev with
  | node act =>
    obtain ⟨W, hW, rfl⟩ := Option.map_eq_some_iff.mp hmove
    exact hok.node hW hapart rfl rfl
  | tick shardIDs batchSize =>
    obtain rfl := Option.some.inj hmove
    refine hok.beside rfl hapart (List.append_nil _).symm (Or.inl rfl) (fun t ht => ?_)
    rcases List.mem_append.mp ht with hold | hnew
    · exact Or.inl hold
    · rw [List.mem_singleton.mp hnew]
      exact Or.inr ⟨.nil, fun x hx => absurd hx List.not_mem_nil, .all⟩
  | exec i d =>
    obtain ⟨t, ht, hexec⟩ := Option.bind_eq_some_iff.mp hmove
    obtain ⟨hworld, ⟨new, hstream, hnew⟩, t', hticks, hfits⟩ :=
      exec_inv hok.base (hok.ticks t (List.mem_of_getElem? ht)) hexec
    refine hok.beside hworld hapart hstream hnew (fun t₁ ht₁ => ?_)
    rw [hticks] at ht₁
    rcases List.mem_or_eq_of_mem_set ht₁ with hold | rfl
    · exact Or.inl hold
    · exact Or.inr hfits
  | commit i =>
    obtain ⟨t, ht, hcommit⟩ := Option.bind_eq_some_iff.mp hmove
    unfold Delivery.commit at hcommit
    split at hcommit
    · obtain rfl := Option.some.inj hcommit
      exact hok.commit ht hapart rfl rfl rfl
    · cases hcommit
  | stop i arrived =>
    obtain ⟨t, ht, rfl⟩ := Option.map_eq_some_iff.mp hmove
    have hfits := hok.ticks t (List.mem_of_getElem? ht)
    refine hok.beside rfl hapart rfl ?_ (fun t' ht' => Or.inl (List.mem_of_mem_eraseIdx ht'))
    cases arrived with
    | false => exact Or.inl rfl
    | true => exact sending_cases hfits

/-- Later states are in order as well, and their rows come from the ones before. -/
theorem Ok.later (hok : D.Ok) (h : D.Later D') :
    D'.Ok ∧ Through (fun _ => True) D.db D'.db := by
  induction h with
  | refl => exact ⟨hok, .refl _⟩
  | tail _ hlast ih =>
    obtain ⟨hok', hadvances⟩ := ih.1.next hlast
    exact ⟨hok', ih.2.trans hadvances.through⟩

/-- Every state that is reached is in order, and its outbox is sound. -/
theorem Reachable.sound (h : D.Reachable) : D.Ok ∧ D.outbox.Sound := by
  have hempty : init.outbox.Sound := by
    refine ⟨fun m hm => absurd hm List.not_mem_nil, fun x hx => ?_⟩
    obtain ⟨m, hm, -⟩ := hx
    exact absurd hm (Table.not_mem_empty m)
  obtain ⟨hok, hsound, -⟩ := Outbox.Sound.of_simulation
    (fun D D' hok hnext => (hok.next hnext).imp_right Advances.outbox) Ok.init hempty h
  exact ⟨hok, hsound⟩

end Delivery

end Orchestrator
