import Orchestrator.Cluster.Published

/-!
# Clusters that settle

When the nodes that are alive no longer change, a leader that publishes the map and members
that look it up once are enough to divide the shards among the members, although several
nodes may take themselves for the leader and commands may fail. Passes that began earlier
may still do something else until they are over.
-/

namespace Orchestrator.Cluster

open Lib Program
open Redislock (millisecond)

variable {skew : String → ℕ} {S S' : Schedulers}
  {xs : List (Schedulers × Occurrence String Reply ℕ Loop)}

section Stable

variable {M : List String}

/-- A member is alive by the clock of every member. -/
def Alive (skew : String → ℕ) (M : List String) (s : State) (m : String) : Prop :=
  ∃ score, (m, score) ∈ s.members ∧ ∀ n ∈ M, clock skew s n ≤ score + staleAfter

/-- A node is dead by the clock of every member, if it has ever been alive. -/
def Dead (skew : String → ℕ) (M : List String) (s : State) (m : String) : Prop :=
  ∀ score, (m, score) ∈ s.members → ∀ n ∈ M, score + staleAfter < clock skew s n

instance (skew : String → ℕ) (M : List String) (s : State) (m : String) :
    Decidable (Alive skew M s m) :=
  decidable_of_iff
    (∃ e ∈ s.members, e.1 = m ∧ ∀ n ∈ M, clock skew s n ≤ e.2 + staleAfter)
    ⟨fun h => h.elim (fun e he => ⟨e.2, he.2.1 ▸ he.1, he.2.2⟩),
      fun h => h.elim (fun score he => ⟨(m, score), he.1, rfl, he.2⟩)⟩

/-- The members are alive, and no other node has been alive since `s₀`. -/
def settled (skew : String → ℕ) (hM : M.Nodup) (s₀ : State) (old : RawMessage → Prop) :
    Terms skew where
  base := clock skew s₀
  nodes := (· ∈ M)
  beats := (· ∈ M)
  lists l := l.Perm M
  old := old
  members ms := Distinct ms ∧
    ∀ m ∈ ms, m.1 ∉ M → ∀ n ∈ M, m.2 + staleAfter < clock skew s₀ n
  holds s := ∀ m ∈ M, Alive skew M s m
  join h hnode := by
    refine ⟨h.1.zadd _ _, fun m hm hout => ?_⟩
    rcases mem_zadd.mp hm with rfl | ⟨hm, -⟩
    · exact absurd hnode hout
    · exact h.2 m hm hout
  prune h := ⟨h.1.filter _, fun m hm => h.2 m (List.mem_of_mem_filter hm)⟩
  read {s nodeID b} halive h hnode hb := by
    refine (List.perm_ext_iff_of_nodup (h.1.zrange _) hM).mpr (fun name => ?_)
    rw [mem_zrange]
    constructor
    · rintro ⟨score, hmem, hle⟩
      by_contra hout
      have hdead := h.2 _ hmem hout nodeID hnode
      have hfirst := hb.1
      omega
    · intro hname
      obtain ⟨score, hmem, hclock⟩ := halive name hname
      have hlast : b ≤ score + staleAfter := hb.2.trans (hclock nodeID hnode)
      exact ⟨score, hmem, by omega⟩

/-- The terms from before the members are settled. -/
abbrev unsettled (skew : String → ℕ) (nodes : String → Prop) : Terms skew :=
  anyTime skew nodes nodes (fun _ => True) (fun _ => True)

/-- The calls of a trace keep to the terms of the members, if no other node has a call under
way. -/
theorem unsettled_bound {now : ℕ} (h : (schedulers skew).Trace ⟨.init now, []⟩ xs S)
    (hstopped : ∀ c ∈ S.calls, c.1 ∉ M → c.2 = .ret ()) :
    Distinct S.state.members ∧ (unsettled skew (· ∈ M)).Bound S := by
  obtain ⟨hinv, hbound⟩ := anyTime_trace (fun _ => True) (fun _ => True) (fun _ => True)
    (fun _ => True) h (fun _ _ _ _ => trivial) (fun _ _ _ _ _ => ⟨trivial, fun _ => trivial⟩)
  refine ⟨hinv.members, fun i c hc => ?_⟩
  by_cases hmem : c.1 ∈ M
  · refine (hbound i c hc).mono (fun now β op hasks => ?_) (fun now β op b hanswers => ?_)
    · cases op with
      | zadd score member => exact ⟨hasks.1, hmem⟩
      | zrangebyscore cutoff => exact ⟨hmem, hasks.2⟩
      | _ => exact hasks
    · cases op <;> exact hanswers
  · rw [hstopped c (List.mem_of_getElem? hc) hmem]
    trivial

/-- Calls from before the members are settled may still publish and look up other maps. -/
theorem settled_harmless (hM : M.Nodup) (s₀ : State) :
    (settled skew hM s₀ (fun _ => True)).Harmless (unsettled skew (· ∈ M)) (fun _ => True)
      (fun _ _ => True) where
  old _ := trivial
  holds _ _ _ _ := trivial
  inv s h := ⟨fun _ => Nat.zero_le _, h.members.1, Or.inl trivial, fun _ => Or.inl trivial⟩
  asks nodeID now β op hasks := by
    cases op with
    | zadd score member => exact fun ms hms => Terms.join _ hms (hasks.1 ▸ hasks.2)
    | set value => exact Or.inl trivial
    | storeOwned shards => exact Or.inl trivial
    | _ => trivial

/-- Calls from before the map is published may still look up other maps. -/
theorem published_harmless (hM : M.Nodup) (s₀ : State) :
    (settled skew hM s₀ (fun _ => False)).Harmless (settled skew hM s₀ (fun _ => True))
      (fun _ => False) (fun _ _ => True) where
  old _ := trivial
  holds _ h := h
  inv s h := ⟨h.clock, h.members, Or.inl trivial, fun _ => Or.inl trivial⟩
  asks nodeID now β op hasks := by
    cases op with
    | zadd score member => exact fun ms hms => Terms.join _ hms (hasks.1 ▸ hasks.2)
    | set value => exact Or.inr hasks
    | storeOwned shards => exact Or.inl trivial
    | _ => trivial

/-- The next request stores a map. -/
def setsMap : Pass Unit → Bool
  | .call (.set _) _ => true
  | _ => false

/-- The next request stores the shards of a node. -/
def setsOwned : Pass Unit → Bool
  | .call (.storeOwned _) _ => true
  | _ => false

/-- Redis stores a map. -/
def publishes (x : Schedulers × Occurrence String Reply ℕ Loop) : Bool :=
  match x.2 with
  | .exec i d => d ≠ .refused && (x.1.calls[i]?).any (fun c => setsMap c.2)
  | _ => false

/-- A node stores its shards. -/
def stores (nodeID : String) (x : Schedulers × Occurrence String Reply ℕ Loop) : Bool :=
  match x.2 with
  | .exec i _ => (x.1.calls[i]?).any (fun c => c.1 = nodeID && setsOwned c.2)
  | _ => false

variable {T : Terms skew} {x : Schedulers × Occurrence String Reply ℕ Loop}

theorem publishes_step (h : publishes x = true) (hstep : (schedulers skew).step x.1 x.2 = some S)
    (hbound : T.Bound x.1) : ∃ raw, S.state.shardMap = some raw ∧ T.Fresh raw := by
  obtain ⟨X, o⟩ := x
  cases o with
  | exec i d =>
    simp only [publishes, Bool.and_eq_true, decide_eq_true_eq, Option.any_eq_true] at h
    obtain ⟨hd, c, hc, hset⟩ := h
    obtain ⟨nodeID, p⟩ := c
    cases p with
    | call op next =>
      cases op with
      | set value =>
        obtain ⟨hfresh, -⟩ := hbound i _ hc _ le_rfl
        simp only [Protocol.step, hc] at hstep
        obtain rfl := Option.some.inj hstep
        refine ⟨value, ?_, hfresh⟩
        cases d with
        | refused => exact absurd rfl hd
        | _ => rfl
      | _ => cases hset
    | _ => cases hset
  | _ => cases h

theorem stores_step {nodeID : String} (h : stores nodeID x = true)
    (hstep : (schedulers skew).step x.1 x.2 = some S) (hbound : T.Bound x.1) :
    ∃ shards, (S.state.vars nodeID).owned = some (some shards) ∧ T.Share nodeID shards := by
  obtain ⟨X, o⟩ := x
  cases o with
  | exec i d =>
    simp only [stores, Bool.and_eq_true, decide_eq_true_eq, Option.any_eq_true] at h
    obtain ⟨c, hc, hnode, hset⟩ := h
    obtain ⟨n, p⟩ := c
    obtain rfl : n = nodeID := hnode
    cases p with
    | call op next =>
      cases op with
      | storeOwned shards =>
        obtain ⟨hshare, -⟩ := hbound i _ hc _ le_rfl
        simp only [Protocol.step, hc] at hstep
        obtain rfl := Option.some.inj hstep
        exact ⟨shards, by simp [schedulers, Request.exec, State.put], hshare⟩
      | _ => cases hset
    | _ => cases hset
  | _ => cases h

/-- Only members start something. -/
def Silent (M : List String) : Occurrence String Reply ℕ Loop → Prop
  | .start nodeID _ => nodeID ∈ M
  | _ => True

instance (M : List String) (o : Occurrence String Reply ℕ Loop) : Decidable (Silent M o) :=
  match o with
  | .start nodeID _ => inferInstanceAs (Decidable (nodeID ∈ M))
  | .drift _ | .exec _ _ | .drop _ => .isTrue trivial

/-- A trace along which the members stay alive and no other node starts anything. -/
structure Calm (skew : String → ℕ) (M : List String) (S : Schedulers)
    (xs : List (Schedulers × Occurrence String Reply ℕ Loop)) (S' : Schedulers) : Prop where
  trace : (schedulers skew).Trace S xs S'
  alive : ∀ x ∈ xs, ∀ m ∈ M, Alive skew M x.1.state m
  silent : ∀ x ∈ xs, Silent M x.2

theorem Calm.allows {hM : M.Nodup} {s₀ : State} {old : RawMessage → Prop}
    (h : Calm skew M S xs S') :
    ∀ x ∈ xs, (settled skew hM s₀ old).Allows x.1.state x.2 := by
  refine fun x hx => ⟨h.alive x hx, fun nodeID loop hstart => ?_⟩
  have hmem := h.silent x hx
  rw [hstart] at hmem
  exact ⟨hmem, fun _ => hmem⟩

/-- A calm trace can be cut where something happens. -/
theorem Calm.cut (h : Calm skew M S xs S') (hx : x ∈ xs) :
    ∃ ys zs X, Calm skew M S ys x.1 ∧ Calm skew M x.1 [x] X ∧ Calm skew M X zs S' ∧
      (schedulers skew).step x.1 x.2 = some X := by
  obtain ⟨ys, zs, X, rfl, hys, hstep, hzs⟩ := h.trace.cut hx
  have hleft : ∀ y ∈ ys, y ∈ ys ++ x :: zs := fun y hy => List.mem_append_left _ hy
  have hright : ∀ y ∈ zs, y ∈ ys ++ x :: zs :=
    fun y hy => List.mem_append_right _ (List.mem_cons_of_mem _ hy)
  have hone : ∀ y ∈ [x], y ∈ ys ++ x :: zs := by
    intro y hy
    obtain rfl := List.mem_singleton.mp hy
    exact hx
  exact ⟨ys, zs, X,
    ⟨hys, fun y hy => h.alive y (hleft y hy), fun y hy => h.silent y (hleft y hy)⟩,
    ⟨.cons hstep .nil, fun y hy => h.alive y (hone y hy), fun y hy => h.silent y (hone y hy)⟩,
    ⟨hzs, fun y hy => h.alive y (hright y hy), fun y hy => h.silent y (hright y hy)⟩, hstep⟩

/-- Once the members are settled and the calls from before are over, a map that is published
is one of the members, and no other follows. -/
theorem published_once {now : ℕ} {S₀ S₁ S₂ : Schedulers} (hM : M.Nodup)
    {xs₀ xs₁ xs₂ : List (Schedulers × Occurrence String Reply ℕ Loop)}
    (h₀ : (schedulers skew).Trace ⟨.init now, []⟩ xs₀ S₀)
    (hstopped : ∀ c ∈ S₀.calls, c.1 ∉ M → c.2 = .ret ())
    (hdead : ∀ n, n ∉ M → Dead skew M S₀.state n)
    (h₁ : Calm skew M S₀ xs₁ S₁) (hover : S₀.OverIn S₁)
    (h₂ : Calm skew M S₁ xs₂ S₂) (hset : ∃ x ∈ xs₂, publishes x = true) :
    (settled skew hM S₀.state (fun _ => True)).Inv (fun _ => False) (fun _ _ => True) S₂.state ∧
      (settled skew hM S₀.state (fun _ => True)).Bound S₂ := by
  obtain ⟨hdistinct, hbound₀⟩ := unsettled_bound h₀ hstopped
  have hinv₀ : (settled skew hM S₀.state (fun _ => True)).Inv (fun _ => True) (fun _ _ => True)
      S₀.state :=
    ⟨fun _ => le_rfl, ⟨hdistinct, fun m hm hout n hn => hdead m.1 hout m.2 hm n hn⟩,
      Or.inl trivial, fun _ => Or.inl trivial⟩
  obtain ⟨hinv₁, hbound₁⟩ := Terms.round _ (settled_harmless hM S₀.state) (fun _ _ => trivial)
    hinv₀ hbound₀ h₁.trace h₁.allows hover
  obtain ⟨x, hx, hpub⟩ := hset
  obtain ⟨ys, zs, X, hys, hone, hzs, hstep⟩ := h₂.cut hx
  obtain ⟨hinv, hbound⟩ := Terms.stretch _ (fun _ _ => trivial) hinv₁ hbound₁ hys.trace hys.allows
  obtain ⟨hinvX, hboundX⟩ := Terms.stretch _ (fun _ _ => trivial) hinv hbound hone.trace hone.allows
  have hfresh := publishes_step hpub hstep hbound
  exact Terms.stretch _ (fun _ hfalse => hfalse.elim)
    ⟨hinvX.clock, hinvX.members, Or.inr hfresh, fun _ => Or.inl trivial⟩ hboundX hzs.trace
    hzs.allows

/-- What a member has stored after that is what a map of the members gives it. -/
theorem owned_settled {S₀ S₂ S₃ S₄ : Schedulers} (hM : M.Nodup)
    {xs₃ xs₄ : List (Schedulers × Occurrence String Reply ℕ Loop)}
    (hinv₂ : (settled skew hM S₀.state (fun _ => True)).Inv (fun _ => False) (fun _ _ => True)
      S₂.state)
    (hbound₂ : (settled skew hM S₀.state (fun _ => True)).Bound S₂)
    (h₃ : Calm skew M S₂ xs₃ S₃) (hover : S₂.OverIn S₃)
    (h₄ : Calm skew M S₃ xs₄ S₄) {m : String} (hstore : ∃ x ∈ xs₄, stores m x = true) :
    ∃ l, l.Perm M ∧ ownedShards S₄.state m = some (mine m (assignShards l numShards)) := by
  have hinv : (settled skew hM S₀.state (fun _ => False)).Inv (fun _ => False) (fun _ _ => True)
      S₂.state := ⟨hinv₂.clock, hinv₂.members, hinv₂.map, fun _ => Or.inl trivial⟩
  obtain ⟨hinv₃, hbound₃⟩ := Terms.round _ (published_harmless hM S₀.state)
    (fun _ hfalse => hfalse) hinv hbound₂ h₃.trace h₃.allows hover
  obtain ⟨x, hx, hstores⟩ := hstore
  obtain ⟨ys, zs, X, hys, hone, hzs, hstep⟩ := h₄.cut hx
  obtain ⟨hinvx, hboundx⟩ := Terms.stretch _ (fun _ hfalse => hfalse) hinv₃ hbound₃ hys.trace
    hys.allows
  obtain ⟨hinvX, hboundX⟩ := Terms.stretch _ (fun _ hfalse => hfalse) hinvx hboundx hone.trace
    hone.allows
  have hshare := stores_step hstores hstep hboundx
  have hkeeps : (settled skew hM S₀.state (fun _ => False)).Inv (fun _ => False)
      (fun n _ => n ≠ m) X.state := by
    refine ⟨hinvX.clock, hinvX.members, hinvX.map, fun n => ?_⟩
    by_cases hn : n = m
    · subst hn
      exact Or.inr hshare
    · exact Or.inl hn
  obtain ⟨hinv₄, -⟩ := Terms.stretch _ (fun _ hfalse => hfalse) hkeeps hboundX hzs.trace hzs.allows
  rcases hinv₄.owned m with hne | ⟨shards, howned, raw, assignment, hmap, hdecode, rfl⟩
  · exact absurd rfl hne
  · rcases hmap with hfalse | ⟨l, -, hl, rfl⟩
    · exact hfalse.elim
    · obtain rfl := Option.some.inj ((unmarshalStrings_mapOf l).symm.trans hdecode)
      exact ⟨l, hl, by rw [ownedShards, howned]; rfl⟩

end Stable

/-- From some state on the members are alive and all other nodes are dead and do nothing.
When the calls from before are over, some node publishes a map; and when the calls from
before that are over, every member looks it up. Then the members divide the shards, and
each run with its messages and timers is selected by one of them. -/
theorem cluster_settles (skew : String → ℕ) {M : List String} (hM : M.Nodup)
    (hsole : SoleOwners M numShards)
    {now : ℕ} {S₀ S₁ S₂ S₃ S₄ : Schedulers}
    {xs₀ xs₁ xs₂ xs₃ xs₄ : List (Schedulers × Occurrence String Reply ℕ Loop)}
    (h₀ : (schedulers skew).Trace ⟨.init now, []⟩ xs₀ S₀)
    (hstopped : ∀ c ∈ S₀.calls, c.1 ∉ M → c.2 = .ret ())
    (hdead : ∀ n, n ∉ M → Dead skew M S₀.state n)
    (h₁ : Calm skew M S₀ xs₁ S₁) (hover₁ : S₀.OverIn S₁)
    (h₂ : Calm skew M S₁ xs₂ S₂) (hset : ∃ x ∈ xs₂, publishes x = true)
    (h₃ : Calm skew M S₂ xs₃ S₃) (hover₃ : S₂.OverIn S₃)
    (h₄ : Calm skew M S₃ xs₄ S₄) (hstore : ∀ m ∈ M, ∃ x ∈ xs₄, stores m x = true) :
    (∀ m ∈ M, ownedShards S₄.state m = some (mine m (assignShards M numShards))) ∧
    (∀ i < numShards, ∃ owner ∈ M, ∀ m ∈ M,
      i ∈ mine m (assignShards M numShards) ↔ m = owner) ∧
    ∀ v : Db, Stored v → ∀ r ∈ v.runs, ∃ owner ∈ M, ∀ m ∈ M,
      Selection (ownedShards S₄.state m) r v (m = owner) := by
  obtain ⟨hinv₂, hbound₂⟩ := published_once hM h₀ hstopped hdead h₁ hover₁ h₂ hset
  have howned : ∀ m ∈ M,
      ownedShards S₄.state m = some (mine m (assignShards M numShards)) := by
    intro m hm
    obtain ⟨l, hl, heq⟩ := owned_settled hM hinv₂ hbound₂ h₃ hover₃ h₄ (hstore m hm)
    rw [assignShards_congr (fun n => hl.mem_iff.symm) hsole, heq]
  have hne : M ≠ [] := by
    rcases hinv₂.map with hfalse | ⟨raw, -, l, hne, hl, -⟩
    · exact hfalse.elim
    · exact fun hnil => hne (List.Perm.eq_nil (hnil ▸ hl))
  have howner : ∀ i < numShards, ∃ owner ∈ M, ∀ m ∈ M,
      i ∈ mine m (assignShards M numShards) ↔ m = owner := by
    intro i hi
    obtain ⟨owner, hmem, hgiven⟩ := exists_owner hne hi
    refine ⟨owner, hmem, fun m _ => ?_⟩
    rw [mine, Node.mem_mine, hgiven, Option.some.injEq]
    exact eq_comm
  refine ⟨howned, howner, fun v hv r hr => ?_⟩
  obtain ⟨owner, hmem, hiff⟩ := howner _ (shardFor_lt r.id)
  refine ⟨owner, hmem, fun m hm => ?_⟩
  rw [howned m hm, ← propext (hiff m hm)]
  exact (hv.inShard hr).selection hr _

theorem published_calm : Calm (fun _ => 0) ["node-a", "node-b"] joined.2 published.1 published.2 :=
  ⟨published_trace, by decide +kernel, by decide +kernel⟩

theorem refreshed_calm :
    Calm (fun _ => 0) ["node-a", "node-b"] published.2 refreshed.1 refreshed.2 :=
  ⟨refreshed_trace, by decide +kernel, by decide +kernel⟩

/-- Two members divide the shards after a third one has gone away. -/
theorem cluster_settles_pair :
    (∀ m ∈ ["node-a", "node-b"], ownedShards refreshed.2.state m =
      some (mine m (assignShards ["node-a", "node-b"] numShards))) ∧
    ∀ i < numShards, ∃ owner ∈ ["node-a", "node-b"], ∀ m ∈ ["node-a", "node-b"],
      i ∈ mine m (assignShards ["node-a", "node-b"] numShards) ↔ m = owner := by
  have hsole : SoleOwners ["node-a", "node-b"] numShards := .of_nodup (by decide +kernel)
  have hover : ∀ c ∈ joined.2.calls, c.2.isOver = true := by decide +kernel
  have hover' : ∀ c ∈ published.2.calls, c.2.isOver = true := by decide +kernel
  have hdead : ∀ e ∈ joined.2.state.members, e.1 ∉ ["node-a", "node-b"] →
      ∀ n ∈ ["node-a", "node-b"], e.2 + staleAfter < clock (fun _ => 0) joined.2.state n := by
    decide +kernel
  have h := cluster_settles (fun _ => 0) (by decide) hsole joined_trace
    (fun c hc _ => eq_ret_of_isOver (hover c hc))
    (fun n hn score hscore => hdead (n, score) hscore hn)
    ⟨.nil, fun x hx => absurd hx List.not_mem_nil, fun x hx => absurd hx List.not_mem_nil⟩
    (Fleet.overIn_of_forall hover) published_calm (by decide +kernel)
    ⟨.nil, fun x hx => absurd hx List.not_mem_nil, fun x hx => absurd hx List.not_mem_nil⟩
    (Fleet.overIn_of_forall hover') refreshed_calm (by decide +kernel)
  exact ⟨h.1, h.2.1⟩

end Orchestrator.Cluster
