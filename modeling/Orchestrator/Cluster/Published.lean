import Orchestrator.Cluster.Loops

/-!
# What the nodes of a cluster read

What a leader publishes follows from what it finds among the members, and what a node owns
from what it finds in the map. Terms say what the passes of the loops may rely on: if the
sorted set is as they say, every pass keeps to them, however the passes interleave and
whichever commands fail. At any time the shard map gives every shard to a node that has been
alive, and a node owns everything, before it has seen a map, or what some published map
gives it.
-/

namespace Orchestrator.Cluster

open Lib Program
open Redislock (Command Key millisecond)

/-- The calls and the state of a cluster. -/
abbrev Schedulers : Type 1 := Fleet Request String State

/-- The map that is published for members. -/
def mapOf (members : List String) : RawMessage :=
  marshalStrings (assignShards members numShards)

/-- A map is published for some live members only. -/
theorem publishShardMap_eq_some {members : Option (List String)} {b : RawMessage}
    (h : Orchestrator.publishShardMap members = some b) :
    ∃ l, members = some l ∧ l ≠ [] ∧ b = mapOf l := by
  cases members with
  | none => cases h
  | some l =>
    cases l with
    | nil => cases h
    | cons n l =>
      obtain rfl := Option.some.inj h
      exact ⟨n :: l, rfl, List.cons_ne_nil n l, rfl⟩

/-- A node that parses a published map gets the owners of the shards. -/
theorem unmarshalStrings_mapOf (l : List String) :
    unmarshalStrings (mapOf l) = some (assignShards l numShards) :=
  unmarshalStrings_marshalStrings _

/-- A reading of the clock of a node, from `base` on and not later than now. -/
def Reading (skew base : String → ℕ) (nodeID : String) (now b : ℕ) : Prop :=
  base nodeID ≤ b ∧ b ≤ (now + skew nodeID) / millisecond

/-- What the clock has shown by now it has shown by any later time. -/
theorem Reading.later {skew base : String → ℕ} {nodeID : String} {now now' b : ℕ}
    (h : Reading skew base nodeID now b) (hle : now ≤ now') :
    Reading skew base nodeID now' b :=
  ⟨h.1, h.2.trans (Nat.div_le_div_right (Nat.add_le_add_right hle _))⟩

/-- What is known about the members, from which it follows what a leader finds. -/
structure Terms (skew : String → ℕ) where
  /-- The clocks are read then or later. -/
  base : String → ℕ
  /-- The nodes that take part. -/
  nodes : String → Prop
  /-- The nodes that note that they are alive. -/
  beats : String → Prop
  /-- What the leader may find. -/
  lists : List String → Prop
  /-- The maps from before. -/
  old : RawMessage → Prop
  /-- What holds of the sorted set. -/
  members : List (String × ℕ) → Prop
  /-- What holds whenever something happens. -/
  holds : State → Prop
  join : ∀ {ms nodeID b}, members ms → beats nodeID → members (zadd ms b nodeID)
  prune : ∀ {ms} {cutoff : ℤ}, members ms → members (ms.filter (fun m => cutoff ≤ m.2))
  read : ∀ {s nodeID b}, holds s → members s.members → nodes nodeID →
    Reading skew base nodeID s.now b → lists (zrange s.members ((b : ℤ) - staleAfter))

namespace Terms

variable {skew : String → ℕ} (T : Terms skew)

/-- A map that is published now. -/
def Fresh (raw : RawMessage) : Prop := ∃ l, l ≠ [] ∧ T.lists l ∧ raw = mapOf l

/-- A node has looked up its shards in a map. -/
def Share (nodeID : String) (shards : List ℕ) : Prop :=
  ∃ raw assignment, (T.old raw ∨ T.Fresh raw) ∧ unmarshalStrings raw = some assignment ∧
    shards = mine nodeID assignment

/-- What a request of a node may ask. -/
def asks (nodeID : String) (now : ℕ) : {β : Type} → Request β → Prop
  | _, .zadd _ member => member = nodeID ∧ T.beats nodeID
  | _, .zrangebyscore cutoff => T.nodes nodeID ∧ ∃ b : ℕ, Reading skew T.base nodeID now b ∧
      cutoff = b - staleAfter
  | _, .set value => T.Fresh value
  | _, .storeOwned shards => T.Share nodeID shards
  | _, _ => True

/-- What a request of a node is answered. -/
def answers (nodeID : String) (now : ℕ) : {β : Type} → Request β → β → Prop
  | _, .zrangebyscore _, answer => ∀ l, answer = some l → T.lists l
  | _, .get, answer => ∀ raw, answer = some raw → T.old raw ∨ T.Fresh raw
  | _, .unixMilli, b => Reading skew T.base nodeID now b
  | _, _, _ => True

section Passes

variable {nodeID : String} (now : ℕ)

/-- A heartbeat notes the node's own name. -/
theorem heartbeat_guarantees (h : T.beats nodeID) :
    (heartbeat nodeID).Guarantees (T.asks nodeID) (T.answers nodeID) (fun _ _ => True) now :=
  .bind (Q := fun _ _ => True) (.plain (fun _ => trivial))
    (fun _ _ _ _ => .bind (Q := fun _ _ => True)
      (.plain (fun _ => ⟨rfl, h⟩)) (fun _ _ _ _ => trivial))

/-- Whoever lists the members finds one of the lists of the terms. -/
theorem liveMembers_guarantees (h : T.nodes nodeID) :
    liveMembers.Guarantees (T.asks nodeID) (T.answers nodeID)
      (fun _ members => ∀ l, members = some l → T.lists l) now := by
  refine .bind (Q := Reading skew T.base nodeID)
    (.request (fun _ _ => ⟨trivial, fun _ _ _ hb => hb⟩)) (fun b now₁ _ hb => ?_)
  refine .bind (Q := fun _ _ => True) (.plain (fun _ => trivial))
    (fun _ now₂ h₂ _ => ?_)
  exact .request (fun now₃ h₃ => ⟨⟨h, b, hb.later (h₂.trans h₃), rfl⟩, fun _ _ _ hl => hl⟩)

/-- What a leader publishes is the map of such a list. -/
theorem publishShardMap_guarantees (h : T.nodes nodeID) :
    publishShardMap.Guarantees (T.asks nodeID) (T.answers nodeID) (fun _ _ => True) now := by
  refine .bind (T.liveMembers_guarantees now h) (fun members now₁ _ hlists => ?_)
  cases hmap : Orchestrator.publishShardMap members with
  | none => trivial
  | some b =>
    obtain ⟨l, rfl, hne, rfl⟩ := publishShardMap_eq_some hmap
    exact .bind (Q := fun _ _ => True)
      (.plain (fun _ => ⟨l, hne, hlists l rfl, rfl⟩))
      (fun _ _ _ _ => trivial)

/-- The commands on the lock are not restricted. -/
theorem asks_ofLock (now : ℕ) {β : Type} (op : Command β) :
    T.asks nodeID now (Request.ofLock op) := by
  cases op <;> trivial

/-- A pass of the leader loop publishes such a map, or nothing. -/
theorem leaderTick_guarantees (h : T.nodes nodeID) :
    (leaderTick nodeID).Guarantees (T.asks nodeID) (T.answers nodeID) (fun _ _ => True) now := by
  refine .bind (Guarantees.attempt (fun now _ op => T.asks_ofLock now op) _ now)
    (fun ok now₁ _ _ => ?_)
  cases ok with
  | none => trivial
  | some ok =>
    refine .bind (Q := fun _ _ => True) (.plain (fun _ => trivial))
      (fun _ now₂ _ _ => ?_)
    cases ok
    · trivial
    · exact T.publishShardMap_guarantees now₂ h

/-- The pass that gives the lead up publishes nothing. -/
theorem leaderDone_guarantees :
    (leaderDone nodeID).Guarantees (T.asks nodeID) (T.answers nodeID) (fun _ _ => True) now := by
  refine .bind (Q := fun _ _ => True) (.plain (fun _ => trivial))
    (fun isLeader now₁ _ _ => ?_)
  cases isLeader
  · trivial
  · exact .bind (Guarantees.attempt (fun now _ op => T.asks_ofLock now op) _ now₁)
      (fun _ _ _ _ => trivial)

/-- A node stores its share of the map that it reads. -/
theorem refreshOwnedShards_guarantees :
    (refreshOwnedShards nodeID).Guarantees (T.asks nodeID) (T.answers nodeID)
      (fun _ _ => True) now := by
  refine .bind (Q := fun _ answer => ∀ raw, answer = some raw → T.old raw ∨ T.Fresh raw)
    (.request (fun _ _ => ⟨trivial, fun _ _ _ hraw => hraw⟩)) (fun answer now₁ _ hraw => ?_)
  cases hmap : answer.bind unmarshalStrings with
  | none => trivial
  | some assignment =>
    obtain ⟨raw, rfl, hdecode⟩ := Option.bind_eq_some_iff.mp hmap
    exact .plain (fun _ => ⟨raw, assignment, hraw raw rfl, hdecode, rfl⟩)

/-- Every pass keeps to the terms. -/
theorem pass_guarantees (loop : Loop) (hnode : T.nodes nodeID)
    (hbeats : loop = .heartbeat → T.beats nodeID) :
    (loop.pass nodeID).Guarantees (T.asks nodeID) (T.answers nodeID) (fun _ _ => True) now := by
  cases loop with
  | heartbeat => exact T.heartbeat_guarantees now (hbeats rfl)
  | leader => exact T.leaderTick_guarantees now hnode
  | refresh => exact T.refreshOwnedShards_guarantees now
  | done => exact T.leaderDone_guarantees now

end Passes

/-- What holds of the state: the map is the one from before or a fresh one, and each node
owns what it did before or its share of such a map. -/
structure Inv (before : Option RawMessage → Prop)
    (keeps : String → Option (Option (List ℕ)) → Prop) (s : State) : Prop where
  clock : ∀ nodeID, T.base nodeID ≤ clock skew s nodeID
  members : T.members s.members
  map : before s.shardMap ∨ ∃ raw, s.shardMap = some raw ∧ T.Fresh raw
  owned : ∀ nodeID, keeps nodeID (s.vars nodeID).owned ∨
    ∃ shards, (s.vars nodeID).owned = some (some shards) ∧ T.Share nodeID shards

variable (before : Option RawMessage → Prop) (keeps : String → Option (Option (List ℕ)) → Prop)

/-- The requests that keep the invariant. -/
def Keeps (nodeID : String) : {β : Type} → Request β → Prop
  | _, .zadd score member => ∀ ms, T.members ms → T.members (zadd ms score member)
  | _, .set value => before (some value) ∨ T.Fresh value
  | _, .storeOwned shards => keeps nodeID (some (some shards)) ∨ T.Share nodeID shards
  | _, _ => True

variable {before keeps} {s : State} {nodeID : String} {d : Reply} {β : Type} {op : Request β}

/-- A request within the terms is one that keeps the invariant. -/
theorem keeps_of_asks {now : ℕ} (h : T.asks nodeID now op) : T.Keeps before keeps nodeID op := by
  cases op with
  | zadd score member => exact fun ms hms => T.join hms (h.1 ▸ h.2)
  | set value => exact Or.inr h
  | storeOwned shards => exact Or.inr h
  | _ => trivial

/-- A node may change the shards it owns to a share of a map. -/
theorem Inv.put (h : T.Inv before keeps s) {vars : Vars}
    (hvars : keeps nodeID vars.owned ∨
      ∃ shards, vars.owned = some (some shards) ∧ T.Share nodeID shards) :
    T.Inv before keeps (s.put nodeID vars) := by
  refine ⟨h.clock, h.members, h.map, fun n => ?_⟩
  by_cases hn : n = nodeID
  · subst hn
    simpa [State.put] using hvars
  · simpa [State.put, hn] using h.owned n

/-- A command leaves the state as it is, or has its effect. -/
theorem Inv.result (h : T.Inv before keeps s) (answer : β) {s' : State}
    (hs' : T.Inv before keeps s') (hnow : s.now ≤ s'.now) :
    T.Inv before keeps (d.result s answer s').2 ∧ s.now ≤ (d.result s answer s').2.now := by
  rcases (d.result_cases s s' answer).2 with heq | heq <;> rw [heq]
  · exact ⟨hs', hnow⟩
  · exact ⟨h, le_rfl⟩

/-- One request keeps the invariant, whether or not it is answered. -/
theorem Inv.exec (h : T.Inv before keeps s) (hop : T.Keeps before keeps nodeID op) :
    T.Inv before keeps (op.exec skew nodeID d s).2 ∧ s.now ≤ (op.exec skew nodeID d s).2.now := by
  cases op with
  | zadd score member =>
    exact h.result T () ⟨h.clock, hop _ h.members, h.map, h.owned⟩ le_rfl
  | zremrangebyscore cutoff =>
    exact h.result T () ⟨h.clock, T.prune h.members, h.map, h.owned⟩ le_rfl
  | zrangebyscore cutoff => exact h.result T _ h le_rfl
  | set value =>
    refine h.result T () ⟨h.clock, h.members, ?_, h.owned⟩ le_rfl
    exact hop.imp_right (fun hfresh => ⟨value, rfl, hfresh⟩)
  | get => exact ⟨h, le_rfl⟩
  | setNX holderID expiration =>
    exact h.result T _ ⟨h.clock, h.members, h.map, h.owned⟩ le_rfl
  | renewScript holderID ms =>
    exact h.result T _ ⟨h.clock, h.members, h.map, h.owned⟩ le_rfl
  | releaseScript holderID =>
    exact h.result T _ ⟨h.clock, h.members, h.map, h.owned⟩ le_rfl
  | unixMilli => exact ⟨h, le_rfl⟩
  | loadLeader => exact ⟨h, le_rfl⟩
  | swapLeader ok => exact ⟨h.put T (h.owned nodeID), le_rfl⟩
  | storeOwned shards =>
    exact ⟨h.put T (hop.imp_right (fun hshare => ⟨shards, rfl, hshare⟩)), le_rfl⟩

/-- A request that may be asked is answered as it should be. -/
theorem Inv.answers (h : T.Inv before keeps s) (hbefore : ∀ raw, before (some raw) → T.old raw)
    (hholds : T.holds s) (hasks : T.asks nodeID s.now op) :
    T.answers nodeID (op.exec skew nodeID d s).2.now op (op.exec skew nodeID d s).1 := by
  cases op with
  | zrangebyscore cutoff =>
    obtain ⟨hnode, b, hb, rfl⟩ := hasks
    intro l hl
    rcases (d.result_cases s s (zrange s.members ((b : ℤ) - staleAfter))).1 with heq | heq
    · obtain rfl := Option.some.inj (heq.symm.trans hl)
      exact T.read hholds h.members hnode hb
    · cases heq.symm.trans hl
  | get =>
    intro raw hraw
    have hmap : s.shardMap = some raw := by
      rcases (d.result_cases s s s.shardMap).1 with heq | heq
      · simpa [Request.exec, heq] using hraw
      · simp [Request.exec, heq] at hraw
    rcases h.map with hold | ⟨raw', hraw', hfresh⟩
    · exact Or.inl (hbefore raw (hmap ▸ hold))
    · obtain rfl := Option.some.inj (hraw'.symm.trans hmap)
      exact Or.inr hfresh
  | unixMilli => exact ⟨h.clock nodeID, le_rfl⟩
  | _ => trivial

/-- Calls that keep to the terms `T'` from earlier do no harm. -/
structure Harmless (T' : Terms skew) (before : Option RawMessage → Prop)
    (keeps : String → Option (Option (List ℕ)) → Prop) : Prop where
  old : ∀ raw, T'.old raw
  holds : ∀ s, T.holds s → T'.holds s
  inv : ∀ s, T.Inv before keeps s → T'.Inv (fun _ => True) (fun _ _ => True) s
  asks : ∀ (nodeID : String) (now : ℕ) {β : Type} (op : Request β), T'.asks nodeID now op →
    T.Keeps before keeps nodeID op

/-- All calls keep to the terms. -/
def Bound (S : Schedulers) : Prop :=
  ∀ (i : ℕ) (c : String × Pass Unit), S.calls[i]? = some c →
    c.2.Guarantees (T.asks c.1) (T.answers c.1) (fun _ _ => True) S.state.now

/-- Something that may happen. -/
def Allows (s : State) (o : Occurrence String Reply ℕ Loop) : Prop :=
  T.holds s ∧ ∀ nodeID loop, o = .start nodeID loop →
    T.nodes nodeID ∧ (loop = .heartbeat → T.beats nodeID)

/-- The terms as a contract. The calls before `since` keep to other terms. -/
def contract (T' : Terms skew) (since : ℕ) (hT : 0 < since → T.Harmless T' before keeps)
    (hbefore : ∀ raw, before (some raw) → T.old raw) : Contract (schedulers skew) ℕ where
  time := State.now
  inv := T.Inv before keeps
  since := since
  asks i := (if i < since then T' else T).asks
  answers i := (if i < since then T' else T).answers
  allowed := T.Allows
  drift {_ duration} _ h :=
    ⟨⟨fun nodeID => (h.clock nodeID).trans
        (Nat.div_le_div_right (Nat.add_le_add_right (Nat.le_add_right _ duration) _)),
      h.members, h.map, h.owned⟩, Nat.le_add_right _ _⟩
  start {s i nodeID loop} hi ho _ := by
    rw [if_neg hi.not_gt]
    obtain ⟨hnode, hbeats⟩ := ho.2 nodeID loop rfl
    exact T.pass_guarantees s.now loop hnode hbeats
  exec {s i d nodeID β op} ho h hasks := by
    split_ifs at hasks ⊢ with hi
    · have hT := hT (Nat.zero_lt_of_lt hi)
      obtain ⟨hinv, hnow⟩ := h.exec T (hT.asks nodeID s.now op hasks)
      exact ⟨hinv, hnow, (hT.inv s h).answers T' (fun raw _ => hT.old raw) (hT.holds s ho.1) hasks⟩
    · obtain ⟨hinv, hnow⟩ := h.exec T (T.keeps_of_asks hasks)
      exact ⟨hinv, hnow, h.answers T hbefore ho.1 hasks⟩

variable {S S' : Schedulers} {xs : List (Schedulers × Occurrence String Reply ℕ Loop)}

/-- When the calls from before are over, all calls keep to the terms. -/
theorem round {T' : Terms skew} (hT : T.Harmless T' before keeps)
    (hbefore : ∀ raw, before (some raw) → T.old raw) (hinv : T.Inv before keeps S.state)
    (hbound : T'.Bound S) (htrace : (schedulers skew).Trace S xs S')
    (hxs : ∀ x ∈ xs, T.Allows x.1.state x.2) (hover : S.OverIn S') :
    T.Inv before keeps S'.state ∧ T.Bound S' := by
  have hkept : (T.contract T' S.calls.length (fun _ => hT) hbefore).Kept S := by
    refine ⟨hinv, le_rfl, fun i c hc => ?_⟩
    have hi := (List.getElem?_eq_some_iff.mp hc).1
    simpa only [contract, if_pos hi] using hbound i c hc
  have hend := hkept.trace htrace hxs
  refine ⟨hend.inv, fun i c hc => ?_⟩
  by_cases hi : i < S.calls.length
  · rw [hover i hi c hc]
    trivial
  · simpa only [contract, if_neg hi] using hend.calls i c hc

/-- Calls that keep to the terms go on to do so. -/
theorem stretch (hbefore : ∀ raw, before (some raw) → T.old raw)
    (hinv : T.Inv before keeps S.state) (hbound : T.Bound S)
    (htrace : (schedulers skew).Trace S xs S') (hxs : ∀ x ∈ xs, T.Allows x.1.state x.2) :
    T.Inv before keeps S'.state ∧ T.Bound S' := by
  have hnone : 0 < 0 → T.Harmless T before keeps := fun h => absurd h (lt_irrefl 0)
  have hkept : (T.contract T 0 hnone hbefore).Kept S := by
    refine ⟨hinv, Nat.zero_le _, fun i c hc => ?_⟩
    simpa only [contract, ite_self] using hbound i c hc
  have hend := hkept.trace htrace hxs
  refine ⟨hend.inv, fun i c hc => ?_⟩
  simpa only [contract, ite_self] using hend.calls i c hc

end Terms

variable {skew : String → ℕ} {S S' : Schedulers}
  {xs : List (Schedulers × Occurrence String Reply ℕ Loop)}

/-- What holds without further ado: if the members are `listed` nodes whenever something
happens, those that a leader finds are. -/
def anyTime (skew : String → ℕ) (nodes beats listed : String → Prop)
    (old : RawMessage → Prop) : Terms skew where
  base _ := 0
  nodes := nodes
  beats := beats
  lists l := l.Nodup ∧ ∀ n ∈ l, listed n
  old := old
  members := Distinct
  holds s := ∀ m ∈ s.members, listed m.1
  join h _ := h.zadd _ _
  prune h := h.filter _
  read hlisted h _ _ := by
    refine ⟨h.zrange _, fun n hn => ?_⟩
    obtain ⟨score, hmem, -⟩ := mem_zrange.mp hn
    exact hlisted _ hmem

/-- The terms hold along every trace from the start. -/
theorem anyTime_trace (nodes beats listed : String → Prop) (old : RawMessage → Prop) {now : ℕ}
    (h : (schedulers skew).Trace ⟨.init now, []⟩ xs S)
    (hlisted : ∀ x ∈ xs, ∀ m ∈ x.1.state.members, listed m.1)
    (hxs : ∀ x ∈ xs, ∀ nodeID loop, x.2 = .start nodeID loop →
      nodes nodeID ∧ (loop = .heartbeat → beats nodeID)) :
    (anyTime skew nodes beats listed old).Inv (· = none) (fun _ owned => owned = none)
      S.state ∧ (anyTime skew nodes beats listed old).Bound S := by
  have hinit : (anyTime skew nodes beats listed old).Inv (· = none)
      (fun _ owned => owned = none) (.init now) :=
    ⟨fun _ => Nat.zero_le _, List.nodup_nil, Or.inl rfl, fun _ => Or.inl rfl⟩
  refine Terms.stretch _ (fun _ hraw => by cases hraw) hinit (fun i c hc => ?_) h
    (fun x hx => ⟨hlisted x hx, hxs x hx⟩)
  cases hc

section Beats

/-- Redis executes a `ZADD` of the node for the member. -/
def Adds (S : Schedulers) (o : Occurrence String Reply ℕ Loop) (nodeID member : String) : Prop :=
  ∃ i d score next, o = .exec i d ∧ d ≠ .refused ∧
    S.calls[i]? = some (nodeID, .call (.zadd score member) next)

/-- The node has noted that it is alive: Redis has executed its `ZADD`. -/
def HasBeaten (xs : List (Schedulers × Occurrence String Reply ℕ Loop)) (nodeID : String) :
    Prop :=
  ∃ x ∈ xs, Adds x.1 x.2 nodeID nodeID

/-- Members come from a `ZADD` only. -/
theorem adds_of_step {o : Occurrence String Reply ℕ Loop}
    (hstep : (schedulers skew).step S o = some S') {m : String × ℕ}
    (hm : m ∈ S'.state.members) : m ∈ S.state.members ∨ ∃ nodeID, Adds S o nodeID m.1 := by
  cases o with
  | drift duration =>
    obtain rfl := Option.some.inj hstep
    exact Or.inl hm
  | start nodeID loop =>
    obtain rfl := Option.some.inj hstep
    exact Or.inl hm
  | drop i =>
    obtain ⟨c, -, rfl⟩ := Option.map_eq_some_iff.mp hstep
    exact Or.inl hm
  | exec i d =>
    simp only [Protocol.step] at hstep
    split at hstep
    · rename_i nodeID β op next hi
      obtain rfl := Option.some.inj hstep
      cases op with
      | zadd score member =>
        by_cases hd : d = .refused
        · subst hd
          exact Or.inl hm
        · have hadded : m ∈ zadd S.state.members score member := by
            cases d with
            | refused => exact absurd rfl hd
            | _ => exact hm
          rcases mem_zadd.mp hadded with rfl | ⟨hold, -⟩
          · exact Or.inr ⟨nodeID, i, d, score, next, rfl, hd, hi⟩
          · exact Or.inl hold
      | zremrangebyscore cutoff =>
        cases d with
        | refused => exact Or.inl hm
        | _ => exact Or.inl (List.mem_of_mem_filter hm)
      | _ => cases d <;> exact Or.inl hm
    · cases hstep

/-- Whoever is a member at some time was one at the start, or has been added. -/
theorem adds_of_trace (h : (schedulers skew).Trace S xs S') :
    ∀ x ∈ xs, ∀ m ∈ x.1.state.members,
      m ∈ S.state.members ∨ ∃ y ∈ xs, ∃ nodeID, Adds y.1 y.2 nodeID m.1 := by
  induction h with
  | nil => exact fun x hx => absurd hx List.not_mem_nil
  | cons hstep _ ih =>
    intro x hx m hm
    rcases List.mem_cons.mp hx with rfl | hx
    · exact Or.inl hm
    · rcases ih x hx m hm with hm | ⟨y, hy, hadds⟩
      · rcases adds_of_step hstep hm with hm | hadds
        · exact Or.inl hm
        · exact Or.inr ⟨_, List.mem_cons_self, hadds⟩
      · exact Or.inr ⟨y, List.mem_cons_of_mem _ hy, hadds⟩

/-- The members have noted themselves that they are alive. -/
theorem hasBeaten_of_trace {now : ℕ} (h : (schedulers skew).Trace ⟨.init now, []⟩ xs S) :
    ∀ x ∈ xs, ∀ m ∈ x.1.state.members, HasBeaten xs m.1 := by
  intro x hx m hm
  obtain ⟨y, hy, nodeID, i, d, score, next, ho, hd, hi⟩ :=
    (adds_of_trace h x hx m hm).resolve_left List.not_mem_nil
  -- A node adds no other name than its own.
  obtain ⟨ys, zs, S₁, rfl, hys, -, -⟩ := h.cut hy
  obtain ⟨-, hbound⟩ := anyTime_trace (fun _ => True) (fun _ => True) (fun _ => True)
    (fun _ => True) hys (fun _ _ _ _ => trivial) (fun _ _ _ _ _ => ⟨trivial, fun _ => trivial⟩)
  obtain ⟨⟨hname, -⟩, -⟩ := hbound i _ hi _ le_rfl
  exact ⟨y, hy, i, d, score, next, ho, hd, by rw [hi, hname]⟩

end Beats

/-- Whatever happens, the shard map is the assignment of all shards to nodes that have noted
that they are alive, and a node owns everything, as long as it has seen no map, or its share
of such an assignment. -/
theorem owned_from_published (skew : String → ℕ) {now : ℕ} {S : Schedulers}
    {xs : List (Schedulers × Occurrence String Reply ℕ Loop)}
    (h : (schedulers skew).Trace ⟨.init now, []⟩ xs S) :
    (∀ raw, S.state.shardMap = some raw → ∃ l, l ≠ [] ∧ l.Nodup ∧ (∀ n ∈ l, HasBeaten xs n) ∧
      unmarshalStrings raw = some (assignShards l numShards) ∧
      ∀ i < numShards, ∃ n ∈ l, (assignShards l numShards)[i]? = some n) ∧
    ∀ nodeID, ownedShards S.state nodeID = none ∨
      ∃ l shards, l ≠ [] ∧ l.Nodup ∧ (∀ n ∈ l, HasBeaten xs n) ∧
        ownedShards S.state nodeID = some shards ∧
        ∀ i, i ∈ shards ↔ (assignShards l numShards)[i]? = some nodeID := by
  obtain ⟨hinv, -⟩ := anyTime_trace (fun _ => True) (fun _ => True) (HasBeaten xs)
    (fun _ => False) h (hasBeaten_of_trace h) (fun _ _ _ _ _ => ⟨trivial, fun _ => trivial⟩)
  refine ⟨fun raw hraw => ?_, fun nodeID => ?_⟩
  · rcases hinv.map with hnone | ⟨raw', hraw', l, hne, hl, rfl⟩
    · cases hnone.symm.trans hraw
    · obtain rfl := Option.some.inj (hraw'.symm.trans hraw)
      exact ⟨l, hne, hl.1, hl.2, unmarshalStrings_mapOf l, fun i hi => exists_owner hne hi⟩
  · rcases hinv.owned nodeID with hnone | ⟨shards, howned, raw, assignment, hmap, hdecode, rfl⟩
    · exact Or.inl (by rw [ownedShards, hnone]; rfl)
    · rcases hmap with hold | ⟨l, hne, hl, rfl⟩
      · exact hold.elim
      · obtain rfl := Option.some.inj ((unmarshalStrings_mapOf l).symm.trans hdecode)
        refine Or.inr ⟨l, _, hne, hl.1, hl.2, by rw [ownedShards, howned]; rfl, fun i => ?_⟩
        exact Node.mem_mine _ _ _

/-- A node goes away, and two others note that they are alive. -/
def joining : List (Occurrence String Reply ℕ Loop) :=
  [.start "node-c" .heartbeat, .exec 0 .answered, .exec 0 .answered, .drift (13000 * millisecond),
    .start "node-a" .heartbeat, .exec 1 .answered, .exec 1 .answered,
    .start "node-b" .heartbeat, .exec 2 .answered, .exec 2 .lost]

/-- One of them becomes the leader and publishes the map. -/
def publishing : List (Occurrence String Reply ℕ Loop) :=
  [.start "node-a" .leader, .exec 3 .answered, .exec 3 .answered, .exec 3 .answered,
    .exec 3 .refused, .exec 3 .answered, .exec 3 .answered]

/-- Both look up their shards. -/
def refreshing : List (Occurrence String Reply ℕ Loop) :=
  [.start "node-a" .refresh, .start "node-b" .refresh, .exec 4 .answered, .exec 5 .answered,
    .exec 5 .answered, .exec 4 .answered]

/-- The run in which the nodes have joined. -/
def joined : List (Schedulers × Occurrence String Reply ℕ Loop) × Schedulers :=
  ((schedulers (fun _ => 0)).run ⟨.init 0, []⟩ joining).get (by decide +kernel)

/-- The run in which the leader has published a map. -/
def published : List (Schedulers × Occurrence String Reply ℕ Loop) × Schedulers :=
  ((schedulers (fun _ => 0)).run joined.2 publishing).get (by decide +kernel)

/-- The run in which both nodes have read it. -/
def refreshed : List (Schedulers × Occurrence String Reply ℕ Loop) × Schedulers :=
  ((schedulers (fun _ => 0)).run published.2 refreshing).get (by decide +kernel)

/-- The nodes join from the start. -/
theorem joined_trace : (schedulers (fun _ => 0)).Trace ⟨.init 0, []⟩ joined.1 joined.2 :=
  Protocol.trace_of_run (Option.some_get _).symm

/-- The map is published after that. -/
theorem published_trace : (schedulers (fun _ => 0)).Trace joined.2 published.1 published.2 :=
  Protocol.trace_of_run (Option.some_get _).symm

/-- The nodes read it last. -/
theorem refreshed_trace : (schedulers (fun _ => 0)).Trace published.2 refreshed.1 refreshed.2 :=
  Protocol.trace_of_run (Option.some_get _).symm

/-- The map that one of the two published is where the other found its shards. -/
theorem owned_from_published_pair : ∃ l shards, l ≠ [] ∧
    ownedShards refreshed.2.state "node-b" = some shards ∧
    ∀ i, i ∈ shards ↔ (assignShards l numShards)[i]? = some "node-b" := by
  have h := owned_from_published (fun _ => 0)
    ((joined_trace.append published_trace).append refreshed_trace)
  have hsome : (ownedShards refreshed.2.state "node-b").isSome = true := by decide +kernel
  rcases h.2 "node-b" with hnone | ⟨l, shards, hne, -, -, howned, hiff⟩
  · rw [hnone] at hsome
    cases hsome
  · exact ⟨l, shards, hne, howned, hiff⟩

end Orchestrator.Cluster
