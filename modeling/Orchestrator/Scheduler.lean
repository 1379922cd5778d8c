import Orchestrator.Engine.Background
import Orchestrator.Lib.Ring

/-!
# Shards and nodes

The consistent-hash ring of `internal/scheduler/ring.go`, the assignment of shards
that a leader publishes, and the shards that a node finds for itself in it.
Checksums are numbers below `2 ^ 32`.
-/

namespace Orchestrator

open Lib

/-- One bit of CRC-32, with the reversed IEEE polynomial. -/
def crc32Bit (crc : ℕ) : ℕ := if crc % 2 = 1 then crc / 2 ^^^ 0xEDB88320 else crc / 2

/-- One byte of CRC-32. -/
def crc32Byte (crc : ℕ) (byte : UInt8) : ℕ := crc32Bit^[8] (crc ^^^ byte.toNat)

/-- `crc32.ChecksumIEEE` of the bytes of a string. -/
def checksumIEEE (s : String) : ℕ :=
  (s.toList.flatMap String.utf8EncodeChar).foldl crc32Byte 0xFFFFFFFF ^^^ 0xFFFFFFFF

example : checksumIEEE "123456789" = 0xCBF43926 := by decide +kernel

/-- The number of points of a node, unless another number is asked for. -/
def defaultVirtualReplicas : ℕ := 32

/-- The place of a node's virtual replica on the ring: the CRC-32 of its name and number. -/
def hashKey (nodeID : String) (replica : ℕ) : ℕ :=
  checksumIEEE (nodeID ++ "#" ++ Nat.repr replica)

/-- `NewRing`: the points of every node are written in turn and sorted. -/
def newRing (nodeIDs : List String) (replicas : ℤ) : Ring ℕ String :=
  let replicas := if replicas ≤ 0 then defaultVirtualReplicas else replicas.toNat
  (nodeIDs.foldl (fun r id =>
    (List.range replicas).foldl (fun r i => r.add (hashKey id i) id) r) Ring.empty).sort

/-- `Ring.Get`. The ring without points and a point without a node answer the
empty string. -/
def ringGet (r : Ring ℕ String) (key : ℕ) : String := (r.get key).getD ""

/-- `AssignShards`. -/
def assignShards (nodeIDs : List String) (numShards : ℕ) : List String :=
  let ring := newRing nodeIDs defaultVirtualReplicas
  (List.range numShards).map (fun i => ringGet ring (checksumIEEE ("shard#" ++ Nat.repr i)))

/-- The points of the nodes in the order in which they are written. -/
def virtualNodes (nodeIDs : List String) (replicas : ℕ) : List (ℕ × String) :=
  nodeIDs.flatMap (fun id => (List.range replicas).map (fun i => (hashKey id i, id)))

variable {ns : List String} {replicas : ℕ} {x : String}

/-- The points the ring is built from: one for each node and replica number. -/
theorem mem_virtualNodes {p : ℕ × String} :
    p ∈ virtualNodes ns replicas ↔ p.2 ∈ ns ∧ ∃ i < replicas, hashKey p.2 i = p.1 := by
  obtain ⟨h, n⟩ := p
  simp only [virtualNodes, List.mem_flatMap, List.mem_map, List.mem_range, Prod.mk.injEq]
  constructor
  · rintro ⟨id, hid, i, hi, rfl, rfl⟩
    exact ⟨hid, i, hi, rfl⟩
  · rintro ⟨hid, i, hi, rfl⟩
    exact ⟨n, hid, i, hi, rfl, rfl⟩

/-- A ring over some node has a point, so a lookup on it finds one. -/
theorem virtualNodes_ne_nil (hns : ns ≠ []) (hreplicas : 0 < replicas) :
    virtualNodes ns replicas ≠ [] := by
  obtain ⟨n, hn⟩ := List.exists_mem_of_ne_nil _ hns
  exact List.ne_nil_of_mem (mem_virtualNodes (p := (hashKey n 0, n)).mpr ⟨hn, 0, hreplicas, rfl⟩)

/-- The points that a node adds are those that are not left without it. -/
theorem virtualNodes_filter {before after : List String} (hx : x ∉ before ++ after)
    (replicas : ℕ) :
    (virtualNodes (before ++ x :: after) replicas).filter (fun p => p.2 ≠ x) =
      virtualNodes (before ++ after) replicas := by
  have hkeep : ∀ l : List String, x ∉ l →
      (virtualNodes l replicas).filter (fun p => p.2 ≠ x) = virtualNodes l replicas := by
    intro l hl
    refine List.filter_eq_self.mpr (fun p hp => ?_)
    have hne : p.2 ≠ x := fun heq => hl (heq ▸ (mem_virtualNodes.mp hp).1)
    simpa using hne
  have hdrop : (virtualNodes [x] replicas).filter (fun p => p.2 ≠ x) = [] := by
    refine List.filter_eq_nil_iff.mpr (fun p hp => ?_)
    simpa using (mem_virtualNodes.mp hp).1
  rw [List.mem_append, not_or] at hx
  have hsplit : virtualNodes (before ++ x :: after) replicas = virtualNodes before replicas ++
      (virtualNodes [x] replicas ++ virtualNodes after replicas) := by
    simp [virtualNodes]
  rw [hsplit, List.filter_append, List.filter_append, hkeep before hx.1, hdrop, hkeep after hx.2,
    List.nil_append, virtualNodes, virtualNodes, virtualNodes, List.flatMap_append]

/-- The nested loops of `newRing` build the ring of all virtual nodes. -/
theorem newRing_eq (hreplicas : 0 < replicas) :
    newRing ns replicas = Ring.ofPoints (virtualNodes ns replicas) := by
  have hpos : ¬ (replicas : ℤ) ≤ 0 := by omega
  rw [newRing, if_neg hpos, Ring.ofPoints, virtualNodes, List.foldl_flatMap]
  simp only [List.foldl_map, Int.toNat_natCast]

/-- A key belongs to a node of the list. -/
theorem get_newRing (hns : ns ≠ []) (hreplicas : 0 < replicas) (key : ℕ) :
    ∃ h n, Ring.Next {h | ∃ n ∈ ns, ∃ i < replicas, hashKey n i = h} key h ∧
      Ring.lastWriter (virtualNodes ns replicas) h = some n ∧ n ∈ ns ∧
      (newRing ns replicas).get key = some n := by
  obtain ⟨h, hnext, hget⟩ := Ring.get_ofPoints (virtualNodes_ne_nil hns hreplicas) key
  obtain ⟨n, hlast, hmem⟩ := Ring.lastWriter_mem hnext.mem
  have hset : {h | ∃ n, (h, n) ∈ virtualNodes ns replicas} =
      {h | ∃ n ∈ ns, ∃ i < replicas, hashKey n i = h} := by
    ext h
    exact exists_congr (fun n => mem_virtualNodes)
  rw [hset] at hnext
  refine ⟨h, n, hnext, hlast, (mem_virtualNodes.mp hmem).1, ?_⟩
  rw [newRing_eq hreplicas, hget, hlast]

/-- A node that joins takes keys for itself only. -/
theorem ringGet_insert {before after : List String} (hne : before ++ after ≠ [])
    (hx : x ∉ before ++ after) (hreplicas : 0 < replicas) (key : ℕ) :
    ringGet (newRing (before ++ x :: after) replicas) key = x ∨
      ringGet (newRing (before ++ x :: after) replicas) key =
        ringGet (newRing (before ++ after) replicas) key := by
  have hfilter := virtualNodes_filter hx replicas
  have hget := Ring.get_filter (x := x) (hfilter ▸ virtualNodes_ne_nil hne hreplicas) key
  rw [hfilter, ← newRing_eq hreplicas, ← newRing_eq hreplicas] at hget
  rcases hget with hget | hget
  · exact Or.inl (by rw [ringGet, hget]; rfl)
  · exact Or.inr (by rw [ringGet, ringGet, hget])

/-- Every shard gets an owner. -/
@[simp] theorem length_assignShards (ns : List String) (numShards : ℕ) :
    (assignShards ns numShards).length = numShards := by
  simp [assignShards]

/-- A shard's owner is what the ring answers for the shard's own hash. -/
theorem getElem?_assignShards (ns : List String) {numShards i : ℕ} (hi : i < numShards) :
    (assignShards ns numShards)[i]? = some (ringGet (newRing ns defaultVirtualReplicas)
      (checksumIEEE ("shard#" ++ Nat.repr i))) := by
  simp [assignShards, hi]

/-- A ring sends a key to the node written last for the least point at or after it,
around the end. A node that joins at any place of the list, or leaves it, moves only
keys and shards of its own. -/
theorem ring_moves_only_one_node (before after : List String) (x : String)
    (hne : before ++ after ≠ []) (hx : x ∉ before ++ after) :
    (∀ replicas : ℕ, 0 < replicas → ∀ key,
      (∃ h, Ring.Next {h | ∃ n ∈ before ++ after, ∃ i < replicas, hashKey n i = h} key h ∧
        Ring.lastWriter (virtualNodes (before ++ after) replicas) h =
          some (ringGet (newRing (before ++ after) replicas) key)) ∧
      (ringGet (newRing (before ++ x :: after) replicas) key = x ∨
        ringGet (newRing (before ++ x :: after) replicas) key =
          ringGet (newRing (before ++ after) replicas) key)) ∧
    ∀ numShards i, i < numShards →
      (assignShards (before ++ x :: after) numShards)[i]? ≠
        (assignShards (before ++ after) numShards)[i]? →
      (assignShards (before ++ x :: after) numShards)[i]? = some x := by
  refine ⟨fun replicas hreplicas key => ⟨?_, ringGet_insert hne hx hreplicas key⟩,
    fun numShards i hi hdiff => ?_⟩
  · obtain ⟨h, n, hnext, hlast, -, hget⟩ := get_newRing hne hreplicas key
    exact ⟨h, hnext, by rw [hlast, ringGet, hget]; rfl⟩
  · rw [getElem?_assignShards _ hi, getElem?_assignShards _ hi] at *
    have hpos : 0 < defaultVirtualReplicas := by decide
    rcases ringGet_insert hne hx hpos (checksumIEEE ("shard#" ++ Nat.repr i)) with hget | hget
    · rw [hget]
    · exact absurd (congrArg some hget) hdiff

/-- The middle one of three nodes leaves, and only its own shards move. -/
theorem ring_moves_only_one_node_between :
    ["node-a"] ++ ["node-c"] ≠ [] ∧ "node-b" ∉ ["node-a"] ++ ["node-c"] ∧
      ∀ numShards i, i < numShards →
        (assignShards ["node-a", "node-b", "node-c"] numShards)[i]? ≠
          (assignShards ["node-a", "node-c"] numShards)[i]? →
        (assignShards ["node-a", "node-b", "node-c"] numShards)[i]? = some "node-b" :=
  ⟨by decide, by decide,
    (ring_moves_only_one_node ["node-a"] ["node-c"] "node-b" (by decide) (by decide)).2⟩

/-- The hashes of the virtual nodes of a list of nodes: the points of its ring. -/
def ringPoints (ns : List String) : Set ℕ :=
  {h | ∃ n ∈ ns, ∃ i < defaultVirtualReplicas, hashKey n i = h}

/-- The point that serves a shard, the next one after the hash of `shard#k`, is a virtual
node of one node only. Other points of the ring may be shared. -/
def SoleOwners (ns : List String) (numShards : ℕ) : Prop :=
  ∀ k < numShards, ∀ h, Ring.Next (ringPoints ns) (checksumIEEE ("shard#" ++ Nat.repr k)) h →
    ∀ n ∈ ns, ∀ m ∈ ns, ∀ i < defaultVirtualReplicas, ∀ j < defaultVirtualReplicas,
      hashKey n i = h → hashKey m j = h → n = m

/-- Nodes without a common virtual node share none that serves a shard. -/
theorem SoleOwners.of_nodup {numShards : ℕ}
    (h : ((virtualNodes ns defaultVirtualReplicas).map (·.1)).Nodup) : SoleOwners ns numShards := by
  intro k _ point _ n hn m hm i hi j hj hni hmj
  have hx : (point, n) ∈ virtualNodes ns defaultVirtualReplicas :=
    mem_virtualNodes.mpr ⟨hn, i, hi, hni⟩
  have hy : (point, m) ∈ virtualNodes ns defaultVirtualReplicas :=
    mem_virtualNodes.mpr ⟨hm, j, hj, hmj⟩
  exact congrArg Prod.snd (List.inj_on_of_nodup_map h hx hy rfl)

/-- The points that are written are the hashes of the virtual nodes. -/
theorem setOf_mem_virtualNodes (ns : List String) :
    {h | ∃ n, (h, n) ∈ virtualNodes ns defaultVirtualReplicas} = ringPoints ns := by
  ext h
  exact exists_congr (fun n => mem_virtualNodes)

/-- If no shard is served at a shared point, the assignment depends on the set of nodes
alone: neither their order nor how often one is listed matters. -/
theorem assignShards_congr {ms : List String} (hmem : ∀ n, n ∈ ns ↔ n ∈ ms) {numShards : ℕ}
    (hsole : SoleOwners ns numShards) : assignShards ns numShards = assignShards ms numShards := by
  have hpos : 0 < defaultVirtualReplicas := by decide
  refine List.map_congr_left (fun k hk => ?_)
  rw [ringGet, ringGet, newRing_eq hpos, newRing_eq hpos, Ring.get_ofPoints_congr]
  · intro p
    rw [mem_virtualNodes, mem_virtualNodes, hmem]
  · intro h hnext n m hn hm
    obtain ⟨hn, i, hi, hni⟩ := mem_virtualNodes.mp hn
    obtain ⟨hm, j, hj, hmj⟩ := mem_virtualNodes.mp hm
    rw [setOf_mem_virtualNodes] at hnext
    exact hsole k (List.mem_range.mp hk) h hnext n hn m hm i hi j hj hni hmj

/-- The node that is listed last gets every shard that is served at one of its points. -/
theorem assignShards_last {ms : List String} {n : String} {numShards k h i : ℕ}
    (hk : k < numShards)
    (hnext : Ring.Next (ringPoints (ms ++ [n])) (checksumIEEE ("shard#" ++ Nat.repr k)) h)
    (hi : i < defaultVirtualReplicas) (hhash : hashKey n i = h) :
    (assignShards (ms ++ [n]) numShards)[k]? = some n := by
  have hpos : 0 < defaultVirtualReplicas := by decide
  have hsplit : virtualNodes (ms ++ [n]) defaultVirtualReplicas =
      virtualNodes ms defaultVirtualReplicas ++ virtualNodes [n] defaultVirtualReplicas :=
    List.flatMap_append
  have hne : ms ++ [n] ≠ [] := by simp
  obtain ⟨h', hnext', hget⟩ := Ring.get_ofPoints (virtualNodes_ne_nil hne hpos)
    (checksumIEEE ("shard#" ++ Nat.repr k))
  rw [setOf_mem_virtualNodes] at hnext'
  obtain rfl := hnext.unique hnext'
  rw [getElem?_assignShards _ hk, ringGet, newRing_eq hpos, hget, hsplit,
    Ring.lastWriter_append (n := n)]
  · rfl
  · exact mem_virtualNodes.mpr ⟨List.mem_singleton_self n, i, hi, hhash⟩
  · exact fun p hp => List.mem_singleton.mp (mem_virtualNodes.mp hp).1

/-- The shard map does not depend on the order of the nodes exactly if no shard is served
at a point that two of them share: the one listed last would get the shard. -/
theorem assignShards_order_irrelevant (ns : List String) (numShards : ℕ) :
    (∀ ms, ns.Perm ms → assignShards ns numShards = assignShards ms numShards) ↔
      SoleOwners ns numShards := by
  constructor
  · intro hall k hk h hnext n hn m hm i hi j hj hni hmj
    -- Each of the two nodes gets the shard when it is listed last.
    have hlast : ∀ x ∈ ns, ∀ i < defaultVirtualReplicas, hashKey x i = h →
        (assignShards ns numShards)[k]? = some x := by
      intro x hx i hi hhash
      have hperm : ns.Perm (ns.erase x ++ [x]) :=
        (List.perm_cons_erase hx).trans (List.perm_append_singleton x _).symm
      have hpoints : ringPoints (ns.erase x ++ [x]) = ringPoints ns := by
        simp only [ringPoints, hperm.mem_iff]
      rw [hall _ hperm]
      exact assignShards_last hk (hpoints ▸ hnext) hi hhash
    exact Option.some.inj ((hlast n hn i hi hni).symm.trans (hlast m hm j hj hmj))
  · exact fun hsole ms hperm => assignShards_congr (fun n => hperm.mem_iff) hsole

/-- Two nodes whose points are all different. -/
example (ms : List String) (hperm : ["node-a", "node-b"].Perm ms) :
    assignShards ["node-a", "node-b"] numShards = assignShards ms numShards :=
  assignShards_congr (fun _ => hperm.mem_iff) (.of_nodup (by decide +kernel))

/-- The first process in two containers. Virtual nodes of the two collide, the one written
last owns the point, and the first shard goes to whichever node is listed second. -/
theorem assignShards_order_matters :
    ["05fcabcbe0bb-1", "ddb9c8b6109b-1"].Perm ["ddb9c8b6109b-1", "05fcabcbe0bb-1"] ∧
    hashKey "05fcabcbe0bb-1" 10 = hashKey "ddb9c8b6109b-1" 16 ∧
    (assignShards ["05fcabcbe0bb-1", "ddb9c8b6109b-1"] numShards)[0]? = some "ddb9c8b6109b-1" ∧
    (assignShards ["ddb9c8b6109b-1", "05fcabcbe0bb-1"] numShards)[0]? = some "05fcabcbe0bb-1" := by
  have hpos : 0 < numShards := by decide
  rw [getElem?_assignShards _ hpos, getElem?_assignShards _ hpos]
  decide +kernel

end Orchestrator
