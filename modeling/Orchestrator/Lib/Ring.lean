import Mathlib.Data.List.Induction
import Mathlib.Data.List.Sort
import Mathlib.Order.Bounds.Basic
import Mathlib.Tactic.Common

/-!
# Rings of hashed points

A ring is built from a sequence of points, each written for a node. A key belongs
to the node that was written last for the next point at or after the key, and the
first point follows the last one. A node that is added to a ring can only take keys
for itself.
-/

namespace Lib

/-- The bisection of `sort.Search` on the indices from `i` to `j`. -/
def bisect (f : ℕ → Bool) : ℕ → ℕ → ℕ → ℕ
  | 0, i, _ => i
  | fuel + 1, i, j =>
    if i < j then
      let h := (i + j) / 2
      if !f h then bisect f fuel (h + 1) j else bisect f fuel i h
    else i

/-- `sort.Search`: the least index below `n` at which the test succeeds, or `n`. The
interval shrinks in every round, so `n` rounds are enough. -/
def search (n : ℕ) (f : ℕ → Bool) : ℕ := bisect f n 0 n

/-- The test fails before the result and succeeds from there on. -/
theorem bisect_spec {f : ℕ → Bool} {n : ℕ}
    (hmono : ∀ a b, a ≤ b → b < n → f a = true → f b = true) {fuel i j : ℕ}
    (hij : i ≤ j) (hjn : j ≤ n) (hfuel : j - i ≤ fuel) (hlow : ∀ k, k < i → f k = false)
    (hhigh : ∀ k, j ≤ k → k < n → f k = true) :
    bisect f fuel i j ≤ n ∧ (∀ k, k < bisect f fuel i j → f k = false) ∧
      ∀ k, bisect f fuel i j ≤ k → k < n → f k = true := by
  induction fuel generalizing i j with
  | zero =>
    obtain rfl : i = j := by omega
    exact ⟨hjn, hlow, hhigh⟩
  | succ fuel ih =>
    rw [bisect]
    split_ifs with hlt
    · dsimp only
      split_ifs with hf
      · refine ih (by omega) hjn (by omega) (fun k hk => ?_) hhigh
        -- Success at `k` would carry over to the middle.
        by_contra hk'
        have hmid := hmono k ((i + j) / 2) (by omega) (by omega) (by simpa using hk')
        rw [hmid] at hf
        cases hf
      · have hmid : f ((i + j) / 2) = true := by simpa using hf
        exact ih (by omega) (by omega) (by omega) hlow
          (fun k hk hkn => hmono _ k hk hkn hmid)
    · obtain rfl : i = j := by omega
      exact ⟨hjn, hlow, hhigh⟩

theorem search_spec {f : ℕ → Bool} {n : ℕ}
    (hmono : ∀ a b, a ≤ b → b < n → f a = true → f b = true) :
    search n f ≤ n ∧ (∀ k, k < search n f → f k = false) ∧
      ∀ k, search n f ≤ k → k < n → f k = true :=
  bisect_spec hmono (Nat.zero_le n) le_rfl (Nat.sub_le n 0)
    (fun k hk => absurd hk (Nat.not_lt_zero k)) (fun k hk hkn => absurd hkn (by omega))

/-- The points of a ring, and the node written for each of them. -/
structure Ring (K N : Type) where
  hashes : List K
  owner : K → Option N

namespace Ring

variable {K N : Type} [LinearOrder K]

/-- The ring without points. -/
def empty : Ring K N := ⟨[], fun _ => none⟩

/-- Write a point for a node. -/
def add (r : Ring K N) (h : K) (n : N) : Ring K N :=
  ⟨r.hashes ++ [h], Function.update r.owner h (some n)⟩

/-- The ring with its points in order. -/
def sort (r : Ring K N) : Ring K N := { r with hashes := r.hashes.insertionSort (· ≤ ·) }

/-- The node to which a key belongs. -/
def get (r : Ring K N) (key : K) : Option N :=
  let idx := search r.hashes.length (fun i => (r.hashes[i]?).any (fun h => decide (key ≤ h)))
  let idx := if idx = r.hashes.length then 0 else idx
  (r.hashes[idx]?).bind r.owner

/-- The ring of points written one after the other. -/
def ofPoints (points : List (K × N)) : Ring K N :=
  (points.foldl (fun r p => r.add p.1 p.2) empty).sort

/-- The node written last for a point. -/
def lastWriter (points : List (K × N)) (h : K) : Option N :=
  (points.reverse.find? (fun p => p.1 = h)).map (·.2)

/-- The least point at or after the key, or the least point of all if there is
none. -/
def Next (s : Set K) (key h : K) : Prop :=
  IsLeast {x | x ∈ s ∧ key ≤ x} h ∨ (∀ x ∈ s, x < key) ∧ IsLeast s h

variable {s t : Set K} {key h h' : K} {points : List (K × N)}

theorem Next.mem (hn : Next s key h) : h ∈ s := by
  rcases hn with hn | hn
  · exact hn.1.1
  · exact hn.2.1

theorem Next.unique (hn : Next s key h) (hn' : Next s key h') : h = h' := by
  rcases hn with hn | ⟨hlow, hn⟩ <;> rcases hn' with hn' | ⟨hlow', hn'⟩
  · exact hn.unique hn'
  · exact absurd hn.1.2 (not_le.mpr (hlow' h hn.1.1))
  · exact absurd hn'.1.2 (not_le.mpr (hlow h' hn'.1.1))
  · exact hn.unique hn'

/-- The next point of a larger set is the next one of a set that contains it. -/
theorem Next.mono (hst : s ⊆ t) (hn : Next t key h) (hs : h ∈ s) : Next s key h := by
  rcases hn with hn | ⟨hlow, hn⟩
  · exact Or.inl ⟨⟨hs, hn.1.2⟩, fun x hx => hn.2 ⟨hst hx.1, hx.2⟩⟩
  · exact Or.inr ⟨fun x hx => hlow x (hst hx), hs, fun x hx => hn.2 (hst hx)⟩

/-- The points and the owners that a sequence of writes leads to. -/
theorem foldl_add (points : List (K × N)) :
    (points.foldl (fun r p => r.add p.1 p.2) empty).hashes = points.map (·.1) ∧
      (points.foldl (fun r p => r.add p.1 p.2) empty).owner = lastWriter points := by
  induction points using List.reverseRecOn with
  | nil => exact ⟨rfl, rfl⟩
  | append_singleton points p ih =>
    rw [List.foldl_append, List.foldl_cons, List.foldl_nil, add]
    refine ⟨by rw [ih.1, List.map_append, List.map_singleton], ?_⟩
    funext h
    rw [lastWriter, List.reverse_append, List.reverse_singleton, List.singleton_append,
      List.find?_cons, ih.2]
    change Function.update (lastWriter points) p.1 (some p.2) h = _
    by_cases hp : h = p.1
    · subst hp
      simp
    · rw [Function.update_of_ne hp, decide_eq_false (Ne.symm hp)]
      rfl

theorem mem_hashes_ofPoints : h ∈ (ofPoints points).hashes ↔ ∃ n, (h, n) ∈ points := by
  rw [ofPoints, sort, List.mem_insertionSort, (foldl_add points).1]
  simp

/-- A point has a last writer. -/
theorem lastWriter_mem (hh : ∃ n, (h, n) ∈ points) :
    ∃ n, lastWriter points h = some n ∧ (h, n) ∈ points := by
  obtain ⟨n, hn⟩ := hh
  cases hfind : points.reverse.find? (fun p => p.1 = h) with
  | none =>
    have hnot := List.find?_eq_none.mp hfind (h, n) (List.mem_reverse.mpr hn)
    simp at hnot
  | some p =>
    have hkey : p.1 = h := by simpa using List.find?_some hfind
    subst hkey
    exact ⟨p.2, by rw [lastWriter, hfind]; rfl,
      List.mem_reverse.mp (List.mem_of_find?_eq_some hfind)⟩

/-- The bisection finds the next point. -/
theorem get_eq_owner {r : Ring K N} (hsorted : r.hashes.Pairwise (· ≤ ·)) (hne : r.hashes ≠ [])
    (key : K) : ∃ h, Next {h | h ∈ r.hashes} key h ∧ r.get key = r.owner h := by
  obtain ⟨hashes, owner⟩ := r
  have hle : ∀ i j (hi : i < hashes.length) (hj : j < hashes.length), i ≤ j →
      hashes.get ⟨i, hi⟩ ≤ hashes.get ⟨j, hj⟩ := by
    intro i j hi hj hij
    rcases Nat.lt_or_eq_of_le hij with hlt | rfl
    · exact List.pairwise_iff_getElem.mp hsorted i j hi hj hlt
    · exact le_rfl
  have htest : ∀ k (hk : k < hashes.length),
      (hashes[k]?).any (fun h => decide (key ≤ h)) = decide (key ≤ hashes.get ⟨k, hk⟩) := by
    intro k hk
    rw [List.getElem?_eq_getElem hk]
    rfl
  obtain ⟨hidx, hlow, hhigh⟩ := search_spec (n := hashes.length)
    (f := fun i => (hashes[i]?).any (fun h => decide (key ≤ h))) (by
      intro a b hab hb ha
      rw [htest a (by omega), decide_eq_true_eq] at ha
      rw [htest b hb, decide_eq_true_eq]
      exact ha.trans (hle a b _ hb hab))
  have hbefore : ∀ k (hk : k < hashes.length),
      k < search hashes.length (fun i => (hashes[i]?).any (fun h => decide (key ≤ h))) →
      hashes.get ⟨k, hk⟩ < key := by
    intro k hk hlt
    have hfalse := hlow k hlt
    rw [htest k hk, decide_eq_false_iff_not] at hfalse
    exact not_le.mp hfalse
  have hpos : 0 < hashes.length := List.length_pos_iff.mpr hne
  unfold get
  dsimp only
  split_ifs with hend
  · -- All points are before the key, so the first one follows.
    refine ⟨hashes.get ⟨0, hpos⟩, Or.inr ⟨?_, List.get_mem .., ?_⟩, ?_⟩
    · intro x hx
      obtain ⟨k, rfl⟩ := List.get_of_mem hx
      exact hbefore k k.2 (by rw [hend]; exact k.2)
    · intro x hx
      obtain ⟨k, rfl⟩ := List.get_of_mem hx
      exact hle 0 k hpos k.2 (Nat.zero_le _)
    · rw [List.getElem?_eq_getElem hpos]
      rfl
  · have hlt := lt_of_le_of_ne hidx hend
    refine ⟨hashes.get ⟨_, hlt⟩, Or.inl ⟨⟨List.get_mem .., ?_⟩, ?_⟩, ?_⟩
    · have htrue := hhigh _ le_rfl hlt
      rwa [htest _ hlt, decide_eq_true_eq] at htrue
    · rintro x ⟨hx, hkey⟩
      obtain ⟨k, rfl⟩ := List.get_of_mem hx
      refine hle _ k hlt k.2 (Nat.le_of_not_lt (fun hk => ?_))
      exact absurd hkey (not_le.mpr (hbefore k k.2 hk))
    · rw [List.getElem?_eq_getElem hlt]
      rfl

/-- A key belongs to the last writer of the next point. -/
theorem get_ofPoints (hne : points ≠ []) (key : K) :
    ∃ h, Next {h | ∃ n, (h, n) ∈ points} key h ∧
      (ofPoints points).get key = lastWriter points h := by
  obtain ⟨p, hp⟩ := List.exists_mem_of_ne_nil _ hne
  obtain ⟨h, hnext, hget⟩ := get_eq_owner (r := ofPoints points)
    (List.pairwise_insertionSort _ _)
    (List.ne_nil_of_mem (mem_hashes_ofPoints.mpr ⟨p.2, hp⟩)) key
  have hset : {h | h ∈ (ofPoints points).hashes} = {h | ∃ n, (h, n) ∈ points} :=
    Set.ext (fun _ => mem_hashes_ofPoints)
  refine ⟨h, hset ▸ hnext, hget.trans ?_⟩
  exact congrFun (foldl_add points).2 h

/-- The node whose points are written at the end is the last writer of each of them. -/
theorem lastWriter_append {late : List (K × N)} {n : N} (hh : (h, n) ∈ late)
    (hn : ∀ p ∈ late, p.2 = n) : lastWriter (points ++ late) h = some n := by
  rw [lastWriter, List.reverse_append, List.find?_append]
  have hwritten : ∃ m, (h, m) ∈ late := ⟨n, hh⟩
  obtain ⟨m, hlast, hm⟩ := lastWriter_mem hwritten
  obtain ⟨p, hfind, hp⟩ := Option.map_eq_some_iff.mp hlast
  rw [hfind, Option.some_or, Option.map_some, hp, ← hn _ hm]

/-- The order in which points are written does not matter to a key whose next point is
written for one node only. Points that serve other keys may be contended. -/
theorem get_ofPoints_congr {points' : List (K × N)} (hmem : ∀ p, p ∈ points ↔ p ∈ points')
    (hone : ∀ h, Next {h | ∃ n, (h, n) ∈ points} key h →
      ∀ n n', (h, n) ∈ points → (h, n') ∈ points → n = n') :
    (ofPoints points).get key = (ofPoints points').get key := by
  by_cases hne : points = []
  · have hnil : points' = [] :=
      List.eq_nil_iff_forall_not_mem.mpr (fun p hp => by simpa [hne] using (hmem p).mpr hp)
    rw [hne, hnil]
  have hne' : points' ≠ [] := by
    obtain ⟨p, hp⟩ := List.exists_mem_of_ne_nil _ hne
    exact List.ne_nil_of_mem ((hmem p).mp hp)
  obtain ⟨h, hnext, hget⟩ := get_ofPoints hne key
  obtain ⟨h', hnext', hget'⟩ := get_ofPoints hne' key
  have hset : {h | ∃ n, (h, n) ∈ points'} = {h | ∃ n, (h, n) ∈ points} :=
    Set.ext (fun h => exists_congr (fun n => (hmem (h, n)).symm))
  rw [hset] at hnext'
  obtain rfl := hnext.unique hnext'
  obtain ⟨n, hlast, hn⟩ := lastWriter_mem hnext.mem
  have hmem' : ∃ n, (h, n) ∈ points' := by
    obtain ⟨n, hn⟩ := hnext.mem
    exact ⟨n, (hmem _).mp hn⟩
  obtain ⟨n', hlast', hn'⟩ := lastWriter_mem hmem'
  rw [hget, hget', hlast, hlast', hone h hnext n n' hn ((hmem _).mpr hn')]

/-- The last writer of a point stays the last one when points of other nodes are
taken out. -/
theorem lastWriter_filter [DecidableEq N] {x n : N} (hn : n ≠ x)
    (hlast : lastWriter points h = some n) :
    lastWriter (points.filter (fun p => p.2 ≠ x)) h = some n := by
  rw [lastWriter, Option.map_eq_some_iff] at hlast ⊢
  obtain ⟨p, hfind, rfl⟩ := hlast
  refine ⟨p, ?_, rfl⟩
  obtain ⟨hp, l₁, l₂, hsplit, hnone⟩ := List.find?_eq_some_iff_append.mp hfind
  rw [← List.filter_reverse, hsplit, List.filter_append,
    List.filter_cons_of_pos (by simpa using hn)]
  refine List.find?_eq_some_iff_append.mpr ⟨hp, _, _, rfl, fun q hq => ?_⟩
  exact hnone q (List.mem_of_mem_filter hq)

/-- A node that joins takes keys for itself and leaves the others where they are. -/
theorem get_filter [DecidableEq N] {x : N} (hne : points.filter (fun p => p.2 ≠ x) ≠ [])
    (key : K) :
    (ofPoints points).get key = some x ∨
      (ofPoints points).get key = (ofPoints (points.filter (fun p => p.2 ≠ x))).get key := by
  have hpoints : points ≠ [] := fun hnil => hne (by rw [hnil]; rfl)
  obtain ⟨h, hnext, hget⟩ := get_ofPoints hpoints key
  obtain ⟨n, hlast, hmem⟩ := lastWriter_mem hnext.mem
  by_cases hn : n = x
  · exact Or.inl (by rw [hget, hlast, hn])
  · obtain ⟨h', hnext', hget'⟩ := get_ofPoints hne key
    have hold : h ∈ {h | ∃ n, (h, n) ∈ points.filter (fun p => p.2 ≠ x)} :=
      ⟨n, List.mem_filter.mpr ⟨hmem, by simpa using hn⟩⟩
    have hsub : {h | ∃ n, (h, n) ∈ points.filter (fun p => p.2 ≠ x)} ⊆
        {h | ∃ n, (h, n) ∈ points} := by
      rintro a ⟨m, hm⟩
      exact ⟨m, List.mem_of_mem_filter hm⟩
    obtain rfl := (hnext.mono hsub hold).unique hnext'
    exact Or.inr (by rw [hget, hget', hlast, lastWriter_filter hn hlast])

end Ring

end Lib
