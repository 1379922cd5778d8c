import Mathlib.Data.List.Basic
import Mathlib.Tactic.SplitIfs

/-!
# Consumer groups

The entries of a log are numbered from one. A group hands out each of them to one of its
consumers and keeps it as pending until it is acknowledged. An entry that has been pending
for long may be handed out again. What is pending is searched in parts, from a cursor
that is zero at the start and at the end of a pass.
-/

namespace Lib

variable {κ : Type}

/-- An entry that has been handed out and not acknowledged. -/
structure Pending (κ : Type) where
  id : ℕ
  consumer : κ
  /-- When it was handed out the last time. -/
  since : ℕ
  deriving DecidableEq

/-- A pending entry, handed out again if it is one of those listed. -/
def Pending.renew (ids : List ℕ) (consumer : κ) (now : ℕ) (p : Pending κ) : Pending κ :=
  if p.id ∈ ids then ⟨p.id, consumer, now⟩ else p

theorem Pending.renew_id (ids : List ℕ) (consumer : κ) (now : ℕ) (p : Pending κ) :
    (Pending.renew ids consumer now p).id = p.id := by
  rw [renew]
  split_ifs <;> rfl

/-- The number of the last entry that has been handed out, and what is pending, in order. -/
structure ConsumerGroup (κ : Type) where
  last : ℕ
  pending : List (Pending κ)
  sorted : pending.Pairwise (fun p q => p.id < q.id)
  handed : ∀ p ∈ pending, 0 < p.id ∧ p.id ≤ last

namespace ConsumerGroup

/-- A group that begins with the first entry. -/
def start : ConsumerGroup κ := ⟨0, [], .nil, fun _ h => absurd h List.not_mem_nil⟩

/-- An entry is pending. -/
def IsPending (g : ConsumerGroup κ) (id : ℕ) : Prop := ∃ p ∈ g.pending, p.id = id

/-- An entry has not been handed out, or is pending. -/
def Open (g : ConsumerGroup κ) (id : ℕ) : Prop := g.last < id ∨ g.IsPending id

/-- The entries that come next, as they are handed out. -/
def fresh (g : ConsumerGroup κ) (consumer : κ) (now n : ℕ) : List (Pending κ) :=
  (List.range' (g.last + 1) n).map (fun id => ⟨id, consumer, now⟩)

theorem mem_fresh {g : ConsumerGroup κ} {consumer : κ} {now n : ℕ} {p : Pending κ} :
    p ∈ g.fresh consumer now n ↔
      (g.last < p.id ∧ p.id ≤ g.last + n) ∧ p = ⟨p.id, consumer, now⟩ := by
  simp only [fresh, List.mem_map, List.mem_range'_1]
  constructor
  · rintro ⟨id, hid, rfl⟩
    exact ⟨by dsimp only; omega, rfl⟩
  · rintro ⟨hid, hp⟩
    exact ⟨p.id, by omega, hp.symm⟩

/-- Hand out the next entries. -/
def read (g : ConsumerGroup κ) (consumer : κ) (now n : ℕ) : ConsumerGroup κ where
  last := g.last + n
  pending := g.pending ++ g.fresh consumer now n
  sorted := by
    refine List.pairwise_append.mpr ⟨g.sorted, ?_, fun p hp q hq => ?_⟩
    · refine List.pairwise_map.mpr ?_
      exact List.pairwise_lt_range'
    · have hle := (g.handed p hp).2
      have hlt := (mem_fresh.mp hq).1.1
      omega
  handed p hp := by
    rcases List.mem_append.mp hp with hold | hnew
    · have h := g.handed p hold
      exact ⟨h.1, by omega⟩
    · have h := (mem_fresh.mp hnew).1
      exact ⟨by omega, h.2⟩

/-- Acknowledge an entry. -/
def ack (g : ConsumerGroup κ) (id : ℕ) : ConsumerGroup κ where
  last := g.last
  pending := g.pending.filter (fun p => p.id ≠ id)
  sorted := g.sorted.filter _
  handed p hp := g.handed p (List.mem_of_mem_filter hp)

/-- Hand out pending entries again. -/
def claim (g : ConsumerGroup κ) (ids : List ℕ) (consumer : κ) (now : ℕ) : ConsumerGroup κ where
  last := g.last
  pending := g.pending.map (Pending.renew ids consumer now)
  sorted := by
    refine List.pairwise_map.mpr (g.sorted.imp (fun {p q} h => ?_))
    rwa [Pending.renew_id, Pending.renew_id]
  handed p hp := by
    obtain ⟨q, hq, rfl⟩ := List.mem_map.mp hp
    rw [Pending.renew_id]
    exact g.handed q hq

/-- Go through pending entries until some are found that have been pending for long, or a
budget is used up. The numbers of those found, and the one to go on from, if there is
one. -/
def scan (long : Pending κ → Bool) : ℕ → ℕ → List (Pending κ) → List ℕ × ℕ
  | _, _, [] => ([], 0)
  | budget + 1, count + 1, p :: ps =>
    if long p then
      let rest := scan long budget count ps
      (p.id :: rest.1, rest.2)
    else scan long budget (count + 1) ps
  | _, _, p :: _ => ([], p.id)

section Scan

variable {long : Pending κ → Bool} {budget count : ℕ} {ps : List (Pending κ)}

/-- What is found is pending, and has been for long. -/
theorem mem_of_mem_scan {id : ℕ} (h : id ∈ (scan long budget count ps).1) :
    ∃ p ∈ ps, p.id = id ∧ long p = true := by
  fun_induction scan long budget count ps with
  | case1 => cases h
  | case2 budget count p ps hlong rest ih =>
    rcases List.mem_cons.mp h with rfl | h
    · exact ⟨p, List.mem_cons_self, rfl, hlong⟩
    · obtain ⟨q, hq, hid⟩ := ih h
      exact ⟨q, List.mem_cons_of_mem p hq, hid⟩
  | case3 budget count p ps hlong ih =>
    obtain ⟨q, hq, hid⟩ := ih h
    exact ⟨q, List.mem_cons_of_mem p hq, hid⟩
  | case4 => cases h

/-- A search goes on from a pending entry, if at all. -/
theorem scan_next (long : Pending κ → Bool) (budget count : ℕ) (ps : List (Pending κ)) :
    (scan long budget count ps).2 = 0 ∨ ∃ p ∈ ps, p.id = (scan long budget count ps).2 := by
  fun_induction scan long budget count ps with
  | case1 => exact Or.inl rfl
  | case2 budget count q ps hq rest ih =>
    refine ih.imp_right (fun h => ?_)
    obtain ⟨p, hp, hid⟩ := h
    exact ⟨p, List.mem_cons_of_mem q hp, hid⟩
  | case3 budget count q ps hq ih =>
    refine ih.imp_right (fun h => ?_)
    obtain ⟨p, hp, hid⟩ := h
    exact ⟨p, List.mem_cons_of_mem q hp, hid⟩
  | case4 budget count q ps => exact Or.inr ⟨q, List.mem_cons_self, rfl⟩

/-- How many entries there are from one number to another. -/
def between (ps : List (Pending κ)) (first last : ℕ) : ℕ :=
  ps.countP (fun q => decide (first ≤ q.id ∧ q.id ≤ last))

/-- From a number beyond the first entry, only the others count. -/
theorem between_cons_of_lt {q : Pending κ} {first : ℕ} (h : q.id < first) (last : ℕ) :
    between (q :: ps) first last = between ps first last := by
  refine List.countP_cons_of_neg ?_
  simp only [decide_eq_true_eq]
  omega

/-- An entry that has been pending for long is found, or the search goes on before it and
has left as many entries behind as it may. -/
theorem scan_reaches (hsorted : ps.Pairwise (fun p q => p.id < q.id))
    (hpos : ∀ p ∈ ps, 0 < p.id) {p : Pending κ} (hp : p ∈ ps) (hlong : long p = true) :
    p.id ∈ (scan long budget count ps).1 ∨
      0 < (scan long budget count ps).2 ∧ (scan long budget count ps).2 ≤ p.id ∧
      between ps (scan long budget count ps).2 p.id + min budget count ≤ between ps 0 p.id := by
  -- What holds of the rest of a list whose first entry has been passed.
  have hpass : ∀ {q : Pending κ} {ps : List (Pending κ)} {b c b' c' : ℕ},
      (q :: ps).Pairwise (fun p q => p.id < q.id) → p ∈ ps → min b c ≤ min b' c' + 1 →
      0 < (scan long b' c' ps).2 ∧ (scan long b' c' ps).2 ≤ p.id ∧
        between ps (scan long b' c' ps).2 p.id + min b' c' ≤ between ps 0 p.id →
      0 < (scan long b' c' ps).2 ∧ (scan long b' c' ps).2 ≤ p.id ∧
        between (q :: ps) (scan long b' c' ps).2 p.id + min b c ≤ between (q :: ps) 0 p.id := by
    rintro q ps b c b' c' hsorted hp hmin ⟨hpos, hle, hlen⟩
    obtain ⟨hlt, -⟩ := List.pairwise_cons.mp hsorted
    have hnext : q.id < (scan long b' c' ps).2 := by
      obtain h0 | ⟨r, hr, hid⟩ := scan_next long b' c' ps
      · omega
      · exact hid ▸ hlt r hr
    have hfirst : between (q :: ps) 0 p.id = between ps 0 p.id + 1 :=
      List.countP_cons_of_pos (decide_eq_true ⟨Nat.zero_le _, Nat.le_of_lt (hlt p hp)⟩)
    rw [between_cons_of_lt hnext, hfirst]
    exact ⟨hpos, hle, by omega⟩
  fun_induction scan long budget count ps with
  | case1 => cases hp
  | case2 budget count q ps hq rest ih =>
    rcases List.mem_cons.mp hp with rfl | hmem
    · exact Or.inl List.mem_cons_self
    · refine (ih (List.pairwise_cons.mp hsorted).2
        (fun r hr => hpos r (List.mem_cons_of_mem q hr)) hmem).imp (List.mem_cons_of_mem q.id) ?_
      exact hpass hsorted hmem (by omega)
  | case3 budget count q ps hq ih =>
    rcases List.mem_cons.mp hp with rfl | hmem
    · exact absurd hlong hq
    · refine (ih (List.pairwise_cons.mp hsorted).2
        (fun r hr => hpos r (List.mem_cons_of_mem q hr)) hmem).imp_right ?_
      exact hpass hsorted hmem (by omega)
  | case4 budget count q ps hstop =>
    obtain ⟨hlt, -⟩ := List.pairwise_cons.mp hsorted
    have hzero : min budget count = 0 := by
      cases budget with
      | zero => exact Nat.zero_min count
      | succ budget =>
        cases count with
        | zero => exact Nat.min_zero _
        | succ count => exact absurd rfl (hstop budget count rfl)
    refine Or.inr ⟨hpos q List.mem_cons_self, ?_, ?_⟩
    · rcases List.mem_cons.mp hp with rfl | hp
      · exact Nat.le_refl _
      · exact Nat.le_of_lt (hlt p hp)
    · rw [hzero]
      refine List.countP_mono_left (fun r _ hr => ?_)
      simp only [decide_eq_true_eq] at hr ⊢
      exact ⟨Nat.zero_le _, hr.2⟩

end Scan

/-- Has an entry been pending for the given time? -/
def longPending (minIdle now : ℕ) (p : Pending κ) : Bool := decide (p.since + minIdle ≤ now)

/-- Search from a cursor. -/
def search (g : ConsumerGroup κ) (minIdle now cursor budget count : ℕ) : List ℕ × ℕ :=
  scan (longPending minIdle now) budget count (g.pending.filter (fun p => cursor ≤ p.id))

/-- The pending entries that a search from a cursor has to pass before it has dealt with
one of them. -/
def ahead (g : ConsumerGroup κ) (cursor id : ℕ) : ℕ := between g.pending cursor id

/-- A search from before an entry that has been pending for long finds it, or comes closer. -/
theorem search_reaches (g : ConsumerGroup κ) {minIdle now cursor : ℕ} (budget count : ℕ)
    {p : Pending κ} (hp : p ∈ g.pending) (hcursor : cursor ≤ p.id)
    (hlong : p.since + minIdle ≤ now) :
    p.id ∈ (g.search minIdle now cursor budget count).1 ∨
      (g.search minIdle now cursor budget count).2 ≤ p.id ∧
      g.ahead (g.search minIdle now cursor budget count).2 p.id + min budget count ≤
        g.ahead cursor p.id := by
  have hpos : ∀ q ∈ g.pending.filter (fun p => cursor ≤ p.id), 0 < q.id :=
    fun q hq => (g.handed q (List.mem_of_mem_filter hq)).1
  have hmem : p ∈ g.pending.filter (fun p => cursor ≤ p.id) :=
    List.mem_filter.mpr ⟨hp, decide_eq_true hcursor⟩
  have hsplit : ∀ first, between (g.pending.filter (fun p => cursor ≤ p.id)) first p.id =
      g.ahead (max first cursor) p.id := by
    intro first
    rw [between, List.countP_filter, ahead, between]
    refine List.countP_congr (fun q _ => ?_)
    simp only [Bool.and_eq_true, decide_eq_true_eq]
    omega
  refine (scan_reaches (g.sorted.filter _) hpos hmem (decide_eq_true hlong)).imp_right ?_
  rintro ⟨hfound, hle, hlen⟩
  refine ⟨hle, ?_⟩
  have hnext : cursor ≤ (g.search minIdle now cursor budget count).2 := by
    obtain h0 | ⟨q, hq, hid⟩ := scan_next (longPending minIdle now) budget count
      (g.pending.filter (fun p => cursor ≤ p.id))
    · exact absurd h0 (Nat.pos_iff_ne_zero.mp hfound)
    · rw [search, ← hid]
      exact of_decide_eq_true (List.mem_filter.mp hq).2
  rwa [hsplit, hsplit, Nat.zero_max, ← search, Nat.max_eq_left hnext] at hlen

/-- What is found is pending. -/
theorem isPending_of_mem_search {g : ConsumerGroup κ} {minIdle now cursor budget count id : ℕ}
    (h : id ∈ (g.search minIdle now cursor budget count).1) : g.IsPending id := by
  obtain ⟨p, hp, hid, -⟩ := mem_of_mem_scan h
  exact ⟨p, List.mem_of_mem_filter hp, hid⟩

section Open

variable {g : ConsumerGroup κ} {id : ℕ}

/-- Handing out entries does not settle any. -/
theorem Open.read (h : g.Open id) (consumer : κ) (now n : ℕ) : (g.read consumer now n).Open id := by
  rcases h with hlast | ⟨p, hp, hid⟩
  · by_cases hn : id ≤ g.last + n
    · refine Or.inr ⟨⟨id, consumer, now⟩, List.mem_append_right _ ?_, rfl⟩
      exact mem_fresh.mpr ⟨⟨hlast, hn⟩, rfl⟩
    · exact Or.inl (Nat.lt_of_not_le hn)
  · exact Or.inr ⟨p, List.mem_append_left _ hp, hid⟩

theorem Open.claim (h : g.Open id) (ids : List ℕ) (consumer : κ) (now : ℕ) :
    (g.claim ids consumer now).Open id := by
  refine h.imp (fun hlast => hlast) (fun hp => ?_)
  obtain ⟨p, hp, rfl⟩ := hp
  exact ⟨_, List.mem_map_of_mem hp, Pending.renew_id ids consumer now p⟩

/-- An acknowledgement settles only the entry that it is about. -/
theorem Open.ack (h : g.Open id) {id' : ℕ} (hne : id ≠ id') : (g.ack id').Open id := by
  refine h.imp (fun hlast => hlast) (fun hp => ?_)
  obtain ⟨p, hp, rfl⟩ := hp
  exact ⟨p, List.mem_filter.mpr ⟨hp, decide_eq_true hne⟩, rfl⟩

end Open

section Ahead

variable {g : ConsumerGroup κ} {cursor id : ℕ}

/-- New entries come after one that is pending. -/
theorem ahead_read (hid : id ≤ g.last) (consumer : κ) (now n : ℕ) :
    (g.read consumer now n).ahead cursor id = g.ahead cursor id := by
  have hnew : between (g.fresh consumer now n) cursor id = 0 := by
    refine List.countP_eq_zero.mpr (fun q hq => ?_)
    have hlt := (mem_fresh.mp hq).1.1
    simp only [decide_eq_true_eq]
    omega
  exact (List.countP_append ..).trans (congrArg (g.ahead cursor id + ·) hnew)

theorem ahead_claim (ids : List ℕ) (consumer : κ) (now : ℕ) :
    (g.claim ids consumer now).ahead cursor id = g.ahead cursor id := by
  refine (List.countP_map ..).trans (List.countP_congr (fun q _ => ?_))
  simp only [Function.comp_apply, Pending.renew_id]

theorem ahead_ack (id' : ℕ) : (g.ack id').ahead cursor id ≤ g.ahead cursor id :=
  List.filter_sublist.countP_le

/-- An entry is ahead of itself. -/
theorem ahead_pos {p : Pending κ} (hp : p ∈ g.pending) (hcursor : cursor ≤ p.id) :
    0 < g.ahead cursor p.id :=
  List.countP_pos_iff.mpr ⟨p, hp, decide_eq_true ⟨hcursor, Nat.le_refl _⟩⟩

/-- An entry that is not handed out again stays as it is. -/
theorem mem_claim {p : Pending κ} (hp : p ∈ g.pending) {ids : List ℕ} (hids : p.id ∉ ids)
    (consumer : κ) (now : ℕ) : p ∈ (g.claim ids consumer now).pending := by
  refine List.mem_map.mpr ⟨p, hp, ?_⟩
  rw [Pending.renew, if_neg hids]

end Ahead

end ConsumerGroup

end Lib
