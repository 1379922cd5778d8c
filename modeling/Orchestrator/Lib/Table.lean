import Mathlib.Data.List.Sort
import Mathlib.Tactic.Common

/-!
# Keyed tables

A table is a finite set of rows addressed by a key. Rows are kept in strictly
increasing key order, so a key names at most one row and two tables with the
same lookups are equal. Writing a row replaces the row of the same key.
Nothing here refers to what the rows mean.
-/

namespace Lib

variable {κ α : Type} [LinearOrder κ]

/-- Rows in strictly increasing order of `key`. The order is a field, so a
table with two rows of one key cannot be built. -/
structure Table (key : α → κ) where
  /-- The rows, smallest key first. -/
  rows : List α
  /-- Keys increase along the list. -/
  sorted : rows.Pairwise (fun a b => key a < key b)

namespace Table

variable {key : α → κ} {t : Table key}

/-- The table without rows. -/
def empty : Table key := ⟨[], .nil⟩

instance : Inhabited (Table key) := ⟨empty⟩

instance : Membership α (Table key) := ⟨fun t r => r ∈ t.rows⟩

/-- The row stored under a key. -/
def get? (t : Table key) (k : κ) : Option α := t.rows.find? (fun r => key r = k)

/-- Place a row into a sorted list, replacing the row of the same key. -/
def insertRow (key : α → κ) (r : α) : List α → List α
  | [] => [r]
  | x :: xs =>
    if key r < key x then r :: x :: xs
    else if key r = key x then r :: xs
    else x :: insertRow key r xs

/-- A row of the extended list is the new row or an old row. -/
theorem eq_or_mem_of_mem_insertRow {r a : α} {rows : List α} (h : a ∈ insertRow key r rows) :
    a = r ∨ a ∈ rows := by
  induction rows with
  | nil => simpa [insertRow] using h
  | cons x xs ih =>
    simp only [insertRow] at h
    split_ifs at h with hlt heq
    · simpa using h
    · rcases List.mem_cons.mp h with h | h
      · exact Or.inl h
      · exact Or.inr (List.mem_cons_of_mem _ h)
    · rcases List.mem_cons.mp h with h | h
      · exact Or.inr (h ▸ List.mem_cons_self)
      · exact (ih h).imp id (List.mem_cons_of_mem _)

/-- Placing a row keeps the keys increasing. -/
theorem sorted_insertRow {r : α} {rows : List α}
    (h : rows.Pairwise (fun a b => key a < key b)) :
    (insertRow key r rows).Pairwise (fun a b => key a < key b) := by
  induction rows with
  | nil => simp [insertRow]
  | cons x xs ih =>
    obtain ⟨hx, hxs⟩ := List.pairwise_cons.mp h
    simp only [insertRow]
    split_ifs with hlt heq
    · refine List.pairwise_cons.mpr ⟨?_, h⟩
      intro a ha
      rcases List.mem_cons.mp ha with rfl | ha
      · exact hlt
      · exact hlt.trans (hx a ha)
    · exact List.pairwise_cons.mpr ⟨fun a ha => heq ▸ hx a ha, hxs⟩
    · refine List.pairwise_cons.mpr ⟨?_, ih hxs⟩
      intro a ha
      rcases eq_or_mem_of_mem_insertRow ha with rfl | ha
      · exact lt_of_le_of_ne (not_lt.mp hlt) (Ne.symm heq)
      · exact hx a ha

/-- Write a row: insert it, or replace the row that has its key. -/
def put (t : Table key) (r : α) : Table key :=
  ⟨insertRow key r t.rows, sorted_insertRow t.sorted⟩

/-- The key of a row found by lookup is the key that was looked up. -/
theorem key_of_get? {k : κ} {r : α} (h : t.get? k = some r) : key r = k := by
  simpa using List.find?_some h

/-- A row belongs to the table exactly when its own key finds it. -/
theorem mem_iff_get? {r : α} : r ∈ t ↔ t.get? (key r) = some r := by
  constructor
  · intro h
    have hmem : r ∈ t.rows := h
    obtain ⟨rows, hsorted⟩ := t
    simp only [get?]
    induction rows with
    | nil => cases hmem
    | cons x xs ih =>
      obtain ⟨hx, hxs⟩ := List.pairwise_cons.mp hsorted
      rcases List.mem_cons.mp hmem with rfl | hr
      · simp
      · have hne : key x ≠ key r := ne_of_lt (hx r hr)
        rw [List.find?_cons_of_neg (by simpa using hne)]
        exact ih hxs hr hr
  · intro h
    exact List.mem_of_find?_eq_some h

/-- A row found under a key is found under its own key. -/
theorem get?_key {k : κ} {r : α} (h : t.get? k = some r) :
    t.get? (key r) = some r := by
  rwa [key_of_get? h]

/-- A row found under any key belongs to the table. -/
theorem mem_of_get? {k : κ} {r : α} (h : t.get? k = some r) : r ∈ t :=
  List.mem_of_find?_eq_some h

/-- Two rows of one key are the same row. -/
theorem eq_of_key_eq {a b : α} (ha : a ∈ t) (hb : b ∈ t) (h : key a = key b) :
    a = b := by
  rw [mem_iff_get?] at ha hb
  rw [h, hb] at ha
  exact (Option.some.inj ha).symm

/-- No row has a key that lookup does not find. -/
theorem get?_eq_none {k : κ} : t.get? k = none ↔ ∀ r ∈ t, key r ≠ k := by
  constructor
  · intro h r hr hk
    rw [mem_iff_get?, hk, h] at hr
    cases hr
  · intro h
    cases hget : t.get? k with
    | none => rfl
    | some r => exact absurd (key_of_get? hget) (h r (mem_of_get? hget))

/-- There are keys without a row beyond any one, where there is no greatest one. -/
theorem exists_get?_none [NoMaxOrder κ] (t : Table key) (n : κ) :
    ∃ k, n ≤ k ∧ t.get? k = none := by
  obtain ⟨k, hn, hrows⟩ : ∃ k, n ≤ k ∧ ∀ r ∈ t.rows, key r < k := by
    induction t.rows with
    | nil => exact ⟨n, le_rfl, fun r hr => absurd hr List.not_mem_nil⟩
    | cons r rows ih =>
      obtain ⟨k, hn, hrows⟩ := ih
      obtain ⟨k', hk'⟩ := exists_gt (max k (key r))
      refine ⟨k', hn.trans ((le_max_left k (key r)).trans hk'.le), fun x hx => ?_⟩
      rcases List.mem_cons.mp hx with rfl | hx
      · exact lt_of_le_of_lt (le_max_right k (key x)) hk'
      · exact (hrows x hx).trans (lt_of_le_of_lt (le_max_left k (key r)) hk')
  exact ⟨k, hn, get?_eq_none.mpr (fun r hr => (hrows r hr).ne)⟩

@[simp] theorem get?_empty (k : κ) : (empty : Table key).get? k = none := rfl

@[simp] theorem not_mem_empty (r : α) : r ∉ (empty : Table key) := List.not_mem_nil

private theorem find?_insertRow (r : α) (k : κ) (rows : List α) :
    (insertRow key r rows).find? (fun x => key x = k) =
      if key r = k then some r else rows.find? (fun x => key x = k) := by
  induction rows with
  | nil => by_cases h : key r = k <;> simp [insertRow, h]
  | cons x xs ih =>
    by_cases h : key r = k
    · subst h
      simp only [insertRow]
      split_ifs with hlt heq
      · simp
      · simp
      · rw [List.find?_cons_of_neg (by simpa using Ne.symm heq), ih]
        simp
    · simp only [insertRow, if_neg h] at ih ⊢
      split_ifs with hlt heq
      · rw [List.find?_cons_of_neg (by simpa using h)]
      · have hx : key x ≠ k := heq ▸ h
        rw [List.find?_cons_of_neg (by simpa using h), List.find?_cons_of_neg (by simpa using hx)]
      · by_cases hx : key x = k
        · rw [List.find?_cons_of_pos (by simpa using hx),
            List.find?_cons_of_pos (by simpa using hx)]
        · rw [List.find?_cons_of_neg (by simpa using hx),
            List.find?_cons_of_neg (by simpa using hx), ih]

/-- Lookup after a write. -/
theorem get?_put (t : Table key) (r : α) (k : κ) :
    (t.put r).get? k = if key r = k then some r else t.get? k :=
  find?_insertRow r k t.rows

/-- A key that is present stays present. -/
theorem isSome_get?_put {r : α} {k : κ} (h : (t.get? k).isSome) :
    ((t.put r).get? k).isSome := by
  rw [get?_put]
  split_ifs
  · rfl
  · exact h

@[simp] theorem get?_put_self (t : Table key) (r : α) : (t.put r).get? (key r) = some r := by
  simp [get?_put]

/-- A write leaves every other key alone. -/
theorem get?_put_of_ne {r : α} {k : κ} (h : key r ≠ k) :
    (t.put r).get? k = t.get? k := by
  simp [get?_put, h]

/-- The rows after a write: the new row, and the old rows of other keys. -/
theorem mem_put {r a : α} :
    a ∈ t.put r ↔ a = r ∨ (a ∈ t ∧ key a ≠ key r) := by
  rw [mem_iff_get?, get?_put, mem_iff_get?]
  by_cases h : key r = key a
  · rw [if_pos h]
    constructor
    · intro hra
      exact Or.inl (Option.some.inj hra).symm
    · rintro (rfl | ⟨-, hne⟩)
      · rfl
      · exact absurd h.symm hne
  · rw [if_neg h]
    constructor
    · intro ha
      exact Or.inr ⟨ha, fun hkey => h hkey.symm⟩
    · rintro (rfl | ⟨ha, -⟩)
      · exact absurd rfl h
      · exact ha

/-- A written row belongs to the table. -/
theorem mem_put_self (t : Table key) (r : α) : r ∈ t.put r := mem_put.mpr (Or.inl rfl)

/-- Tables with the same rows are equal. -/
theorem ext_mem {t u : Table key} (h : ∀ a, a ∈ t ↔ a ∈ u) : t = u := by
  have hnodup (s : Table key) : s.rows.Nodup := by
    refine s.sorted.imp ?_
    intro a b hab heq
    exact absurd hab (heq ▸ lt_irrefl _)
  have hperm : t.rows.Perm u.rows := (List.perm_ext_iff_of_nodup (hnodup t) (hnodup u)).mpr h
  have heq : t.rows = u.rows :=
    hperm.eq_of_pairwise (fun a b _ _ hab hba => absurd hab hba.asymm) t.sorted u.sorted
  cases t
  cases u
  cases heq
  rfl

/-- Tables with the same lookups are equal. -/
theorem ext_get? {t u : Table key} (h : ∀ k, t.get? k = u.get? k) : t = u := by
  refine ext_mem (fun a => ?_)
  rw [mem_iff_get?, mem_iff_get?, h]

/-- A lookup is decided by the rows of its key. -/
theorem get?_congr {t u : Table key} {k : κ} (h : ∀ a, key a = k → (a ∈ t ↔ a ∈ u)) :
    t.get? k = u.get? k := by
  refine Option.ext (fun a => ⟨fun ha => ?_, fun ha => ?_⟩)
  · have hk := key_of_get? ha
    exact hk ▸ mem_iff_get?.mp ((h a hk).mp (mem_of_get? ha))
  · have hk := key_of_get? ha
    exact hk ▸ mem_iff_get?.mp ((h a hk).mpr (mem_of_get? ha))

/-- Writes under different keys commute. -/
theorem put_comm {a b : α} (h : key a ≠ key b) :
    (t.put a).put b = (t.put b).put a := by
  apply ext_get?
  intro k
  simp only [get?_put]
  split_ifs with hb ha
  · exact absurd (ha.trans hb.symm) h
  · rfl
  · rfl
  · rfl

/-- Of two writes of one row the second counts. -/
theorem put_put {a b : α} (h : key a = key b) : (t.put a).put b = t.put b := by
  refine ext_get? (fun k => ?_)
  rw [get?_put, get?_put, get?_put, h]
  split_ifs <;> rfl

/-- The rows have distinct keys. -/
theorem nodup_keys (t : Table key) : (t.rows.map key).Nodup := by
  refine List.pairwise_map.mpr (t.sorted.imp ?_)
  intro a b hab
  exact ne_of_lt hab

/-- The rows are pairwise distinct. -/
theorem nodup_rows (t : Table key) : t.rows.Nodup := t.nodup_keys.of_map

/-- Writing a row that is there changes nothing. -/
theorem put_eq_self {r : α} (h : t.get? (key r) = some r) : t.put r = t := by
  refine ext_get? (fun k => ?_)
  by_cases hk : key r = k
  · rw [← hk, get?_put_self, h]
  · rw [get?_put_of_ne hk]

/-- A row after a series of writes is one of those written or was there. -/
theorem mem_of_mem_foldl_put {rows : List α} {a : α} (h : a ∈ rows.foldl put t) :
    a ∈ rows ∨ a ∈ t := by
  induction rows generalizing t with
  | nil => exact Or.inr h
  | cons r rows ih =>
    rcases ih h with h | h
    · exact Or.inl (List.mem_cons_of_mem _ h)
    · rcases mem_put.mp h with rfl | ⟨h, -⟩
      · exact Or.inl List.mem_cons_self
      · exact Or.inr h

/-- Of a series of writes under distinct keys each is there afterwards. -/
theorem get?_foldl_put {rows : List α} (hnodup : (rows.map key).Nodup) {r : α}
    (hr : r ∈ rows) : (rows.foldl put t).get? (key r) = some r := by
  have hrest : ∀ (rows : List α) (t : Table key), key r ∉ rows.map key →
      (rows.foldl put t).get? (key r) = t.get? (key r) := by
    intro rows
    induction rows with
    | nil => exact fun _ _ => rfl
    | cons x rows ih =>
      intro t hnot
      rw [List.map_cons, List.mem_cons, not_or] at hnot
      rw [List.foldl_cons, ih _ hnot.2, get?_put_of_ne (Ne.symm hnot.1)]
  induction rows generalizing t with
  | nil => exact absurd hr List.not_mem_nil
  | cons x rows ih =>
    rw [List.map_cons, List.nodup_cons] at hnodup
    rw [List.foldl_cons]
    rcases List.mem_cons.mp hr with rfl | hr
    · rw [hrest rows _ hnodup.1, get?_put_self]
    · exact ih hnodup.2 hr

/-- Writes under other keys leave a row alone. -/
theorem get?_foldl_put_of_ne {rows : List α} {k : κ} (h : ∀ r ∈ rows, key r ≠ k) :
    (rows.foldl put t).get? k = t.get? k := by
  induction rows generalizing t with
  | nil => rfl
  | cons r rows ih =>
    obtain ⟨hr, hrows⟩ := List.forall_mem_cons.mp h
    rw [List.foldl_cons, ih hrows, get?_put_of_ne hr]

/-- Rows under new and distinct keys are added to the others. -/
theorem mem_foldl_put {rows : List α} (hnew : ∀ r ∈ rows, t.get? (key r) = none)
    (hnodup : (rows.map key).Nodup) {a : α} : a ∈ rows.foldl put t ↔ a ∈ rows ∨ a ∈ t := by
  induction rows generalizing t with
  | nil => simp
  | cons r rows ih =>
    rw [List.map_cons, List.nodup_cons] at hnodup
    obtain ⟨hr, hrows⟩ := List.forall_mem_cons.mp hnew
    have hnew' : ∀ x ∈ rows, (t.put r).get? (key x) = none := by
      intro x hx
      have hne : key r ≠ key x := fun heq => hnodup.1 (heq ▸ List.mem_map_of_mem hx)
      rw [get?_put_of_ne hne]
      exact hrows x hx
    rw [List.foldl_cons, ih hnew' hnodup.2, mem_put, List.mem_cons]
    constructor
    · rintro (h | rfl | ⟨h, -⟩)
      · exact Or.inl (Or.inr h)
      · exact Or.inl (Or.inl rfl)
      · exact Or.inr h
    · rintro ((rfl | h) | h)
      · exact Or.inr (Or.inl rfl)
      · exact Or.inl h
      · exact Or.inr (Or.inr ⟨h, get?_eq_none.mp hr a h⟩)

/-- A row that is put in place of one with the same image leaves the list of images. -/
theorem map_rows_put {β : Type} {r a : α} {f : α → β}
    (ha : t.get? (key r) = some a) (hf : f r = f a) : (t.put r).rows.map f = t.rows.map f := by
  have hmem : a ∈ t.rows := mem_of_get? ha
  have hkey : key a = key r := key_of_get? ha
  change (insertRow key r t.rows).map f = t.rows.map f
  have hsorted := t.sorted
  generalize t.rows = rows at hmem hsorted
  induction rows with
  | nil => cases hmem
  | cons x xs ih =>
    obtain ⟨hx, hxs⟩ := List.pairwise_cons.mp hsorted
    rcases List.mem_cons.mp hmem with rfl | hmem
    · simp [insertRow, hkey, hf]
    · have hlt : key x < key r := hkey ▸ hx a hmem
      simp [insertRow, hlt.not_gt, hlt.ne', ih hmem hxs]

/-- Of the rows with a property one table has one more than another. -/
theorem filter_rows_perm {t u : Table key} {p : α → Bool} {r : α} (hr : p r = true) (hnot : r ∉ u)
    (h : ∀ a, p a = true → (a ∈ t ↔ a = r ∨ a ∈ u)) :
    (t.rows.filter p).Perm (r :: u.rows.filter p) := by
  have hnew : r ∉ u.rows.filter p := fun hmem => hnot (List.mem_filter.mp hmem).1
  refine (List.perm_ext_iff_of_nodup (t.nodup_rows.filter p)
    (List.nodup_cons.mpr ⟨hnew, u.nodup_rows.filter p⟩)).mpr (fun a => ?_)
  rw [List.mem_filter, List.mem_cons, List.mem_filter]
  constructor
  · rintro ⟨ha, hpa⟩
    exact ((h a hpa).mp ha).imp_right (fun ha => ⟨ha, hpa⟩)
  · rintro (rfl | ⟨ha, hpa⟩)
    · exact ⟨(h a hr).mpr (Or.inl rfl), hr⟩
    · exact ⟨(h a hpa).mpr (Or.inr ha), hpa⟩

/-- Two tables with the same rows of a kind list them in the same order. -/
theorem filter_rows_congr {t u : Table key} {p : α → Bool}
    (h : ∀ a, p a = true → (a ∈ t ↔ a ∈ u)) : t.rows.filter p = u.rows.filter p := by
  have hmem : ∀ a, a ∈ t.rows.filter p ↔ a ∈ u.rows.filter p := by
    intro a
    rw [List.mem_filter, List.mem_filter]
    exact and_congr_left (h a)
  have hperm : (t.rows.filter p).Perm (u.rows.filter p) :=
    (List.perm_ext_iff_of_nodup (t.nodup_rows.filter p) (u.nodup_rows.filter p)).mpr hmem
  exact hperm.eq_of_pairwise (fun a b _ _ hab hba => absurd (hab.trans hba) (lt_irrefl _))
    (t.sorted.filter p) (u.sorted.filter p)

/-- A row that is not of the kind is put in place of one that is not either. -/
theorem filter_rows_put_of_not {r : α} {p : α → Bool} (hp : p r = false)
    (h : ∀ a ∈ t, key a = key r → p a = false) : (t.put r).rows.filter p = t.rows.filter p := by
  refine filter_rows_congr (fun a hpa => ?_)
  rw [mem_put]
  constructor
  · rintro (rfl | ⟨ha, -⟩)
    · rw [hp] at hpa
      cases hpa
    · exact ha
  · intro ha
    refine Or.inr ⟨ha, fun hkey => ?_⟩
    rw [h a ha hkey] at hpa
    cases hpa

/-- A row that comes after the others of its kind is listed last. -/
theorem filter_rows_put_last {r : α} {p : α → Bool} (hp : p r = true)
    (h : ∀ a ∈ t, p a = true → key a < key r) :
    (t.put r).rows.filter p = t.rows.filter p ++ [r] := by
  have hsorted : (t.rows.filter p ++ [r]).Pairwise (fun a b => key a < key b) := by
    refine List.pairwise_append.mpr ⟨t.sorted.filter p, List.pairwise_singleton _ r, ?_⟩
    intro a ha b hb
    obtain ⟨ha, hpa⟩ := List.mem_filter.mp ha
    exact List.mem_singleton.mp hb ▸ h a ha hpa
  have hmem : ∀ a, a ∈ (t.put r).rows.filter p ↔ a ∈ t.rows.filter p ++ [r] := by
    intro a
    rw [List.mem_filter, List.mem_append, List.mem_filter, List.mem_singleton]
    constructor
    · rintro ⟨ha, hpa⟩
      rcases mem_put.mp ha with rfl | ⟨ha, -⟩
      · exact Or.inr rfl
      · exact Or.inl ⟨ha, hpa⟩
    · rintro (⟨ha, hpa⟩ | rfl)
      · exact ⟨mem_put.mpr (Or.inr ⟨ha, (h a ha hpa).ne⟩), hpa⟩
      · exact ⟨mem_put_self t a, hp⟩
  have hnodup : (t.rows.filter p ++ [r]).Nodup := hsorted.imp (fun hlt heq => by
    rw [heq] at hlt
    exact lt_irrefl _ hlt)
  have hperm := (List.perm_ext_iff_of_nodup ((t.put r).nodup_rows.filter p) hnodup).mpr hmem
  exact hperm.eq_of_pairwise (fun a b _ _ hab hba => absurd (hab.trans hba) (lt_irrefl _))
    ((t.put r).sorted.filter p) hsorted

/-- Every row of the first table has a successor in the second. -/
def Grows (ρ : α → α → Prop) (t u : Table key) : Prop := ∀ a ∈ t, ∃ b ∈ u, ρ a b

variable {ρ : α → α → Prop} {t u w : Table key}

theorem Grows.refl (hρ : ∀ a, ρ a a) (t : Table key) : Grows ρ t t := fun a ha => ⟨a, ha, hρ a⟩

theorem Grows.trans (hρ : ∀ {a b c}, ρ a b → ρ b c → ρ a c) (h : Grows ρ t u) (h' : Grows ρ u w) :
    Grows ρ t w := by
  intro a ha
  obtain ⟨b, hb, hab⟩ := h a ha
  obtain ⟨c, hc, hbc⟩ := h' b hb
  exact ⟨c, hc, hρ hab hbc⟩

/-- A write keeps the other rows and succeeds the row that it replaces. -/
theorem Grows.put (hρ : ∀ a, ρ a a) {r : α} (h : ∀ a, t.get? (key r) = some a → ρ a r) :
    Grows ρ t (t.put r) := by
  intro a ha
  by_cases hkey : key a = key r
  · exact ⟨r, mem_put_self t r, h a (hkey ▸ mem_iff_get?.mp ha)⟩
  · exact ⟨a, mem_put.mpr (Or.inr ⟨ha, hkey⟩), hρ a⟩

end Table

end Lib
