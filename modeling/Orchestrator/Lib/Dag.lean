import Mathlib.Data.List.Basic
import Mathlib.Order.WellFounded

/-!
# Dependency orders

A list of nodes in which everything that a node depends on stands after it, as a
depth-first search produces it when finished nodes are put in front. Such a list
ranks the nodes, so a minimal node of any kind exists and properties that pass
from a node to one of its dependencies cannot hold anywhere.
-/

namespace Lib

variable {α : Type} (deps : α → List α)

/-- Every dependency of a node stands after it. -/
inductive Topological : List α → Prop
  | nil : Topological []
  | cons {n : α} {l : List α} : (∀ d ∈ deps n, d ∈ l) → n ∉ l → Topological l →
      Topological (n :: l)

variable {deps}

/-- A dependency has a larger index. -/
theorem Topological.idxOf_lt [DecidableEq α] {l : List α} (h : Topological deps l) {n d : α}
    (hn : n ∈ l) (hd : d ∈ deps n) : d ∈ l ∧ l.idxOf n < l.idxOf d := by
  induction h with
  | nil => cases hn
  | @cons m l hdeps hm _ ih =>
    rcases List.mem_cons.mp hn with rfl | hn
    · have hdl := hdeps d hd
      have hne : n ≠ d := fun heq => hm (heq ▸ hdl)
      refine ⟨List.mem_cons_of_mem _ hdl, ?_⟩
      rw [List.idxOf_cons_self, List.idxOf_cons_ne _ hne]
      exact Nat.succ_pos _
    · obtain ⟨hdl, hlt⟩ := ih hn
      have hmn : m ≠ n := fun heq => hm (heq ▸ hn)
      have hmd : m ≠ d := fun heq => hm (heq ▸ hdl)
      refine ⟨List.mem_cons_of_mem _ hdl, ?_⟩
      rw [List.idxOf_cons_ne _ hmn, List.idxOf_cons_ne _ hmd]
      exact Nat.succ_lt_succ hlt

/-- The nodes of the list can be ranked. -/
theorem Topological.exists_rank [DecidableEq α] {l : List α} (h : Topological deps l) :
    ∃ rank : α → ℕ, ∀ n ∈ l, ∀ d ∈ deps n, rank d < rank n := by
  refine ⟨fun n => l.length - l.idxOf n, fun n hn d hd => ?_⟩
  obtain ⟨hdl, hlt⟩ := h.idxOf_lt hn hd
  have hlen := List.idxOf_lt_length_of_mem hdl
  exact Nat.sub_lt_sub_left (hlt.trans hlen) hlt

/-- A property that holds somewhere holds at a node of least rank. -/
theorem exists_least_rank {P : α → Prop} (rank : α → ℕ) (h : ∃ n, P n) :
    ∃ n, P n ∧ ∀ m, P m → rank n ≤ rank m := by
  obtain ⟨n, hn, hmin⟩ := (measure rank).wf.has_min {n | P n} h
  exact ⟨n, hn, fun m hm => Nat.le_of_not_lt (hmin m hm)⟩

/-- The nodes that go through: everything that such a node depends on does, and it is
good itself. -/
inductive GoesThrough (deps : α → List α) (good : α → Prop) : α → Prop
  | intro {n : α} : (∀ d ∈ deps n, GoesThrough deps good d) → good n → GoesThrough deps good n

variable {good : α → Prop}

theorem goesThrough_iff {n : α} :
    GoesThrough deps good n ↔ (∀ d ∈ deps n, GoesThrough deps good d) ∧ good n := by
  constructor
  · rintro ⟨hdeps, hgood⟩
    exact ⟨hdeps, hgood⟩
  · rintro ⟨hdeps, hgood⟩
    exact .intro hdeps hgood

end Lib
