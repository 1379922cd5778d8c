import Orchestrator.Engine.Background

/-!
# The recovery sweep

`RecoverShards` is meant to reconcile every run that has not ended, of all shards
if it is given no list. The memory store and the other shard filters of the Postgres
store agree with that. The Postgres `ListRunningRunsForShards` does so for every
list that is given, and finds nothing if none is.
-/

namespace Orchestrator

open Lib

/-- What the filters of the other queries select. -/
theorem rowsShardFilter_eq_true (shardIDs : Option (List ℕ)) (shardID : ℕ) :
    rowsShardFilter shardIDs shardID = some true ↔ shardSelected shardIDs shardID = true := by
  cases shardIDs with
  | none => simp [rowsShardFilter, intSliceOrNil, sqlOr, shardSelected]
  | some ids =>
    have hor : ∀ b : Bool, sqlOr (some false) (some b) = some true ↔ b = true := by decide
    exact hor (ids.contains shardID)

/-- What the filter on runs selects: nothing, if no list is given. -/
theorem runsShardFilter_eq_true (nilAsNull : Bool) (shardIDs : Option (List ℕ)) (shardID : ℕ) :
    runsShardFilter nilAsNull shardIDs shardID = some true ↔
      shardIDs ≠ none ∧ shardSelected shardIDs shardID = true := by
  cases shardIDs with
  | none => cases nilAsNull <;> simp [runsShardFilter, pgxInts, sqlAny]
  | some ids => simp [runsShardFilter, pgxInts, sqlAny, shardSelected]

/-- What the recovery sweep needs of the Postgres store. -/
structure Covers (nilAsNull : Bool) (shardIDs : Option (List ℕ)) (v : Db) : Prop where
  /-- The runs listed are those of the shards given that have not ended. -/
  exact_runs : ∀ r, r ∈ Postgres.listRunningRunsForShards nilAsNull shardIDs v ↔
    r ∈ v.runs ∧ (r.status = .pending ∨ r.status = .running) ∧
      (∀ ids, shardIDs = some ids → r.shardID ∈ ids)
  /-- The memory store lists the same runs. -/
  memory : ∀ r, r ∈ Postgres.listRunningRunsForShards nilAsNull shardIDs v ↔
    r ∈ Memory.listRunningRunsForShards shardIDs v
  /-- The filter means what the filters on outbox rows and timers mean. -/
  filters : ∀ shardID, runsShardFilter nilAsNull shardIDs shardID = some true ↔
    rowsShardFilter shardIDs shardID = some true
  /-- Without a list the sweep reconciles every run that has not ended. -/
  sweep : shardIDs = none → ∀ ω, ∀ r ∈ v.runs, runTerminal r.status = false →
    r.id ∈ (recoverShards (Postgres.listRunningRunsForShards nilAsNull) shardIDs ω v).1

/-- The Postgres store does what the sweep needs just if a list is given. -/
theorem covers_iff (nilAsNull : Bool) (shardIDs : Option (List ℕ)) (v : Db) :
    Covers nilAsNull shardIDs v ↔ shardIDs ≠ none := by
  constructor
  · rintro h rfl
    have hrow := (rowsShardFilter_eq_true none 0).mpr rfl
    exact ((runsShardFilter_eq_true nilAsNull none 0).mp ((h.filters 0).mpr hrow)).1 rfl
  · intro hne
    obtain ⟨ids, rfl⟩ := Option.ne_none_iff_exists'.mp hne
    have hmem : ∀ r, r ∈ Postgres.listRunningRunsForShards nilAsNull (some ids) v ↔
        r ∈ v.runs ∧ (r.status = .pending ∨ r.status = .running) ∧ r.shardID ∈ ids := by
      intro r
      rw [Postgres.listRunningRunsForShards, List.mem_filter, decide_eq_true_eq,
        runsShardFilter_eq_true]
      simp only [List.mem_cons, List.not_mem_nil, or_false, shardSelected, Option.all_some,
        List.contains_iff_mem]
      exact and_congr_right (fun _ => and_congr_right (fun _ => by simp))
    refine ⟨fun r => ?_, fun r => ?_, fun shardID => ?_, (fun h => by cases h)⟩
    · rw [hmem]
      simp
    · rw [hmem, Memory.listRunningRunsForShards, List.mem_filter]
      refine and_congr_right (fun _ => ?_)
      by_cases hst : r.status = .pending ∨ r.status = .running
      · have hlive : ¬ (r.status ≠ .pending ∧ r.status ≠ .running) := by tauto
        simp [hst, hlive]
      · obtain ⟨hp, hr⟩ := not_or.mp hst
        simp [hp, hr]
    · rw [runsShardFilter_eq_true, rowsShardFilter_eq_true]
      simp

/-- A store with one run that has not ended. -/
def oneRunning : Db :=
  { Db.empty with runs := Table.empty.put (newRun 1 0 "wf" 1 0 .emptyObject 0) }

/-- Without a list, the Postgres store finds nothing and the memory store finds the
run, however the argument arrives. -/
theorem sweep_finds_nothing :
    (Postgres.listRunningRunsForShards true none oneRunning).length = 0 ∧
    (Postgres.listRunningRunsForShards false none oneRunning).length = 0 ∧
    (Memory.listRunningRunsForShards none oneRunning).map (·.id) = [1] ∧
    oneRunning.runs.rows.map (fun r => runTerminal r.status) = [false] := by
  decide +kernel

end Orchestrator
