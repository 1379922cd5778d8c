import Orchestrator.Engine.Background
import Orchestrator.Transactions.Cancel

/-!
# Workers, the reaper and the relay

The statements of `ClaimTask`, of a heartbeat and of `ReapExpiredAttempts` commit
by themselves, and each of them is a sequence of calm actions. The relay marks the
messages that it has published in one transaction.
-/

namespace Orchestrator

open Lib Actions Program

/-- The kinds of actions of workers, of the reaper and of the relay. -/
def Kind.ofWorker : Kind → Bool
  | .define | .claim | .heartbeat | .expire | .running | .publish => true
  | _ => false

/-- An action of a worker, of the reaper or of the relay on some run. -/
def Quietly (l : Label) : Prop := l.kind.ofWorker = true

/-- Such an action is calm and cancels nothing. -/
theorem Quietly.calm {l : Label} (h : Quietly l) :
    l.kind.calm = true ∧ l.kind.cancels = false := by
  obtain ⟨run, kind⟩ := l
  cases kind <;> first | exact ⟨rfl, rfl⟩ | cases h

/-- Whatever the statement meets, it writes actions with labels in `C`. -/
def Query.Makes (C : Label → Prop) {β : Type} (op : Query β) : Prop :=
  ∀ d v, Base v → OnOk (backend.exec op d v) (fun r => engine.Steps C v r.2)

/-- An action of a worker or of the reaper. -/
def Attends (l : Label) : Prop := Quietly l ∧ l.kind ≠ .publish

/-- Whatever the statement meets, it writes actions of a worker or of the reaper. -/
abbrev Query.Harmless {β : Type} (op : Query β) : Prop := op.Makes Attends

theorem Query.Makes.mono {C C' : Label → Prop} {β : Type} {op : Query β} (h : op.Makes C)
    (hC : ∀ l, C l → C' l) : op.Makes C' := by
  intro d v hb
  have hop := h d v hb
  cases hexec : backend.exec op d v with
  | error e => trivial
  | ok r =>
    rw [hexec] at hop
    exact Steps.mono hop hC

/-- An action of `ClaimTask`. -/
def ByClaim (l : Label) : Prop := l.kind = .claim ∨ l.kind = .running

theorem ByClaim.attends {l : Label} (h : ByClaim l) : Attends l := by
  rcases h with h | h <;> rw [Attends, Quietly, h] <;> exact ⟨rfl, nofun⟩

theorem makes_claimTaskAttempt (attemptID key : UUID) (workerID : String) (leaseFor : ℕ) :
    (Query.claimTaskAttempt attemptID key workerID leaseFor).Makes ByClaim := by
  intro d v _
  cases ha : v.attempts.get? attemptID with
  | none =>
    simp only [backend_exec, Query.exec, ha, onOk_ok]
    exact .nil
  | some a =>
    simp only [backend_exec, Query.exec, ha]
    split_ifs with hst
    · exact Steps.one (Or.inl rfl) (.claim (Table.get?_key ha) hst.1)
    · exact .nil

theorem makes_start (id : UUID) :
    (Query.updateStepStatus id [.queued] .running none none false).Makes (·.kind = .running) := by
  intro d v _
  cases ht : v.steps.get? id with
  | none =>
    simp only [backend_exec, Query.exec, jsonb, ht]
    exact .nil
  | some t =>
    by_cases hst : t.status = .queued
    · have hexec : backend.exec (.updateStepStatus id [.queued] .running none none false) d v =
          .ok (true, [.step (t.transition .running none none false d.now)]) := by
        simp [Query.exec, jsonb, ht, hst]
        rfl
      rw [hexec]
      exact Steps.one (by rfl) (.running (Table.get?_key ht) hst)
    · have hexec : backend.exec (.updateStepStatus id [.queued] .running none none false) d v =
          .ok (false, []) := by
        simp [Query.exec, jsonb, ht, hst]
        rfl
      rw [hexec]
      exact .nil

theorem makes_heartbeat (attemptID : UUID) (workerID : String) (leaseFor : ℕ) :
    (Query.heartbeatTaskAttempt attemptID workerID leaseFor).Makes (·.kind = .heartbeat) := by
  intro d v _
  cases ha : v.attempts.get? attemptID with
  | none =>
    simp only [backend_exec, Query.exec, ha, onOk_ok]
    exact .nil
  | some a =>
    simp only [backend_exec, Query.exec, ha]
    split_ifs with hlease
    · simp only [TaskAttempt.leasedTo, Bool.and_eq_true, beq_iff_eq] at hlease
      exact Steps.one (by rfl) (.heartbeat (Table.get?_key ha) hlease.1)
    · exact .nil

theorem harmless_heartbeat (attemptID : UUID) (workerID : String) (leaseFor : ℕ) :
    (Query.heartbeatTaskAttempt attemptID workerID leaseFor).Harmless :=
  (makes_heartbeat attemptID workerID leaseFor).mono (fun l hl => by
    rw [Attends, Quietly, hl]
    exact ⟨rfl, nofun⟩)

/-- Leased attempts can be marked as expired one after the other. -/
theorem steps_expire {v : Db} {now : Time} {due : List TaskAttempt}
    (hnodup : (due.map (·.id)).Nodup)
    (hdue : ∀ a ∈ due, v.attempts.get? a.id = some a ∧ a.status = .leased) :
    engine.Steps Attends v ((due.map (fun a => a.expire now)).map .attempt) := by
  induction due using List.reverseRecOn with
  | nil => exact .nil
  | append_singleton due a ih =>
    rw [List.map_append, List.nodup_append] at hnodup
    obtain ⟨hnodup, -, hne⟩ := hnodup
    rw [List.map_append, List.map_append]
    refine Steps.snoc (l := ⟨a.workflowRunID, .expire⟩)
      (ih hnodup (fun x hx => hdue x (List.mem_append_left _ hx))) ⟨rfl, nofun⟩ ?_
    obtain ⟨ha, hst⟩ := hdue a (by simp)
    have hsame : (Lock.attempt a.id).Same v
        (backend.applyAll v ((due.map (fun a => a.expire now)).map .attempt)) := by
      refine same_applyAll v (fun hk => ?_)
      obtain ⟨x, hx, hk⟩ := List.mem_flatMap.mp hk
      simp only [List.map_map, List.mem_map, Function.comp_apply] at hx
      obtain ⟨b, hb, rfl⟩ := hx
      refine hne b.id (List.mem_map_of_mem hb) a.id (by simp) ?_
      simpa [eq_comm] using hk
    exact Act.expire (Eq.trans hsame ha) hst

/-- The attempts that `ReapExpiredAttempts` picks are different ones, and leased. -/
theorem leased_of_due (limit : ℕ) (d : Draw) (v : Db) {due : List TaskAttempt}
    (hdue : due = (d.shuffle (v.attempts.rows.filter (fun a => a.leaseExpired d.now))).take limit) :
    (due.map (·.id)).Nodup ∧ ∀ a ∈ due, v.attempts.get? a.id = some a ∧ a.status = .leased := by
  subst hdue
  have hsub := List.take_sublist limit
    (d.shuffle (v.attempts.rows.filter (fun a => a.leaseExpired d.now)))
  have hperm := d.shuffle_perm (v.attempts.rows.filter (fun a => a.leaseExpired d.now))
  refine ⟨?_, fun a ha => ?_⟩
  · refine List.Nodup.sublist (hsub.map _) (((hperm.map _).nodup_iff).mpr ?_)
    exact v.attempts.nodup_keys.sublist (List.Sublist.map _ List.filter_sublist)
  · obtain ⟨hmem, hdue⟩ := List.mem_filter.mp (hperm.mem_iff.mp (hsub.subset ha))
    simp only [TaskAttempt.leaseExpired, Bool.and_eq_true, beq_iff_eq] at hdue
    exact ⟨Table.mem_iff_get?.mp hmem, hdue.1⟩

theorem harmless_reap (limit : ℕ) : (Query.reapExpiredAttempts limit).Harmless := by
  intro d v _
  obtain ⟨hnodup, hleased⟩ := leased_of_due limit d v rfl
  exact steps_expire hnodup hleased

theorem makes_publish (id : ℕ) : (Query.markOutboxPublished id).Makes (·.kind = .publish) := by
  intro d v _
  cases hm : v.outbox.get? id with
  | none =>
    simp only [backend_exec, Query.exec, hm, onOk_ok]
    exact .nil
  | some m =>
    simp only [backend_exec, Query.exec, hm, onOk_ok]
    exact Steps.one (by rfl) (.publish (Table.get?_key hm))

/-- A tick of the relay only marks messages as published. -/
theorem relayTick_makes (shardIDs : Option (List ℕ)) (batchSize : ℕ) :
    (relayTick shardIDs batchSize).Calls (Query.Makes (·.kind = .publish)) := by
  refine Calls.bind (p := (Query.fetchAndLockPendingOutbox shardIDs batchSize).issue)
    ⟨fun _ _ _ => .nil, fun _ => trivial⟩ (fun rows => Calls.bind (Calls.foldlM ?_ ())
      (fun _ => trivial))
  exact fun _ row _ => ⟨makes_publish row.id, fun _ => trivial⟩

/-- `ClaimTask` leases an attempt and starts its step. -/
theorem claimTask_makes (leaseDuration : ℕ) (attemptID key : UUID) (workerID : String) :
    (claimTask leaseDuration attemptID key workerID).Calls (Query.Makes ByClaim) := by
  unfold claimTask
  split_ifs
  · trivial
  · refine ⟨makes_claimTaskAttempt _ _ _ _, fun answer => ?_⟩
    rcases answer with ⟨attempt | attempt, result⟩ <;> cases result
    all_goals try trivial
    refine ⟨fun _ _ _ => .nil, fun step => ?_⟩
    cases step with
    | none => trivial
    | some step =>
      refine ⟨fun _ _ _ => .nil, fun run => ?_⟩
      cases run with
      | none => trivial
      | some run =>
        change Calls (Query.Makes ByClaim)
          (if run.status = .cancelled then pure ClaimStatus.cancelled else _ : Prog ClaimStatus)
        split_ifs
        · trivial
        · exact ⟨(makes_start step.id).mono (fun _ => Or.inr), fun _ => trivial⟩

/-- Every statement of `ClaimTask` is harmless. -/
theorem claimTask_harmless (leaseDuration : ℕ) (attemptID key : UUID) (workerID : String) :
    (claimTask leaseDuration attemptID key workerID).Calls Query.Harmless :=
  (claimTask_makes leaseDuration attemptID key workerID).mono
    (fun _ h => h.mono (fun _ hl => hl.attends))

end Orchestrator
