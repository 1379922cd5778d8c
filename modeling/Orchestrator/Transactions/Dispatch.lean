import Orchestrator.Transactions.Skips

/-!
# Dispatch of one step

`dispatchStep` inserts the attempt before it looks at the status of the step. The
insertion succeeds only if no attempt of that number exists, so the copy of the
step counts its attempts correctly. When the status has changed meanwhile, the
transaction fails and the insertion is undone.
-/

namespace Orchestrator

open Lib Actions

/-- An attempt has been inserted. -/
def Attempted (F : Db → Prop) (run : WorkflowRun) (s : Step) (a : TaskAttempt) (v : Db)
    (ws : List Write) : Prop :=
  ws = [.attempt a] ∧ F v ∧ v.attempts.get? a.id = none ∧
    v.NoAttempt s.id (s.attemptCount + 1) ∧ ∃ id key now,
      a = newAttempt id s.id run.id (s.attemptCount + 1) key (queueName s.taskType) now

/-- The message of the attempt has been inserted too. -/
def Announced (F : Db → Prop) (run : WorkflowRun) (s : Step) (a : TaskAttempt)
    (msg : NewOutboxMessage) (v : Db) (ws : List Write) : Prop :=
  ∃ messageID now, ws = [.attempt a, .outbox (newMessage messageID msg now)] ∧
    v.outbox.get? messageID = none ∧ Attempted F run s a v [.attempt a]

section

variable {A C : Label → Prop} {Err : Error → Prop} {H H' : List Lock} {Q : Db → Prop}
  {run : WorkflowRun} {F G : Db → Prop} {s : Step} {a : TaskAttempt} {msg : NewOutboxMessage}

theorem Attempted.robust (hF : engine.Robust A H (fun v _ => F v)) :
    engine.Robust A H (Attempted F run s a) := by
  rintro v ws l u hb hl hact hdisj hH ⟨rfl, hFv, hnew, hslot, id, key, now, rfl⟩
  have hsame : ∀ k ∈ backend.locksOf [.attempt (newAttempt id s.id run.id (s.attemptCount + 1) key
      (queueName s.taskType) now)], k.Same v (backend.applyAll v u) :=
    fun k hk => same_applyAll v (fun hk' => hdisj hk' hk)
  exact ⟨rfl, hF v [] l u hb hl hact (by simp) hH hFv,
    Eq.trans (hsame (.attempt id) (by simp [newAttempt])) hnew,
    hsame (.slot s.id (s.attemptCount + 1)) (by simp [newAttempt]) hslot, id, key, now, rfl⟩

theorem Announced.robust (hF : engine.Robust A H (fun v _ => F v)) :
    engine.Robust A H (Announced F run s a msg) := by
  rintro v ws l u hb hl hact hdisj hH ⟨messageID, now, rfl, hnew, hatt⟩
  refine ⟨messageID, now, rfl, ?_, Attempted.robust hF v _ l u hb hl hact ?_ hH hatt⟩
  · have hsame : (Lock.outbox messageID).Same v (backend.applyAll v u) :=
      same_applyAll v (fun hk => hdisj hk (by simp [newMessage]))
    exact Eq.trans hsame hnew
  · intro k hk hk'
    exact hdisj hk (by simp only [locksOf_cons, List.mem_append] at hk' ⊢; tauto)

theorem Announced.aside {v : Db} {ws : List Write} (h : Announced F run s a msg v ws) :
    Aside ws := by
  obtain ⟨messageID, now, rfl, -⟩ := h
  exact fun v => ⟨rfl, rfl⟩

/-- What a caller of `dispatchStep` knows about the step. In a quiet run its copy
is up to date. -/
structure CanDispatch (Q : Db → Prop) (run : WorkflowRun) (s : Step) (expected : List StepStatus)
    (F : Db → Prop) : Prop where
  owner : s.workflowRunID = run.id
  row : ∀ v, Base v → F v → ∃ r, v.runs.get? run.id = some r ∧ r.shardID = run.shardID
  step : ∀ v, Base v → F v → ∃ t, v.steps.get? s.id = some t ∧ s.Copies t ∧
    (Q v → s.Mirrors t ∧ t.status ∈ expected)
  allowed : ∀ v t, Base v → F v → v.steps.get? s.id = some t → t.status ∈ expected →
    Dispatchable v.steps t

/-- No attempt has the next number, so the copy counts the attempts correctly. -/
theorem count_of_noAttempt {v : Db} (hb : Base v) {t : Step} (ht : v.steps.get? s.id = some t)
    (hcopy : s.Copies t) (hslot : v.NoAttempt s.id (s.attemptCount + 1)) :
    t.attemptCount = s.attemptCount := by
  refine le_antisymm (not_lt.mp (fun hlt => ?_)) hcopy.count
  obtain ⟨a, ha, haid, hnum⟩ :=
    (hb.ledger.numbers t (Table.mem_of_get? ht) (s.attemptCount + 1)).mpr ⟨by omega, hlt⟩
  exact hslot a ha (haid.trans (Step.id_of_info hcopy.info)) hnum

/-- Where the copy counts the attempts correctly, no attempt has the next
number. -/
theorem noAttempt_of_count {v : Db} (hb : Base v) {t : Step} (ht : v.steps.get? s.id = some t)
    (hcount : t.attemptCount = s.attemptCount) : v.NoAttempt s.id (s.attemptCount + 1) := by
  intro a ha haid hnum
  have hbound := hb.ledger.number_bounds ha (haid.symm ▸ ht)
  omega

/-- The writes of `dispatchStep` are a dispatch. -/
theorem Announced.act {expected : List StepStatus} (hcan : CanDispatch Q run s expected F) {v : Db}
    {ws : List Write} (hb : Base v)
    (h : Announced F run s a (taskMessage run s a) v ws) {t : Step} {r : WorkflowRun}
    (ht : v.steps.get? s.id = some t) (hst : t.status ∈ expected)
    (hr : v.runs.get? run.id = some r) (now now' : Time) :
    Act ⟨run.id, .dispatch⟩ v (ws ++ .step (t.transition .queued none none true now) ::
      historyWrites r .stepDispatched (some (dispatchedDocument s)) now') := by
  obtain ⟨messageID, now₁, rfl, hmsg, -, hF, hnew, hslot, id, key, now₀, rfl⟩ := h
  obtain ⟨t₀, ht₀, hcopy, -⟩ := hcan.step v hb hF
  obtain rfl : t₀ = t := Option.some.inj (ht₀.symm.trans ht)
  obtain ⟨r₀, hr₀, hshard⟩ := hcan.row v hb hF
  obtain rfl : r₀ = r := Option.some.inj (hr₀.symm.trans hr)
  have hrun : t₀.workflowRunID = run.id := (Step.run_of_info hcopy.info).trans hcan.owner
  have hcount := count_of_noAttempt hb ht hcopy hslot
  have hatt : newAttempt id s.id run.id (s.attemptCount + 1) key (queueName s.taskType) now₀ =
      newAttempt id t₀.id t₀.workflowRunID (t₀.attemptCount + 1) key (queueName t₀.taskType)
        now₀ := by
    rw [Step.id_of_info hcopy.info, hrun, hcount, Step.type_of_info hcopy.info]
  have htask : ∀ a, taskMessage run s a = taskMessage r₀ t₀ a := fun a => by
    simp only [taskMessage, hshard, Step.id_of_info hcopy.info, Step.run_of_info hcopy.info,
      Step.name_of_info hcopy.info, Step.type_of_info hcopy.info, Step.input_of_info hcopy.info,
      Step.timeout_of_info hcopy.info]
  have hdoc : dispatchedDocument s = dispatchedDocument t₀ := by
    rw [dispatchedDocument, dispatchedDocument, hcount, Step.name_of_info hcopy.info,
      Step.type_of_info hcopy.info]
  rw [htask, hatt, hdoc, ← hrun]
  refine .dispatch (Table.get?_key ht) (hcan.allowed v t₀ hb hF ht hst) hnew ?_ hmsg
    (hrun.symm ▸ hr)
  rw [Step.id_of_info hcopy.info, hcount]
  exact hslot

/-- The insertion of the attempt. It conflicts only if the copy is out of date. -/
theorem createAttempt_spec {expected : List StepStatus} (herr : ∀ v, ¬ Q v → ∀ e, Err e)
    (hF : engine.Robust A H (fun v _ => F v)) (hcan : CanDispatch Q run s expected F) :
    engine.Triple A C Err H (fun v ws => ws = [] ∧ F v)
      (Query.createTaskAttempt s.id run.id (s.attemptCount + 1) (queueName s.taskType)).issue H
      (fun a => Attempted F run s a) := by
  refine statement_rule (fun a => Attempted.robust hF) ?_
  rintro v ws d hb ⟨rfl, hFv⟩ hadm
  obtain ⟨t, ht, hcopy, hmirror⟩ := hcan.step v hb hFv
  obtain ⟨r, hr, -⟩ := hcan.row v hb hFv
  by_cases hslot : v.NoAttempt s.id (s.attemptCount + 1)
  · refine Or.inr ⟨newAttempt d.uuid s.id run.id (s.attemptCount + 1) d.key (queueName s.taskType)
      d.now, _, ?_, .begin ⟨rfl, hFv, by simpa [Query.admits, newAttempt] using hadm, hslot,
        _, _, _, rfl⟩⟩
    simp [Query.exec, hslot, ht, hr]
  · refine Or.inl ⟨.conflict, by simp [Query.exec, hslot], herr v (fun hq => hslot ?_) _⟩
    exact noAttempt_of_count hb ht (hmirror hq).1.count

/-- `dispatchStep`. It fails only if the copy of the step is out of date. -/
theorem dispatchStep_spec {expected : List StepStatus}
    (hback : ∀ {v v' : Db}, v.Evolves v' → Q v' → Q v) (herr : ∀ v, ¬ Q v → ∀ e, Err e)
    (hF : engine.Robust A H (fun v _ => F v)) (hG : engine.Robust A H' (fun v _ => G v))
    (hcan : CanDispatch Q run s expected F) (hC : C ⟨run.id, .dispatch⟩)
    (hH : H' ⊆ Lock.run run.id :: H)
    (hact : ∀ v us t r now payload now', Base v → F v → v.steps.get? s.id = some t →
      t.status ∈ expected → v.runs.get? run.id = some r → Aside us →
      Act ⟨run.id, .dispatch⟩ v (us ++ .step (t.transition .queued none none true now) ::
        historyWrites r .stepDispatched payload now') →
      G (backend.applyAll v (us ++ .step (t.transition .queued none none true now) ::
        historyWrites r .stepDispatched payload now'))) :
    engine.Triple A C Err H (fun v ws => ws = [] ∧ F v) (dispatchStep run s expected) H'
      (fun s' v ws => s' = { s with status := .queued, attemptCount := s.attemptCount + 1 } ∧
        ws = [] ∧ G v) := by
  unfold dispatchStep
  refine Triple.bind (createAttempt_spec herr hF hcan) (fun a => ?_)
  by_cases hinput : s.input.IsValid
  · simp only [hinput, not_true_eq_false, if_false]
    refine Triple.bind (statement_rule (fun _ => (Announced.robust hF :
      engine.Robust A H (Announced F run s a (taskMessage run s a)))) ?_) (fun _ => ?_)
    · rintro v ws d hb hatt hadm
      obtain ⟨rfl, hFv, hnew, hslot, id, key, now, rfl⟩ := hatt
      refine Or.inr ⟨d.uuid, _, rfl, .begin ⟨d.uuid, d.now, ?_, by simpa [Query.admits] using hadm,
        rfl, hFv, hnew, hslot, id, key, now, rfl⟩⟩
      simp [taskMessage, newAttempt, hcan.owner]
    · refine Triple.bind (changeStep_rule (G := fun v _ => ¬ Q v)
        RawMessage.isValid_of_none (Announced.robust hF)
        (robust_of_evolves (fun v v' ws _ hev _ hnot hq => hnot (hback hev hq)))
        (fun _ _ h => h.aside) ?_) (fun ok => ?_)
      · rintro v ws hb ⟨messageID, now, -, -, -, hFv, -⟩ hnot
        refine .begin (fun hq => ?_)
        obtain ⟨t, ht, -, hmirror⟩ := hcan.step v hb hFv
        exact hnot t ht (hmirror hq).2
      · cases ok with
        | false => exact Triple.fail (fun v ws _ hnot => herr v hnot _)
        | true =>
          refine Triple.bind (changed_rule ((Robust.pure (· = [])).and hG) (fun _ _ h => h.aside)
            ?_ ?_) (fun _ => Triple.ret (List.Subset.refl _) (fun v ws _ hGv => ⟨rfl, hGv⟩))
          · rintro v ws hb ⟨messageID, now, -, -, -, hFv, -⟩
            exact (hcan.row v hb hFv).imp (fun _ h => h.1)
          · rintro v ws t r now now' hb hann ht hst hr
            have hdispatch := hann.act hcan hb ht hst hr
            have haside := hann.aside
            obtain ⟨messageID, now₁, -, -, -, hFv, -⟩ := hann
            refine .lock hC (hdispatch now now') (List.Subset.trans hH ?_) ⟨rfl,
              hact v ws t r now _ now' hb hFv ht hst hr haside (hdispatch now now')⟩
            intro k hk
            rcases List.mem_cons.mp hk with rfl | hk
            · simp [Table.key_of_get? hr]
            · exact List.mem_append_left _ hk
  · simp only [hinput, not_false_eq_true, if_true]
    refine Triple.absurd ?_
    rintro v ws hb ⟨rfl, hFv, -⟩
    obtain ⟨t, ht, hcopy, -⟩ := hcan.step v hb hFv
    exact hinput (Step.input_of_info hcopy.info ▸
      (hb.ledger.row t (Table.mem_of_get? ht)).input)

end

end Orchestrator
