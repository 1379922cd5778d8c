import Orchestrator.Invariant.Calm

/-!
# Rules for statements

A rule for each kind of statement, with the conditions under which its writes
begin, continue or complete an action. Assertions must survive what other
transactions commit meanwhile. `Quiet` says that these leave a run alone, as far
as `Q` is true: `Q` is true throughout when a transaction runs by itself, and
false throughout when nothing is known.
-/

namespace Orchestrator

open Lib Actions

/-- While the locks `H` are held, nothing happens to a run in states where `Q`
holds. -/
structure Quiet (A : Label → Prop) (H : List Lock) (runID : UUID) (Q : Db → Prop) : Prop where
  back : ∀ {v v' : Db}, v.Evolves v' → Q v' → Q v
  calm : ∀ {l : Label} {v : Db} {u : List Write}, Base v → A l → Act l v u →
    (backend.locksOf u).Disjoint H → Q v → Calm runID v (backend.applyAll v u)

variable {A C : Label → Prop} {Err : Error → Prop} {H H' : List Lock} {runID : UUID}
  {Q : Db → Prop} {F : Db → List Write → Prop}

/-- An assertion that passes to every later state with the same locked rows is
robust. -/
theorem robust_of_evolves (h : ∀ v v' ws, Base v → v.Evolves v' →
    (∀ k ∈ backend.locksOf ws, k.Same v v') → F v ws → F v' ws) : engine.Robust A H F := by
  intro v ws l u hb _ hact hdisj _ hF
  exact h v _ ws hb (Act.evolves hact) (fun k hk => same_applyAll v (fun hk' => hdisj hk' hk)) hF

/-- An assertion that passes to every later state in which nothing has happened
to the run is robust where the run is quiet. -/
theorem Quiet.robust (hQ : Quiet A H runID Q) (h : ∀ v v' ws, Base v → v.Evolves v' →
    (∀ k ∈ backend.locksOf ws, k.Same v v') → (Q v' → Q v ∧ Calm runID v v') →
    F v ws → F v' ws) : engine.Robust A H F := by
  intro v ws l u hb hl hact hdisj hH hF
  have hev := Act.evolves hact
  refine h v _ ws hb hev (fun k hk => same_applyAll v (fun hk' => hdisj hk' hk)) (fun hq => ?_) hF
  exact ⟨hQ.back hev hq, hQ.calm hb hl hact hH (hQ.back hev hq)⟩

section Statements

variable {β : Type}

/-- A statement that answers `a` and writes `us`, or fails as permitted. -/
theorem statement_rule {op : Query β} {F' : β → Db → List Write → Prop}
    (hF' : ∀ a, engine.Robust A H' (F' a))
    (h : ∀ v ws d, Base v → F v ws → backend.admits op d (backend.applyAll v ws) →
      (∃ e, backend.exec op d (backend.applyAll v ws) = .error e ∧ Err e) ∨
      ∃ a us, backend.exec op d (backend.applyAll v ws) = .ok (a, us) ∧
        engine.Lands C H H' (F' a) v (ws ++ us)) :
    engine.Triple A C Err H F op.issue H' F' := by
  refine Triple.call hF' (fun v ws d hb hF hadm => ?_)
  rcases h v ws d hb hF hadm with ⟨e, hexec, herr⟩ | ⟨a, us, hexec, hland⟩
  · rw [hexec]
    exact herr
  · rw [hexec]
    exact hland

/-- A statement that writes nothing. -/
theorem read_rule {op : Query β} (answer : Draw → Db → β)
    (hexec : ∀ d v, backend.exec op d v = .ok (answer d v, []))
    {F' : β → Db → List Write → Prop} (hF' : ∀ a, engine.Robust A H (F' a))
    (h : ∀ v ws d, Base v → F v ws → F' (answer d (backend.applyAll v ws)) v ws) :
    engine.Triple A C Err H F op.issue H F' := by
  refine statement_rule hF' (fun v ws d hb hF _ => Or.inr ⟨_, [], hexec d _, .begin ?_⟩)
  simpa using h v ws d hb hF

/-- The lookup of a row. -/
theorem lookup_rule {op : Query (Option β)} (find : Draw → Db → Option β)
    (hexec : ∀ d v, backend.exec op d v = .ok (find d v, []))
    {F' : β → Db → List Write → Prop} (hF' : ∀ a, engine.Robust A H (F' a))
    (h : ∀ v ws d, Base v → F v ws → (find d (backend.applyAll v ws) = none ∧ Err .notFound) ∨
      ∃ a, find d (backend.applyAll v ws) = some a ∧ F' a v ws) :
    engine.Triple A C Err H F (do orNotFound (← op.issue)) H F' := by
  have hread : engine.Triple A C Err H F op.issue H (fun o v ws =>
      (o = none ∧ Err .notFound) ∨ ∃ a, o = some a ∧ F' a v ws) := by
    refine read_rule find hexec (fun o => ?_) h
    intro v ws l u hb hl hact hdisj hH hF
    refine hF.imp_right ?_
    rintro ⟨a, ha, hF⟩
    exact ⟨a, ha, hF' a v ws l u hb hl hact hdisj hH hF⟩
  refine Triple.bind hread (fun o => ?_)
  cases o with
  | none =>
    refine Triple.fail (fun v ws _ hF => ?_)
    rcases hF with ⟨-, herr⟩ | ⟨a, ha, -⟩
    · exact herr
    · cases ha
  | some a =>
    refine Triple.ret (List.Subset.refl _) (fun v ws _ hF => ?_)
    rcases hF with ⟨ha, -⟩ | ⟨a', ha, hF⟩
    · cases ha
    · cases ha
      exact hF

/-- No row has the name and the version. -/
theorem noDefinition_of_any {v : Db} {name : String} {version : ℤ}
    (h : ¬ v.definitions.rows.any (fun r => r.name == name && r.version == version) = true) :
    v.NoDefinition name version := by
  intro d hd hname hversion
  exact h (List.any_eq_true.mpr ⟨d, hd, by simp [hname, hversion]⟩)

/-- A document can be stored. -/
theorem jsonb_of_valid {m : Option RawMessage} (h : ∀ o, m = some o → o.IsValid) :
    jsonb m = .ok m := by
  rcases m with _ | (x | x)
  · rfl
  · rfl
  · exact (h _ rfl).elim

/-- What can be stored is a document, and is stored as it is. -/
theorem jsonb_eq_error {m : Option RawMessage} {e : Error} (h : jsonb m = .error e) :
    e = .invalidJSON := by
  rcases m with _ | (x | x) <;> cases h
  rfl

theorem jsonb_eq_ok {m m' : Option RawMessage} (h : jsonb m = .ok m') :
    m' = m ∧ ∀ o, m = some o → o.IsValid := by
  rcases m with _ | (x | x)
  · cases h
    exact ⟨rfl, RawMessage.isValid_of_none⟩
  · cases h
    refine ⟨rfl, fun o ho => ?_⟩
    cases ho
    trivial
  · cases h

/-- What a compare-and-set statement does: the update of the row found if it meets
the condition, and nothing otherwise. -/
theorem compareAndSet_rule {α : Type} {op : Query β} (find : Db → Option α) (cond : α → Prop)
    (yes : Draw → α → β × List Write) (no : β)
    (hyes : ∀ d v a, find v = some a → cond a → backend.exec op d v = .ok (yes d a))
    (hno : ∀ d v, (∀ a, find v = some a → ¬ cond a) → backend.exec op d v = .ok (no, []))
    {F' : β → Db → List Write → Prop} (hF' : ∀ a, engine.Robust A H' (F' a))
    (hset : ∀ v ws a d, Base v → F v ws → find (backend.applyAll v ws) = some a → cond a →
      backend.admits op d (backend.applyAll v ws) →
      engine.Lands C H H' (F' (yes d a).1) v (ws ++ (yes d a).2))
    (hkeep : ∀ v ws, Base v → F v ws → (∀ a, find (backend.applyAll v ws) = some a → ¬ cond a) →
      engine.Lands C H H' (F' no) v ws) :
    engine.Triple A C Err H F op.issue H' F' := by
  refine statement_rule hF' (fun v ws d hb hF hadm => Or.inr ?_)
  by_cases hcond : ∃ a, find (backend.applyAll v ws) = some a ∧ cond a
  · obtain ⟨a, ha, hc⟩ := hcond
    exact ⟨_, _, hyes d _ a ha hc, hset v ws a d hb hF ha hc hadm⟩
  · have hnot : ∀ a, find (backend.applyAll v ws) = some a → ¬ cond a :=
      fun a ha hc => hcond ⟨a, ha, hc⟩
    exact ⟨no, [], hno d _ hnot, by simpa using hkeep v ws hb hF hnot⟩

/-- `UpdateStepStatus`: the update of the row if its status is one of those
expected. -/
theorem updateStep_rule {id : UUID} {expected : List StepStatus} {next : StepStatus}
    {output : Option RawMessage} {errMsg : Option String} {bump : Bool}
    (hvalid : ∀ o, output = some o → o.IsValid) {F' : Bool → Db → List Write → Prop}
    (hF' : ∀ b, engine.Robust A H' (F' b))
    (hyes : ∀ v ws t now, Base v → F v ws → (backend.applyAll v ws).steps.get? id = some t →
      t.status ∈ expected → engine.Lands C H H' (F' true) v
        (ws ++ [.step (t.transition next output errMsg bump now)]))
    (hno : ∀ v ws, Base v → F v ws →
      (∀ t, (backend.applyAll v ws).steps.get? id = some t → t.status ∉ expected) →
      engine.Lands C H H' (F' false) v ws) :
    engine.Triple A C Err H F
      (Query.updateStepStatus id expected next output errMsg bump).issue H' F' := by
  refine compareAndSet_rule (fun v => v.steps.get? id) (fun t => t.status ∈ expected)
    (fun d t => (true, [.step (t.transition next output errMsg bump d.now)])) false
    (fun d v t ht hst => ?_) (fun d v hnot => ?_) hF'
    (fun v ws t d hb hF ht hst _ => hyes v ws t d.now hb hF ht hst) hno
  · simp [Query.exec, jsonb_of_valid hvalid, ht, hst]
    rfl
  · cases ht : v.steps.get? id with
    | none => simp [Query.exec, jsonb_of_valid hvalid, ht]; rfl
    | some t => simp [Query.exec, jsonb_of_valid hvalid, ht, hnot t ht]; rfl

/-- `UpdateWorkflowRunStatus`. -/
theorem updateRun_rule {id : UUID} {expected : List RunStatus} {next : RunStatus}
    {output : Option RawMessage} {errMsg : Option String}
    (hvalid : ∀ o, output = some o → o.IsValid) {F' : Bool → Db → List Write → Prop}
    (hF' : ∀ b, engine.Robust A H' (F' b))
    (hyes : ∀ v ws r now, Base v → F v ws → (backend.applyAll v ws).runs.get? id = some r →
      r.status ∈ expected → engine.Lands C H H' (F' true) v
        (ws ++ [.run (r.transition next output errMsg now)]))
    (hno : ∀ v ws, Base v → F v ws →
      (∀ r, (backend.applyAll v ws).runs.get? id = some r → r.status ∉ expected) →
      engine.Lands C H H' (F' false) v ws) :
    engine.Triple A C Err H F
      (Query.updateWorkflowRunStatus id expected next output errMsg).issue H' F' := by
  refine compareAndSet_rule (fun v => v.runs.get? id) (fun r => r.status ∈ expected)
    (fun d r => (true, [.run (r.transition next output errMsg d.now)])) false
    (fun d v r hr hst => ?_) (fun d v hnot => ?_) hF'
    (fun v ws r d hb hF hr hst _ => hyes v ws r d.now hb hF hr hst) hno
  · simp [Query.exec, jsonb_of_valid hvalid, hr, hst]
    rfl
  · cases hr : v.runs.get? id with
    | none => simp [Query.exec, jsonb_of_valid hvalid, hr]; rfl
    | some r => simp [Query.exec, jsonb_of_valid hvalid, hr, hnot r hr]; rfl

/-- `AppendHistory` on a run that exists. -/
theorem event_rule {eventType : EventType} {payload : Option Json}
    {F' : Db → List Write → Prop} (hF' : engine.Robust A H' F')
    (h : ∀ v ws now, Base v → F v ws → ∃ r, (backend.applyAll v ws).runs.get? runID = some r ∧
      engine.Lands C H H' F' v (ws ++ historyWrites r eventType payload now)) :
    engine.Triple A C Err H F (Query.appendHistory runID eventType payload).issue H'
      (fun e v ws => e.isSome = true ∧ F' v ws) := by
  refine statement_rule (fun e => (Robust.pure (fun _ => e.isSome = true)).and hF')
    (fun v ws d hb hF _ => Or.inr ?_)
  obtain ⟨r, hr, hland⟩ := h v ws d.now hb hF
  refine ⟨some ⟨r.id, r.historySeq + 1, eventType, payload.getD (.obj []), d.now⟩, _, ?_,
    hland.mono (fun _ _ hF => ⟨rfl, hF⟩)⟩
  simp only [backend_exec, Query.exec, hr]

/-- `AppendHistory` where an error is passed on. -/
theorem appendHistory_rule {eventType : EventType} {payload : Option Json}
    {F' : Db → List Write → Prop} (hF' : engine.Robust A H' F')
    (h : ∀ v ws now, Base v → F v ws → ∃ r, (backend.applyAll v ws).runs.get? runID = some r ∧
      engine.Lands C H H' F' v (ws ++ historyWrites r eventType payload now)) :
    engine.Triple A C Err H F (appendHistory runID eventType payload) H' (fun _ => F') := by
  refine (event_rule hF' h).bind (fun e => Triple.assume (fun he => ?_))
  cases e with
  | none => cases he
  | some e => exact Triple.ret (List.Subset.refl _) (fun _ _ _ hF => hF)

/-- The writes begun leave steps and runs alone. -/
def Aside (ws : List Write) : Prop :=
  ∀ v, (backend.applyAll v ws).steps = v.steps ∧ (backend.applyAll v ws).runs = v.runs

theorem aside_nil : Aside [] := fun _ => ⟨rfl, rfl⟩

/-- A step has been changed, and the event of the change is still to come. -/
def Changing (F : Db → List Write → Prop) (id : UUID) (expected : List StepStatus)
    (next : StepStatus) (output : Option RawMessage) (errMsg : Option String) (bump : Bool)
    (v : Db) (ws : List Write) : Prop :=
  ∃ us t now, ws = us ++ [.step (t.transition next output errMsg bump now)] ∧ F v us ∧
    v.steps.get? id = some t ∧ t.status ∈ expected

section Changing

variable {id : UUID} {expected : List StepStatus} {next : StepStatus}
  {output : Option RawMessage} {errMsg : Option String} {bump : Bool}

theorem Changing.robust (hF : engine.Robust A H F) :
    engine.Robust A H (Changing F id expected next output errMsg bump) := by
  rintro v ws l u hb hl hact hdisj hH ⟨us, t, now, rfl, hFv, ht, hst⟩
  rw [locksOf_append] at hdisj
  obtain ⟨hdus, hdt⟩ := List.disjoint_append_right.mp hdisj
  refine ⟨us, t, now, rfl, hF v us l u hb hl hact hdus hH hFv, step_transfer ht ?_, hst⟩
  exact same_applyAll v (fun hk => hdt hk (by simp))

/-- The update of a step that an event is to record. -/
theorem changeStep_rule {G : Db → List Write → Prop}
    (hvalid : ∀ o, output = some o → o.IsValid) (hF : engine.Robust A H F)
    (hG : engine.Robust A H G) (haside : ∀ v ws, F v ws → Aside ws)
    (hno : ∀ v ws, Base v → F v ws → (∀ t, v.steps.get? id = some t → t.status ∉ expected) →
      engine.Lands C H H G v ws) :
    engine.Triple A C Err H F (Query.updateStepStatus id expected next output errMsg bump).issue H
      (fun ok => if ok then Changing F id expected next output errMsg bump else G) := by
  refine updateStep_rule hvalid (fun ok => ?_) (fun v ws t now hb hFv ht hst => ?_)
    (fun v ws hb hFv hnot => ?_)
  · cases ok
    · exact hG
    · exact Changing.robust hF
  · rw [(haside v ws hFv v).1] at ht
    exact .begin ⟨ws, t, now, rfl, hFv, ht, hst⟩
  · rw [(haside v ws hFv v).1] at hnot
    exact hno v ws hb hFv hnot

/-- The event that records the change of a step. -/
theorem changed_rule {G : Db → List Write → Prop} {eventType : EventType}
    {payload : Option Json} (hG : engine.Robust A H' G) (haside : ∀ v ws, F v ws → Aside ws)
    (hrun : ∀ v ws, Base v → F v ws → ∃ r, v.runs.get? runID = some r)
    (hact : ∀ v ws t r now now', Base v → F v ws → v.steps.get? id = some t →
      t.status ∈ expected → v.runs.get? runID = some r →
      engine.Lands C H H' G v (ws ++ .step (t.transition next output errMsg bump now) ::
        historyWrites r eventType payload now')) :
    engine.Triple A C Err H (Changing F id expected next output errMsg bump)
      (appendHistory runID eventType payload) H' (fun _ => G) := by
  refine appendHistory_rule hG ?_
  rintro v ws now' hb ⟨us, t, now, rfl, hFv, ht, hst⟩
  obtain ⟨r, hr⟩ := hrun v us hb hFv
  refine ⟨r, ?_, by simpa using hact v us t r now now' hb hFv ht hst hr⟩
  rw [Backend.applyAll_append]
  exact (congrArg (fun T => T.get? runID) (haside v us hFv v).2).trans hr

end Changing

end Statements

end Orchestrator
