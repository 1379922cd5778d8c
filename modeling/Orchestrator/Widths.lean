import Orchestrator.Engine.Worker
import Orchestrator.Memory.Store
import Orchestrator.Ownership
import Orchestrator.System.Instances

/-!
# The widths of numbers

The definition language has integers of 64 bits, the columns of the store and the
messages to workers have 32. `ranged` is the store with its `INT` columns: it refuses
a number that does not fit. `Validate` gives no upper bounds. Where the declared
numbers do fit, so does every number that the engine derives from them.
-/

namespace Orchestrator

open Lib Program

/-- The number is a value of an `INT` column. -/
def FitsInt (n : ℤ) : Prop := -2147483648 ≤ n ∧ n ≤ 2147483647

instance (n : ℤ) : Decidable (FitsInt n) := inferInstanceAs (Decidable (_ ∧ _))

/-- The columns of a new step fit. -/
def NewStep.Fits (ns : NewStep) : Prop :=
  FitsInt ns.maxAttempts ∧ FitsInt ns.initialBackoffMS ∧ FitsInt ns.maxBackoffMS ∧
    FitsInt ns.timeoutSeconds

instance (ns : NewStep) : Decidable ns.Fits := inferInstanceAs (Decidable (_ ∧ _))

/-- The `INT` columns of `migrations/0001_init.sql` hold the numbers of the row. -/
def Write.Fits : Write → Prop
  | .definition d => FitsInt d.version
  | .run r => FitsInt r.version ∧ FitsInt r.shardID
  | .step t => FitsInt t.attemptCount ∧ t.info.spec.Fits
  | .attempt a => FitsInt a.attemptNumber
  | .outbox m => FitsInt m.shardID
  | .timer tm => FitsInt tm.shardID
  | .signal _ | .history _ | .handled _ => True

instance : DecidablePred Write.Fits
  | .definition _ | .attempt _ | .outbox _ | .timer _ => inferInstanceAs (Decidable (FitsInt _))
  | .run _ | .step _ => inferInstanceAs (Decidable (_ ∧ _))
  | .signal _ | .history _ | .handled _ => isTrue trivial

/-- The store, which refuses a number that does not fit its column. -/
def ranged : Backend Query Error Db Write Lock Draw := backend.checked Write.Fits .outOfRange

section Declared

variable {v : Db} {l : Label} {u : List Write}

/-- Every run has a definition, and has its version and its steps. -/
def Declared (v : Db) : Prop :=
  ∀ r ∈ v.runs, ∃ d ∈ v.definitions, d.id = r.definitionID ∧ d.version = r.version ∧
    ∀ t ∈ v.steps, t.workflowRunID = r.id → t.info.spec ∈ d.dag.toNewSteps

/-- A run that is there before an action stays declared. -/
theorem Declared.keep (h : Declared v) {v' : Db} (hev : v.Evolves v') {r r' : WorkflowRun}
    (hr : r ∈ v.runs) (hrr : r.Evolves r') :
    ∃ d ∈ v'.definitions, d.id = r'.definitionID ∧ d.version = r'.version ∧
      ∀ t ∈ v'.steps, t.workflowRunID = r'.id → t.info.spec ∈ d.dag.toNewSteps := by
  obtain ⟨d, hd, hid, hver, hsteps⟩ := h r hr
  obtain ⟨d', hd', rfl⟩ := hev.definitions d hd
  refine ⟨d, hd', hid.trans hrr.definitionID.symm, hver.trans hrr.version.symm, ?_⟩
  intro t' ht' hrun
  rw [hrr.id] at hrun
  rcases hev.newSteps t' ht' with ⟨t, ht, htt⟩ | hnone
  · rw [htt.info]
    exact hsteps t ht ((Step.run_of_info htt.info).symm.trans hrun)
  · rw [hrun, Table.mem_iff_get?.mp hr] at hnone
    cases hnone

theorem Declared.act (h : Declared v) (hb : Base v) (hact : Act l v u) :
    Declared (backend.applyAll v u) := by
  have hev := hact.evolves
  -- The row of a run that an action changes is the later row of that run.
  have hput : ∀ {r r' : WorkflowRun}, v.runs.get? r.id = some r →
      (backend.applyAll v u).runs = v.runs.put r' → r'.id = r.id → r.Evolves r' := by
    intro r r' hr hruns hid
    obtain ⟨q, hq, hrq⟩ := hev.run hr
    rw [hruns, ← hid, Table.get?_put_self] at hq
    exact Option.some.inj hq ▸ hrq
  have hkept : ∀ {r r' : WorkflowRun}, v.runs.get? r.id = some r →
      (backend.applyAll v u).runs = v.runs.put r' → r'.id = r.id →
      Declared (backend.applyAll v u) := by
    intro r r' hr hruns hid q hq
    rw [hruns] at hq
    rcases Table.mem_put.mp hq with rfl | ⟨hq, -⟩
    · exact h.keep hev (Table.mem_of_get? hr) (hput hr hruns hid)
    · exact h.keep hev hq (.refl q)
  cases hact.records hb with
  | quiet _ hruns _ => exact fun r hr => h.keep hev (hruns ▸ hr) (.refl r)
  | cancelled r r' _ _ _ hr hruns hid _ _ _ => exact hkept hr hruns hid
  | event r r' e hr hruns _ hid _ _ _ _ _ => exact hkept hr hruns hid
  | created _ _ hkind _ _ _ _ _ _ _ _ _ _ =>
    obtain ⟨runID, kind⟩ := l
    obtain rfl : kind = .create := hkind
    cases hact with
    | @create _ d _ name input now steps payload now' hd hnew hsteps hfresh hnodup =>
      rw [applyAll_create] at hev ⊢
      intro r hr
      rcases Table.mem_put.mp hr with rfl | ⟨hr, hne⟩
      swap
      · rcases Table.mem_put.mp hr with rfl | ⟨hr, -⟩
        · exact absurd rfl hne
        · exact h.keep hev hr (.refl r)
      refine ⟨d, hd, rfl, rfl, fun t ht hrun => ?_⟩
      rcases (Table.mem_foldl_put hfresh hnodup).mp ht with ht | ht
      · have hwf := hb.graph.definitions d hd
        have hinputs : ∀ ns ∈ d.dag.toNewSteps, ns.input.isSome = true := by
          intro ns hns
          obtain ⟨spec, hspec, rfl⟩ := List.mem_map.mp hns
          obtain ⟨m, hm, -⟩ := hwf.inputs spec hspec
          exact Option.isSome_iff_exists.mpr ⟨m, hm⟩
        rw [← specs_of_rows hsteps hinputs]
        exact List.mem_map_of_mem ht
      · obtain ⟨q, hq, hid⟩ := hb.graph.run t ht
        rw [Table.mem_iff_get?, hid, hrun] at hq
        exact absurd (hq.symm.trans hnew) (Option.some_ne_none q)

theorem Stored.declared (h : Stored v) : Declared v :=
  h.induct (fun r hr => absurd hr (Table.not_mem_empty r)) (fun _ _ _ hb hact hd => hd.act hb hact)

end Declared

section Narrow

variable {v v' : Db} {runID : UUID} {l : Label} {u : List Write}

/-- The numbers that the run takes from its definition fit. -/
structure Narrow (runID : UUID) (v : Db) : Prop where
  version : ∀ r ∈ v.runs, r.id = runID → FitsInt r.version
  steps : ∀ t ∈ v.steps, t.workflowRunID = runID → t.info.spec.Fits

/-- These numbers are never set again. -/
theorem Narrow.back (h : Narrow runID v') (hev : v.Evolves v') : Narrow runID v where
  version r hr hid := by
    obtain ⟨q, hq, hrq⟩ := hev.runs r hr
    exact hrq.version ▸ h.version q hq (hrq.id.trans hid)
  steps t ht hrun := by
    obtain ⟨t', ht', htt⟩ := hev.steps t ht
    exact htt.info ▸ h.steps t' ht' ((Step.run_of_info htt.info).trans hrun)

/-- Shards are numbered from zero. -/
theorem fitsInt_shardFor (id : UUID) : FitsInt (shardFor id) := by
  have hlt : shardFor id < 256 := shardFor_lt id
  exact ⟨by omega, by omega⟩

namespace Narrow

variable (h : Narrow runID v) (hb : Base v)

include h

/-- A row of a step that counts no more attempts than it may make. -/
theorem step {t t' : Step} (ht : t ∈ v.steps) (hrun : t.workflowRunID = runID)
    (hinfo : t'.info = t.info) (hcount : (t'.attemptCount : ℤ) ≤ t.maxAttempts) :
    (Write.step t').Fits := by
  have hspec := h.steps t ht hrun
  have hmax : t.maxAttempts ≤ 2147483647 := hspec.1.2
  refine ⟨⟨by omega, by omega⟩, ?_⟩
  rw [hinfo]
  exact hspec

include hb

/-- A row of the run. -/
theorem run {r r' : WorkflowRun} (hr : v.runs.get? runID = some r)
    (hsame : r'.version = r.version ∧ r'.shardID = r.shardID) : (Write.run r').Fits := by
  have hmem := Table.mem_of_get? hr
  refine ⟨hsame.1 ▸ h.version r hmem (Table.key_of_get? hr), ?_⟩
  rw [hsame.2, hb.shards r hmem]
  exact fitsInt_shardFor r.id

/-- The counter of the run and an event. -/
theorem event {r r' : WorkflowRun} (hr : v.runs.get? runID = some r)
    (hsame : r'.version = r.version ∧ r'.shardID = r.shardID) {type : EventType}
    {payload : Option Json} {now : Time} : ∀ x ∈ historyWrites r' type payload now, x.Fits := by
  refine List.forall_mem_cons.mpr ⟨h.run hb hr hsame, ?_⟩
  exact List.forall_mem_singleton.mpr trivial

/-- A row of a step that makes no further attempt. -/
theorem move {t : Step} (ht : t ∈ v.steps) (hrun : t.workflowRunID = runID) {next : StepStatus}
    {output : Option RawMessage} {errMsg : Option String} {now : Time} :
    (Write.step (t.transition next output errMsg false now)).Fits :=
  h.step ht hrun rfl (hb.ledger.row t ht).bound

/-- A row of an attempt. -/
theorem attempt {a a' : TaskAttempt} (ha : a ∈ v.attempts) (hrun : a.workflowRunID = runID)
    (hnumber : a'.attemptNumber = a.attemptNumber) : (Write.attempt a').Fits := by
  obtain ⟨t, ht, hid, hsame, -⟩ := hb.ledger.parent a ha
  have hbound := ((hb.ledger.numbers t ht a.attemptNumber).mp ⟨a, ha, hid.symm, rfl⟩).2
  have hcount := (hb.ledger.row t ht).bound
  have hmax : t.maxAttempts ≤ 2147483647 := (h.steps t ht (hsame.symm.trans hrun)).1.2
  change FitsInt a'.attemptNumber
  rw [hnumber]
  exact ⟨by omega, by omega⟩

/-- The end of an attempt. -/
theorem close {a : TaskAttempt} {success : Bool} {result : Option RawMessage} {ws : List Write}
    (hclose : Closes v a success result ws) (hrun : a.workflowRunID = runID) :
    ∀ x ∈ ws, x.Fits := by
  cases hclose with
  | report ha _ =>
    exact List.forall_mem_singleton.mpr (h.attempt hb (Table.mem_of_get? ha) hrun rfl)
  | expiry _ _ _ => exact List.forall_mem_singleton.mpr trivial

/-- The end of an attempt, and the change of its step with its event. -/
theorem outcome {a : TaskAttempt} {success : Bool} {result : Option RawMessage} {ws : List Write}
    (hclose : Closes v a success result ws) {t : Step} (ht : v.steps.get? a.stepID = some t)
    {r : WorkflowRun} (hr : v.runs.get? a.workflowRunID = some r) (hrun : a.workflowRunID = runID)
    (us : List Write) (hus : ∀ x ∈ us, x.Fits) {next : StepStatus} {output : Option RawMessage}
    {errMsg : Option String} {now now' : Time} {type : EventType} {payload : Option Json} :
    ∀ x ∈ ws ++ (us ++ .step (t.transition next output errMsg false now) ::
      historyWrites r type payload now'), x.Fits := by
  have hsame : a.workflowRunID = t.workflowRunID := hclose.run_of_step hb ht
  rw [List.forall_mem_append, List.forall_mem_append, List.forall_mem_cons]
  exact ⟨h.close hb hclose hrun, hus, h.move hb (Table.mem_of_get? ht) (hsame.symm.trans hrun),
    h.event hb (hrun ▸ hr) ⟨rfl, rfl⟩⟩

end Narrow

/-- Everything that an action on a narrow run writes fits its columns. -/
theorem Act.fits (hact : Act l v u) (hb : Base v) (haddr : Addressed v)
    (hn : Narrow l.run (backend.applyAll v u)) (hkind : l.kind ≠ .define) :
    ∀ x ∈ u, x.Fits := by
  have h := hn.back hact.evolves
  have hmem : ∀ {id : UUID} {t : Step}, v.steps.get? id = some t → t ∈ v.steps :=
    fun ht => Table.mem_of_get? ht
  cases hact with
  | define => exact absurd rfl hkind
  | @create _ d id name input now steps payload now' hd hr hsteps hnew hnodup =>
    have hrow : ∀ now₀, (Write.run { newRun id d.id name d.version (shardFor id) input now₀ with
        historySeq := 1 }).Fits := by
      intro now₀
      refine ⟨hn.version { newRun id d.id name d.version (shardFor id) input now with
        historySeq := 1 } ?_ rfl, fitsInt_shardFor id⟩
      rw [applyAll_create]
      exact Table.mem_put_self _ _
    have hrows : ∀ t ∈ steps, (Write.step t).Fits := by
      intro t ht
      obtain ⟨ns, -, stepID, at', rfl⟩ := forall₂_right hsteps t ht
      refine ⟨show FitsInt 0 by decide, hn.steps _ ?_ rfl⟩
      rw [applyAll_create]
      exact (Table.mem_foldl_put hnew hnodup).mpr (Or.inl ht)
    refine List.forall_mem_cons.mpr ⟨hrow now, List.forall_mem_append.mpr ⟨?_, ?_⟩⟩
    · exact List.forall_mem_map.mpr hrows
    · exact List.forall_mem_cons.mpr ⟨hrow now, List.forall_mem_singleton.mpr trivial⟩
  | skip ht _ _ hr =>
    exact List.forall_mem_cons.mpr ⟨h.move hb (hmem ht) rfl, h.event hb hr ⟨rfl, rfl⟩⟩
  | park ht => exact List.forall_mem_singleton.mpr (h.move hb (hmem ht) rfl)
  | resolve _ _ _ _ ht _ _ _ hr =>
    exact List.forall_mem_cons.mpr ⟨trivial, List.forall_mem_cons.mpr
      ⟨h.move hb (hmem ht) rfl, h.event hb hr ⟨rfl, rfl⟩⟩⟩
  | burn => exact List.forall_mem_singleton.mpr trivial
  | @dispatch _ t r id key messageID now now₁ now₂ now₃ ht hdisp _ _ _ hr =>
    have hrow := hb.ledger.row t (hmem ht)
    have hnext : ((t.attemptCount + 1 : ℕ) : ℤ) ≤ t.maxAttempts := by
      have hone := hrow.attempts
      rcases hdisp with ⟨hst, -⟩ | hst
      · have hzero := hrow.count_of_pending hst
        omega
      · have hcount := hrow.count
        simp only [Step.CountOK, hst] at hcount
        omega
    have hstep : (Write.step (t.transition .queued none none true now₂)).Fits :=
      h.step (hmem ht) rfl rfl hnext
    refine List.forall_mem_cons.mpr ⟨hstep.1, List.forall_mem_cons.mpr ⟨?_,
      List.forall_mem_cons.mpr ⟨hstep, h.event hb hr ⟨rfl, rfl⟩⟩⟩⟩
    exact (h.run hb hr ⟨rfl, rfl⟩).2
  | succeed hclose ht _ _ hr =>
    exact h.outcome hb hclose ht hr rfl [] (by simp)
  | @retry _ a t r result ws tm errMsg payload now now' hclose ht _ _ _ hshard _ hr =>
    refine h.outcome hb hclose ht hr rfl [.timer tm]
      (List.forall_mem_singleton.mpr ?_)
    exact (congrArg (fun n : ℕ => FitsInt n) hshard).mpr (fitsInt_shardFor _)
  | giveUp hclose ht _ _ hr =>
    exact h.outcome hb hclose ht hr rfl [] (by simp)
  | late hclose _ _ htms =>
    refine List.forall_mem_append.mpr ⟨h.close hb hclose rfl, ?_⟩
    rcases htms with rfl | ⟨tm, rfl, -, hshard, -⟩
    · simp
    · exact List.forall_mem_singleton.mpr
        ((congrArg (fun n : ℕ => FitsInt n) hshard).mpr (fitsInt_shardFor _))
  | start hr =>
    refine List.forall_mem_cons.mpr ⟨h.run hb hr ⟨rfl, rfl⟩, h.event hb hr ?_⟩
    exact ⟨rfl, rfl⟩
  | finish hr =>
    refine List.forall_mem_cons.mpr ⟨h.run hb hr ⟨rfl, rfl⟩, h.event hb hr ?_⟩
    exact ⟨rfl, rfl⟩
  | cancelStep ht => exact List.forall_mem_singleton.mpr (h.move hb (hmem ht) rfl)
  | cancelRun hr => exact List.forall_mem_singleton.mpr (h.run hb hr ⟨rfl, rfl⟩)
  | cancelEvent hr => exact h.event hb hr ⟨rfl, rfl⟩
  | signal => exact List.forall_mem_singleton.mpr trivial
  | log hr => exact h.event hb hr ⟨rfl, rfl⟩
  | claim ha => exact List.forall_mem_singleton.mpr (h.attempt hb (Table.mem_of_get? ha) rfl rfl)
  | heartbeat ha =>
    exact List.forall_mem_singleton.mpr (h.attempt hb (Table.mem_of_get? ha) rfl rfl)
  | expire ha => exact List.forall_mem_singleton.mpr (h.attempt hb (Table.mem_of_get? ha) rfl rfl)
  | running ht => exact List.forall_mem_singleton.mpr (h.move hb (hmem ht) rfl)
  | fireTimer htm =>
    exact List.forall_mem_singleton.mpr ((congrArg (fun n : ℕ => FitsInt n)
      (haddr.timers _ (Table.mem_of_get? htm))).mpr (fitsInt_shardFor _))
  | cancelTimer htm =>
    exact List.forall_mem_singleton.mpr ((congrArg (fun n : ℕ => FitsInt n)
      (haddr.timers _ (Table.mem_of_get? htm))).mpr (fitsInt_shardFor _))
  | @publish _ m now hm =>
    obtain ⟨r, hr, t, -, a, -, -, -, hcontent⟩ := haddr.messages m (Table.mem_of_get? hm)
    have hshard : m.shardID = shardFor r.id :=
      (congrArg NewOutboxMessage.shardID hcontent).trans (hb.shards r hr)
    exact List.forall_mem_singleton.mpr
      ((congrArg (fun n : ℕ => FitsInt n) hshard).mpr (fitsInt_shardFor _))

/-- So does everything that a sequence of such actions writes, if it defines nothing. -/
theorem fits_of_steps {C : Label → Prop} {w : List Write} (hsteps : engine.Steps C v w)
    (hC : ∀ l, C l → l.run = runID) (hb : Base v) (haddr : Addressed v)
    (hn : Narrow runID (backend.applyAll v w))
    (hdefs : ∀ d ∈ (backend.applyAll v w).definitions, d ∈ v.definitions) :
    ∀ x ∈ w, x.Fits := by
  induction hsteps with
  | nil => exact fun x hx => absurd hx List.not_mem_nil
  | @snoc w u l hw hl hact ih =>
    have hact : Act l (backend.applyAll v w) u := hact
    rw [Backend.applyAll_append] at hn hdefs
    have hpast := hw.induct hb (P := fun m => v.Evolves m ∧ Addressed m) ⟨.refl v, haddr⟩
      (fun m l u _ _ hact hm => ⟨hm.1.trans (Act.evolves hact), hm.2.act hact⟩)
    have hback : ∀ d ∈ (backend.applyAll v w).definitions, d ∈ v.definitions := by
      intro d hd
      obtain ⟨d', hd', rfl⟩ := hact.evolves.definitions d hd
      exact hdefs d hd'
    refine List.forall_mem_append.mpr ⟨ih (hn.back hact.evolves) hback,
      hact.fits (hw.inv hb) hpast.2 (hC l hl ▸ hn) (fun hkind => ?_)⟩
    obtain ⟨run, kind⟩ := l
    obtain rfl : kind = .define := hkind
    cases hact with
    | define _ hnew _ =>
      obtain ⟨d, hd, rfl⟩ := hpast.1.definitions _ (hdefs _ (Table.mem_put_self _ _))
      rw [Table.mem_iff_get?.mp hd] at hnew
      cases hnew

end Narrow

section Creation

variable {v : Db} {name : String} {version : ℤ} {input : Option RawMessage} {ω : ℕ → Draw}

/-- The numbers of the definition fit. -/
def WorkflowDefinition.Fits (row : WorkflowDefinition) : Prop :=
  FitsInt row.version ∧ ∀ ns ∈ row.dag.toNewSteps, ns.Fits

/-- A run of a definition whose numbers fit is narrow. -/
theorem Declared.narrow (h : Declared v) {row : WorkflowDefinition} (hrow : row ∈ v.definitions)
    (hfits : row.Fits) {r : WorkflowRun} (hr : r ∈ v.runs) (hid : r.definitionID = row.id) :
    Narrow r.id v := by
  obtain ⟨d, hd, hdid, hversion, hsteps⟩ := h r hr
  obtain rfl := Table.eq_of_key_eq hd hrow (hdid.trans hid)
  refine ⟨fun q hq hqid => ?_, fun t ht hrun => hfits.2 _ (hsteps t ht hrun)⟩
  obtain rfl := Table.eq_of_key_eq hq hr hqid
  exact hversion ▸ hfits.1

/-- An evaluation defines nothing. -/
theorem Passes.definitions {runID : UUID} {v' : Db} (h : Passes runID v v') :
    v'.definitions = v.definitions := by
  induction h with
  | refl => rfl
  | tail _ hstep ih =>
    obtain ⟨u, hpass, rfl⟩ := hstep
    rw [← ih]
    cases hpass <;> rfl

/-- Nor does the creation of a run. -/
theorem Act.definitions_of_create {runID : UUID} {u : List Write}
    (h : Act ⟨runID, .create⟩ v u) : (backend.applyAll v u).definitions = v.definitions := by
  cases h with
  | create =>
    rw [applyAll_create]
    rfl

/-- `CreateRun` writes nothing if its input is no document. -/
theorem createRun_refused (h : ¬ (input.getD .emptyObject).IsValid) :
    ((createRun name version input).run backend ω v []).2 = [] := by
  have hbegin : ∀ (rest : WorkflowDefinition → WorkflowRun → Prog UUID)
      (o : Option WorkflowDefinition) (ω : ℕ → Draw),
      ((do
        let definition ← orNotFound o
        let id ← Query.newUUID.issue
        let run ← (Query.createWorkflowRun id definition.id name definition.version (shardFor id)
          (input.getD .emptyObject)).issue
        rest definition run : Prog UUID).run backend ω v []).2 = [] := by
    intro rest o ω
    cases o with
    | none => rfl
    | some d =>
      change (run backend (.call Query.newUUID _) ω v []).2 = []
      have hexec : backend.exec Query.newUUID (ω 0) (backend.applyAll v []) =
          .ok ((ω 0).uuid, []) := rfl
      rw [run_call backend hexec]
      change (run backend (.call (Query.createWorkflowRun ..) _) _ v []).2 = []
      rw [run]
      simp only [backend_exec, Query.exec, if_pos h]
      split_ifs <;> rfl
  unfold createRun lookupDefinition
  split_ifs with hv
  · exact hbegin _ _ _
  · exact hbegin _ _ _

/-- `CreateRun` of a definition whose numbers fit is as on a store without widths, and it
fails only on an input that is no document. -/
theorem createRun_ranged (hb : Base v) (haddr : Addressed v) (hdecl : Declared v)
    {row : WorkflowDefinition} (hfits : row.Fits)
    (hchosen : ∀ d, Chosen v name version d ↔ d = row)
    (hω : (createRun name version input).Admissible backend ω v []) :
    (createRun name version input).withTx ranged ω v [] =
        (createRun name version input).withTx backend ω v [] ∧
      ((∃ runID, ((createRun name version input).withTx ranged ω v []).1 = .ok runID) ∨
        ¬ (input.getD .emptyObject).IsValid ∧
          ((createRun name version input).withTx ranged ω v []).1 = .error .invalidJSON) := by
  have hsolo : Solo (fun e => ¬ (input.getD .emptyObject).IsValid ∧ e = .invalidJSON)
      (createRun name version input) _ v :=
    createRun_solo hb name version input (fun hnone => absurd ⟨row, (hchosen row).mpr rfl⟩ hnone)
      (fun hinvalid => ⟨hinvalid, rfl⟩)
  have hleads := Wp.run (w := []) hsolo hω
  have hspec := Safe.run (createRun_spec (A := fun _ => False) (fun _ => Regime.alone)
    (fun _ : Error => True.intro) name version input) hb ⟨[], [], rfl, .nil, by simp, rfl⟩ hω
  rw [List.nil_append] at hspec
  have hwrites : ∀ x ∈ ((createRun name version input).run backend ω v []).2, x.Fits := by
    by_cases hinput : (input.getD .emptyObject).IsValid
    swap
    · rw [createRun_refused hinput]
      exact fun x hx => absurd hx List.not_mem_nil
    generalize (createRun name version input).run backend ω v [] = res at hleads hspec
    obtain ⟨e | runID, w⟩ := res
    · exact absurd hinput hleads.1
    have hsteps : engine.Steps (Works runID) v w := hspec.steps
    obtain ⟨-, d, u, hd, hcreates, heval⟩ := hleads
    obtain rfl := (hchosen d).mp hd
    have hdefs : (backend.applyAll v w).definitions = v.definitions :=
      heval.path.definitions.trans hcreates.act.definitions_of_create
    have hdecl' : Declared (backend.applyAll v w) :=
      hsteps.induct hb hdecl (fun _ _ _ hb _ hact h => h.act hb hact)
    obtain ⟨now, hnew⟩ := hcreates.run
    obtain ⟨r, hr, hev⟩ := (heval.path.evolves (hcreates.act.base hb)).run hnew
    have hn := hdecl'.narrow (hdefs ▸ hd.mem) hfits (Table.mem_of_get? hr) hev.definitionID
    rw [Table.key_of_get? hr] at hn
    exact fits_of_steps hsteps (fun _ hl => hl.1) hb haddr hn (fun d hd => hdefs ▸ hd)
  have hrun : (createRun name version input).run ranged ω v [] =
      (createRun name version input).run backend ω v [] := run_checked _ hwrites
  have heq : (createRun name version input).withTx ranged ω v [] =
      (createRun name version input).withTx backend ω v [] := by
    rw [withTx, withTx, hrun]
    rfl
  refine ⟨heq, ?_⟩
  rw [heq]
  rcases hleads.withTx with ⟨runID, hres, -⟩ | ⟨e, hres, hinput, rfl⟩
  · exact Or.inl ⟨runID, hres⟩
  · exact Or.inr ⟨hinput, by rw [hres]⟩

end Creation

section Registration

variable {v : Db} {d : Definition} {ω : ℕ → Draw} {row : WorkflowDefinition}

/-- The declared numbers have an upper bound. -/
def Definition.Small (d : Definition) : Prop :=
  ∀ s ∈ d.steps, s.maxAttempts ≤ 2147483647 ∧ s.initialBackoffMS ≤ 2147483647 ∧
    s.maxBackoffMS ≤ 2147483647 ∧ s.timeoutSeconds ≤ 2147483647

/-- A number fits, or the default that stands for it does, exactly if it has the upper bound. -/
theorem fitsInt_default {n c : ℤ} (hc : 0 < c ∧ c ≤ 2147483647) :
    FitsInt (if n ≤ 0 then c else n) ↔ n ≤ 2147483647 := by
  unfold FitsInt
  split_ifs <;> omega

/-- The numbers of the steps fit exactly if the declared ones have the upper bound. -/
theorem Definition.fits_iff :
    (∀ ns ∈ d.withDefaults.toNewSteps, ns.Fits) ↔ d.Small := by
  have hspec : ∀ s : StepSpec, FitsInt s.withDefaults.maxAttempts ∧
      FitsInt s.withDefaults.initialBackoffMS ∧ FitsInt s.withDefaults.maxBackoffMS ∧
      FitsInt s.withDefaults.timeoutSeconds ↔
      s.maxAttempts ≤ 2147483647 ∧ s.initialBackoffMS ≤ 2147483647 ∧
        s.maxBackoffMS ≤ 2147483647 ∧ s.timeoutSeconds ≤ 2147483647 := fun s =>
    and_congr (fitsInt_default (by decide)) (and_congr (fitsInt_default (by decide))
      (and_congr (fitsInt_default (by decide)) (fitsInt_default (by decide))))
  constructor
  · intro h s hs
    exact (hspec s).mp (h _ (List.mem_map_of_mem (List.mem_map_of_mem hs)))
  · intro h ns hns
    obtain ⟨s', hs', rfl⟩ := List.mem_map.mp hns
    obtain ⟨s, hs, rfl⟩ := List.mem_map.mp hs'
    exact (hspec s).mpr (h s hs)

/-- A definition that has been registered has a version that fits. -/
theorem registerDefinition_version
    (h : ((registerDefinition d).withTx ranged ω v []).1 = .ok row) :
    row.dag = d.withDefaults ∧ row.version = versionOrDefault d.version ∧
      FitsInt row.version := by
  rcases run_checked_cases (b := backend) (φ := Write.Fits) (e := .outOfRange)
    (registerDefinition d) ω v [] with herr | ⟨heq, hfits⟩
  · rw [withTx_error ranged herr] at h
    cases h
  · have hreg : ((registerDefinition d).withTx backend ω v []).1 = .ok row := by
      rw [withTx] at h ⊢
      rw [← heq]
      exact h
    obtain ⟨hdag, -, hversion, hrun⟩ := registerDefinition_run hreg
    rw [hrun] at hfits
    exact ⟨hdag, hversion, (hfits _ List.mem_cons_self).resolve_left List.not_mem_nil⟩

end Registration

section Claim

variable {leaseDuration : ℕ} {attemptID key : UUID} {workerID : String} {ω : ℕ → Draw}
  {s : ℕ → Db}  {resp : ClaimTaskResponse}

/-- Where the response of a claim that was granted comes from. -/
theorem claimTaskResponse_granted
    (h : (claimTaskResponse leaseDuration attemptID key workerID).runAmong backend ω s = .ok resp)
    (hst : resp.status = .claimed) :
    ∃ a t, (s 0).attempts.get? attemptID = some a ∧ (s 1).steps.get? a.stepID = some t ∧
      resp = claimedResponse (a.lease workerID leaseDuration (ω 0).now) t := by
  have hnot : ∀ {st : ClaimStatus} {r : ClaimTaskResponse}, st ≠ .claimed →
      (Except.ok { status := st } : Except Error ClaimTaskResponse) = .ok r →
      r.status ≠ .claimed := by
    intro st r hne heq
    obtain rfl := Except.ok.inj heq
    exact hne
  unfold claimTaskResponse at h
  split_ifs at h with hworker
  · cases h
  change Program.runAmong backend (.call (Query.claimTaskAttempt ..) _) ω s = _ at h
  rw [runAmong] at h
  simp only [backend_exec, Query.exec] at h
  cases ha : (s 0).attempts.get? attemptID with
  | none =>
    rw [ha] at h
    exact absurd hst (hnot (by decide) h)
  | some a =>
    rw [ha] at h
    dsimp only at h
    split_ifs at h with hqueued
    · change Program.runAmong backend (.call (Query.getStep a.stepID) _) _ _ = _ at h
      rw [runAmong] at h
      simp only [backend_exec, Query.exec] at h
      cases ht : (s 1).steps.get? a.stepID with
      | none =>
        rw [ht] at h
        cases h
      | some t =>
        rw [ht] at h
        change Program.runAmong backend (.call (Query.getWorkflowRun a.workflowRunID) _) _ _ =
          _ at h
        rw [runAmong] at h
        simp only [backend_exec, Query.exec] at h
        cases hr : (s 2).runs.get? a.workflowRunID with
        | none =>
          rw [hr] at h
          cases h
        | some r =>
          rw [hr] at h
          change Program.runAmong backend (if r.status = .cancelled then .ret _ else
            .call (Query.updateStepStatus ..) _) _ _ = _ at h
          split_ifs at h with hcancelled
          · exact absurd hst (hnot (by decide) h)
          · rw [runAmong] at h
            split at h
            · cases h
            · exact ⟨a, t, rfl, ht, (Except.ok.inj h).symm⟩
    · exact absurd hst (hnot (by decide) h)

/-- The response says what it is converted from if that fits. -/
theorem toInt_ofInt {n : ℤ} (h : FitsInt n) : (Int32.ofInt n).toInt = n :=
  Int32.toInt_ofInt_of_le h.1 (Int.lt_of_le_of_lt h.2 (by decide))

/-- A worker runs the handler of the task within the seconds that the claim names. -/
theorem process_handle {a : TaskAttempt} {t : Step} (hfits : FitsInt t.timeoutSeconds)
    (hpos : 0 < t.timeoutSeconds) {w : Worker} (hw : t.taskType ∈ w.handlers) :
    w.process (claimedResponse a t) = .handle t.taskType (some t.timeoutSeconds) := by
  have hvalue : (claimedResponse a t).timeoutSeconds.toInt = t.timeoutSeconds := toInt_ofInt hfits
  have hlt : 0 < (claimedResponse a t).timeoutSeconds := by
    rw [Int32.lt_iff_toInt_lt, hvalue]
    exact hpos
  have hstatus : ¬ (claimedResponse a t).status ≠ .claimed := not_not.mpr rfl
  have htype : ¬ (claimedResponse a t).taskType ∉ w.handlers := not_not.mpr hw
  rw [Worker.process, if_neg hstatus, if_neg htype, if_pos hlt, hvalue]
  rfl

end Claim

theorem Stored.versioned {v : Db} (h : Stored v) : Versioned v :=
  h.induct (fun _ hd => absurd hd (Table.not_mem_empty _)) (fun _ _ _ _ hact hv => hv.act hact)

/-- The numbers derived from a definition that was registered fit exactly if the declared ones
are at most the largest value of an `INT` column. `CreateRun` then fails on no range, and fails
at all only on an input that is no document. When an attempt of a run of the
definition is claimed, the response tells the number of the attempt and the timeout that
is declared or the default of it, and the worker applies that timeout. -/
theorem accepted_numbers_fit {v₀ : Db} {d : Definition} {ω₀ : ℕ → Draw} {row : WorkflowDefinition}
    (hreg : ((registerDefinition d).withTx ranged ω₀ v₀ []).1 = .ok row) :
    ((∀ ns ∈ row.dag.toNewSteps, ns.Fits) ↔ d.Small) ∧
    (d.Small → ∀ v, Stored v → row ∈ v.definitions → ∀ version,
      (version = row.version ∨ version ≤ 0 ∧ ∀ d' ∈ v.definitions,
        d'.name = row.name → d'.version ≤ row.version) → ∀ input ω,
      (createRun row.name version input).Admissible backend ω v [] →
      (createRun row.name version input).withTx ranged ω v [] =
          (createRun row.name version input).withTx backend ω v [] ∧
        ((∃ runID, ((createRun row.name version input).withTx ranged ω v []).1 = .ok runID) ∨
          ¬ (input.getD .emptyObject).IsValid ∧
            ((createRun row.name version input).withTx ranged ω v []).1 = .error .invalidJSON)) ∧
    (d.Small → ∀ s : ℕ → Db, (∀ i, Stored (s i)) → (∀ i, (s i).Evolves (s (i + 1))) →
      row ∈ (s 0).definitions → ∀ a ∈ (s 0).attempts, ∀ r ∈ (s 0).runs,
      r.id = a.workflowRunID → r.definitionID = row.id → ∀ leaseDuration key workerID ω resp,
      (claimTaskResponse leaseDuration a.id key workerID).runAmong backend ω s = .ok resp →
      resp.status = .claimed →
      resp.attemptNumber.toInt = a.attemptNumber ∧ ∃ spec ∈ d.withDefaults.steps,
        resp.stepName = spec.name ∧ resp.timeoutSeconds.toInt = spec.timeoutSeconds ∧
        ∀ w : Worker, resp.taskType ∈ w.handlers →
          w.process resp = .handle resp.taskType (some spec.timeoutSeconds)) := by
  obtain ⟨hdag, hdefault, hversion⟩ := registerDefinition_version hreg
  have hiff : (∀ ns ∈ row.dag.toNewSteps, ns.Fits) ↔ d.Small := hdag ▸ Definition.fits_iff
  have hrow : d.Small → row.Fits := fun hsmall => ⟨hversion, hiff.mpr hsmall⟩
  refine ⟨hiff, fun hsmall => ?_, fun hsmall => ?_⟩
  · have hfits := hrow hsmall
    intro v hv hrow version hversion input ω hω
    have haddr : Addressed v :=
      hv.induct Addressed.empty (fun _ _ _ _ hact hadr => hadr.act hact)
    have hpos : 0 < row.version := by
      rw [hdefault, versionOrDefault]
      split_ifs <;> omega
    exact createRun_ranged hv.base haddr hv.declared hfits
      (hv.versioned.chosen hrow hpos hversion) hω
  · have hfits := hrow hsmall
    intro s hs hev hrow a ha r hr hrun hid leaseDuration key workerID ω resp hresp hst
    obtain ⟨a', t, ha', ht, rfl⟩ := claimTaskResponse_granted hresp hst
    obtain rfl := Option.some.inj (ha'.symm.trans (Table.mem_iff_get?.mp ha))
    obtain ⟨row', hrow', rfl⟩ := (hev 0).definitions row hrow
    obtain ⟨q, hq, hrq⟩ := (hev 0).runs r hr
    obtain ⟨b, hb, hab⟩ := (hev 0).attempts a' ha
    have hn := (hs 1).declared.narrow hrow' hfits hq (hrq.definitionID.trans hid)
    obtain ⟨t', ht', hstep, hsame, -⟩ := (hs 1).base.ledger.parent b hb
    have htt : t = t' := Table.eq_of_key_eq (Table.mem_of_get? ht) ht'
      ((Table.key_of_get? ht).trans (hab.stepID.symm.trans hstep.symm))
    subst htt
    have htrun : t.workflowRunID = q.id := by
      rw [← hsame, hab.run, hrq.id, hrun]
    obtain ⟨d', hd', hdid, -, hsteps⟩ := (hs 1).declared q hq
    obtain rfl := Table.eq_of_key_eq hd' hrow' (hdid.trans (hrq.definitionID.trans hid))
    have hspec : t.info.spec ∈ d.withDefaults.toNewSteps := hdag ▸ hsteps t ht' htrun
    have hpos : 0 < t.timeoutSeconds := (positive_of_spec hspec).2.2.2.2.1
    have htimeout : FitsInt t.timeoutSeconds := (hn.steps t ht' htrun).2.2.2
    have hnumber : FitsInt a'.attemptNumber :=
      hab.number ▸ hn.attempt (hs 1).base hb (hsame.trans htrun) rfl
    obtain ⟨spec, hmem, heq⟩ := List.mem_map.mp hspec
    have hdeclared : spec.timeoutSeconds = t.timeoutSeconds :=
      congrArg NewStep.timeoutSeconds heq
    refine ⟨toInt_ofInt hnumber, spec, hmem, (congrArg NewStep.stepName heq).symm, ?_, ?_⟩
    · rw [hdeclared]
      exact toInt_ofInt htimeout
    · intro w hw
      rw [hdeclared]
      exact process_handle htimeout hpos hw

/-- A definition with small numbers is registered and a run of it is created. -/
theorem accepted_numbers_fit_gate :
    let v := ((registerDefinition gateDefinition).withTx backend (.ticks 100) Db.empty []).2
    gateDefinition.Small ∧ ∃ row, ((registerDefinition gateDefinition).withTx ranged (.ticks 100)
      Db.empty []).1 = .ok row ∧ (∀ ns ∈ row.dag.toNewSteps, ns.Fits) ∧
      (createRun "gate" 1 none).withTx ranged (.ticks 200) v [] =
        (createRun "gate" 1 none).withTx backend (.ticks 200) v [] := by
  intro v
  have hreg : ((registerDefinition gateDefinition).withTx ranged (.ticks 100) Db.empty []).1 =
      .ok ⟨100, "gate", 1, gateDefinition.withDefaults, 100⟩ := rfl
  have hsmall : gateDefinition.Small := by
    unfold Definition.Small
    decide
  have hv : Stored v := Or.inl ⟨_, System.Reachable.step .init
    (m := .registerDefinition gateDefinition (.ticks 100)) trivial rfl, rfl⟩
  have hω : (createRun "gate" 1 none).Admissible backend (.ticks 200) v [] := by decide +kernel
  obtain ⟨hfits, hcreate, -⟩ := accepted_numbers_fit hreg
  exact ⟨hsmall, _, hreg, hfits.mpr hsmall,
    (hcreate hsmall v hv (Table.mem_put_self _ _) 1 (Or.inl rfl) none (.ticks 200) hω).1⟩

/-- A definition whose timeout is one more than the largest value of an `INT` column. -/
def wideDefinition : Definition :=
  ⟨"wide", 0, [⟨"a", "work", [], none, 0, 0, 0, 0, 2147483648⟩]⟩

/-- The definition is registered. On Postgres no run of it can be created. On the memory
store a run is created, the claim of its attempt names a negative timeout, and the worker
runs the handler without a deadline. -/
theorem wide_timeout_is_lost :
    let registered := (registerDefinition wideDefinition).withTx ranged (.ticks 100) Db.empty []
    let inMemory := (Memory.withTx (registerDefinition wideDefinition) (.ticks 100) .new).2
    let created := Memory.withTx (createRun "wide" 1 none) (.ticks 200) inMemory
    let claim := ((claimTaskResponse defaultLeaseDuration 208 208 "w").run Memory.backend
      (.ticks 300) created.2 []).1
    registered.1.map (fun row => row.dag.steps.map (·.timeoutSeconds)) = .ok [2147483648] ∧
    ((createRun "wide" 1 none).withTx ranged (.ticks 200) registered.2 []).1 =
      .error .outOfRange ∧
    created.1 = .ok 201 ∧
    claim.map (fun resp => (resp.status, resp.timeoutSeconds)) = .ok (.claimed, -2147483648) ∧
    claim.map (fun resp => Worker.process ⟨"w", ["work"]⟩ resp) = .ok (.handle "work" none) := by
  decide +kernel

end Orchestrator
