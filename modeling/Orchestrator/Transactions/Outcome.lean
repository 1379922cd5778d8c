import Orchestrator.Transactions.Regime

/-!
# The outcome of an attempt

`handleAttemptOutcome` begins where an attempt has been ended and its row is
locked. The step is then in flight, with the attempt as its latest one, or it has
been cancelled. In the first case the update of the step goes through, and the
event after it locks the run's row before the steps are read again. In the second
case nothing more than the attempt itself is changed.
-/

namespace Orchestrator

open Lib Actions

/-- An attempt has been ended, and its step has been read. -/
structure Fetched (q : Prop) (runID : UUID) (step : Step) (success : Bool)
    (result : Option RawMessage) (v : Db) (ws : List Write) : Prop where
  closes : ∃ a, Closes v a success result ws ∧ a.stepID = step.id ∧ a.workflowRunID = runID ∧
    a.attemptNumber = step.attemptCount
  copy : ∃ t, v.steps.get? step.id = some t ∧ step.Copies t
  upright : q → Upright runID v

/-- The run has been read too. -/
structure AtHand (q : Prop) (run : WorkflowRun) (step : Step) (success : Bool)
    (result : Option RawMessage) (v : Db) (ws : List Write) : Prop extends
    Fetched q run.id step success result v ws where
  row : RowThere run v
  cancelled : q → ∀ t ∈ v.steps, t.workflowRunID = run.id → t.status = .cancelled →
    runTerminal run.status = true
  ended : q → runTerminal run.status = true → AllDone v.steps run.id

/-- The writes after those that end the attempt: none, or a new retry timer. -/
def TimerAdded (step : Step) (tms : List Write) (v : Db) : Prop :=
  tms = [] ∨ ∃ tm, tms = [.timer tm] ∧ IsRetryTimer tm step ∧
    tm.shardID = shardFor step.workflowRunID ∧ v.timers.get? tm.id = none

theorem TimerAdded.of_info {s t : Step} {tms : List Write} {v : Db} (h : TimerAdded s tms v)
    (hinfo : t.info = s.info) : TimerAdded t tms v := by
  refine h.imp_right ?_
  rintro ⟨tm, heq, ⟨hkind, hid, hown, hpend⟩, hshard, hnew⟩
  refine ⟨tm, heq, ⟨hkind, ?_, ?_, hpend⟩, ?_, hnew⟩
  · rw [hid, Step.id_of_info hinfo]
  · rw [hown, Step.run_of_info hinfo]
  · rw [hshard, Step.run_of_info hinfo]

/-- The row of a run after the event of one of its steps. -/
theorem get?_stepEvent (v : Db) (ws : List Write) (t : Step) (r : WorkflowRun)
    (eventType : EventType) (payload : Option Json) (now : Time) :
    (backend.applyAll v (ws ++ .step t :: historyWrites r eventType payload now)).runs.get? r.id =
      some { r with historySeq := r.historySeq + 1 } := by
  rw [Backend.applyAll_append, Backend.applyAll_cons]
  exact get?_event ..

/-- The end of an attempt, followed by a timer or not. -/
def Closing (q : Prop) (run : WorkflowRun) (step : Step) (success : Bool)
    (result : Option RawMessage) (tms : List Write) (v : Db) (ws : List Write) : Prop :=
  ∃ us, ws = us ++ tms ∧ AtHand q run step success result v us ∧ TimerAdded step tms v

section

variable {A : Label → Prop} {Err : Error → Prop} {H : List Lock} {Q : Db → Prop} {q : Prop}
  {run : WorkflowRun} {step : Step} {success : Bool} {result : Option RawMessage}
  {tms : List Write}

theorem Fetched.robust {runID : UUID} (hR : Regime A Err runID Q q) :
    engine.Robust A H (Fetched q runID step success result) := by
  intro v ws l u hb hl hact hdisj _ h
  have hev := Act.evolves hact
  refine ⟨?_, ?_, fun hq => (h.upright hq).act hb hact (hR.loyal hq l hl).1 (hR.loyal hq l hl).2⟩
  · obtain ⟨a, hclose, hids⟩ := h.closes
    exact ⟨a, hclose.transfer hev (fun k hk => same_applyAll v (fun hk' => hdisj hk' hk)), hids⟩
  · obtain ⟨t, ht, hcopy⟩ := h.copy
    obtain ⟨t', ht', htev⟩ := hev.step ht
    exact ⟨t', ht', hcopy.evolve htev⟩

theorem AtHand.robust (hR : Regime A Err run.id Q q) :
    engine.Robust A H (AtHand q run step success result) := by
  intro v ws l u hb hl hact hdisj hH h
  have hev := Act.evolves hact
  refine ⟨Fetched.robust hR v ws l u hb hl hact hdisj hH h.toFetched, h.row.evolve hev,
    fun hq t ht hrun hst => ?_, fun hq hend => ?_⟩
  · exact h.cancelled hq t
      (Act.mem_of_cancelled hb hact (hR.loyal hq l hl).1 ht hrun hst) hrun hst
  · obtain ⟨r, hr, -⟩ := h.row
    exact hev.allDone hr (h.ended hq hend)

theorem Closing.robust (hR : Regime A Err run.id Q q) :
    engine.Robust A H (Closing q run step success result tms) := by
  rintro v ws l u hb hl hact hdisj hH ⟨us, rfl, h, htms⟩
  rw [locksOf_append] at hdisj
  obtain ⟨hdus, hdtms⟩ := List.disjoint_append_right.mp hdisj
  refine ⟨us, rfl, AtHand.robust hR v us l u hb hl hact hdus hH h, ?_⟩
  rcases htms with rfl | ⟨tm, rfl, htm, hshard, hnew⟩
  · exact Or.inl rfl
  · have hsame : (Lock.timer tm.id).Same v (backend.applyAll v u) :=
      same_applyAll v (fun hk => hdtms hk (by simp))
    exact Or.inr ⟨tm, rfl, htm, hshard, Eq.trans hsame hnew⟩

theorem Closing.aside {v : Db} {ws : List Write}
    (h : Closing q run step success result tms v ws) : Aside ws := by
  obtain ⟨us, rfl, hat, htms⟩ := h
  obtain ⟨a, hclose, -⟩ := hat.closes
  intro w
  cases hclose <;> rcases htms with rfl | ⟨tm, rfl, -⟩ <;> exact ⟨rfl, rfl⟩

/-- The step whose attempt has been ended. -/
theorem AtHand.step_row {v : Db} {ws : List Write} (h : AtHand q run step success result v ws)
    (hb : Base v) {t : Step} (ht : v.steps.get? step.id = some t) :
    t.info = step.info ∧ t.attemptCount = step.attemptCount ∧ t.workflowRunID = run.id ∧
      (t.status = .queued ∨ t.status = .running ∨ t.status = .cancelled) := by
  obtain ⟨a, hclose, hstep, hrun, hnum⟩ := h.closes
  obtain ⟨t', ht', hcopy⟩ := h.copy
  obtain rfl := Option.some.inj (ht'.symm.trans ht)
  have hmem := Table.mem_of_get? hclose.mem
  obtain ⟨hcount, hst⟩ := hb.ledger.latest_of_open hmem hclose.isOpen (hstep ▸ ht)
  obtain ⟨hparent, -⟩ := hb.ledger.parent_of_get? hmem (hstep ▸ ht)
  exact ⟨hcopy.info, hcount.symm.trans hnum, hparent.symm.trans hrun, hst⟩

/-- A report that came too late changes nothing but the attempt. -/
theorem Closing.late {v : Db} {ws : List Write} (h : Closing q run step success result tms v ws)
    (hb : Base v) (hnot : ∀ t, v.steps.get? step.id = some t → t.status ∉ [.queued, .running]) :
    Act ⟨run.id, .late⟩ v ws ∧ (q → runTerminal run.status = true) := by
  obtain ⟨us, rfl, hat, htms⟩ := h
  obtain ⟨t, ht, -⟩ := hat.copy
  obtain ⟨hinfo, -, hrun, hst⟩ := hat.step_row hb ht
  have hcancelled : t.status = .cancelled := by
    have hno := hnot t ht
    rcases hst with hst | hst | hst
    · simp [hst] at hno
    · simp [hst] at hno
    · exact hst
  obtain ⟨a, hclose, hstep, harun, -⟩ := hat.closes
  refine ⟨harun ▸ .late hclose (by rw [hstep]; exact ht) hcancelled (htms.of_info hinfo),
    fun hq => ?_⟩
  exact hat.cancelled hq t (Table.mem_of_get? ht) hrun hcancelled

/-- An outcome that comes in time finds the run going on. -/
theorem Closing.running {v : Db} {ws : List Write}
    (h : Closing q run step success result tms v ws) (hb : Base v) {t : Step}
    (ht : v.steps.get? step.id = some t) (hst : t.status = .queued ∨ t.status = .running)
    {r : WorkflowRun} (hr : v.runs.get? run.id = some r) (hq : q) :
    runTerminal run.status = false ∧ runTerminal r.status = false := by
  obtain ⟨us, -, hat, -⟩ := h
  obtain ⟨-, -, hrun, -⟩ := hat.step_row hb ht
  have hbusy : ¬ AllDone v.steps run.id := by
    intro hall
    have hdone := hall t (Table.mem_of_get? ht) hrun
    rw [stepTerminal_of_inFlight hst] at hdone
    cases hdone
  constructor
  · exact Bool.eq_false_iff.mpr (fun hend => hbusy (hat.ended hq hend))
  · exact Bool.eq_false_iff.mpr (fun hend => hbusy ((hat.upright hq).ended r hr hend))

/-- The report came too late. -/
def Missed (q : Prop) (run : WorkflowRun) (v : Db) (ws : List Write) : Prop :=
  (q → runTerminal run.status = true) ∧ ws = [] ∧ RowThere run v

theorem Missed.robust : engine.Robust A H (Missed q run) :=
  (Robust.pure (fun _ => q → _)).and ((Robust.pure (· = [])).and RowThere.robust)

/-- The outcome has been applied to the step. -/
def Applied (Q : Db → Prop) (q : Prop) (run : WorkflowRun) (v : Db) (ws : List Write) : Prop :=
  (q → runTerminal run.status = false) ∧ ws = [] ∧ RowKnown Q run v

/-- The report came too late, or its outcome has been applied and the run's row is
locked. -/
def Judged (Q : Db → Prop) (q : Prop) (run : WorkflowRun) (s : Db) (w : List Write) : Prop :=
  engine.Holds (Idles run.id) [] (Missed q run) s w ∨
    engine.Holds (Works run.id) [Lock.run run.id] (Applied Q q run) s w

/-- The update of a step by the outcome of its attempt. -/
theorem judge_spec {k : Kind} {next : StepStatus} {output : Option RawMessage}
    {errMsg : Option String} {eventType : EventType} {payload : Option Json}
    (hR : Regime A Err run.id Q q) (hvalid : ∀ o, output = some o → o.IsValid)
    (hk : k.works = true)
    (hact : ∀ v us a t r now now', Closes v a success result us →
      v.steps.get? a.stepID = some t → t.status = .queued ∨ t.status = .running →
      t.info = step.info → t.attemptCount = step.attemptCount → TimerAdded t tms v →
      v.runs.get? a.workflowRunID = some r →
      Act ⟨a.workflowRunID, k⟩ v ((us ++ tms) ++
        .step (t.transition next output errMsg false now) ::
        historyWrites r eventType payload now')) :
    Serves A Err (engine.Holds (Idles run.id) [] (Closing q run step success result tms))
      (do
        let ok ← (Query.updateStepStatus step.id [.queued, .running] next output errMsg
          false).issue
        if ok then appendHistory run.id eventType payload else pure ())
      (fun _ => Judged Q q run) := by
  have hchange : engine.Triple A (Idles run.id) Err []
      (Closing q run step success result tms) (Query.updateStepStatus step.id [.queued, .running]
        next output errMsg false).issue [] (fun ok => if ok then Changing
          (Closing q run step success result tms) step.id [.queued, .running] next output errMsg
          false else Missed q run) := by
    refine changeStep_rule hvalid (Closing.robust hR) Missed.robust (fun _ _ h => h.aside) ?_
    intro v ws hb h hnot
    obtain ⟨hlate, hend⟩ := h.late hb hnot
    obtain ⟨us, -, hat, -⟩ := h
    exact .act ⟨⟨rfl, rfl⟩, rfl⟩ hlate ⟨hend, rfl, hat.row.evolve (Act.evolves hlate)⟩
  refine Safe.bind hchange (fun ok => ?_)
  cases ok with
  | false => exact Safe.ret (fun s w _ h => Or.inl h)
  | true =>
    have hquiet : Quiet A [Lock.run run.id] run.id Q := hR.quiet List.mem_cons_self
    have hrecord : engine.Triple A (Works run.id) Err [] (Changing
        (Closing q run step success result tms) step.id [.queued, .running] next output errMsg
        false) (appendHistory run.id eventType payload) [Lock.run run.id]
        (fun _ => Applied Q q run) := by
      refine changed_rule ((Robust.pure (fun _ => q → _)).and ((Robust.pure (· = [])).and
        (RowKnown.robust hquiet))) (fun _ _ h => h.aside) ?_ ?_
      · rintro v ws - ⟨us, -, hat, -⟩
        exact hat.row.imp (fun _ h => h.1)
      intro v ws t r now now' hb h ht hst hr
      have hst : t.status = .queued ∨ t.status = .running := by simpa using hst
      have hrunning := h.running hb ht hst hr
      obtain ⟨us, rfl, hat, htms⟩ := h
      obtain ⟨hinfo, hcount, -, -⟩ := hat.step_row hb ht
      obtain ⟨a, hclose, hstep, harun, -⟩ := hat.closes
      obtain ⟨r₀, hr₀, hshard⟩ := hat.row
      obtain rfl := Option.some.inj (hr₀.symm.trans hr)
      have hdone := hact v us a t r₀ now now' hclose (hstep ▸ ht) hst hinfo hcount
        (htms.of_info hinfo) (harun ▸ hr)
      rw [harun] at hdone
      have hid : r₀.id = run.id := Table.key_of_get? hr
      have hrow := get?_stepEvent v (us ++ tms) (t.transition next output errMsg false now) r₀
        eventType payload now'
      rw [hid] at hrow
      exact .lock ⟨rfl, hk⟩ hdone (by simp [hid]) ⟨fun hq => (hrunning hq).1, rfl, _, hrow, hshard,
        fun hQv => (hrunning (hR.known _ hQv)).2⟩
    refine (Safe.pre hrecord (fun s w hs h => ?_)).post (fun _ s w _ h => Or.inr h)
    exact h.mono hs (fun _ hl => hl.1) (List.Subset.refl _) (fun _ _ _ h => h)

variable {attempt : TaskAttempt} {errMsg : Option String}

/-- A success completes the step. -/
theorem completeStep_spec (hR : Regime A Err run.id Q q)
    (hvalid : ∀ o, result = some o → o.IsValid) :
    Serves A Err (engine.Holds (Idles run.id) [] (Closing q run step true result []))
      (completeStep run step attempt result) (fun _ => Judged Q q run) := by
  refine judge_spec hR hvalid (k := .succeed) rfl ?_
  intro v us a t r now now' hclose ht hst hinfo _ _ hr
  rw [List.append_nil, ← Step.name_of_info hinfo]
  exact .succeed hclose ht hst hvalid hr

/-- A failure with no attempts left fails the step. -/
theorem failStep_spec (hR : Regime A Err run.id Q q)
    (hcount : ¬ (step.attemptCount : ℤ) < step.maxAttempts) :
    Serves A Err (engine.Holds (Idles run.id) [] (Closing q run step false result []))
      (failStep run step attempt errMsg) (fun _ => Judged Q q run) := by
  refine judge_spec hR RawMessage.isValid_of_none (k := .giveUp) rfl ?_
  intro v us a t r now now' hclose ht hst hinfo hnum _ hr
  rw [List.append_nil, ← Step.name_of_info hinfo]
  refine .giveUp hclose ht hst ?_ hr
  rwa [hnum, Step.max_of_info hinfo]

/-- `InsertTimer` for a retry of the step. -/
theorem insertTimer_spec (hR : Regime A Err run.id Q q) (timer : NewTimer)
    (hkind : timer.kind = .retryBackoff) (hstep : timer.stepID = some step.id)
    (hown : timer.workflowRunID = run.id) (hshard : timer.shardID = run.shardID) :
    engine.Triple A (Idles run.id) Err [] (Closing q run step false result [])
      (Query.insertTimer timer).issue []
      (fun tm => Closing q run step false result [.timer tm]) := by
  refine statement_rule (fun tm => Closing.robust hR) (fun v ws d hb h hadm => Or.inr ?_)
  obtain ⟨us, rfl, hat, -⟩ := h
  rw [List.append_nil] at hadm ⊢
  obtain ⟨a, hclose, -⟩ := hat.closes
  obtain ⟨hsteps, hruns, htimers⟩ := hclose.frame
  obtain ⟨t, ht, -⟩ := hat.copy
  obtain ⟨r, hr, hrow⟩ := hat.row
  obtain ⟨hinfo, -, hrun, -⟩ := hat.step_row hb ht
  have howner : run.id = step.workflowRunID := hrun.symm.trans (Step.run_of_info hinfo)
  refine ⟨newTimerRow d.uuid timer d.now, [.timer (newTimerRow d.uuid timer d.now)], ?_,
    .begin ⟨us, rfl, hat, Or.inr ⟨_, rfl, ⟨hkind, hstep, hown.trans howner, rfl⟩, ?_, ?_⟩⟩⟩
  · simp [Query.exec, hruns, hsteps, hown, hstep, hr, ht]
  · rw [← howner, ← Table.key_of_get? hr, ← hb.shards r (Table.mem_of_get? hr), hrow]
    exact hshard
  · simpa [Query.admits, htimers, newTimerRow] using hadm

/-- A failure with attempts left schedules a retry. -/
theorem retryStep_spec (hR : Regime A Err run.id Q q)
    (hcount : (step.attemptCount : ℤ) < step.maxAttempts) :
    Serves A Err (engine.Holds (Idles run.id) [] (Closing q run step false result []))
      (retryStep run step attempt errMsg) (fun _ => Judged Q q run) := by
  have hrand : engine.Triple A (Idles run.id) Err [] (Closing q run step false result [])
      Query.randFloat.issue [] (fun _ => Closing q run step false result []) :=
    read_rule (fun d _ => d.rand) (fun _ _ => rfl) (fun _ => Closing.robust hR)
      (fun _ _ _ _ hF => hF)
  have hclock : engine.Triple A (Idles run.id) Err [] (Closing q run step false result [])
      Query.timeNow.issue [] (fun _ => Closing q run step false result []) :=
    read_rule (fun d _ => d.clock) (fun _ _ => rfl) (fun _ => Closing.robust hR)
      (fun _ _ _ _ hF => hF)
  refine Safe.bind hrand (fun rand => Safe.bind hclock (fun now =>
    Safe.bind (insertTimer_spec hR _ rfl rfl rfl rfl) (fun tm =>
      judge_spec hR RawMessage.isValid_of_none (k := .retry) rfl ?_)))
  intro v us a t r now now' hclose ht hst hinfo hnum htm hr
  obtain ⟨tm', heq, htm, hshard, hnew⟩ := htm.resolve_left (by simp)
  obtain rfl : tm = tm' := by simpa using heq
  rw [List.append_assoc]
  refine .retry hclose ht hst ?_ htm hshard hnew hr
  rwa [hnum, Step.max_of_info hinfo]

/-- The steps are read again and reconciled, if the outcome was applied. -/
theorem conclude_spec (hR : Regime A Err run.id Q q) :
    Serves A Err (Judged Q q run)
      (do let steps ← (Query.getSteps run.id).issue; reconcileTx run steps)
      (fun _ => Concluded Q run.id) := by
  refine Safe.or ?_ ?_
  · by_cases hend : runTerminal run.status = true
    · exact Safe.post ((reload_ended hend).pre (F := Missed q run) (fun v ws _ hF => hF.2.1))
        (fun _ s w _ h => .idle h)
    -- The run goes on although the step was cancelled: nothing is known about it.
    · refine Safe.post (Safe.pre (Triple.assume (F := fun v ws => ws = [] ∧ RowKnown Q run v)
        (fun hq : ¬ q => reload_spec hR (hR.quiet_of_not hq) (fun h => absurd h hq)))
        (fun s w hs h => h.mono hs (fun _ hl => hl.1) (List.Subset.refl _) ?_))
        (fun _ s w _ h => .settled h)
      rintro v ws - ⟨hq, hws, r, hr, hshard⟩
      have hnot : ¬ q := fun h => hend (hq h)
      exact ⟨hnot, hws, r, hr, hshard, fun h => absurd (hR.known v h) hnot⟩
  · have hquiet : Quiet A [Lock.run run.id] run.id Q := hR.quiet List.mem_cons_self
    exact Safe.post (Triple.assume (fun hlive => reload_spec hR hquiet hlive))
      (fun _ s w _ h => .settled h)

/-- An attempt has been ended. -/
def Closed (q : Prop) (attempt : TaskAttempt) (success : Bool) (result : Option RawMessage)
    (v : Db) (ws : List Write) : Prop :=
  (∃ a, Closes v a success result ws ∧ a.stepID = attempt.stepID ∧
    a.workflowRunID = attempt.workflowRunID) ∧ (q → Upright attempt.workflowRunID v)

theorem Closed.robust (hR : Regime A Err attempt.workflowRunID Q q) :
    engine.Robust A H (Closed q attempt success result) := by
  rintro v ws l u hb hl hact hdisj - ⟨⟨a, hclose, hids⟩, hup⟩
  refine ⟨⟨a, hclose.transfer (Act.evolves hact)
    (fun k hk => same_applyAll v (fun hk' => hdisj hk' hk)), hids⟩, fun hq => ?_⟩
  exact (hup hq).act hb hact (hR.loyal hq l hl).1 (hR.loyal hq l hl).2

/-- The step of an attempt that has been ended. -/
theorem Closed.fetch {v : Db} {ws : List Write} (h : Closed q attempt success result v ws)
    (hb : Base v) : ∃ step, (backend.applyAll v ws).steps.get? attempt.stepID = some step ∧
      Fetched q attempt.workflowRunID step success result v ws := by
  obtain ⟨⟨a, hclose, hstep, hrun⟩, hup⟩ := h
  obtain ⟨t, ht, hid, -, -⟩ := hb.ledger.parent a (Table.mem_of_get? hclose.mem)
  have hget : v.steps.get? a.stepID = some t := hid ▸ Table.mem_iff_get?.mp ht
  obtain ⟨hnum, -⟩ := hb.ledger.latest_of_open (Table.mem_of_get? hclose.mem) hclose.isOpen hget
  refine ⟨t, ?_, ⟨a, hclose, hid.symm, hrun, hnum⟩, ⟨t, hid ▸ hget, .refl t⟩, hup⟩
  rw [hclose.frame.1, ← hstep]
  exact hget

/-- The run of an attempt that has been ended. -/
theorem Fetched.fetch {v : Db} {ws : List Write} {runID : UUID}
    (h : Fetched q runID step success result v ws) (hb : Base v) :
    ∃ run, (backend.applyAll v ws).runs.get? runID = some run ∧ run.id = runID ∧
      AtHand q run step success result v ws := by
  obtain ⟨a, hclose, hstep, hrun, hnum⟩ := h.closes
  obtain ⟨t, ht, hid, hparent, -⟩ := hb.ledger.parent a (Table.mem_of_get? hclose.mem)
  obtain ⟨r, hr, hrid⟩ := hb.graph.run t ht
  obtain rfl : r.id = runID := hrid.trans (hparent.symm.trans hrun)
  have hget : v.runs.get? r.id = some r := Table.mem_iff_get?.mp hr
  refine ⟨r, by rw [hclose.frame.2.1]; exact hget, rfl, h, ⟨r, hget, rfl⟩,
    fun hq t ht hrun hst => ?_, fun hq hend => (h.upright hq).ended r hget hend⟩
  obtain ⟨r', hr', hend⟩ := (h.upright hq).cancelled t ht hrun hst
  obtain rfl := Option.some.inj (hget.symm.trans hr')
  exact hend

/-- `handleAttemptOutcome`. -/
theorem handleAttemptOutcome_spec (hR : Regime A Err attempt.workflowRunID Q q)
    (hvalid : ∀ o, result = some o → o.IsValid) :
    Serves A Err (engine.Holds (Idles attempt.workflowRunID) []
        (Closed q attempt success result))
      (handleAttemptOutcome attempt success result errMsg)
      (fun _ => Concluded Q attempt.workflowRunID) := by
  have hstep : engine.Triple A (Idles attempt.workflowRunID) Err []
      (Closed q attempt success result) (getStep attempt.stepID) []
      (fun step => Fetched q attempt.workflowRunID step success result) :=
    lookup_rule (fun _ v => v.steps.get? attempt.stepID) (fun _ _ => rfl)
      (fun step => Fetched.robust hR) (fun v ws _ hb h => Or.inr (h.fetch hb))
  refine Safe.bind hstep (fun step => ?_)
  have hrun : engine.Triple A (Idles attempt.workflowRunID) Err []
      (Fetched q attempt.workflowRunID step success result)
      (getWorkflowRun attempt.workflowRunID) []
      (fun run v ws => run.id = attempt.workflowRunID ∧ AtHand q run step success result v ws) := by
    refine lookup_rule (fun _ v => v.runs.get? attempt.workflowRunID) (fun _ _ => rfl)
      (fun run => ?_) (fun v ws _ hb h => Or.inr (h.fetch hb))
    by_cases hid : run.id = attempt.workflowRunID
    · exact (Robust.pure (fun _ => _ = _)).and (AtHand.robust (hid ▸ hR))
    · exact fun _ _ _ _ _ _ _ _ _ h => absurd h.1 hid
  refine Safe.bind hrun (fun run => Holds.assume (fun hid => ?_))
  rw [← hid] at hR ⊢
  have hbegin : ∀ s w, Base s → engine.Holds (Idles run.id) [] (AtHand q run step success result)
      s w → engine.Holds (Idles run.id) [] (Closing q run step success result []) s w :=
    fun s w hs h => h.mono hs (fun _ hl => hl) (List.Subset.refl _)
      (fun v ws _ hat => ⟨ws, (List.append_nil ws).symm, hat, Or.inl rfl⟩)
  cases success with
  | true =>
    exact Safe.bind ((completeStep_spec hR hvalid).pre hbegin) (fun _ => conclude_spec hR)
  | false =>
    simp only [Bool.false_eq_true, if_false]
    by_cases hcount : (step.attemptCount : ℤ) < step.maxAttempts
    · rw [if_pos hcount]
      exact Safe.bind ((retryStep_spec hR hcount).pre hbegin) (fun _ => conclude_spec hR)
    · rw [if_neg hcount]
      exact Safe.bind ((failStep_spec hR hcount).pre hbegin) (fun _ => conclude_spec hR)

/-- The transaction of the reaper for one attempt, begun with the note that the
expiry is being dealt with. -/
theorem handleExpiredAttempt_spec (hR : Regime A Err attempt.workflowRunID Q q) :
    Serves A Err (engine.Holds (Idles attempt.workflowRunID) [] (Closed q attempt false none))
      (handleExpiredAttempt attempt) (fun _ => Concluded Q attempt.workflowRunID) :=
  handleAttemptOutcome_spec hR RawMessage.isValid_of_none

end

section

variable {A : Label → Prop} {Err : Error → Prop} {Q : UUID → Db → Prop} {q : UUID → Prop}

/-- The statement that ends an attempt with the report of its worker. -/
theorem completeTaskAttempt_spec (hR : ∀ runID, Regime A Err runID (Q runID) (q runID))
    (herr : ∀ e, Err e) (attemptID : UUID) (workerID : String) (success : Bool)
    (output : Option RawMessage) (errMsg : Option String) :
    engine.Triple A (fun _ => False) Err [] (Fresh q)
      (Query.completeTaskAttempt attemptID workerID success output errMsg).issue []
      (fun answer v ws => (∀ o, output = some o → o.IsValid) ∧
        if answer.2 then Closed (q answer.1.workflowRunID) answer.1 success output v ws
        else ws = []) := by
  refine statement_rule (fun answer => (Robust.pure (fun _ => ∀ o, _ = some o → _)).and ?_) ?_
  · cases answer.2
    · exact Robust.pure (· = [])
    · exact Closed.robust (hR _)
  · rintro v ws d hb ⟨rfl, hup⟩ -
    cases hjson : jsonb output with
    | error e => exact Or.inl ⟨e, by simp [Query.exec, hjson]; rfl, herr e⟩
    | ok o =>
      obtain ⟨rfl, hvalid⟩ := jsonb_eq_ok hjson
      cases ha : v.attempts.get? attemptID with
      | none => exact Or.inl ⟨.notFound, by simp [Query.exec, hjson, ha]; rfl, herr _⟩
      | some a =>
        have hid : a.id = attemptID := Table.key_of_get? ha
        cases hlease : a.leasedTo workerID with
        | false =>
          exact Or.inr ⟨(a, false), [], by simp [Query.exec, hjson, ha, hlease]; rfl,
            .begin ⟨hvalid, rfl⟩⟩
        | true =>
          refine Or.inr ⟨(a.complete success o errMsg d.now, true),
            [.attempt (a.complete success o errMsg d.now)],
            by simp [Query.exec, hjson, ha, hlease]; rfl, .begin ⟨hvalid, ⟨a, ?_, rfl, rfl⟩, hup _⟩⟩
          refine .report (hid.symm ▸ ha) ?_
          simp only [TaskAttempt.leasedTo, Bool.and_eq_true, beq_iff_eq] at hlease
          exact hlease.1

/-- `HandleTaskResult`. A report that is not accepted has written nothing. -/
theorem handleTaskResult_spec (hR : ∀ runID, Regime A Err runID (Q runID) (q runID))
    (herr : ∀ e, Err e) (attemptID : UUID) (workerID : String) (success : Bool)
    (output : Option RawMessage) (errMsg : Option String) :
    Serves A Err (Beginning (Fresh q))
      (handleTaskResult attemptID workerID success output errMsg)
      (fun accepted s w => (accepted = false → w = []) ∧
        ∃ runID, Concluded (Q runID) runID s w) := by
  refine Safe.bind (completeTaskAttempt_spec hR herr ..) (fun answer => Holds.assume
    (fun hvalid => ?_))
  obtain ⟨attempt, applied⟩ := answer
  cases applied with
  | false =>
    refine Safe.ret (fun s w _ h => ?_)
    obtain ⟨w₀, ws, rfl, hsteps, -, rfl⟩ := h
    cases hsteps with
    | nil => exact ⟨fun _ => rfl, 0, Or.inl .nil⟩
    | snoc _ hl _ => exact hl.elim
  | true =>
    refine Safe.bind ((handleAttemptOutcome_spec (hR attempt.workflowRunID) hvalid).pre
      (fun s w hs h => h.mono hs (fun _ hl => hl.elim) (List.Subset.refl _)
        (fun _ _ _ hF => hF))) (fun _ => Safe.ret (fun s w _ h => ⟨(fun h => by cases h), _, h⟩))

end

end Orchestrator
