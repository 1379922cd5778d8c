import Orchestrator.Solo.Mirror

/-!
# Dispatch of ready steps by a transaction that runs alone

A parked step that the first loop of `dispatchReady` visits is completed if there is a
signal for it. A step that is ready when the second loop visits it is moved on. The orders
of the loops are among those that the draws considered allow.
-/

namespace Orchestrator

open Lib Program

section Signals

variable {run : WorkflowRun} {maps : StepMaps} {v : Db} {s : Step} {name : String}

/-- What a step has found when it has looked for its signal. -/
def Listened (run : WorkflowRun) (rs : RunState) (v : Db) (s : Step) (res : Bool × Step)
    (v' : Db) : Prop :=
  (res = (false, s) ∧ v' = v ∧ ∀ g : Signal, ¬ g.Reaches v s) ∨
    ∃ payload t, res = (true, { s with status := .completed, output := some payload }) ∧
      v.steps.get? s.id = some t ∧ s.Same t ∧ Resolves v t v' ∧ Passes run.id v v' ∧
      Mirror run (rs.put { s with status := .completed, output := some payload }) v'

/-- The loop over the signals, which stand in the order of their receipt. -/
theorem resolveSignalWait_watch (hb : Base v) (hM : Mirror run maps.byName v)
    (hshared : maps.Shared) (hs : maps.byName.get? name = some s) (hw : maps.byName.Waits s)
    {signals : List Signal}
    (hsorted : signals.Pairwise (fun a b => a.receivedAt ≤ b.receivedAt))
    (hmem : ∀ g ∈ signals, g ∈ v.signals ∧ g.workflowRunID = run.id ∧ g.processed = false)
    (hall : ∀ g : Signal, g.Reaches v s → g ∈ signals) :
    Watch (Noted.resolveSignalWait run maps s signals) (Listened run maps.byName v s) v := by
  induction signals with
  | nil => exact Or.inl ⟨rfl, rfl, fun g hg => List.not_mem_nil (hall g hg)⟩
  | cons sig rest ih =>
    obtain ⟨hle, hsorted⟩ := List.pairwise_cons.mp hsorted
    obtain ⟨⟨hsig, hsigrun, hunused⟩, hrest⟩ := List.forall_mem_cons.mp hmem
    by_cases hname : sig.signalName ≠ s.wantName
    · rw [Noted.resolveSignalWait, if_pos hname]
      refine ih hsorted hrest (fun g hg => ?_)
      rcases List.mem_cons.mp (hall g hg) with rfl | hg'
      · exact absurd hg.name hname
      · exact hg'
    · rw [Noted.resolveSignalWait, if_neg hname]
      obtain ⟨hrun, t, ht, hsame⟩ := hM.find_row hs
      obtain ⟨r, hr, -, -, hlive⟩ := hM.live
      have hst : t.status ∈ [s.status] := List.mem_singleton.mpr hsame.status
      obtain ⟨hstatus, htype, hdeps⟩ := hw.row hb hM.toView hrun ht hsame.copies hst
      have htrun : t.workflowRunID = run.id := (Step.run_of_info hsame.info).trans hrun
      have hreach : sig.Reaches v t :=
        ⟨hsig, hsigrun.trans htrun.symm,
          (not_not.mp hname).trans (Step.want_of_info hsame.info).symm, hunused⟩
      have hget : v.signals.get? sig.id = some sig := Table.mem_iff_get?.mp hsig
      refine Wp.bind (watch_statement (hM.holds hshared) (fun d _ => ⟨true,
        [.signal { sig with processed := true }], by simp [Query.exec, hget, hunused], rfl, ?_⟩))
      simp only [not_true_eq_false, if_false]
      refine Wp.bind (watch_updateStep (t := t) (hM.holds hshared) ht hst ?_ (fun now => ?_))
      · intro o ho
        exact Option.some.inj ho ▸ hb.signals sig hsig
      · have hpass : ∀ now', Pass run.id v (.signal { sig with processed := true } ::
            .step (t.transition .completed (some sig.payload) none false now) ::
            historyWrites r .stepCompletedBySignal (some (.obj [("signal", .str sig.signalName),
              ("step", .str s.stepName)])) now') := by
          intro now'
          rw [← Step.name_of_info hsame.info]
          refine .hear (Table.get?_key ht) htrun hstatus htype hdeps hreach (fun g hg => ?_) hr
            hlive
          rcases List.mem_cons.mp (hall g (hg.of_info hsame.info.symm)) with rfl | hg'
          · exact le_rfl
          · exact hle g hg'
        have haside : Aside [.signal { sig with processed := true }] := fun _ => ⟨rfl, rfl⟩
        have hM' : ∀ now', Mirror run (maps.write
            { s with status := .completed, output := some sig.payload }).byName _ :=
          fun now' => hM.changed hs ht (by rfl) hr haside (hpass now').evolves
            ⟨hsame.info, rfl, hsame.count, rfl, hsame.error⟩
        refine Wp.bind (watch_appendHistory (r := r)
          ((hM' now).holds (hshared.write hs rfl rfl)) hr (fun now' => ?_))
        exact Or.inr ⟨sig.payload, t, rfl, ht, hsame, ⟨htype,
          t.transition .completed (some sig.payload) none false now, sig, ⟨rfl, rfl⟩, rfl, hreach,
          rfl⟩,
          .one (hpass now'), hM' now'⟩

/-- `tryResolveSignalWait`. -/
theorem tryResolveSignalWait_watch (hb : Base v) (hM : Mirror run maps.byName v)
    (hshared : maps.Shared) (hs : maps.byName.get? name = some s) (hw : maps.byName.Waits s) :
    Watch (Noted.tryResolveSignalWait run maps s) (Listened run maps.byName v s) v := by
  refine Wp.bind (watch_read (hM.holds hshared) (fun d v => (d.shuffle (v.signals.rows.filter
    (fun s => s.workflowRunID = run.id ∧ s.processed = false))).insertionSort
      (fun a b => a.receivedAt ≤ b.receivedAt)) (fun _ _ => rfl) (fun _ => trivial) (fun d => ?_))
  have hmem : ∀ g : Signal, g ∈ (d.shuffle (v.signals.rows.filter (fun s =>
      s.workflowRunID = run.id ∧ s.processed = false))).insertionSort
        (fun a b => a.receivedAt ≤ b.receivedAt) ↔
      g ∈ v.signals ∧ g.workflowRunID = run.id ∧ g.processed = false := by
    intro g
    rw [List.mem_insertionSort, (d.shuffle_perm _).mem_iff, List.mem_filter, decide_eq_true_eq]
    rfl
  refine resolveSignalWait_watch hb hM hshared hs hw (List.pairwise_insertionSort _ _)
    (fun g hg => (hmem g).mp hg) (fun g hg => (hmem g).mpr ⟨hg.mem, ?_, hg.unused⟩)
  exact hg.run.trans (hM.find_row hs).1

/-- A parked step looks for its signal. -/
theorem resolveWaiting_watch (hb : Base v) (hM : Mirror run maps.byName v)
    (hshared : maps.Shared) (name : String) :
    Watch (Noted.resolveWaiting run maps name) (fun maps' v' => (Base v' ∧
      Mirror run maps'.byName v' ∧ maps'.Shared) ∧ resolving run.id name v v') v := by
  unfold Noted.resolveWaiting
  cases hs : maps.byName.get? name with
  | none =>
    refine ⟨⟨hb, hM, hshared⟩, Or.inl ⟨rfl, fun t ht hrun hname => ?_⟩⟩
    obtain ⟨s, hs', -⟩ := hM.copy_of_name ht hrun hname
    cases hs.symm.trans hs'
  | some s =>
    have hidle : (s.status = .waiting → ∀ g : Signal, ¬ g.Reaches v s) → ∀ t ∈ v.steps,
        t.workflowRunID = run.id → t.stepName = name →
          ¬ (t.status = .waiting ∧ ∃ g : Signal, g.Reaches v t) := by
      rintro hnone t ht hrun hname ⟨hst, g, hg⟩
      obtain ⟨s', hs', hsame⟩ := hM.copy_of_name ht hrun hname
      obtain rfl := Option.some.inj (hs.symm.trans hs')
      exact hnone (hsame.status.symm.trans hst) g (hg.of_info hsame.info.symm)
    by_cases hwait : s.status = .waiting
    · simp only [hwait, if_true]
      refine Wp.bind ((tryResolveSignalWait_watch hb hM hshared hs (Or.inr hwait)).mono ?_)
      rintro res v' (⟨rfl, rfl, hnone⟩ | ⟨payload, t, rfl, ht, hsame, hresolves, hpath, hM'⟩)
      · have hself : (maps.write s).byName = maps.byName := Table.put_eq_self (Table.get?_key hs)
        exact ⟨⟨hb, hself.symm ▸ hM, hshared.write hs rfl rfl⟩,
          Or.inl ⟨rfl, hidle (fun _ => hnone)⟩⟩
      · obtain ⟨-, t', sig, -, -, hreach, -⟩ := id hresolves
        refine ⟨⟨hpath.base hb, hM', hshared.write hs rfl rfl⟩, Or.inr ⟨t, Table.mem_of_get? ht,
          (Step.run_of_info hsame.info).trans (hM.find_row hs).1, ?_,
          ⟨hsame.status.trans hwait, sig, hreach⟩, hresolves, hpath⟩⟩
        exact (Step.name_of_info hsame.info).trans (Table.key_of_get? hs)
    · simp only [hwait, if_false]
      exact ⟨⟨hb, hM, hshared⟩, Or.inl ⟨rfl, hidle (fun hst => absurd hst hwait)⟩⟩

end Signals

section Dispatch

variable {Err : Error → Prop} {run : WorkflowRun} {maps : StepMaps} {v : Db} {s : Step}
  {name : String} {note : Note}

/-- `dispatchStep` for a step that is as its copy says. -/
theorem dispatchStep_watch {Q : Step → Db → Prop} {expected : List StepStatus} {t : Step}
    {r : WorkflowRun} (hnote : note.Holds v) (hqueued : ∀ now, Note.Holds
      (note.write { s with status := .queued, attemptCount := s.attemptCount + 1 })
      (v.apply (.step (t.transition .queued none none true now))))
    (hb : Base v) (ht : v.steps.get? s.id = some t) (hsame : s.Same t)
    (hrun : t.workflowRunID = run.id) (hst : t.status ∈ expected)
    (hr : v.runs.get? run.id = some r) (hshard : r.shardID = run.shardID)
    (h : ∀ id key messageID now now₁ now₂ now₃, v.attempts.get? id = none →
      v.NoAttempt t.id (t.attemptCount + 1) → v.outbox.get? messageID = none →
      Q { s with status := .queued, attemptCount := s.attemptCount + 1 } (backend.applyAll v
        (dispatchWrites t r id key messageID now now₁ now₂ now₃))) :
    Watch (Noted.dispatchStep run note s expected) Q v := by
  have hslot : v.NoAttempt s.id (s.attemptCount + 1) := noAttempt_of_count hb ht hsame.count
  have hinput : s.input.IsValid :=
    Step.input_of_info hsame.info ▸ (hb.ledger.row t (Table.mem_of_get? ht)).input
  unfold Noted.dispatchStep
  dsimp only
  refine Wp.bind (watch_statement hnote (fun d hadm => ⟨newAttempt d.uuid s.id run.id
    (s.attemptCount + 1) d.key (queueName s.taskType) d.now, [.attempt (newAttempt d.uuid s.id
      run.id (s.attemptCount + 1) d.key (queueName s.taskType) d.now)],
    by simp [Query.exec, hslot, ht, hr], trivial, ?_⟩))
  have hnew : v.attempts.get? d.uuid = none := by simpa [Query.admits] using hadm
  simp only [hinput, not_true_eq_false, if_false]
  refine Wp.bind (watch_statement hnote (fun d' hadm' => ⟨d'.uuid, _, rfl, trivial, ?_⟩))
  have hmsg : v.outbox.get? d'.uuid = none := by simpa [Query.admits] using hadm'
  refine Wp.bind (watch_updateStep (t := t) hnote ht hst RawMessage.isValid_of_none
    (fun now₂ => ?_))
  simp only [not_true_eq_false, if_false]
  refine Wp.bind (watch_appendHistory (r := r) (hqueued now₂) hr (fun now₃ => ?_))
  have hid := Step.id_of_info hsame.info
  have htype := Step.type_of_info hsame.info
  rw [← hid, ← hsame.count] at hslot
  have hdone := h d.uuid d.key d'.uuid d.now d'.now now₂ now₃ hnew hslot hmsg
  simp only [dispatchWrites, dispatchedDocument, taskMessage, newAttempt, hshard, hrun, hid,
    hsame.count, htype, Step.name_of_info hsame.info, Step.input_of_info hsame.info,
    Step.timeout_of_info hsame.info] at hdone ⊢
  exact_mod_cast hdone

/-- `dispatchStep` for a step that was read by itself. -/
theorem dispatchStep_solo {Q : Step → Db → Prop} {expected : List StepStatus} {t : Step}
    {r : WorkflowRun} (hb : Base v) (ht : v.steps.get? s.id = some t) (hsame : s.Same t)
    (hrun : t.workflowRunID = run.id) (hst : t.status ∈ expected)
    (hr : v.runs.get? run.id = some r) (hshard : r.shardID = run.shardID)
    (h : ∀ id key messageID now now₁ now₂ now₃, v.attempts.get? id = none →
      v.NoAttempt t.id (t.attemptCount + 1) → v.outbox.get? messageID = none →
      Q { s with status := .queued, attemptCount := s.attemptCount + 1 } (backend.applyAll v
        (dispatchWrites t r id key messageID now now₁ now₂ now₃))) :
    Solo Err (dispatchStep run s expected) Q v :=
  plain_dispatchStep run none s expected ▸ Watch.solo (dispatchStep_watch
    (Note.holds_none v) (fun _ => Note.holds_none _) hb ht hsame hrun hst hr hshard h)

/-- A visit of the second loop. -/
theorem dispatchOne_watch (hb : Base v) (hM : Mirror run maps.byName v) (hshared : maps.Shared)
    (name : String) :
    Watch (Noted.dispatchOne run maps name) (fun maps' v' => (Base v' ∧
      Mirror run maps'.byName v' ∧ maps'.Shared) ∧ dispatching run.id name v v') v := by
  unfold Noted.dispatchOne
  cases hs : maps.byName.get? name with
  | none =>
    refine ⟨⟨hb, hM, hshared⟩, Or.inl ⟨rfl, fun t ht hrun hname => ?_⟩⟩
    obtain ⟨s, hs', -⟩ := hM.copy_of_name ht hrun hname
    cases hs.symm.trans hs'
  | some s =>
    obtain ⟨hrun, t, ht, hsame⟩ := hM.find_row hs
    by_cases hcond : (s.isFresh && maps.byName.ready s) = true
    · obtain ⟨hfresh, hready⟩ := Bool.and_eq_true_iff.mp hcond
      obtain ⟨r, hr, hshard, -, hlive⟩ := hM.live
      have hmem : t.status ∈ [s.status] := List.mem_singleton.mpr hsame.status
      have hpending := pending_of_fresh hb ht hfresh hmem
      have htrun : t.workflowRunID = run.id := (Step.run_of_info hsame.info).trans hrun
      have hdeps := hM.depsDone hrun hsame.info hready
      have hname : t.stepName = name :=
        (Step.name_of_info hsame.info).trans (Table.key_of_get? hs)
      have hmoved : ∀ {maps' : StepMaps} {v' : Db}, Resolves v t v' ∨ Starts v t v' →
          Passes run.id v v' → Mirror run maps'.byName v' → maps'.Shared → (Base v' ∧
            Mirror run maps'.byName v' ∧ maps'.Shared) ∧ dispatching run.id name v v' :=
        fun hmove hpath hM' hshared' => ⟨⟨hpath.base hb, hM', hshared'⟩, Or.inr ⟨t,
          Table.mem_of_get? ht, htrun, hname, ⟨hpending, hdeps⟩, hmove, hpath⟩⟩
      simp only [hcond, if_true]
      by_cases htype : s.taskType = signalWaitTaskType
      · simp only [htype, if_true]
        refine Wp.bind ((tryResolveSignalWait_watch hb hM hshared hs
          (Or.inl ⟨hfresh, hready, htype⟩)).mono ?_)
        rintro res v' (⟨rfl, rfl, hnone⟩ | ⟨payload, t', rfl, ht', -, hresolves, hpath, hM'⟩)
        · simp only [Bool.false_eq_true, if_false]
          refine Wp.bind (watch_updateStep (hM.holds hshared) ht hmem RawMessage.isValid_of_none
            (fun now => ?_))
          have hpass : Pass run.id v' [.step (t.transition .waiting none none false now)] :=
            .park (Table.get?_key ht) htrun hpending ((Step.type_of_info hsame.info).trans htype)
              hdeps (fun g hg => hnone g (hg.of_info hsame.info.symm)) hr hlive
          exact hmoved (Or.inr ⟨rfl, t.transition .waiting none none false now, ⟨rfl, rfl⟩,
              Or.inl ⟨rfl, fun g hg =>
              hnone g (hg.of_info hsame.info.symm)⟩⟩) (.one hpass)
            (hM.put hs ht (by rfl) rfl hpass.evolves rfl (hsame.transition .waiting false now))
            (hshared.write hs rfl rfl)
        · obtain rfl := Option.some.inj (ht.symm.trans ht')
          exact hmoved (Or.inl hresolves) hpath hM' (hshared.write hs rfl rfl)
      · simp only [htype, if_false]
        have hqueued : ∀ now, Mirror run (maps.write { s with
            status := .queued
            attemptCount := s.attemptCount + 1 }).byName
            (v.apply (.step (t.transition .queued none none true now))) := by
          intro now
          have hkey : v.steps.get? t.id = some t := Table.get?_key ht
          refine hM.put hs ht (by rfl) rfl (.putStep (s := t) hkey ?_) rfl
            (hsame.transition .queued true now)
          exact .transition (by rw [hpending]; rfl) ..
        refine Wp.bind (dispatchStep_watch (hM.holds hshared)
          (fun now => (hqueued now).holds (hshared.write hs rfl rfl)) hb ht hsame htrun hmem hr
          hshard ?_)
        intro id key messageID now now₁ now₂ now₃ hnew hslot hmsg
        have hpass : Pass run.id v (dispatchWrites t r id key messageID now now₁ now₂ now₃) :=
          .dispatch (Table.get?_key ht) htrun hpending
            (fun h => htype ((Step.type_of_info hsame.info).symm.trans h)) hdeps hnew hslot hmsg hr
            hlive
        refine hmoved (Or.inr ⟨rfl, t.transition .queued none none true now₂, ⟨rfl, rfl⟩,
          Or.inr ⟨rfl, fun h => htype
          ((Step.type_of_info hsame.info).symm.trans h)⟩⟩) (.one hpass) ?_
          (hshared.write hs rfl rfl)
        have haside : Aside [.attempt (newAttempt id t.id t.workflowRunID (t.attemptCount + 1) key
            (queueName t.taskType) now), .outbox (newMessage messageID (taskMessage r t
              (newAttempt id t.id t.workflowRunID (t.attemptCount + 1) key (queueName t.taskType)
                now)) now₁)] := fun _ => ⟨rfl, rfl⟩
        exact hM.changed hs ht (by rfl) hr haside hpass.evolves (hsame.transition .queued true now₂)
    · simp only [hcond]
      refine ⟨⟨hb, hM, hshared⟩, Or.inl ⟨rfl, fun x hx hxrun hxname hC => hcond ?_⟩⟩
      obtain ⟨s', hs', hsame'⟩ := hM.copy_of_name hx hxrun hxname
      obtain rfl := Option.some.inj (hs.symm.trans hs')
      rw [hM.ready trivial hrun hsame'.info hC.2, Bool.and_true]
      simp [Step.isFresh, ← hsame'.status, hC.1]

/-- The names that are met are those of the steps of the run, in increasing order before
they are put in the order drawn. -/
theorem Mirror.ranges (hM : Mirror run maps.byName v) :
    Ranges run.id v (maps.byName.rows.map (·.stepName)) := by
  refine fun x => List.mem_map.trans ⟨?_, ?_⟩
  · rintro ⟨s, hs, rfl⟩
    obtain ⟨hrun, t, ht, hsame⟩ := hM.find_row (Table.mem_iff_get?.mp hs)
    exact ⟨t, Table.mem_of_get? ht, (Step.run_of_info hsame.info).trans hrun,
      Step.name_of_info hsame.info⟩
  · rintro ⟨t, ht, hrun, rfl⟩
    obtain ⟨s, hs, -⟩ := hM.find_copy ht hrun
    exact ⟨s, Table.mem_of_get? hs, Table.key_of_get? hs⟩

/-- The draws considered put the names of the run's steps in orders that satisfy `O`. -/
def Orders (P : Draw → Prop) (O : List String → Prop) (runID : UUID) (v : Db) : Prop :=
  ∀ d keys, P d → keys.Pairwise (· < ·) → Ranges runID v keys → O (d.shuffle keys)

/-- `dispatchReady`. The state between its loops is `m`. -/
theorem dispatchReady_watch {P : Draw → Prop} {O : List String → Prop} (hb : Base v)
    (hM : Mirror run maps.byName v) (hshared : maps.Shared) (hO : Orders P O run.id v) :
    (Noted.dispatchReady run maps).Wp (watched.restrict P) (fun _ => False) (fun maps' v' =>
      (Mirror run maps'.byName v' ∧ maps'.Shared) ∧ ∃ names₁ names₂ m,
        Ranges run.id v names₁ ∧ O names₁ ∧ Visits (resolving run.id) names₁ v m ∧
        Ranges run.id v names₂ ∧ O names₂ ∧ Visits (dispatching run.id) names₂ m v') v := by
  have hrange : ∀ {maps' : StepMaps} {w : Db}, Mirror run maps'.byName w →
      Passes run.id v w → ∀ d, P d → Ranges run.id v (d.shuffle
        (maps'.byName.rows.map (·.stepName))) ∧ O (d.shuffle
          (maps'.byName.rows.map (·.stepName))) := by
    intro maps' w hMw hpath d hd
    have hkeys := (ranges_passes hpath hb).mpr hMw.ranges
    refine ⟨fun x => ((d.shuffle_perm _).mem_iff).trans (hkeys x), hO d _ hd ?_ hkeys⟩
    exact List.pairwise_map.mpr maps'.byName.sorted
  refine Wp.bind (restricted_range (hM.holds hshared) (fun d₁ hd₁ => Wp.bind (((Wp.visits
    (I := fun maps' v' => Base v' ∧ Mirror run maps'.byName v' ∧ maps'.Shared)
    (fun maps' name v' h => resolveWaiting_watch h.1 h.2.1 h.2.2 name)
    ⟨hb, hM, hshared⟩ _).restrict).mono ?_)))
  rintro mid m ⟨⟨hbm, hMm, hsharedm⟩, hresolves⟩
  refine Wp.bind (restricted_range (hMm.holds hsharedm) (fun d₂ hd₂ => ((Wp.visits
    (I := fun maps' v' => Base v' ∧ Mirror run maps'.byName v' ∧ maps'.Shared)
    (fun maps' name v' h => dispatchOne_watch h.1 h.2.1 h.2.2 name)
    ⟨hbm, hMm, hsharedm⟩ _).restrict).mono ?_))
  rintro maps' v' ⟨⟨-, hM', hshared'⟩, hdispatches⟩
  obtain ⟨hnames₁, hO₁⟩ := hrange hM (.refl v) d₁ hd₁
  obtain ⟨hnames₂, hO₂⟩ := hrange hMm (visits_passes hresolves) d₂ hd₂
  exact ⟨⟨hM', hshared'⟩, _, _, m, hnames₁, hO₁, hresolves, hnames₂, hO₂, hdispatches⟩

end Dispatch

end Orchestrator
