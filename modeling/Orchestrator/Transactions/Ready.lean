import Orchestrator.Transactions.Dispatch

/-!
# Dispatch of ready steps

`dispatchReady` first lets parked steps look for their signal, and then visits
every step once. In a quiet run no step that was ready before the second loop is
left behind. A step that only becomes ready during the loop, by a signal that
completes one of its dependencies, may be.
-/

namespace Orchestrator

open Lib Actions

/-- What `dispatchReady` makes of a step: a parked, a dispatched or, if it waits
for a signal, a completed one. -/
def Step.Advances (s s' : Step) : Prop :=
  s'.info = s.info ∧ (s.isFresh = true ∨ s.status = .waiting) ∧
    (s'.status = .waiting ∨ s'.status = .queued ∨
      (s'.status = .completed ∧ s.taskType = signalWaitTaskType))

/-- What `dispatchReady` makes of a view. -/
def RunState.Advances (rs rs' : RunState) : Prop :=
  ∀ name, rs'.get? name = rs.get? name ∨
    ∃ s s', rs.get? name = some s ∧ rs'.get? name = some s' ∧ s.Advances s'

section Local

variable {rs rs' rs'' : RunState}

theorem RunState.Advances.refl (rs : RunState) : rs.Advances rs := fun _ => Or.inl rfl

theorem RunState.Advances.trans (h : rs.Advances rs') (h' : rs'.Advances rs'') :
    rs.Advances rs'' := by
  intro name
  rcases h' name with heq' | ⟨t, u, ht, hu, hinfo', hfrom', hto'⟩
  · rw [heq']
    exact h name
  · rcases h name with heq | ⟨s, t', hs, ht', hinfo, hfrom, hto⟩
    · exact Or.inr ⟨t, u, heq ▸ ht, hu, hinfo', hfrom', hto'⟩
    · obtain rfl := Option.some.inj (ht.symm.trans ht')
      refine Or.inr ⟨s, u, hs, hu, hinfo'.trans hinfo, hfrom, hto'.imp_right (Or.imp_right ?_)⟩
      exact And.imp_right (fun htype => (Step.type_of_info hinfo).symm.trans htype)

theorem RunState.Advances.put {s s' : Step} {name : String} (hs : rs.get? name = some s)
    (h : s.Advances s') : rs.Advances (rs.put s') := by
  have hname : s'.stepName = s.stepName := Step.name_of_info h.1
  intro n
  by_cases hn : s'.stepName = n
  · subst hn
    exact Or.inr ⟨s, s', hname ▸ Table.get?_key hs, Table.get?_put_self rs s', h⟩
  · exact Or.inl (Table.get?_put_of_ne hn)

/-- A step that is not dispatched has been left alone. -/
theorem RunState.Advances.fresh (h : rs.Advances rs') {s : Step} (hs : s ∈ rs')
    (hfresh : s.isFresh = true) : rs.get? s.stepName = some s := by
  have hget := Table.mem_iff_get?.mp hs
  rcases h s.stepName with heq | ⟨t, s', -, hs', -, -, hto⟩
  · rw [← heq, hget]
  · obtain rfl := Option.some.inj (hget.symm.trans hs')
    rcases hto with hst | hst | ⟨hst, -⟩ <;> simp [Step.isFresh, hst] at hfresh

/-- A completed step stays completed. -/
theorem RunState.Advances.ready (h : rs.Advances rs') {s : Step} (hready : rs.ready s = true) :
    rs'.ready s = true := by
  refine List.all_eq_true.mpr (fun dep hdep => ?_)
  have hany := List.all_eq_true.mp hready dep hdep
  obtain ⟨d, hd, hst⟩ := Option.any_eq_true _ _ |>.mp hany
  rcases h dep with heq | ⟨d', s', hd', -, -, hfrom, -⟩
  · rw [heq]
    exact hany
  · obtain rfl := Option.some.inj (hd.symm.trans hd')
    rw [beq_iff_eq] at hst
    rcases hfrom with hfresh | hw
    · simp [Step.isFresh, hst] at hfresh
    · rw [hst] at hw
      cases hw

/-- Nothing becomes bad. -/
theorem RunState.Advances.blocked (h : rs.Advances rs') {s : Step}
    (hblocked : rs'.blocked s = true) : rs.blocked s = true := by
  obtain ⟨dep, hdep, hany⟩ := List.any_eq_true.mp hblocked
  refine List.any_eq_true.mpr ⟨dep, hdep, ?_⟩
  rcases h dep with heq | ⟨d, s', -, hs', -, -, hto⟩
  · rw [← heq]
    exact hany
  · rw [hs', Option.any_some] at hany
    rcases hto with hst | hst | ⟨hst, -⟩ <;> rw [hst] at hany <;> cases hany

/-- Without steps that wait for signals nothing is completed. -/
theorem RunState.Advances.ready_iff (h : rs.Advances rs')
    (hno : ∀ s ∈ rs, s.taskType ≠ signalWaitTaskType) {s : Step}
    (hready : rs'.ready s = true) : rs.ready s = true := by
  refine List.all_eq_true.mpr (fun dep hdep => ?_)
  have hany := List.all_eq_true.mp hready dep hdep
  rcases h dep with heq | ⟨d, s', hd, hs', -, -, hto⟩
  · rw [← heq]
    exact hany
  · rw [hs', Option.any_some, beq_iff_eq] at hany
    rcases hto with hst | hst | ⟨-, htype⟩
    · rw [hany] at hst
      cases hst
    · rw [hany] at hst
      cases hst
    · exact absurd htype (hno d (Table.mem_of_get? hd))

end Local

/-- The signal is one of the run. -/
def Signal.Known (run : WorkflowRun) (sig : Signal) (v : Db) : Prop :=
  ∃ g, v.signals.get? sig.id = some g ∧ g.signalName = sig.signalName ∧
    g.payload = sig.payload ∧ g.workflowRunID = run.id

theorem Signal.Known.evolve {run : WorkflowRun} {sig : Signal} {v v' : Db} (h : sig.Known run v)
    (hev : v.Evolves v') : sig.Known run v' := by
  obtain ⟨g, hg, hname, hpayload, hrun⟩ := h
  obtain ⟨g', hg', hgg'⟩ := hev.signals g (Table.mem_of_get? hg)
  refine ⟨g', ?_, hgg'.name.trans hname, hgg'.payload.trans hpayload, hgg'.run.trans hrun⟩
  rw [← Table.key_of_get? hg, ← hgg'.id]
  exact Table.mem_iff_get?.mp hg'

/-- A step that may look for its signal. -/
def RunState.Waits (rs : RunState) (s : Step) : Prop :=
  (s.isFresh = true ∧ rs.ready s = true ∧ s.taskType = signalWaitTaskType) ∨ s.status = .waiting

theorem RunState.Waits.ne_queued {rs : RunState} {s : Step} (hw : rs.Waits s) :
    s.status ≠ .queued := by
  rcases hw with ⟨hfresh, -, -⟩ | hst
  · exact fresh_ne_queued hfresh
  · rw [hst]
    decide

/-- What a step has found when it has looked for its signal. -/
inductive Resolved (Q : Db → Prop) (run : WorkflowRun) (K : Prop) (rs : RunState) (s : Step)
    (v : Db) (ws : List Write) : Bool × Step → Prop
  /-- There is no signal. -/
  | none : Viewing Q run K rs v ws → Resolved Q run K rs s v ws (false, s)
  /-- The signal has been used up, but the step has changed. -/
  | lost : Viewing Q run False rs v ws → Resolved Q run K rs s v ws (true, s)
  /-- The signal completes the step. -/
  | some (payload : RawMessage) : s.taskType = signalWaitTaskType →
      Viewing Q run K (rs.put { s with status := .completed, output := .some payload }) v ws →
      Resolved Q run K rs s v ws (true, { s with status := .completed, output := .some payload })

/-- A signal has been marked as processed. -/
def Marked (Q : Db → Prop) (run : WorkflowRun) (K : Prop) (rs : RunState) (sig : Signal) (v : Db)
    (ws : List Write) : Prop :=
  ∃ g, ws = [.signal { g with processed := true }] ∧ v.signals.get? sig.id = some g ∧
    g.processed = false ∧ g.signalName = sig.signalName ∧ g.payload = sig.payload ∧
    g.workflowRunID = run.id ∧ Viewing Q run K rs v []

section Programs

variable {A C : Label → Prop} {Err : Error → Prop} {H : List Lock} {Q : Db → Prop}
  {run : WorkflowRun} {K : Prop} {rs : RunState}

theorem Marked.robust (hQ : Quiet A H run.id Q) {sig : Signal} :
    engine.Robust A H (Marked Q run K rs sig) := by
  rintro v ws l u hb hl hact hdisj hH ⟨g, rfl, hg, hproc, hname, hpayload, hrun, hF⟩
  refine ⟨g, rfl, ?_, hproc, hname, hpayload, hrun,
    Viewing.robust hQ v [] l u hb hl hact (by simp) hH hF⟩
  have hsame : (Lock.signal g.id).Same v (backend.applyAll v u) :=
    same_applyAll v (fun hk => hdisj hk (by simp))
  rw [Lock.Same, Table.key_of_get? hg] at hsame
  exact hsame.trans hg

theorem Marked.aside {sig : Signal} {v : Db} {ws : List Write}
    (h : Marked Q run K rs sig v ws) : Aside ws := by
  obtain ⟨g, rfl, -⟩ := h
  exact fun v => ⟨rfl, rfl⟩

/-- An action that leaves the run alone keeps the view. -/
theorem Viewing.calm (hQ : Quiet A H run.id Q) {l : Label} {v : Db} {u : List Write}
    (hb : Base v) (hact : Act l v u) (hcalm : l.kind.calm = true)
    (hF : Viewing Q run K rs v []) : Viewing Q run K rs (backend.applyAll v u) [] := by
  have hev := hact.evolves
  exact ⟨rfl, hF.2.1.evolve hev (fun hq => ⟨hQ.back hev hq, hact.calm hb (Or.inr hcalm)⟩),
    fun hq => hF.2.2 (hQ.back hev hq)⟩

variable (hQ : Quiet A H run.id Q) (hC : ∀ k : Kind, k.ofReconcile = true → C ⟨run.id, k⟩)

include hQ hC

omit hQ hC in
/-- A step that looks for its signal is not queued, and what it depends on has
completed. -/
theorem RunState.Waits.row {s t : Step} {v : Db} (hw : rs.Waits s) (hb : Base v)
    (hV : View Q run rs v) (hrun : s.workflowRunID = run.id) (ht : v.steps.get? s.id = some t)
    (hcopy : s.Copies t) (hst : t.status ∈ [s.status]) :
    (t.status = .pending ∨ t.status = .waiting) ∧ t.taskType = signalWaitTaskType ∧
      DepsDone v.steps t := by
  rcases hw with ⟨hfresh, hready, htype⟩ | hwait
  · exact ⟨Or.inl (pending_of_fresh hb ht hfresh hst), (Step.type_of_info hcopy.info).trans htype,
      hV.depsDone hrun hcopy.info hready⟩
  · have hst' : t.status = .waiting := by rw [← hwait]; simpa using hst
    have hcount := (hb.ledger.row t (Table.mem_of_get? ht)).count
    rw [Step.CountOK, hst'] at hcount
    exact ⟨Or.inr hst', hcount, hb.graph.deps t (Table.mem_of_get? ht)
      (Or.inl (by rw [hst']; decide))⟩

omit hC in
/-- A list of signals of the run survives what others may do. -/
theorem robust_known (signals : List Signal) : engine.Robust A H
    (fun v ws => Viewing Q run K rs v ws ∧ ∀ sig ∈ signals, sig.Known run v) :=
  (Viewing.robust hQ).and (robust_of_evolves (fun _ _ _ _ hev _ h sig hsig =>
    (h sig hsig).evolve hev))

omit hC in
/-- `MarkSignalProcessed`. -/
theorem markSignal_spec (sig : Signal) (rest : List Signal) :
    engine.Triple A C Err H
      (fun v ws => Viewing Q run K rs v ws ∧ ∀ sig' ∈ sig :: rest, sig'.Known run v)
      (Query.markSignalProcessed sig.id).issue H
      (fun applied => if applied then Marked Q run K rs sig
        else fun v ws => Viewing Q run K rs v ws ∧ ∀ sig' ∈ rest, sig'.Known run v) := by
  refine compareAndSet_rule (fun v => v.signals.get? sig.id) (fun g => g.processed = false)
    (fun _ g => (true, [.signal { g with processed := true }])) false
    (fun d v g hg hproc => by simp [Query.exec, hg, hproc]) (fun d v hnot => ?_)
    (fun applied => ?_) ?_ ?_
  · cases hg : v.signals.get? sig.id with
    | none => simp [Query.exec, hg]
    | some g => simp [Query.exec, hg, hnot g hg]
  · cases applied
    · exact robust_known hQ rest
    · exact Marked.robust hQ
  · rintro v ws g d hb ⟨⟨rfl, hV, hK⟩, hknown⟩ hg hproc -
    obtain ⟨g', hg', hname, hpayload, hrun⟩ := hknown sig List.mem_cons_self
    obtain rfl : g' = g := Option.some.inj (hg'.symm.trans hg)
    exact .begin ⟨g', rfl, hg, hproc, hname, hpayload, hrun, rfl, hV, hK⟩
  · rintro v ws hb ⟨hF, hknown⟩ -
    exact .begin ⟨hF, fun sig' hsig' => hknown sig' (List.mem_cons_of_mem _ hsig')⟩

/-- The loop over the signals of a run. -/
theorem resolveSignalWait_spec {s : Step} {name : String} (hs : rs.get? name = some s)
    (hw : rs.Waits s) (signals : List Signal) (hvalid : ∀ sig ∈ signals, sig.payload.IsValid) :
    engine.Triple A C Err H
      (fun v ws => Viewing Q run K rs v ws ∧ ∀ sig ∈ signals, sig.Known run v)
      (resolveSignalWait run s signals) H (fun r v ws => Resolved Q run K rs s v ws r) := by
  induction signals with
  | nil => exact Triple.ret (List.Subset.refl _) (fun v ws _ hF => .none hF.1)
  | cons sig rest ih =>
    obtain ⟨hsig, hrest⟩ := List.forall_mem_cons.mp hvalid
    by_cases hname : sig.signalName ≠ s.wantName
    · rw [resolveSignalWait, if_pos hname]
      exact (ih hrest).pre (fun v ws _ hF =>
        ⟨hF.1, fun g hg => hF.2 g (List.mem_cons_of_mem _ hg)⟩)
    · rw [resolveSignalWait, if_neg hname]
      refine Triple.bind (markSignal_spec hQ sig rest) (fun applied => ?_)
      cases applied with
      | false => exact ih hrest
      | true =>
        refine Triple.bind (changeStep_rule (G := Viewing Q run False rs) ?_ (Marked.robust hQ)
          (Viewing.robust hQ) (fun _ _ hF => hF.aside) ?_) (fun ok => ?_)
        · rintro o ho
          exact Option.some.inj ho ▸ hsig
        · rintro v ws hb ⟨g, rfl, hg, hproc, -, -, hrun, hF⟩ hnot
          have hact : Act ⟨g.workflowRunID, .burn⟩ v _ := .burn (Table.get?_key hg) hproc
          have hlost : Viewing Q run False rs v [] := by
            refine ⟨rfl, hF.2.1, fun hq => ?_⟩
            obtain ⟨-, -, t, ht, -, hmirror⟩ := hF.2.1.row_of_get? hs
            exact hnot t ht (by simp [(hmirror hq).status_eq hw.ne_queued])
          exact .act (hrun ▸ hC .burn rfl) hact (hlost.calm hQ hb hact rfl)
        · cases ok with
          | false => exact Triple.ret (List.Subset.refl _) (fun v ws _ hF => .lost hF)
          | true =>
            refine Triple.bind (changed_rule ((Robust.pure (fun _ => s.taskType =
              signalWaitTaskType)).and (Viewing.robust hQ)) (fun _ _ hF => hF.aside) ?_ ?_)
              (fun _ => Triple.ret (List.Subset.refl _)
                (fun v ws _ hF => .some sig.payload hF.1 hF.2))
            · rintro v ws hb ⟨g, -, -, -, -, -, -, hF⟩
              exact hF.2.1.row.imp (fun _ h => h.1)
            · rintro v ws t r now now' hb ⟨g, rfl, hg, hproc, hgname, hgpayload, hgrun, hF⟩ ht hst
                hr
              obtain ⟨-, hrun, t₀, ht₀, hcopy, hmirror⟩ := hF.2.1.row_of_get? hs
              obtain rfl : t₀ = t := Option.some.inj (ht₀.symm.trans ht)
              have htrun : t₀.workflowRunID = run.id := (Step.run_of_info hcopy.info).trans hrun
              obtain ⟨hstatus, htype, hdeps⟩ := hw.row hb hF.2.1 hrun ht hcopy hst
              have hwant : g.signalName = t₀.wantName := by
                rw [hgname, not_not.mp hname, Step.wantName, Step.wantName,
                  Step.input_of_info hcopy.info, Step.name_of_info hcopy.info]
              have hact : Act ⟨t₀.workflowRunID, .resolve⟩ v
                  ([.signal { g with processed := true }] ++
                    .step (t₀.transition .completed (some g.payload) none false now) ::
                    historyWrites r .stepCompletedBySignal (some (signalledDocument t₀ g))
                      now') :=
                .resolve (Table.get?_key hg) hproc (hgrun.trans htrun.symm) hwant
                  (Table.get?_key ht) hstatus htype hdeps (htrun.symm ▸ hr)
              rw [signalledDocument, Step.name_of_info hcopy.info] at hact
              rw [← hgpayload, ← hgname]
              exact .act (htrun ▸ hC .resolve rfl) hact
                ⟨(Step.type_of_info hcopy.info).symm.trans htype,
                  Viewing.changed hQ hF (Table.mem_of_get? hs) ht hr (fun _ => ⟨rfl, rfl⟩)
                  hact rfl rfl ⟨hcopy.info, hcopy.count, fun _ => rfl, fun _ => rfl⟩
                  (fun hq => ⟨(hmirror hq).count, Or.inl rfl⟩)⟩

/-- `tryResolveSignalWait`. -/
theorem tryResolveSignalWait_spec {s : Step} {name : String} (hs : rs.get? name = some s)
    (hw : rs.Waits s) :
    engine.Triple A C Err H (Viewing Q run K rs) (tryResolveSignalWait run s) H
      (fun r v ws => Resolved Q run K rs s v ws r) := by
  refine Triple.bind (read_rule (fun d v => (d.shuffle (v.signals.rows.filter (fun s =>
    s.workflowRunID = run.id ∧ s.processed = false))).insertionSort
      (fun a b => a.receivedAt ≤ b.receivedAt)) (fun _ _ => rfl)
    (fun signals => (Robust.pure (fun _ => ∀ sig ∈ signals, sig.payload.IsValid)).and
      (robust_known hQ signals)) ?_)
    (fun signals => Triple.assume (fun hvalid => resolveSignalWait_spec hQ hC hs hw signals hvalid))
  rintro v ws d hb ⟨rfl, hV, hK⟩
  have hmem : ∀ sig ∈ (d.shuffle (v.signals.rows.filter (fun s =>
      s.workflowRunID = run.id ∧ s.processed = false))).insertionSort
        (fun a b => a.receivedAt ≤ b.receivedAt), sig ∈ v.signals ∧ sig.workflowRunID = run.id := by
    intro sig hsig
    rw [List.mem_insertionSort, (d.shuffle_perm _).mem_iff, List.mem_filter] at hsig
    exact ⟨hsig.1, (of_decide_eq_true hsig.2).1⟩
  exact ⟨fun sig hsig => hb.signals sig (hmem sig hsig).1, ⟨rfl, hV, hK⟩, fun sig hsig =>
    ⟨sig, Table.mem_iff_get?.mp (hmem sig hsig).1, rfl, rfl, (hmem sig hsig).2⟩⟩

/-- A parked step looks for its signal. -/
theorem resolveWaiting_spec (rs : RunState) (name : String) :
    engine.Triple A C Err H (Viewing Q run K rs) (resolveWaiting run rs name) H
      (fun rs' v ws => rs.Advances rs' ∧ Viewing Q run K rs' v ws) := by
  unfold resolveWaiting
  cases hs : rs.get? name with
  | none => exact Triple.ret (List.Subset.refl _) (fun v ws _ hF => ⟨.refl rs, hF⟩)
  | some s =>
    by_cases hwait : s.status = .waiting
    · simp only [hwait, if_true]
      refine Triple.bind (tryResolveSignalWait_spec hQ hC hs (Or.inr hwait))
        (fun r => Triple.ret (List.Subset.refl _) (fun v ws _ hres => ?_))
      have hself : rs.put s = rs := Table.put_eq_self (Table.get?_key hs)
      cases hres with
      | none hF =>
        simp only [hself]
        exact ⟨.refl rs, hF⟩
      | lost hF =>
        simp only [hself]
        exact ⟨.refl rs, hF.imp False.elim⟩
      | some payload htype hF =>
        exact ⟨.put hs ⟨rfl, Or.inr hwait, Or.inr (Or.inr ⟨rfl, htype⟩)⟩, hF⟩
    · simp only [hwait, if_false]
      exact Triple.ret (List.Subset.refl _) (fun v ws _ hF => ⟨.refl rs, hF⟩)

/-- A ready step that waits for a signal is parked. -/
theorem park_spec {s : Step} {name : String} (hs : rs.get? name = some s)
    (hfresh : s.isFresh = true) (hready : rs.ready s = true)
    (htype : s.taskType = signalWaitTaskType) :
    engine.Triple A C Err H (Viewing Q run K rs)
      (Query.updateStepStatus s.id [s.status] .waiting none none false).issue H
      (fun ok => if ok then Viewing Q run K (rs.put { s with status := .waiting })
        else Viewing Q run False rs) := by
  refine updateStep_rule RawMessage.isValid_of_none (fun ok => ?_) ?_ ?_
  · cases ok <;> exact Viewing.robust hQ
  · rintro v ws t now hb ⟨rfl, hV, hK⟩ ht hst
    obtain ⟨-, hrun, t₀, ht₀, hcopy, hmirror⟩ := hV.row_of_get? hs
    obtain rfl : t₀ = t := Option.some.inj (ht₀.symm.trans ht)
    have hact : Act ⟨t₀.workflowRunID, .park⟩ v
        [.step (t₀.transition .waiting none none false now)] :=
      .park (Table.get?_key ht) (pending_of_fresh hb ht hfresh hst)
        ((Step.type_of_info hcopy.info).trans htype) (hV.depsDone hrun hcopy.info hready)
    have hev := hact.evolves
    refine .act ((Step.run_of_info hcopy.info).trans hrun ▸ hC .park rfl) hact ⟨rfl, ?_,
      fun hq => hK (hQ.back hev hq)⟩
    exact hV.put (Table.mem_of_get? hs) ht (by rfl) rfl rfl hev (hQ.back hev) rfl
      ⟨hcopy.info, hcopy.count, (fun h => by cases h), (fun h => by cases h)⟩
      (fun hq => ⟨(hmirror (hQ.back hev hq)).count, Or.inl rfl⟩)
  · rintro v ws hb ⟨rfl, hV, -⟩ hnot
    refine .begin ⟨rfl, hV, fun hq => ?_⟩
    obtain ⟨-, -, t, ht, -, hmirror⟩ := hV.row_of_get? hs
    exact hnot t ht (by simp [(hmirror hq).status_eq (fresh_ne_queued hfresh)])

/-- A ready step of another type is dispatched. -/
theorem dispatch_spec (herr : ∀ v, ¬ Q v → ∀ e, Err e) {s : Step} {name : String}
    (hs : rs.get? name = some s) (hfresh : s.isFresh = true) (hready : rs.ready s = true)
    (htype : s.taskType ≠ signalWaitTaskType) :
    engine.Triple A C Err H (Viewing Q run K rs) (dispatchStep run s [s.status]) H
      (fun s' v ws => s' = { s with status := .queued, attemptCount := s.attemptCount + 1 } ∧
        Viewing Q run K (rs.put { s with status := .queued, attemptCount := s.attemptCount + 1 })
          v ws) := by
  refine Triple.pre (Triple.assume (φ := s.workflowRunID = run.id)
    (F := fun v ws => ws = [] ∧ Viewing Q run K rs v []) (fun howner => ?_))
    (fun v ws _ hF => ⟨(hF.2.1.row_of_get? hs).2.1, hF.1, hF.1 ▸ hF⟩)
  have hcan : CanDispatch Q run s [s.status] (fun v => Viewing Q run K rs v []) := by
    refine ⟨howner, ?_, ?_, ?_⟩
    · rintro v - ⟨-, hV, -⟩
      exact hV.row.imp (fun _ h => ⟨h.1, h.2.1⟩)
    · rintro v - ⟨-, hV, -⟩
      obtain ⟨-, -, t, ht, hcopy, hmirror⟩ := hV.row_of_get? hs
      exact ⟨t, ht, hcopy, fun hq => ⟨hmirror hq,
        by simp [(hmirror hq).status_eq (fresh_ne_queued hfresh)]⟩⟩
    · rintro v t hb ⟨-, hV, -⟩ ht hst
      obtain ⟨-, hrun, t₀, ht₀, hcopy, -⟩ := hV.row_of_get? hs
      obtain rfl : t₀ = t := Option.some.inj (ht₀.symm.trans ht)
      exact Or.inl ⟨pending_of_fresh hb ht hfresh hst,
        fun h => htype ((Step.type_of_info hcopy.info).symm.trans h),
        hV.depsDone hrun hcopy.info hready⟩
  refine (dispatchStep_spec hQ.back herr (Viewing.robust hQ).at_nil
    (G := fun v => Viewing Q run K (rs.put { s with status := .queued
                                                    attemptCount := s.attemptCount + 1 }) v [])
    (Viewing.robust hQ).at_nil hcan (hC .dispatch rfl) (List.subset_cons_self _ H) ?_).post
    (fun s' v ws _ h => ⟨h.1, h.2.1 ▸ h.2.2⟩)
  rintro v us t r now payload now' hb hF ht hst hr hus hact
  obtain ⟨-, -, t₀, ht₀, hcopy, hmirror⟩ := hF.2.1.row_of_get? hs
  obtain rfl : t₀ = t := Option.some.inj (ht₀.symm.trans ht)
  exact Viewing.changed hQ hF (Table.mem_of_get? hs) ht hr hus hact rfl rfl
    ⟨hcopy.info, Nat.succ_le_succ hcopy.count, (fun h => by cases h), (fun h => by cases h)⟩
    (fun hq => ⟨congrArg (· + 1) (hmirror hq).count, Or.inl rfl⟩)

/-- A visit dispatches the step, parks it or lets it complete if it is ready. -/
theorem dispatchOne_spec (herr : ∀ v, ¬ Q v → ∀ e, Err e) (rs : RunState) (name : String) :
    engine.Triple A C Err H (Viewing Q run K rs) (dispatchOne run rs name) H
      (fun rs' v ws => rs.Advances rs' ∧ Viewing Q run (K ∧ ∀ s, rs'.get? name = some s →
        s.isFresh = true → ¬ rs.ready s = true) rs' v ws) := by
  unfold dispatchOne
  cases hs : rs.get? name with
  | none =>
    exact Triple.ret (List.Subset.refl _) (fun v ws _ hF => ⟨.refl rs, hF.imp (fun hK =>
      ⟨hK, fun s hs' => by rw [hs] at hs'; cases hs'⟩)⟩)
  | some s =>
    have hname : s.stepName = name := Table.key_of_get? hs
    -- A step that has left its state is not ready any more.
    have hgone : ∀ {s' : Step} {v : Db} {ws : List Write}, s.Advances s' →
        Viewing Q run K (rs.put s') v ws → rs.Advances (rs.put s') ∧
          Viewing Q run (K ∧ ∀ x, (rs.put s').get? name = some x → x.isFresh = true →
            ¬ rs.ready x = true) (rs.put s') v ws := by
      intro s' v ws hadv hF
      refine ⟨.put hs hadv, hF.imp (fun hK => ⟨hK, fun x hx hfresh => ?_⟩)⟩
      rw [← hname, ← Step.name_of_info hadv.1, Table.get?_put_self] at hx
      obtain rfl := Option.some.inj hx
      rcases hadv.2.2 with hst | hst | ⟨hst, -⟩ <;> simp [Step.isFresh, hst] at hfresh
    have hself : rs.put s = rs := Table.put_eq_self (Table.get?_key hs)
    by_cases hcond : (s.isFresh && rs.ready s) = true
    · obtain ⟨hfresh, hready⟩ := Bool.and_eq_true_iff.mp hcond
      simp only [hcond, if_true]
      by_cases htype : s.taskType = signalWaitTaskType
      · simp only [htype, if_true]
        refine Triple.bind (tryResolveSignalWait_spec hQ hC hs (Or.inl ⟨hfresh, hready, htype⟩))
          (fun r => ?_)
        obtain ⟨resolved, s'⟩ := r
        cases resolved with
        | true =>
          refine Triple.ret (List.Subset.refl _) (fun v ws _ hres => ?_)
          cases hres with
          | lost hF =>
            rw [hself]
            exact ⟨.refl rs, hF.imp False.elim⟩
          | some payload _ hF =>
            exact hgone ⟨rfl, Or.inl hfresh, Or.inr (Or.inr ⟨rfl, htype⟩)⟩ hF
        | false =>
          refine Triple.pre (Triple.assume (φ := s' = s) (F := Viewing Q run K rs) ?_)
            (fun v ws _ hres => by cases hres with | none hF => exact ⟨rfl, hF⟩)
          rintro rfl
          refine Triple.bind (park_spec hQ hC hs hfresh hready htype) (fun ok => ?_)
          cases ok with
          | true =>
            exact Triple.ret (List.Subset.refl _) (fun v ws _ hF =>
              hgone ⟨rfl, Or.inl hfresh, Or.inl rfl⟩ hF)
          | false =>
            exact Triple.ret (List.Subset.refl _) (fun v ws _ hF =>
              ⟨.refl rs, hF.imp False.elim⟩)
      · simp only [htype, if_false]
        refine Triple.bind (dispatch_spec hQ hC herr hs hfresh hready htype) (fun s' =>
          Triple.ret (List.Subset.refl _) ?_)
        rintro v ws - ⟨rfl, hF⟩
        exact hgone ⟨rfl, Or.inl hfresh, Or.inr (Or.inl rfl)⟩ hF
    · simp only [hcond]
      refine Triple.ret (List.Subset.refl _) (fun v ws _ hF => ⟨.refl rs, hF.imp (fun hK =>
        ⟨hK, fun x hx hfresh hready => hcond ?_⟩)⟩)
      obtain rfl := Option.some.inj (hs.symm.trans hx)
      rw [hfresh, hready]
      rfl

/-- The second loop leaves no step behind that was ready when it began. -/
theorem dispatchAll_spec (herr : ∀ v, ¬ Q v → ∀ e, Err e) {names : List String}
    (hnames : ∀ s ∈ rs, s.stepName ∈ names) :
    engine.Triple A C Err H (Viewing Q run K rs) (names.foldlM (dispatchOne run) rs) H
      (fun rs' v ws => rs.Advances rs' ∧ Viewing Q run (K ∧ ∀ s ∈ rs', s.isFresh = true →
        ¬ rs.ready s = true) rs' v ws) := by
  let Left (rest : List String) (rs' : RunState) : Prop := ∀ name ∈ names, name ∈ rest ∨
    ∀ s, rs'.get? name = some s → s.isFresh = true → ¬ rs.ready s = true
  have hloop : engine.Triple A C Err H
      (fun v ws => rs.Advances rs ∧ Viewing Q run (K ∧ Left names rs) rs v ws)
      (names.foldlM (dispatchOne run) rs) H
      (fun rs' v ws => rs.Advances rs' ∧ Viewing Q run (K ∧ Left [] rs') rs' v ws) := by
    refine Triple.foldlM_suffix
      (I := fun rest rs' v ws => rs.Advances rs' ∧ Viewing Q run (K ∧ Left rest rs') rs' v ws)
      (fun rs' name rest _ => Triple.assume (fun hadv => ?_)) rs
    refine (dispatchOne_spec hQ hC herr rs' name).post ?_
    rintro rs'' v ws - ⟨hadv', hF⟩
    refine ⟨hadv.trans hadv', hF.imp ?_⟩
    rintro ⟨⟨hK, hleft⟩, hdone⟩
    refine ⟨hK, fun n hn => ?_⟩
    rcases hleft n hn with hrest | hbefore
    · rcases List.mem_cons.mp hrest with rfl | hrest
      · exact Or.inr (fun s hs hfresh hready => hdone s hs hfresh (hadv.ready hready))
      · exact Or.inl hrest
    · refine Or.inr (fun s hs hfresh => hbefore s ?_ hfresh)
      rw [← Table.key_of_get? hs]
      exact hadv'.fresh (Table.mem_of_get? hs) hfresh
  refine (hloop.pre (fun v ws _ hF => ⟨.refl rs, hF.imp (fun hK =>
    ⟨hK, fun n hn => Or.inl hn⟩)⟩)).post ?_
  rintro rs' v ws - ⟨hadv, hF⟩
  refine ⟨hadv, hF.imp ?_⟩
  rintro ⟨hK, hleft⟩
  refine ⟨hK, fun s hs hfresh => ?_⟩
  have hmem : s.stepName ∈ names := hnames s (Table.mem_of_get? (hadv.fresh hs hfresh))
  exact (hleft s.stepName hmem).resolve_left List.not_mem_nil s (Table.mem_iff_get?.mp hs) hfresh

/-- `dispatchReady`. The view between its loops is `mid`. -/
theorem dispatchReady_spec (herr : ∀ v, ¬ Q v → ∀ e, Err e) (rs : RunState) :
    engine.Triple A C Err H (Viewing Q run K rs) (dispatchReady run rs) H
      (fun rs' v ws => ∃ mid, rs.Advances mid ∧ mid.Advances rs' ∧
        Viewing Q run (K ∧ ∀ s ∈ rs', s.isFresh = true → ¬ mid.ready s = true) rs' v ws) := by
  refine Triple.bind (range_spec (Viewing.robust hQ) rs) (fun names =>
    Triple.assume (fun _ => ?_))
  refine Triple.bind ((Triple.foldlM (I := fun mid v ws => rs.Advances mid ∧
    Viewing Q run K mid v ws) (fun mid name _ => Triple.assume (fun hadv =>
      (resolveWaiting_spec hQ hC mid name).post (fun mid' v ws _ =>
        And.imp_left hadv.trans))) rs).pre (fun v ws _ hF => ⟨.refl rs, hF⟩)) (fun mid =>
    Triple.assume (fun hadv => ?_))
  refine Triple.bind (range_spec (Viewing.robust hQ) mid) (fun names =>
    Triple.assume (fun hperm => ?_))
  refine (dispatchAll_spec hQ hC herr (fun s hs =>
    hperm.mem_iff.mpr (List.mem_map_of_mem hs))).post ?_
  exact fun rs' v ws _ h => ⟨mid, hadv, h⟩

end Programs

end Orchestrator
