import Orchestrator.System.Accounting

/-!
# Timers

A step of a run that goes on has one armed retry timer while it backs off, and none
otherwise, so a timer that fires dispatches its step. A run that has ended has no
armed timer, unless a failure was reported for an attempt that outlived the
cancellation of its step: the retry is then scheduled all the same.
-/

namespace Orchestrator

open Lib Program Actions

/-- The armed retry timers of a step fit its status. -/
structure Step.Armed (t : Step) (M : Table Timer.id) : Prop where
  one : t.status = .retryBackoff → ∃! tm, tm ∈ M ∧ IsRetryTimer tm t
  none : t.status ≠ .retryBackoff → ∀ tm ∈ M, ¬ IsRetryTimer tm t

/-- The run has ended, or the timers of its steps fit their statuses. -/
def Armed (runID : UUID) (v : Db) : Prop :=
  HasEnded runID v ∨ ∀ t ∈ v.steps, t.workflowRunID = runID → t.Armed v.timers

/-- No timer of the run is armed, fired or cancelled, and no step of it begins or
ceases to back off. -/
structure Untimed (runID : UUID) (v v' : Db) : Prop where
  timers : ∀ tm : Timer, tm.workflowRunID = runID → tm.status = .pending →
    (tm ∈ v'.timers ↔ tm ∈ v.timers)
  steps : ∀ t' ∈ v'.steps, t'.workflowRunID = runID → ∃ t ∈ v.steps, t'.info = t.info ∧
    (t'.status = .retryBackoff ↔ t.status = .retryBackoff)

section Armed

variable {runID : UUID} {v v' : Db}

/-- Timers of a step and of a row with the same identity are the same. -/
theorem isRetryTimer_info {tm : Timer} {t t' : Step} (hinfo : t'.info = t.info) :
    IsRetryTimer tm t' ↔ IsRetryTimer tm t := by
  rw [IsRetryTimer, IsRetryTimer, Step.id_of_info hinfo, Step.run_of_info hinfo]

theorem Step.Armed.congr {t t' : Step} {M M' : Table Timer.id} (h : t.Armed M)
    (hinfo : t'.info = t.info) (hst : t'.status = .retryBackoff ↔ t.status = .retryBackoff)
    (htimers : ∀ tm, IsRetryTimer tm t → (tm ∈ M' ↔ tm ∈ M)) : t'.Armed M' := by
  refine ⟨fun hst' => ?_, fun hne tm htm hretry => ?_⟩
  · obtain ⟨tm, ⟨htm, hretry⟩, huniq⟩ := h.one (hst.mp hst')
    refine ⟨tm, ⟨(htimers tm hretry).mpr htm, (isRetryTimer_info hinfo).mpr hretry⟩, ?_⟩
    rintro x ⟨hx, hxretry⟩
    have hxretry := (isRetryTimer_info hinfo).mp hxretry
    exact huniq x ⟨(htimers x hxretry).mp hx, hxretry⟩
  · have hretry := (isRetryTimer_info hinfo).mp hretry
    exact h.none (fun hst' => hne (hst.mpr hst')) tm ((htimers tm hretry).mp htm) hretry

theorem Armed.untimed (h : Armed runID v) (hev : v.Evolves v') (hu : Untimed runID v v') :
    Armed runID v' := by
  refine h.imp (·.evolve hev) (fun h t' ht' hrun => ?_)
  obtain ⟨t, ht, hinfo, hst⟩ := hu.steps t' ht' hrun
  have hrun₀ : t.workflowRunID = runID := (Step.run_of_info hinfo).symm.trans hrun
  exact (h t ht hrun₀).congr hinfo hst
    (fun tm hretry => hu.timers tm (hretry.2.2.1.trans hrun₀) hretry.2.2.2)

end Armed

/-- The kinds of actions that neither touch timers nor begin or end a back-off. -/
def Kind.untimed : Kind → Bool
  | .create | .retry | .late | .fireTimer | .cancelTimer | .dispatch | .cancelStep => false
  | _ => true

section Act

variable {runID : UUID} {l : Label} {v : Db} {u : List Write}

/-- A timer of another run is written. -/
theorem mem_put_timer {M : Table Timer.id} {x tm : Timer}
    (hrun : x.workflowRunID ≠ tm.workflowRunID)
    (hold : ∀ y, M.get? x.id = some y → y.workflowRunID = x.workflowRunID) :
    tm ∈ M.put x ↔ tm ∈ M := by
  rw [Table.mem_put]
  refine ⟨fun h => ?_, fun h => Or.inr ⟨h, fun hid => hrun ?_⟩⟩
  · rcases h with rfl | ⟨h, -⟩
    · exact absurd rfl hrun
    · exact h
  · exact (hold tm (hid ▸ Table.mem_iff_get?.mp h)).symm

/-- The timers of a run are the business of a few kinds of actions on it. -/
theorem Act.timers (hb : Base v) (hact : Act l v u)
    (hl : l.run ≠ runID ∨ l.kind.untimed = true) {tm : Timer} (hrun : tm.workflowRunID = runID) :
    tm ∈ (backend.applyAll v u).timers ↔ tm ∈ v.timers := by
  have hother : l.kind.untimed = false → l.run ≠ tm.workflowRunID := fun hk =>
    hrun ▸ hl.resolve_right (fun hk' => by rw [hk] at hk'; cases hk')
  cases hact with
  | create =>
    rw [applyAll_create]
    rfl
  | succeed hclose =>
    rw [Backend.applyAll_append, ← hclose.frame.2.2]
    rfl
  | retry hclose ht _ _ hretry _ hnew hr =>
    obtain ⟨-, htrun, -⟩ := hclose.rows hb ht hr
    rw [Backend.applyAll_append, ← hclose.frame.2.2]
    refine mem_put_timer ?_ ?_
    · rw [hretry.2.2.1, htrun]
      exact hother rfl
    · rw [hclose.frame.2.2, hnew]
      exact fun _ hx => by cases hx
  | giveUp hclose =>
    rw [Backend.applyAll_append, ← hclose.frame.2.2]
    rfl
  | late hclose ht _ htms =>
    rw [Backend.applyAll_append, ← hclose.frame.2.2]
    rcases htms with rfl | ⟨x, rfl, hretry, -, hnew⟩
    · rfl
    · obtain ⟨htrun, -⟩ := hb.ledger.parent_of_get? (Table.mem_of_get? hclose.mem) ht
      refine mem_put_timer ?_ ?_
      · rw [hretry.2.2.1, ← htrun]
        exact hother rfl
      · rw [hclose.frame.2.2, hnew]
        exact fun _ hx => by cases hx
  | fireTimer hx =>
    exact mem_put_timer (hother rfl) (fun y hy => by rw [Option.some.inj (hy.symm.trans hx)])
  | cancelTimer hx =>
    exact mem_put_timer (hother rfl) (fun y hy => by rw [Option.some.inj (hy.symm.trans hx)])
  | _ => rfl

/-- A step that moves between other statuses neither begins nor ceases to back off. -/
theorem backoff_of_put {T : Table Step.id} {t x' : Step} (ht : T.get? t.id = some t)
    {next : StepStatus} {output : Option RawMessage} {errMsg : Option String} {bump : Bool}
    {now : Time} (hx : x' ∈ T.put (t.transition next output errMsg bump now))
    (hst : t.status ≠ .retryBackoff) (hnext : next ≠ .retryBackoff) :
    ∃ x ∈ T, x'.info = x.info ∧ (x'.status = .retryBackoff ↔ x.status = .retryBackoff) := by
  rcases Table.mem_put.mp hx with rfl | ⟨hx, -⟩
  · exact ⟨t, Table.mem_of_get? ht, rfl, iff_of_false hnext hst⟩
  · exact ⟨x', hx, rfl, Iff.rfl⟩

theorem Act.untimed (hb : Base v) (hact : Act l v u)
    (hl : l.run ≠ runID ∨ l.kind.untimed = true) : Untimed runID v (backend.applyAll v u) := by
  refine ⟨fun tm hrun _ => hact.timers hb hl hrun, fun t' ht' hrun => ?_⟩
  by_cases hcalm : l.run ≠ runID ∨ l.kind.calm = true
  · obtain ⟨t, ht, hdrift⟩ := (hact.calm hb hcalm).back t' ht' hrun
    refine ⟨t, ht, hdrift.info, ?_⟩
    rcases hdrift.status with hst | ⟨hst, hst'⟩
    · rw [hst]
    · rw [hst, hst']
      decide
  · obtain ⟨hsame, hkind⟩ := not_or.mp hcalm
    have hk := hl.resolve_left hsame
    have hfly : ∀ {t : Step}, t.status = .queued ∨ t.status = .running →
        t.status ≠ .retryBackoff := by
      rintro t (hst | hst) <;> rw [hst] <;> decide
    cases hact with
    | create => cases hk
    | skip ht hst => exact backoff_of_put ht ht' (by rw [hst]; decide) (by decide)
    | park ht hst => exact backoff_of_put ht ht' (by rw [hst]; decide) (by decide)
    | resolve _ _ _ _ ht hst =>
      exact backoff_of_put ht ht' (by rcases hst with hst | hst <;> rw [hst] <;> decide)
        (by decide)
    | dispatch => cases hk
    | succeed hclose ht hst =>
      rw [Backend.applyAll_append] at ht'
      rw [← hclose.frame.1] at ht ⊢
      exact backoff_of_put (Table.get?_key ht) ht' (hfly hst) (by decide)
    | retry => cases hk
    | giveUp hclose ht hst =>
      rw [Backend.applyAll_append] at ht'
      rw [← hclose.frame.1] at ht ⊢
      exact backoff_of_put (Table.get?_key ht) ht' (hfly hst) (by decide)
    | start => exact ⟨t', ht', rfl, Iff.rfl⟩
    | finish => exact ⟨t', ht', rfl, Iff.rfl⟩
    | cancelStep => cases hk
    | cancelRun => exact ⟨t', ht', rfl, Iff.rfl⟩
    | _ => exact absurd rfl hkind

theorem Armed.act (h : Armed runID v) (hb : Base v) (hact : Act l v u)
    (hl : l.run ≠ runID ∨ l.kind.untimed = true) : Armed runID (backend.applyAll v u) :=
  h.untimed hact.evolves (hact.untimed hb hl)

theorem Armed.through {C : Label → Prop} {v' : Db} (h : Armed runID v) (hu : Through C v v')
    (hb : Base v) (hC : ∀ l, C l → l.run ≠ runID ∨ l.kind.untimed = true) : Armed runID v' :=
  hu.induct hb h (fun _ l _ hb hl hact h => h.act hb hact (hC l hl))

end Act

section Evaluation

variable {P : Signal → Prop} {q : Prop} {runID : UUID} {v v' v₀ : Db}

/-- An evaluation neither begins nor ends a back-off. -/
theorem Step.Passes.backoff {t t' : Step} (h : t.Passes t') :
    t'.status = .retryBackoff ↔ t.status = .retryBackoff := by
  rcases h.2 with rfl | ⟨hst, hst', -⟩ | ⟨hst, hst', -⟩ | ⟨hst, hst', -⟩ | ⟨hst | hst, hst', -⟩
  · rfl
  all_goals
    rw [hst, hst']
    decide

/-- An evaluation leaves timers alone unless the run has ended. -/
theorem Pass.timers {u : List Write} (h : Pass runID v u) :
    HasEnded runID v ∨ (backend.applyAll v u).timers = v.timers := by
  cases h with
  | disarm _ _ _ hr hend => exact Or.inl ⟨_, hr, hend⟩
  | _ => exact Or.inr rfl

theorem Armed.pass {u : List Write} (h : Armed runID v) (hpass : Pass runID v u) :
    Armed runID (backend.applyAll v u) := by
  rcases hpass.timers with hend | htimers
  · exact Or.inl (hend.evolve hpass.evolves)
  refine h.untimed hpass.evolves ⟨fun tm _ _ => by rw [htimers], fun t' ht' hrun => ?_⟩
  rcases hpass.steps_eq with heq | ⟨t, x', ht, -, hp, heq⟩
  · exact ⟨t', heq ▸ ht', rfl, Iff.rfl⟩
  · rw [heq] at ht'
    rcases Table.mem_put.mp ht' with rfl | ⟨ht', -⟩
    · exact ⟨t, Table.mem_of_get? ht, hp.1, hp.backoff⟩
    · exact ⟨t', ht', rfl, Iff.rfl⟩

/-- The steps of a new run have no timers. -/
theorem Armed.create {u : List Write} (hb : Base v) (hact : Act ⟨runID, .create⟩ v u) :
    Armed runID (backend.applyAll v u) := by
  refine Or.inr (fun t ht hrun => ?_)
  cases hact with
  | create _ hnone hsteps hnew hnodup =>
    rw [applyAll_create] at ht ⊢
    rcases (Table.mem_foldl_put hnew hnodup).mp ht with ht | ht
    · obtain ⟨ns, -, stepID, now, rfl⟩ := forall₂_right hsteps t ht
      refine ⟨(fun hst => by cases hst), fun _ tm htm hretry => ?_⟩
      obtain ⟨-, t₀, ht₀, hid, -⟩ := hb.clocks tm htm
      have hid : t₀.id = stepID := Option.some.inj (hid.symm.trans hretry.2.1)
      have hget := Table.mem_iff_get?.mp ht₀
      have hnone : v.steps.get? stepID = none := hnew _ ht
      rw [hid, hnone] at hget
      cases hget
    · obtain ⟨r, hr, hid⟩ := hb.graph.run t ht
      have hget : v.runs.get? runID = some r := by
        rw [← hrun, ← hid]
        exact Table.mem_iff_get?.mp hr
      rw [hnone] at hget
      cases hget

/-- Writing a timer of another step leaves the timers of a step alone. -/
theorem Step.Armed.put_other {x t : Step} {M : Table Timer.id} {tm : Timer} (h : x.Armed M)
    (hstep : tm.stepID = some t.id) (hne : x.id ≠ t.id)
    (hold : ∀ y, M.get? tm.id = some y → y.stepID = tm.stepID) : x.Armed (M.put tm) := by
  refine h.congr rfl Iff.rfl (fun y hretry => ?_)
  have hy : y.stepID ≠ tm.stepID := by
    rw [hretry.2.1, hstep]
    exact fun heq => hne (Option.some.inj heq)
  rw [Table.mem_put]
  refine ⟨fun hmem => ?_, fun hmem => Or.inr ⟨hmem, fun hid => hy ?_⟩⟩
  · rcases hmem with rfl | ⟨hmem, -⟩
    · exact absurd rfl hy
    · exact hmem
  · exact hold y (hid ▸ Table.mem_iff_get?.mp hmem)

/-- A retry arms a timer for a step that had none. -/
theorem Armed.retry {u : List Write} (h : Armed runID v) (hb : Base v)
    (hact : Act ⟨runID, .retry⟩ v u) : Armed runID (backend.applyAll v u) := by
  refine h.imp (·.evolve hact.evolves) (fun h x hx hrun => ?_)
  cases hact with
  | @retry _ a t r result ws tm errMsg payload now now' hclose ht hst _ hretry _ hnew hr =>
    obtain ⟨hsteps, -, htimers⟩ := hclose.frame
    have hid : t.id = a.stepID := Table.key_of_get? ht
    have htrun := (hclose.rows hb ht hr).2.1
    rw [Backend.applyAll_append] at hx ⊢
    change x ∈ (backend.applyAll v ws).steps.put _ at hx
    change x.Armed ((backend.applyAll v ws).timers.put tm)
    rw [hsteps] at hx
    rw [htimers]
    rcases Table.mem_put.mp hx with rfl | ⟨hx, hne⟩
    · refine ⟨fun _ => ⟨tm, ⟨Table.mem_put_self _ _, hretry⟩, fun y hy => ?_⟩,
        fun hne => absurd rfl hne⟩
      rcases Table.mem_put.mp hy.1 with rfl | ⟨hmem, -⟩
      · rfl
      · -- The step was in flight, so no timer was armed for it.
        refine absurd hy.2 ((h t (Table.mem_of_get? ht) htrun).none ?_ y hmem)
        rcases hst with hst | hst <;> rw [hst] <;> decide
    · refine (h x hx hrun).put_other hretry.2.1 hne ?_
      rw [hnew]
      exact fun _ hy => by cases hy

/-- An armed timer is a retry timer of its step. -/
theorem Base.isRetryTimer (hb : Base v) {tm : Timer} {t : Step} (htm : tm ∈ v.timers)
    (hst : tm.status = .pending) (hstep : tm.stepID = some t.id)
    (ht : v.steps.get? t.id = some t) : IsRetryTimer tm t := by
  obtain ⟨hkind, t₀, ht₀, hid₀, hrun₀⟩ := hb.clocks tm htm
  have hid : t₀.id = t.id := Option.some.inj (hid₀.symm.trans hstep)
  obtain rfl := Table.eq_of_key_eq ht₀ (Table.mem_of_get? ht) hid
  exact ⟨hkind, hstep, hrun₀.symm, hst⟩

/-- The step of an armed timer backs off, unless the run has ended. -/
theorem Armed.backs_off {tm : Timer} {t : Step} (h : Armed tm.workflowRunID v) (hb : Base v)
    (htm : tm ∈ v.timers) (hst : tm.status = .pending) (hstep : tm.stepID = some t.id)
    (ht : v.steps.get? t.id = some t) :
    HasEnded tm.workflowRunID v ∨ t.status = .retryBackoff := by
  have hretry := hb.isRetryTimer htm hst hstep ht
  refine h.imp id (fun harmed => by_contra (fun hne => ?_))
  exact (harmed t (Table.mem_of_get? ht) hretry.2.2.1.symm).none hne tm htm hretry

/-- A timer that fires was the only one of its step. -/
theorem Armed.redispatch {tm : Timer} {t : Step} {now now' : Time} {u : List Write}
    (h : Armed runID v) (hb : Base v) (htm : v.timers.get? tm.id = some tm)
    (hst : tm.status = .pending) (hstep : tm.stepID = some t.id)
    (ht : v.steps.get? t.id = some t) (hback : t.status = .retryBackoff)
    (hrun : t.workflowRunID = runID)
    (hev : v.Evolves (backend.applyAll (v.apply (.timer (tm.fire now))) u))
    (hdis : Redispatched (v.apply (.timer (tm.fire now))) t now' u) :
    Armed runID (backend.applyAll (v.apply (.timer (tm.fire now))) u) := by
  refine h.imp (·.evolve hev) (fun h x hx hxrun => ?_)
  have harmed := h t (Table.mem_of_get? ht) hrun
  have hretry := hb.isRetryTimer (Table.mem_of_get? htm) hst hstep ht
  rw [hdis.timers]
  rw [hdis.steps] at hx
  change x.Armed (v.timers.put (tm.fire now))
  change x ∈ v.steps.put _ at hx
  rcases Table.mem_put.mp hx with rfl | ⟨hx, hne⟩
  · refine ⟨(fun heq => by cases heq), fun _ y hy hyretry => ?_⟩
    rcases Table.mem_put.mp hy with rfl | ⟨hmem, hne⟩
    · cases hyretry.2.2.2
    · obtain ⟨z, -, huniq⟩ := harmed.one hback
      have hyz := huniq y ⟨hmem, hyretry⟩
      have htz := huniq tm ⟨Table.mem_of_get? htm, hretry⟩
      exact hne (by rw [hyz, ← htz])
  · refine (h x hx hxrun).put_other hstep hne (fun y hy => ?_)
    obtain rfl := Option.some.inj (htm.symm.trans hy)
    rfl

/-- What comes before an evaluation keeps the timers of the run right. -/
theorem Armed.lead (h : Armed runID v) (hb : Base v) (hlead : Lead P runID v v₀) :
    Armed runID v₀ := by
  have hev := hlead.through.evolves hb
  cases hlead with
  | resume => exact h
  | create hact => exact .create hb hact
  | outcome hk hact =>
    rcases hk with rfl | rfl | rfl
    · exact h.act hb hact (Or.inr rfl)
    · exact h.retry hb hact
    · exact h.act hb hact (Or.inr rfl)
  | redispatch htm hst hstep ht hback hrun _ _ hdis =>
    exact h.redispatch hb htm hst hstep ht hback hrun hev hdis
  | @signal sig r payload now hnew hvalid _ hrun _ hr =>
    subst hrun
    have hsignal : Act ⟨sig.workflowRunID, .signal⟩ v [.signal sig] := .signal hnew hvalid hr
    have hlog : Act ⟨r.id, .log⟩ (v.apply (.signal sig))
        (historyWrites r .signalReceived payload now) := .log (Table.get?_key hr)
    exact (h.act hb hsignal (Or.inr rfl)).act (hsignal.base hb) hlog (Or.inr rfl)

/-- Every change of the store keeps the timers of runs that go on right. -/
theorem Armed.shift (h : ∀ r, Armed r v) (horderly : Orderly v) (hs : Shift P q v v')
    (runID : UUID) : Armed runID v' := by
  have hb := horderly.base
  have hev := hs.evolves hb
  cases hs with
  | work hu =>
    refine (h runID).through ⟨_, hu, rfl⟩ hb (fun l hl => Or.inr ?_)
    obtain ⟨run, kind⟩ := l
    cases kind <;> first | rfl | cases hl
  | @late a t success result ws tms hclose ht hst htms =>
    have hact : Act ⟨a.workflowRunID, .late⟩ v (ws ++ tms) :=
      .late hclose ht hst (htms.imp id And.right)
    by_cases hid : a.workflowRunID = runID
    · -- The run was cancelled with the step.
      obtain ⟨hrun, -⟩ := hb.ledger.parent_of_get? (Table.mem_of_get? hclose.mem) ht
      obtain ⟨r, hr, hend⟩ := (horderly.upright runID).cancelled t (Table.mem_of_get? ht)
        (hrun.symm.trans hid) hst
      exact Or.inl (HasEnded.evolve ⟨r, hr, hend⟩ hev)
    · exact (h runID).act hb hact (Or.inl hid)
  | @idle tm t r now htm hst hstep ht hr hidle =>
    have hact : Act ⟨tm.workflowRunID, .fireTimer⟩ v [.timer (tm.fire now)] := .fireTimer htm hst
    by_cases hid : tm.workflowRunID = runID
    · refine Or.inl (HasEnded.evolve ?_ hev)
      rcases hidle with hne | hend
      · subst hid
        exact ((h _).backs_off hb (Table.mem_of_get? htm) hst hstep ht).resolve_right hne
      · exact ⟨r, hid ▸ hr, hend⟩
    · exact (h runID).act hb hact (Or.inl hid)
  | @note sig r payload now hnew hvalid _ _ hr =>
    have hsignal : Act ⟨sig.workflowRunID, .signal⟩ v [.signal sig] := .signal hnew hvalid hr
    have hlog : Act ⟨r.id, .log⟩ (v.apply (.signal sig))
        (historyWrites r .signalReceived payload now) := .log (Table.get?_key hr)
    have hnoted : Armed runID (v.apply (.signal sig)) := (h runID).act hb hsignal (Or.inr rfl)
    exact hnoted.act (hsignal.base hb) hlog (Or.inr rfl)
  | @evaluate id v₀ _ hlead heval =>
    by_cases hid : id = runID
    · subst hid
      exact heval.path.induct (hlead.through.base hb) ((h id).lead hb hlead)
        (fun _ _ _ hpass h => h.pass hpass)
    · exact (h runID).through (hlead.evaluated heval) hb (fun l hl => Or.inl (hl.1.trans_ne hid))
  | @cancel id r u hr hlive hu hdone =>
    by_cases hid : id = runID
    · subst hid
      obtain ⟨r', hr', hst⟩ := hdone.1
      exact Or.inl ⟨r', hr', by rw [hst]; rfl⟩
    · exact (h runID).through ⟨u, hu, rfl⟩ hb (fun l hl => Or.inl (hl.1.trans_ne hid))

end Evaluation

section Disarmed

variable {P : Signal → Prop} {q : Prop} {runID : UUID} {v v' : Db}

/-- No timer is armed, and the run goes on or had ended. -/
theorem Disarmed.keep (h : Disarmed runID v)
    (hstatus : (v'.runs.get? runID).map (·.status) = (v.runs.get? runID).map (·.status))
    (htimers : ∀ tm ∈ v'.timers, tm.workflowRunID = runID → tm.status = .pending →
      tm ∈ v.timers) : Disarmed runID v' := by
  intro r' hr' hend tm htm hrun hst
  rw [hr', Option.map_some] at hstatus
  obtain ⟨r, hr, hsame⟩ := Option.map_eq_some_iff.mp hstatus.symm
  exact h r hr (hsame ▸ hend) tm (htimers tm htm hrun hst) hrun hst

theorem Disarmed.act {l : Label} {u : List Write} (h : Disarmed runID v) (hb : Base v)
    (hact : Act l v u) (hl : l.run ≠ runID ∨ (l.kind.calm = true ∧ l.kind.untimed = true)) :
    Disarmed runID (backend.applyAll v u) :=
  h.keep (hact.calm hb (hl.imp id And.left)).status
    (fun _ htm hrun _ => (hact.timers hb (hl.imp id And.right) hrun).mp htm)

theorem Disarmed.through {C : Label → Prop} (h : Disarmed runID v) (hu : Through C v v')
    (hb : Base v)
    (hC : ∀ l, C l → l.run ≠ runID ∨ (l.kind.calm = true ∧ l.kind.untimed = true)) :
    Disarmed runID v' :=
  hu.induct hb h (fun _ l _ hb hl hact h => h.act hb hact (hC l hl))

/-- Every change of the store other than a late failure leaves the runs that have
ended without armed timers. -/
theorem Disarmed.shift (h : ∀ r, Disarmed r v) (hb : Base v) (hs : Shift P q v v') (hq : ¬ q)
    (runID : UUID) : Disarmed runID v' := by
  cases hs with
  | work hu =>
    refine (h runID).through ⟨_, hu, rfl⟩ hb (fun l hl => Or.inr ?_)
    obtain ⟨run, kind⟩ := l
    cases kind <;> first | exact ⟨rfl, rfl⟩ | cases hl
  | late hclose _ _ htms =>
    obtain rfl := htms.resolve_right (fun hlate => hq hlate.1)
    obtain ⟨-, hruns, htimers⟩ := hclose.frame
    rw [List.append_nil]
    exact (h runID).keep (by rw [hruns]) (fun tm htm _ _ => htimers ▸ htm)
  | idle =>
    refine (h runID).keep rfl (fun tm htm _ hst => ?_)
    rcases Table.mem_put.mp htm with rfl | ⟨htm, -⟩
    · cases hst
    · exact htm
  | @note sig r payload now hnew hvalid _ _ hr =>
    have hsignal : Act ⟨sig.workflowRunID, .signal⟩ v [.signal sig] := .signal hnew hvalid hr
    have hlog : Act ⟨r.id, .log⟩ (v.apply (.signal sig))
        (historyWrites r .signalReceived payload now) := .log (Table.get?_key hr)
    have hnoted : Disarmed runID (v.apply (.signal sig)) :=
      (h runID).act hb hsignal (Or.inr ⟨rfl, rfl⟩)
    exact hnoted.act (hsignal.base hb) hlog (Or.inr ⟨rfl, rfl⟩)
  | @evaluate id v₀ _ hlead heval =>
    by_cases hid : id = runID
    · exact hid ▸ heval.disarmed
    · exact (h runID).through (hlead.evaluated heval) hb (fun l hl => Or.inl (hl.1.trans_ne hid))
  | @cancel id r u _ _ hu _ hdis =>
    by_cases hid : id = runID
    · subst hid
      exact fun _ _ _ tm htm hrun => hdis tm htm hrun
    · exact (h runID).through ⟨u, hu, rfl⟩ hb (fun l hl => Or.inl (hl.1.trans_ne hid))

end Disarmed

/-- A step that backed off and has one attempt more has a new one, which waits for a
worker, and its other attempts are as they were. -/
theorem Base.new_attempt {v v' : Db} (hb : Base v) (hb' : Base v') (hev : v.Evolves v')
    (hkept : Kept v v') {t t' : Step} (ht : t ∈ v.steps) (hst : t.status = .retryBackoff)
    (ht' : t' ∈ v'.steps) (hid : t'.id = t.id) (hcount : t'.attemptCount = t.attemptCount + 1) :
    ∃ a ∈ v'.attempts, a.stepID = t.id ∧ a.status = .queued ∧
      a.attemptNumber = t.attemptCount + 1 ∧ v.attempts.get? a.id = none ∧
      ∀ x ∈ v'.attempts, x.stepID = t.id → x ∉ v.attempts → x = a := by
  obtain ⟨a, ha, haid, hnum⟩ := (hb'.ledger.numbers t' ht' (t.attemptCount + 1)).mpr
    ⟨Nat.le_add_left 1 _, hcount.ge⟩
  rw [hid] at haid
  have hnew : a.status = .queued ∧ v.attempts.get? a.id = none := by
    rcases hkept.back a ha with ⟨x, hx, hxid, -⟩ | hnew
    · obtain ⟨y, hy, hxy⟩ := hev.attempts x hx
      obtain rfl := Table.eq_of_key_eq hy ha (hxy.id.trans hxid.symm)
      have hget : v.steps.get? x.stepID = some t := by
        rw [← hxy.stepID, haid]
        exact Table.mem_iff_get?.mp ht
      have hle := (hb.ledger.number_bounds hx hget).2
      rw [← hxy.number, hnum] at hle
      omega
    · exact hnew
  refine ⟨a, ha, haid, hnew.1, hnum, hnew.2, fun x hx hxid hxnew => ?_⟩
  have hget' : v'.steps.get? x.stepID = some t' := by
    rw [hxid, ← hid]
    exact Table.mem_iff_get?.mp ht'
  obtain ⟨hpos, hle⟩ := hb'.ledger.number_bounds hx hget'
  refine hb'.ledger.slot x hx a ha (hxid.trans haid.symm) (hnum ▸ ?_)
  -- An attempt with a smaller number was there before, and it is dead.
  by_contra hne
  obtain ⟨y, hy, hyid, hynum⟩ := (hb.ledger.numbers t ht x.attemptNumber).mpr ⟨hpos, by omega⟩
  have hget : v.steps.get? y.stepID = some t := hyid ▸ Table.mem_iff_get?.mp ht
  obtain ⟨-, hearlier, hlast⟩ := hb.ledger.parent_of_get? hy hget
  have hdead : Dead v.handled y := by
    rcases (hb.ledger.number_bounds hy hget).2.lt_or_eq with hlt | heq
    · exact hearlier hlt
    · have hdead := hlast heq
      rwa [LastOK, hst] at hdead
  obtain ⟨y', hy', hyy⟩ := hev.attempts y hy
  obtain rfl := hyy.done (by rcases hdead with hd | ⟨hd, -⟩ <;> simp [TaskAttempt.isLive, hd])
  exact hxnew (hb'.ledger.slot y' hy' x hx (hyid.trans hxid.symm) hynum ▸ hy)

/-- The timers of runs that go on are right in every state that is reached. -/
theorem System.Reachable.armed {C : System → Move → Prop} {S : System}
    (h : System.Reachable C S) (runID : UUID) : Armed runID S.db :=
  h.induct (I := fun S => ∀ runID, Armed runID S.db) (fun _ => Or.inr (fun _ ht => by cases ht))
    (fun _ _ _ _ hok _ hturn harmed => Armed.shift harmed hok.orderly (hok.shift hturn)) runID

/-- A timer that is armed in a run that goes on fires and dispatches its step. -/
theorem fires_dispatch {S S' : System} (h : System.Reachable System.Any S) {tm : Timer}
    (htm : tm ∈ S.db.timers) (hst : tm.status = .pending) {r : WorkflowRun}
    (hr : S.db.runs.get? tm.workflowRunID = some r) (hlive : runTerminal r.status = false)
    {ω : ℕ → Draw} (hnext : S.next (.fireTimer tm.id ω) = some S') :
    (∃ tm', S'.db.timers.get? tm.id = some tm' ∧ tm'.status = .fired) ∧
      ∃ t ∈ S.db.steps, tm.stepID = some t.id ∧ t.status = .retryBackoff ∧
        ∃ t' ∈ S'.db.steps, t'.id = t.id ∧ t'.attemptCount = t.attemptCount + 1 := by
  have hb := h.ok.orderly.base
  have hget := Table.mem_iff_get?.mp htm
  simp only [System.next] at hnext
  have hsolo : Solo (fun _ => False) (handleFiredTimer tm.id)
      (fun _ v' => Fires Evaluated S.db tm.id v')
      S.db := handleFiredTimer_solo hb tm.id
  obtain ⟨res, db, rfl, hres⟩ := System.tx_some hnext hsolo
  rcases hres with ⟨_, -, hfires⟩ | ⟨_, -, -, hfalse⟩
  swap
  · exact hfalse.elim
  cases hfires with
  | unarmed hnone => exact absurd hst (hnone tm hget)
  | @idle tm₁ t r₁ now htm₁ _ hstep ht hr₁ hidle =>
    obtain rfl := Option.some.inj (hget.symm.trans htm₁)
    obtain rfl := Option.some.inj (hr.symm.trans hr₁)
    rcases (h.armed _).backs_off hb htm hst hstep ht with ⟨r', hr', hend⟩ | hback
    · rw [← Option.some.inj (hr.symm.trans hr'), hlive] at hend
      cases hend
    · rcases hidle with hne | hend
      · exact absurd hback hne
      · rw [hlive] at hend
        cases hend
  | @retry tm₁ t r₁ now now' u htm₁ _ hstep ht _ hback _ hrun hact hdis heval =>
    obtain rfl := Option.some.inj (hget.symm.trans htm₁)
    have hfire : Act ⟨tm.workflowRunID, .fireTimer⟩ S.db [.timer (tm.fire now)] :=
      .fireTimer hget hst
    have hb₁ := hact.base (hfire.base hb)
    refine ⟨?_, t, Table.mem_of_get? ht, hstep, hback, ?_⟩
    · have hmem : tm.fire now ∈
          (backend.applyAll (S.db.apply (.timer (tm.fire now))) u).timers := by
        rw [hdis.timers]
        exact Table.mem_put_self _ _
      obtain ⟨tm', htm', hev⟩ := (heval.path.evolves hb₁).timers _ hmem
      have hid : tm'.id = tm.id := hev.id
      exact ⟨tm', hid ▸ Table.mem_iff_get?.mp htm', hev.done (fun heq => by cases heq)⟩
    · have hmem : t.transition .queued none none true now' ∈
          (backend.applyAll (S.db.apply (.timer (tm.fire now))) u).steps := by
        rw [hdis.steps]
        exact Table.mem_put_self _ _
      obtain ⟨t', ht', hpass⟩ := heval.path.step hb₁ hmem
      obtain rfl := hpass.eq (fun heq => by cases heq) (fun heq => by cases heq)
      exact ⟨_, ht', rfl, rfl⟩

/-- A step of a run that goes on has one armed retry timer while it backs off, and
none otherwise. A timer that is armed in such a run fires together with one dispatch
of its step. -/
theorem retry_timers_match {S : System} (h : System.Reachable System.Any S) :
    (∀ t ∈ S.db.steps, ∀ r ∈ S.db.runs, r.id = t.workflowRunID → runTerminal r.status = false →
      (t.status = .retryBackoff → ∃! tm, tm ∈ S.db.timers ∧ tm.kind = .retryBackoff ∧
        tm.stepID = some t.id ∧ tm.status = .pending) ∧
      (t.status ≠ .retryBackoff → ∀ tm ∈ S.db.timers, ¬ (tm.kind = .retryBackoff ∧
        tm.stepID = some t.id ∧ tm.status = .pending))) ∧
    ∀ tm ∈ S.db.timers, tm.kind = .retryBackoff → tm.status = .pending →
      ∀ r ∈ S.db.runs, r.id = tm.workflowRunID → runTerminal r.status = false →
      ∀ ω S', S.next (.fireTimer tm.id ω) = some S' →
        (∃ tm', S'.db.timers.get? tm.id = some tm' ∧ tm'.status = .fired) ∧
        ∃ t ∈ S.db.steps, tm.stepID = some t.id ∧ t.status = .retryBackoff ∧
          ∃ a ∈ S'.db.attempts, a.stepID = t.id ∧ a.status = .queued ∧
            a.attemptNumber = t.attemptCount + 1 ∧ S.db.attempts.get? a.id = none ∧
            ∀ x ∈ S'.db.attempts, x.stepID = t.id → x ∉ S.db.attempts → x = a := by
  have hb := h.ok.orderly.base
  refine ⟨fun t ht r hr hid hlive => ?_, fun tm htm _ hst r hr hid hlive ω S' hnext => ?_⟩
  · have hget : S.db.steps.get? t.id = some t := Table.mem_iff_get?.mp ht
    have harmed : t.Armed S.db.timers := by
      refine (h.armed t.workflowRunID).resolve_left ?_ t ht rfl
      rintro ⟨r', hr', hend⟩
      rw [← hid, Table.mem_iff_get?.mp hr] at hr'
      rw [← Option.some.inj hr', hlive] at hend
      cases hend
    refine ⟨fun hst => ?_, fun hne tm htm hretry => ?_⟩
    · obtain ⟨tm, ⟨htm, hretry⟩, huniq⟩ := harmed.one hst
      refine ⟨tm, ⟨htm, hretry.1, hretry.2.1, hretry.2.2.2⟩, ?_⟩
      rintro y ⟨hy, -, hstep, hpend⟩
      exact huniq y ⟨hy, hb.isRetryTimer hy hpend hstep hget⟩
    · exact harmed.none hne tm htm (hb.isRetryTimer htm hretry.2.2 hretry.2.1 hget)
  · have hget : S.db.runs.get? tm.workflowRunID = some r := hid ▸ Table.mem_iff_get?.mp hr
    obtain ⟨hfired, t, ht, hstep, hback, t', ht', htid, hcount⟩ :=
      fires_dispatch h htm hst hget hlive hnext
    have hturn := System.next_turn h.ok hnext
    have hev := (h.ok.shift hturn).evolves hb
    have hb' := (h.ok.turn hturn).orderly.base
    have hkept : Kept S.db S'.db := by
      cases hturn with
      | quiet _ hkept => exact hkept
      | arrive => exact .refl _
      | claimEnds => exact .refl _
    exact ⟨hfired, t, ht, hstep, hback, hb.new_attempt hb' hev hkept ht hback ht' htid hcount⟩

/-- The first attempt of a chain has been claimed. -/
def claimedSystem : System := (System.run chainMoves .init).get (by decide +kernel)

/-- It has failed, and its step backs off. -/
def backoffSystem : System :=
  (claimedSystem.next (.report 209 "w" false none (some "x") (.ticks 400))).get (by decide +kernel)

/-- It has one armed timer, and the timer dispatches it. -/
theorem retry_timers_match_chain :
    ∃ t ∈ backoffSystem.db.steps, t.status = .retryBackoff ∧
      ∃ tm ∈ backoffSystem.db.timers, tm.stepID = some t.id ∧ tm.status = .pending ∧
      ∃ S', backoffSystem.next (.fireTimer tm.id (.ticks 500)) = some S' ∧
        ∃ a ∈ S'.db.attempts, a.stepID = t.id ∧ a.status = .queued ∧
          backoffSystem.db.attempts.get? a.id = none := by
  have hclaimed : System.Reachable System.Any claimedSystem :=
    .run .init (fun _ _ _ => trivial) (Option.some_get _).symm
  have hreach : System.Reachable System.Any backoffSystem :=
    hclaimed.step trivial (Option.some_get _).symm
  have hback : ∃ t ∈ backoffSystem.db.steps.rows, t.status = .retryBackoff ∧
      ∃ r ∈ backoffSystem.db.runs.rows, r.id = t.workflowRunID ∧ runTerminal r.status = false := by
    decide +kernel
  have hfires : ∀ tm ∈ backoffSystem.db.timers.rows,
      (backoffSystem.next (.fireTimer tm.id (.ticks 500))).isSome = true := by decide +kernel
  obtain ⟨t, ht, hst, r, hr, hid, hlive⟩ := hback
  obtain ⟨harmed, hfire⟩ := retry_timers_match hreach
  obtain ⟨tm, ⟨htm, hkind, hstep, hpend⟩, -⟩ := (harmed t ht r hr hid hlive).1 hst
  obtain ⟨S', hS'⟩ := Option.isSome_iff_exists.mp (hfires tm htm)
  have hrun : tm.workflowRunID = t.workflowRunID :=
    (hreach.ok.orderly.base.isRetryTimer htm hpend hstep (Table.mem_iff_get?.mp ht)).2.2.1
  obtain ⟨-, t', ht', hstep', -, a, ha, haid, hqueued, -, hnew, -⟩ :=
    hfire tm htm hkind hpend r hr (hid.trans hrun.symm) hlive _ S' hS'
  have hidt : t'.id = t.id := Option.some.inj (hstep'.symm.trans hstep)
  exact ⟨t, ht, hst, tm, htm, hstep, hpend, S', hS', a, ha, haid.trans hidt, hqueued, hnew⟩

/-- In a run of the system in which no failure is brought to an attempt whose step
has been cancelled while it had attempts left, a run that has ended has no armed
timer. -/
theorem ended_disarmed {S : System} (h : System.Reachable (fun S m => ¬ FailsLate S m) S)
    {r : WorkflowRun} (hr : r ∈ S.db.runs) (hend : runTerminal r.status = true) {tm : Timer}
    (htm : tm ∈ S.db.timers) (hrun : tm.workflowRunID = r.id) : tm.status ≠ .pending := by
  have hdis : ∀ runID, Disarmed runID S.db :=
    h.induct (I := fun S => ∀ runID, Disarmed runID S.db) (fun _ _ _ _ _ htm => by cases htm)
      (fun _ _ _ _ hok hm hturn hdis => Disarmed.shift hdis hok.orderly.base (hok.shift hturn) hm)
  exact hdis r.id r (Table.mem_iff_get?.mp hr) hend tm htm hrun

/-- No failure comes late where no step has been cancelled. -/
theorem not_failsLate {S : System} (h : ∀ t ∈ S.db.steps, t.status ≠ .cancelled) (m : Move) :
    ¬ FailsLate S m := by
  intro hlate
  cases m with
  | report =>
    obtain ⟨-, -, a, t, -, -, ht, hst, -⟩ := hlate
    exact h t (Table.mem_of_get? ht) hst
  | outcome =>
    obtain ⟨a, t, -, ht, hst, -⟩ := hlate
    exact h t (Table.mem_of_get? ht) hst
  | _ => exact hlate

/-- The run of a step that backs off has been cancelled. -/
def disarmedSystem : System :=
  (backoffSystem.next (.cancel 201 (.ticks 500))).get (by decide +kernel)

/-- The timer of the step has been disarmed. -/
theorem ended_disarmed_cancelled :
    ∃ r ∈ disarmedSystem.db.runs, runTerminal r.status = true ∧
      ∃ tm ∈ disarmedSystem.db.timers, tm.workflowRunID = r.id ∧ tm.status ≠ .pending := by
  have hmoves : ∀ S, ∀ m ∈ chainMoves, ¬ FailsLate S m := by
    intro S m hm hlate
    cases m with
    | report => simp [chainMoves, Move.claims] at hm
    | outcome => simp [chainMoves, Move.claims] at hm
    | _ => exact hlate
  have hclaimed : System.Reachable (fun S m => ¬ FailsLate S m) claimedSystem :=
    .run .init hmoves (Option.some_get _).symm
  have hnone : ∀ t ∈ claimedSystem.db.steps.rows, t.status ≠ .cancelled := by decide +kernel
  have hreach : System.Reachable (fun S m => ¬ FailsLate S m) disarmedSystem :=
    (hclaimed.step (not_failsLate hnone _) (Option.some_get _).symm).step id
      (Option.some_get _).symm
  have hended : ∃ r ∈ disarmedSystem.db.runs.rows, runTerminal r.status = true ∧
      ∃ tm ∈ disarmedSystem.db.timers.rows, tm.workflowRunID = r.id := by decide +kernel
  obtain ⟨r, hr, hend, tm, htm, hrun⟩ := hended
  exact ⟨r, hr, hend, tm, htm, hrun, ended_disarmed hreach hr hend htm hrun⟩

/-- An attempt has been claimed, its run is cancelled, and then the worker reports a
failure. -/
def rearmedSystem : System :=
  (System.run (chainMoves ++ [.cancel 201 (.ticks 400),
    .report 209 "w" false none (some "x") (.ticks 500)]) .init).get (by decide +kernel)

/-- The cancelled run has an armed timer. -/
theorem ended_rearmed :
    System.Reachable System.Any rearmedSystem ∧
    ∃ r ∈ rearmedSystem.db.runs.rows, r.status = .cancelled ∧
      ∃ tm ∈ rearmedSystem.db.timers.rows, tm.workflowRunID = r.id ∧ tm.status = .pending := by
  refine ⟨.run .init (fun _ _ _ => trivial) (Option.some_get _).symm, ?_⟩
  decide +kernel

end Orchestrator
