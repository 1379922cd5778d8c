import Orchestrator.System.Accounting

/-!
# The life of a step

A commit leaves a step as it is or moves it along one of a few edges between
statuses. What has ended does not change. Every edge uses up part of what is left to
a step, which bounds how often its status can change by three for each attempt.
-/

namespace Orchestrator

open Lib Program Actions

/-- The statuses that a commit may bring about from a status. -/
def StepStatus.next : StepStatus → List StepStatus
  | .pending => [.queued, .waiting, .completed, .skipped, .cancelled]
  | .waiting => [.completed, .cancelled]
  | .queued => [.running, .completed, .retryBackoff, .failed, .cancelled]
  | .running => [.completed, .retryBackoff, .failed, .cancelled]
  | .retryBackoff => [.queued, .cancelled]
  | _ => []

/-- Nothing comes after a status that is final. -/
theorem StepStatus.next_terminal {st : StepStatus} (h : stepTerminal st = true) : st.next = [] := by
  cases st <;> first | rfl | cases h

/-- The second row is the step after a commit has changed its status. -/
structure Step.Moved (t t' : Step) : Prop where
  info : t'.info = t.info
  status : t'.status ∈ t.status.next
  /-- Only a signal completes a step that was pending. -/
  signal : t.status = .pending → t'.status = .completed → t.taskType = signalWaitTaskType
  count : t'.attemptCount = if t'.status = .queued then t.attemptCount + 1 else t.attemptCount

section Moved

variable {P : Signal → Prop} {q : Prop} {runID : UUID} {v v₀ v' : Db} {t t' : Step}

/-- A change between two statuses that are known. -/
theorem Step.Moved.of {st st' : StepStatus} (hinfo : t'.info = t.info) (hst : t.status = st)
    (hst' : t'.status = st') (hnext : st' ∈ st.next)
    (hsignal : st = .pending → st' = .completed → t.taskType = signalWaitTaskType)
    (hcount : t'.attemptCount = if st' = .queued then t.attemptCount + 1 else t.attemptCount) :
    t.Moved t' := by
  subst hst hst'
  exact ⟨hinfo, hnext, hsignal, hcount⟩

theorem Step.Moved.transition {st next : StepStatus} {output : Option RawMessage}
    {errMsg : Option String} {bump : Bool} {now : Time} (hst : t.status = st)
    (hnext : next ∈ st.next)
    (hsignal : st = .pending → next = .completed → t.taskType = signalWaitTaskType)
    (hbump : bump = (next == .queued)) : t.Moved (t.transition next output errMsg bump now) := by
  refine .of rfl hst rfl hnext hsignal ?_
  subst hbump
  cases next <;> rfl

theorem Step.Drifts.moved (h : t.Drifts t') : t' = t ∨ t.Moved t' := by
  rcases h with rfl | ⟨hst, now, rfl⟩
  · exact Or.inl rfl
  · exact Or.inr (.transition hst (by decide) (fun h => by cases h) rfl)

/-- What an evaluation makes of a step is a change of this sort. -/
theorem Step.Passes.moved (h : t.Passes t') : t' = t ∨ t.Moved t' := by
  obtain ⟨hinfo, hch⟩ := h
  refine hch.imp_right (fun hch => ?_)
  rcases hch with ⟨hst, hst', hn⟩ | ⟨hst, hst', -, hn⟩ | ⟨hst, hst', -, hn⟩ |
    ⟨hst | hst, hst', htype, hn⟩
  · exact .of hinfo hst hst' (by decide) (fun _ h => by cases h) hn
  · exact .of hinfo hst hst' (by decide) (fun _ h => by cases h) hn
  · exact .of hinfo hst hst' (by decide) (fun _ h => by cases h) hn
  · exact .of hinfo hst hst' (by decide) (fun _ _ => htype) hn
  · exact .of hinfo hst hst' (by decide) (fun h => by cases h) hn

/-- A step that is in flight ends its attempt. -/
theorem Step.Moved.of_inFlight (hst : t.status = .queued ∨ t.status = .running)
    {next : StepStatus} {output : Option RawMessage} {errMsg : Option String} {now : Time}
    (hnext : next ∈ [StepStatus.completed, .retryBackoff, .failed]) :
    t.Moved (t.transition next output errMsg false now) := by
  simp only [List.mem_cons, List.not_mem_nil, or_false] at hnext
  rcases hst with hst | hst <;> rcases hnext with rfl | rfl | rfl <;>
    exact .transition hst (by decide) (fun h => by cases h) rfl

/-- One step of a table is replaced. -/
theorem moved_put {T : Table Step.id} {x x' : Step} (hx : T.get? x.id = some x)
    (hmoved : x.Moved x') (ht : t ∈ T) : ∃ t' ∈ T.put x', t' = t ∨ (t' = x' ∧ t.Moved t') := by
  have hid : x'.id = x.id := Step.id_of_info hmoved.info
  by_cases htx : t.id = x.id
  · obtain rfl := Table.eq_of_key_eq ht (Table.mem_of_get? hx) htx
    exact ⟨x', Table.mem_put_self _ _, Or.inr ⟨rfl, hmoved⟩⟩
  · exact ⟨t, Table.mem_put.mpr (Or.inr ⟨ht, fun h => htx (h.trans hid)⟩), Or.inl rfl⟩

/-- What comes before an evaluation leaves a step as it is, or moves it to a status
in which the evaluation leaves it. -/
theorem Lead.step (h : Lead P runID v v₀) (ht : t ∈ v.steps) :
    ∃ t' ∈ v₀.steps, t' = t ∨ (t.Moved t' ∧ t'.status ≠ .pending ∧ t'.status ≠ .waiting) := by
  have hput : ∀ {T : Table Step.id} {x : Step} {next output errMsg bump now},
      T = v.steps → v.steps.get? x.id = some x → next ≠ .pending → next ≠ .waiting →
      x.Moved (x.transition next output errMsg bump now) →
      ∃ t' ∈ T.put (x.transition next output errMsg bump now),
        t' = t ∨ (t.Moved t' ∧ t'.status ≠ .pending ∧ t'.status ≠ .waiting) := by
    rintro _ x next output errMsg bump now rfl hx hp hw hmoved
    obtain ⟨t', ht', hch⟩ := moved_put hx hmoved ht
    refine ⟨t', ht', hch.imp id ?_⟩
    rintro ⟨rfl, hmoved⟩
    exact ⟨hmoved, hp, hw⟩
  cases h with
  | resume => exact ⟨t, ht, Or.inl rfl⟩
  | create hact =>
    cases hact with
    | create _ _ _ hnew hnodup =>
      rw [applyAll_create]
      exact ⟨t, (Table.mem_foldl_put hnew hnodup).mpr (Or.inr ht), Or.inl rfl⟩
  | outcome hk hact =>
    cases hact with
    | succeed hclose hx hst =>
      rw [Backend.applyAll_append]
      exact hput hclose.frame.1 (Table.get?_key hx) (by decide) (by decide)
        (.of_inFlight hst (by decide))
    | retry hclose hx hst =>
      rw [Backend.applyAll_append]
      exact hput hclose.frame.1 (Table.get?_key hx) (by decide) (by decide)
        (.of_inFlight hst (by decide))
    | giveUp hclose hx hst =>
      rw [Backend.applyAll_append]
      exact hput hclose.frame.1 (Table.get?_key hx) (by decide) (by decide)
        (.of_inFlight hst (by decide))
    | _ => simp at hk
  | redispatch _ _ _ hx hback _ _ _ hdis =>
    rw [hdis.steps]
    exact hput rfl hx (by decide) (by decide)
      (.transition hback (by decide) (fun h => by cases h) rfl)
  | signal => exact ⟨t, ht, Or.inl rfl⟩

/-- What a change of the store makes of a step. -/
theorem Shift.step (h : Shift P q v v') (hb : Base v) (ht : t ∈ v.steps) :
    ∃ t' ∈ v'.steps, t' = t ∨ t.Moved t' := by
  have hcalm : Calm t.workflowRunID v v' → ∃ t' ∈ v'.steps, t' = t ∨ t.Moved t' := by
    intro hcalm
    obtain ⟨t', ht', hdrift⟩ := hcalm.forth t ht rfl
    exact ⟨t', ht', hdrift.moved⟩
  cases h with
  | work hu => exact hcalm (.of_steps hb hu (fun l hl => Or.inr (Quietly.calm hl).1))
  | late hclose _ _ htms =>
    refine ⟨t, ?_, Or.inl rfl⟩
    rw [Backend.applyAll_append]
    rcases htms with rfl | ⟨-, tm, rfl, -⟩ <;> exact hclose.frame.1 ▸ ht
  | idle => exact ⟨t, ht, Or.inl rfl⟩
  | note => exact ⟨t, ht, Or.inl rfl⟩
  | @evaluate runID v₀ _ hlead heval =>
    obtain ⟨t₁, ht₁, hch⟩ := hlead.step ht
    obtain ⟨t', ht', hpass⟩ := heval.path.step (hlead.through.base hb) ht₁
    refine ⟨t', ht', ?_⟩
    rcases hch with rfl | ⟨hmoved, hp, hw⟩
    · exact hpass.moved
    · obtain rfl := hpass.eq hp hw
      exact Or.inr hmoved
  | @cancel runID r u _ _ hu =>
    obtain ⟨t', ht', hev⟩ := (Through.evolves ⟨u, hu, rfl⟩ hb).steps t ht
    refine ⟨t', ht', ?_⟩
    rcases cancelled_of_changed hb hu ht' with hold | ⟨hst', x, hx, hinfo, hcount, hgoes⟩
    · exact Or.inl (Table.eq_of_key_eq hold ht (Step.id_of_info hev.info))
    · obtain rfl : x = t := Table.eq_of_key_eq hx ht
        ((Step.id_of_info hinfo).symm.trans (Step.id_of_info hev.info))
      have hrow := (hb.ledger.row x hx).count
      cases hst : x.status with
      | ready => simp only [Step.CountOK, hst] at hrow
      | completed => rw [hst] at hgoes; cases hgoes
      | failed => rw [hst] at hgoes; cases hgoes
      | skipped => rw [hst] at hgoes; cases hgoes
      | cancelled => rw [hst] at hgoes; cases hgoes
      | _ => exact Or.inr (.of hinfo hst hst' (by decide) (fun _ h => by cases h) hcount)

/-- A step has been there before, or it is new and pending. -/
theorem Lead.step_back (h : Lead P runID v v₀) (ht' : t' ∈ v₀.steps) :
    (∃ t ∈ v.steps, t'.info = t.info) ∨ t'.status = .pending := by
  have hput : ∀ {T : Table Step.id} {x x' : Step}, T = v.steps → x ∈ v.steps →
      t' ∈ T.put x' → x'.info = x.info → ∃ t ∈ v.steps, t'.info = t.info := by
    rintro _ x x' rfl hx ht' hinfo
    rcases Table.mem_put.mp ht' with rfl | ⟨ht', -⟩
    · exact ⟨x, hx, hinfo⟩
    · exact ⟨t', ht', rfl⟩
  cases h with
  | resume => exact Or.inl ⟨t', ht', rfl⟩
  | create hact =>
    cases hact with
    | create _ _ hsteps hnew hnodup =>
      rw [applyAll_create] at ht'
      rcases (Table.mem_foldl_put hnew hnodup).mp ht' with hmem | hmem
      · obtain ⟨ns, -, stepID, now, rfl⟩ := forall₂_right hsteps t' hmem
        exact Or.inr rfl
      · exact Or.inl ⟨t', hmem, rfl⟩
  | outcome hk hact =>
    refine Or.inl ?_
    cases hact with
    | succeed hclose hx =>
      rw [Backend.applyAll_append] at ht'
      exact hput hclose.frame.1 (Table.mem_of_get? hx) ht' rfl
    | retry hclose hx =>
      rw [Backend.applyAll_append] at ht'
      exact hput hclose.frame.1 (Table.mem_of_get? hx) ht' rfl
    | giveUp hclose hx =>
      rw [Backend.applyAll_append] at ht'
      exact hput hclose.frame.1 (Table.mem_of_get? hx) ht' rfl
    | _ => simp at hk
  | redispatch _ _ _ hx _ _ _ _ hdis =>
    rw [hdis.steps] at ht'
    exact Or.inl (hput rfl (Table.mem_of_get? hx) ht' rfl)
  | signal => exact Or.inl ⟨t', ht', rfl⟩

/-- A step that a change brings was pending when it was made. -/
theorem Shift.new_step (h : Shift P q v v') (hb : Base v) (ht' : t' ∈ v'.steps)
    (hnew : v.steps.get? t'.id = none) :
    ∃ t : Step, t.status = .pending ∧ (t' = t ∨ t.Moved t') := by
  have hnone : ∀ t ∈ v.steps, t'.info ≠ t.info := by
    intro t ht hinfo
    rw [Step.id_of_info hinfo, Table.mem_iff_get?.mp ht] at hnew
    cases hnew
  have hcalm : ¬ Calm t'.workflowRunID v v' := by
    intro hcalm
    obtain ⟨t, ht, hdrift⟩ := hcalm.back t' ht' rfl
    exact hnone t ht hdrift.info
  cases h with
  | work hu => exact absurd (.of_steps hb hu (fun l hl => Or.inr (Quietly.calm hl).1)) hcalm
  | late hclose ht hst htms =>
    exact absurd (Act.calm hb (.late hclose ht hst (htms.imp id And.right)) (Or.inr rfl)) hcalm
  | idle => exact absurd rfl (hnone t' ht')
  | note => exact absurd rfl (hnone t' ht')
  | @evaluate runID v₀ _ hlead heval =>
    obtain ⟨t₁, ht₁, hpass⟩ := heval.path.step_back (hlead.through.base hb) ht'
    rcases hlead.step_back ht₁ with ⟨t, ht, hinfo⟩ | hst
    · exact absurd (hpass.1.trans hinfo) (hnone t ht)
    · exact ⟨t₁, hst, hpass.moved⟩
  | cancel _ _ hu =>
    rcases cancelled_of_changed hb hu ht' with hold | ⟨-, t, ht, hinfo, -⟩
    · exact absurd rfl (hnone t' hold)
    · exact absurd hinfo (hnone t ht)

end Moved

/-- How often the status of a step can change from now on. -/
def Step.rest (t : Step) : ℤ :=
  match t.status with
  | .pending => 3 * t.maxAttempts
  | .waiting => 1
  | .queued => 3 * (t.maxAttempts - t.attemptCount) + 2
  | .running => 3 * (t.maxAttempts - t.attemptCount) + 1
  | .retryBackoff => 3 * (t.maxAttempts - t.attemptCount)
  | _ => 0

section Rest

variable {t t' : Step}

theorem Step.RowOK.rest_nonneg (h : t.RowOK) : 0 ≤ t.rest := by
  have hmax := h.attempts
  have hbound := h.bound
  unfold Step.rest
  split <;> omega

/-- A step that is not pending has used up some of its changes. -/
theorem Step.RowOK.rest_le (h : t.RowOK) :
    t.rest + (if t.status = .pending then 0 else 1) ≤ 3 * t.maxAttempts := by
  have hmax := h.attempts
  have hcount := h.count
  unfold Step.rest
  cases hst : t.status <;> simp only [Step.CountOK, hst] at hcount ⊢ <;> simp <;> omega

/-- A change of the status uses up one of those that are left. -/
theorem Step.Moved.rest (h : t.Moved t') (hrow : t.RowOK) : t'.rest + 1 ≤ t.rest := by
  have hmax := hrow.attempts
  have hbound := hrow.bound
  have hcount := hrow.count
  have hmax' := Step.max_of_info h.info
  have hn := h.count
  have hnext := h.status
  cases hst : t.status <;> rw [hst] at hnext <;>
    simp only [StepStatus.next, List.mem_cons, List.not_mem_nil, or_false] at hnext <;>
    simp only [Step.CountOK, hst] at hcount
  case pending =>
    rcases hnext with hs | hs | hs | hs | hs <;> simp [hs] at hn <;> simp [Step.rest, hs, hst] <;>
      omega
  case waiting => rcases hnext with hs | hs <;> simp [Step.rest, hs, hst]
  case queued =>
    rcases hnext with hs | hs | hs | hs | hs <;> simp [hs] at hn <;> simp [Step.rest, hs, hst] <;>
      omega
  case running =>
    rcases hnext with hs | hs | hs | hs <;> simp [hs] at hn <;> simp [Step.rest, hs, hst] <;>
      omega
  case retryBackoff =>
    rcases hnext with hs | hs <;> simp [hs] at hn <;> simp [Step.rest, hs, hst] <;> omega

end Rest

namespace System

/-- The status of a step. A step that is not there yet counts as pending. -/
def statusOf (S : System) (id : UUID) : StepStatus :=
  ((S.db.steps.get? id).map (·.status)).getD .pending

/-- How often moves change the status of a step. -/
def changes (id : UUID) : List Move → System → ℕ
  | [], _ => 0
  | m :: ms, S =>
    match S.next m with
    | none => 0
    | some S' => (if S'.statusOf id = S.statusOf id then 0 else 1) + changes id ms S'

/-- What is left to a step in a state, if `all` is what a step begins with. -/
def restOf (S : System) (id : UUID) (all : ℤ) : ℤ := ((S.db.steps.get? id).map (·.rest)).getD all

/-- A move that changes the status of a step uses up one of the changes that are
left. -/
theorem restOf_next {S S' : System} {m : Move} (hok : S.Ok) (hnext : S.next m = some S')
    {id : UUID} {t : Step} (ht : S'.db.steps.get? id = some t) :
    (if S'.statusOf id = S.statusOf id then 0 else 1) + t.rest ≤
      S.restOf id (3 * t.maxAttempts) := by
  have hturn := next_turn hok hnext
  have hshift := hok.shift hturn
  have hb' := (hok.turn hturn).orderly.base
  have hstatus : S'.statusOf id = t.status := by rw [statusOf, ht]; rfl
  rw [hstatus]
  cases hget : S.db.steps.get? id with
  | none =>
    have hle := (hb'.ledger.row t (Table.mem_of_get? ht)).rest_le
    rw [statusOf, restOf, hget]
    rw [Int.add_comm] at hle
    exact hle
  | some x =>
    rw [statusOf, restOf, hget]
    change (if t.status = x.status then 0 else 1) + t.rest ≤ x.rest
    have hx := Table.mem_of_get? hget
    obtain ⟨x', hx', hch⟩ := hshift.step hok.orderly.base hx
    have hid : x'.id = t.id := by
      have hxid : x.id = t.id := (Table.key_of_get? hget).trans (Table.key_of_get? ht).symm
      rcases hch with rfl | hmoved
      · exact hxid
      · exact (Step.id_of_info hmoved.info).trans hxid
    obtain rfl := Table.eq_of_key_eq hx' (Table.mem_of_get? ht) hid
    rcases hch with rfl | hmoved
    · rw [if_pos rfl, Int.zero_add]
    · have hle := hmoved.rest (hok.orderly.base.ledger.row x hx)
      split_ifs <;> omega

theorem next_evolves {S S' : System} {m : Move} (hok : S.Ok) (hnext : S.next m = some S') :
    S.db.Evolves S'.db :=
  (hok.shift (next_turn hok hnext)).evolves hok.orderly.base

theorem run_evolves {S S' : System} {ms : List Move} (hok : S.Ok) (hrun : run ms S = some S') :
    S.db.Evolves S'.db := by
  induction ms generalizing S with
  | nil => exact Option.some.inj hrun ▸ .refl _
  | cons m ms ih =>
    obtain ⟨S₁, hnext, hrest⟩ := Option.bind_eq_some_iff.mp hrun
    exact (next_evolves hok hnext).trans (ih (hok.turn (next_turn hok hnext)) hrest)

/-- What is left to a step bounds how often moves change its status. -/
theorem changes_le {S S' : System} {ms : List Move} (hok : S.Ok) (hrun : run ms S = some S')
    {t : Step} (ht : t ∈ S'.db.steps) :
    changes t.id ms S + t.rest ≤ S.restOf t.id (3 * t.maxAttempts) := by
  induction ms generalizing S with
  | nil =>
    obtain rfl := Option.some.inj hrun
    rw [restOf, Table.mem_iff_get?.mp ht, changes]
    exact (Int.zero_add _).le
  | cons m ms ih =>
    obtain ⟨S₁, hnext, hrest⟩ := Option.bind_eq_some_iff.mp hrun
    have hok₁ : S₁.Ok := hok.turn (next_turn hok hnext)
    have hle := ih hok₁ hrest
    have hcount : changes t.id (m :: ms) S =
        (if S₁.statusOf t.id = S.statusOf t.id then 0 else 1) + changes t.id ms S₁ := by
      rw [changes, hnext]
    rw [hcount]
    cases hget : S₁.db.steps.get? t.id with
    | none =>
      have hnone : S.db.steps.get? t.id = none := by
        cases hS : S.db.steps.get? t.id with
        | none => rfl
        | some x =>
          obtain ⟨y, hy, -⟩ := (next_evolves hok hnext).step hS
          rw [hget] at hy
          cases hy
      rw [restOf, hget] at hle
      rw [if_pos (by rw [statusOf, statusOf, hget, hnone]), restOf, hnone, Nat.zero_add]
      exact hle
    | some t₁ =>
      obtain ⟨x, hx, hev⟩ := (run_evolves hok₁ hrest).step hget
      obtain rfl := Option.some.inj ((Table.mem_iff_get?.mp ht).symm.trans hx)
      have hfirst := restOf_next hok hnext hget
      rw [← Step.max_of_info hev.info] at hfirst
      rw [restOf, hget] at hle
      change _ ≤ t₁.rest at hle
      refine le_trans ?_ hfirst
      split_ifs <;> push_cast <;> omega

end System

/-- A commit leaves the status of a step as it is or changes it along one of the
edges, where only a signal completes a pending step. A new step has come from
pending in this way. A step or a run that has ended does not change any more. Over a
whole run of the system, the status of a step changes at most three times for each
of its attempts. -/
theorem step_lifecycle {ms : List Move} {S : System} (h : System.run ms .init = some S) :
    (∀ m S', S.next m = some S' →
      (∀ t ∈ S.db.steps, ∃ t' ∈ S'.db.steps, t'.id = t.id ∧
        (t'.status = t.status ∨ (t'.status ∈ t.status.next ∧
          (t.status = .pending → t'.status = .completed → t.taskType = signalWaitTaskType))) ∧
        (stepTerminal t.status = true → t'.status = t.status ∧ t'.output = t.output ∧
          t'.error = t.error ∧ t'.attemptCount = t.attemptCount)) ∧
      (∀ t' ∈ S'.db.steps, S.db.steps.get? t'.id = none →
        t'.status = .pending ∨ (t'.status ∈ StepStatus.pending.next ∧
          (t'.status = .completed → t'.taskType = signalWaitTaskType))) ∧
      ∀ r ∈ S.db.runs, runTerminal r.status = true → ∃ r' ∈ S'.db.runs, r'.id = r.id ∧
        r'.status = r.status ∧ r'.output = r.output ∧ r'.error = r.error) ∧
    ∀ t ∈ S.db.steps, (System.changes t.id ms .init : ℤ) ≤ 3 * t.maxAttempts := by
  have hreach : System.Reachable System.Any S := .run .init (fun _ _ _ => trivial) h
  have hok := hreach.ok
  have hb := hok.orderly.base
  refine ⟨fun m S' hnext => ?_, fun t ht => ?_⟩
  · have hshift := hok.shift (System.next_turn hok hnext)
    have hev := hshift.evolves hb
    refine ⟨fun t ht => ?_, fun t' ht' hnew => ?_, fun r hr hend => ?_⟩
    · obtain ⟨t', ht', hch⟩ := hshift.step hb ht
      rcases hch with rfl | hmoved
      · exact ⟨t', ht', rfl, Or.inl rfl, fun _ => ⟨rfl, rfl, rfl, rfl⟩⟩
      · refine ⟨t', ht', Step.id_of_info hmoved.info, Or.inr ⟨hmoved.status, hmoved.signal⟩,
          fun hend => ?_⟩
        have hnone := hmoved.status
        rw [StepStatus.next_terminal hend] at hnone
        exact absurd hnone List.not_mem_nil
    · obtain ⟨t, hst, hch⟩ := hshift.new_step hb ht' hnew
      rcases hch with rfl | hmoved
      · exact Or.inl hst
      · have hstatus := hmoved.status
        rw [hst] at hstatus
        exact Or.inr ⟨hstatus, fun hc =>
          (Step.type_of_info hmoved.info).trans (hmoved.signal hst hc)⟩
    · obtain ⟨r', hr', hrr⟩ := hev.runs r hr
      exact ⟨r', hr', hrr.id, hrr.done hend⟩
  · have hle := System.changes_le .init h ht
    have hrest := (hb.ledger.row t ht).rest_nonneg
    have hall : System.init.restOf t.id (3 * t.maxAttempts) = 3 * t.maxAttempts := rfl
    omega

/-- The first step of a chain has failed after two attempts. -/
theorem step_lifecycle_failed :
    ∃ t ∈ failedSystem.db.steps, t.status = .failed ∧ t.maxAttempts = 2 ∧
      ∃ ms, System.run ms .init = some failedSystem ∧
        (System.changes t.id ms .init : ℤ) ≤ 3 * t.maxAttempts := by
  have hfailed : ∃ t ∈ failedSystem.db.steps.rows, t.status = .failed ∧ t.maxAttempts = 2 := by
    decide +kernel
  obtain ⟨t, ht, hst, hmax⟩ := hfailed
  exact ⟨t, ht, hst, hmax, _, (Option.some_get _).symm,
    (step_lifecycle (Option.some_get _).symm).2 t ht⟩

end Orchestrator
