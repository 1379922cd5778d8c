import Orchestrator.Invariant.Graph

/-!
# Actions keep the books of steps and attempts

A step that has attempts has them numbered from one to its count, all but the
last are dead, and the last one is what the status of the step says. The lemmas
below treat a change of a step alone, of a step together with its latest attempt,
a dispatch, and the creation of steps.
-/

namespace Orchestrator

open Lib

variable {T : Table Step.id} {A : Table TaskAttempt.id} {H H' : Table (fun id : UUID => id)}

namespace Ledger

/-- The step of an attempt. -/
theorem parent_of_get? (h : Ledger T A H) {a : TaskAttempt} (ha : a ∈ A) {t : Step}
    (ht : T.get? a.stepID = some t) : a.workflowRunID = t.workflowRunID ∧ AttemptOK H t a := by
  obtain ⟨t', ht', hid, hrun, hok⟩ := h.parent a ha
  obtain rfl : t' = t := Option.some.inj ((hid ▸ Table.mem_iff_get?.mp ht').symm.trans ht)
  exact ⟨hrun, hok⟩

theorem number_bounds (h : Ledger T A H) {a : TaskAttempt} (ha : a ∈ A) {t : Step}
    (ht : T.get? a.stepID = some t) : 1 ≤ a.attemptNumber ∧ a.attemptNumber ≤ t.attemptCount :=
  (h.numbers t (Table.mem_of_get? ht) a.attemptNumber).mp
    ⟨a, ha, (Table.key_of_get? ht).symm, rfl⟩

/-- An open attempt is the latest one of its step, and the step is in flight or
cancelled. -/
theorem latest_of_open (h : Ledger T A H) {a : TaskAttempt} (ha : a ∈ A) (hopen : Open H a)
    {t : Step} (ht : T.get? a.stepID = some t) :
    a.attemptNumber = t.attemptCount ∧
      (t.status = .queued ∨ t.status = .running ∨ t.status = .cancelled) := by
  obtain ⟨-, hearlier, hlast⟩ := h.parent_of_get? ha ht
  obtain ⟨hpos, hle⟩ := h.number_bounds ha ht
  have hdead : ¬ Dead H a := by
    rintro (hst | ⟨hst, hsome⟩) <;> rcases hopen with h | h | ⟨h, hnone⟩ <;> simp_all
  have heq : a.attemptNumber = t.attemptCount := by
    by_contra hne
    exact hdead (hearlier (by omega))
  refine ⟨heq, ?_⟩
  have hcount := (h.row t (Table.mem_of_get? ht)).count
  have hlast := hlast heq
  have hzero : t.taskType = signalWaitTaskType → t.attemptCount = 0 :=
    (h.row t (Table.mem_of_get? ht)).signal
  cases hst : t.status with
  | queued => exact Or.inl rfl
  | running => exact Or.inr (Or.inl rfl)
  | cancelled => exact Or.inr (Or.inr rfl)
  | pending => simp only [Step.CountOK, hst] at hcount; omega
  | skipped => simp only [Step.CountOK, hst] at hcount; omega
  | waiting => simp only [Step.CountOK, hst] at hcount; have := hzero hcount; omega
  | ready => simp only [Step.CountOK, hst] at hcount
  | retryBackoff => simp only [LastOK, hst] at hlast; exact absurd hlast hdead
  | failed => simp only [LastOK, hst] at hlast; exact absurd hlast hdead
  | completed =>
    simp only [LastOK, hst] at hlast
    rcases hopen with h | h | ⟨h, -⟩ <;> rw [h] at hlast <;> cases hlast.1

/-- A step that has not begun is pending, skipped or cancelled. -/
theorem begun_or (h : Ledger T A H) {t : Step} (ht : t ∈ T) :
    t.Started ∨ t.status = .pending ∨ t.status = .skipped ∨ t.status = .cancelled := by
  have hcount := (h.row t ht).count
  cases hst : t.status with
  | ready => simp only [Step.CountOK, hst] at hcount
  | pending => exact Or.inr (Or.inl rfl)
  | skipped => exact Or.inr (Or.inr (Or.inl rfl))
  | cancelled => exact Or.inr (Or.inr (Or.inr rfl))
  | _ => exact Or.inl (Or.inl (by simp [hst]))

/-- A step that has begun and is not parked has made an attempt, unless a signal
has completed it. -/
theorem count_pos (h : Ledger T A H) {t : Step} (ht : t ∈ T) (hstarted : t.Started)
    (htype : t.taskType ≠ signalWaitTaskType) : 1 ≤ t.attemptCount := by
  rcases hstarted with hst | hpos
  · have hrow := h.row t ht
    have hcount := hrow.count
    simp only [List.mem_cons, List.not_mem_nil, or_false] at hst
    rcases hst with hst | hst | hst | hst | hst | hst <;>
      simp only [Step.CountOK, hst] at hcount
    · exact hcount
    · exact hcount
    · exact hcount.1
    · exact absurd hcount htype
    · exact hcount htype
    · have hmax := hrow.attempts
      omega
  · exact hpos

/-- A step without attempts has count zero. -/
theorem no_attempts (h : Ledger T A H) {t : Step} (ht : t ∈ T) (hzero : t.attemptCount = 0)
    {a : TaskAttempt} (ha : a ∈ A) : a.stepID ≠ t.id := by
  intro hid
  have hb := (h.numbers t ht a.attemptNumber).mp ⟨a, ha, hid, rfl⟩
  omega

/-- A change of a step's row that leaves its count alone. -/
theorem putStep (h : Ledger T A H) {t t' : Step} (ht : T.get? t.id = some t)
    (hinfo : t'.info = t.info) (hcount : t'.attemptCount = t.attemptCount) (hrow : t'.RowOK)
    (hlast : ∀ a ∈ A, a.stepID = t.id → LastOK H t a → LastOK H t' a) : Ledger (T.put t') A H where
  row x hx := by
    rcases Table.mem_put.mp hx with rfl | ⟨hx, -⟩
    · exact hrow
    · exact h.row x hx
  parent a ha := by
    obtain ⟨x, hx, hid, hrun, hok⟩ := h.parent a ha
    by_cases hxt : x.id = t.id
    · obtain rfl : x = t := Table.eq_of_key_eq hx (Table.mem_of_get? ht) hxt
      refine ⟨t', Table.mem_put_self T t', (Step.id_of_info hinfo).trans hid,
        hrun.trans (Step.run_of_info hinfo).symm, ?_⟩
      rw [AttemptOK, hcount]
      exact ⟨hok.1, fun heq => hlast a ha hid.symm (hok.2 heq)⟩
    · have hx' : x ∈ T.put t' :=
        Table.mem_put.mpr (Or.inr ⟨hx, fun heq => hxt (heq.trans (Step.id_of_info hinfo))⟩)
      exact ⟨x, hx', hid, hrun, hok⟩
  slot := h.slot
  numbers x hx n := by
    rcases Table.mem_put.mp hx with rfl | ⟨hx, -⟩
    · rw [Step.id_of_info hinfo, hcount]
      exact h.numbers t (Table.mem_of_get? ht) n
    · exact h.numbers x hx n
  handled := h.handled

/-- A change of the latest attempt of a step, with or without a change of the
step. -/
theorem putLatest (h : Ledger T A H) {a : TaskAttempt} (a' : TaskAttempt) {t t' : Step}
    (H' : Table (fun id : UUID => id)) (ha : A.get? a.id = some a) (ht : T.get? a.stepID = some t)
    (hlatest : a.attemptNumber = t.attemptCount) (hid : a'.id = a.id) (hstep : a'.stepID = a.stepID)
    (hrun : a'.workflowRunID = a.workflowRunID) (hnum : a'.attemptNumber = a.attemptNumber)
    (hinfo : t'.info = t.info) (hcount : t'.attemptCount = t.attemptCount) (hrow : t'.RowOK)
    (hH : ∀ id, id ≠ a.id → H'.get? id = H.get? id)
    (hlast : LastOK H' t' a') (hnote : (H'.get? a.id).isSome = true → a'.status = .expired) :
    Ledger (T.put t') (A.put a') H' := by
  have hmem := Table.mem_of_get? ha
  have htid : t.id = a.stepID := Table.key_of_get? ht
  have hA : ∀ x, x ∈ A.put a' ↔ x = a' ∨ (x ∈ A ∧ x.id ≠ a.id) := fun x => by
    rw [Table.mem_put, hid]
  have hT : ∀ x, x ∈ T.put t' ↔ x = t' ∨ (x ∈ T ∧ x.id ≠ t.id) := fun x => by
    rw [Table.mem_put, Step.id_of_info hinfo]
  refine ⟨fun x hx => ?_, fun x hx => ?_, fun x hx y hy hxy hn => ?_, fun x hx n => ?_,
    fun id hsome => ?_⟩
  · rcases (hT x).mp hx with rfl | ⟨hx, -⟩
    · exact hrow
    · exact h.row x hx
  · rcases (hA x).mp hx with rfl | ⟨hx, hne⟩
    · refine ⟨t', Table.mem_put_self T t', ?_, ?_, ?_, fun _ => hlast⟩
      · rw [Step.id_of_info hinfo, htid, hstep]
      · rw [hrun, (h.parent_of_get? hmem ht).1, Step.run_of_info hinfo]
      · rw [hnum, hcount, hlatest]
        exact fun hlt => absurd hlt (lt_irrefl _)
    · obtain ⟨s, hs, hsid, hsrun, hok⟩ := h.parent x hx
      by_cases hst : s.id = t.id
      · -- An earlier attempt of the same step is dead and stays so.
        obtain rfl : s = t := Table.eq_of_key_eq hs (Table.mem_of_get? ht) hst
        have hxid : x.stepID = a.stepID := hsid.symm.trans htid
        have hlt : x.attemptNumber < s.attemptCount := by
          have hb := h.number_bounds hx (hxid ▸ ht)
          have hneq : x.attemptNumber ≠ a.attemptNumber := fun heq =>
            hne (congrArg TaskAttempt.id (h.slot x hx a hmem hxid heq))
          omega
        refine ⟨t', Table.mem_put_self T t', (Step.id_of_info hinfo).trans hsid,
          hsrun.trans (Step.run_of_info hinfo).symm, fun _ => ?_, ?_⟩
        · rw [Dead, hH x.id hne]
          exact hok.1 hlt
        · rw [hcount]
          exact fun heq => absurd heq hlt.ne
      · refine ⟨s, (hT s).mpr (Or.inr ⟨hs, hst⟩), hsid, hsrun, ?_⟩
        simp only [AttemptOK, LastOK, Dead, Open, hH x.id hne]
        exact hok
  · rcases (hA x).mp hx with rfl | ⟨hxA, hxa⟩ <;> rcases (hA y).mp hy with rfl | ⟨hyA, hya⟩
    · rfl
    · have heq := h.slot a hmem y hyA (hstep.symm.trans hxy) (hnum.symm.trans hn)
      exact absurd (congrArg TaskAttempt.id heq).symm hya
    · have heq := h.slot x hxA a hmem (hxy.trans hstep) (hn.trans hnum)
      exact absurd (congrArg TaskAttempt.id heq) hxa
    · exact h.slot x hxA y hyA hxy hn
  · have hsame : (∃ y ∈ A.put a', y.stepID = x.id ∧ y.attemptNumber = n) ↔
        ∃ y ∈ A, y.stepID = x.id ∧ y.attemptNumber = n := by
      constructor
      · rintro ⟨y, hy, hyx, hyn⟩
        rcases (hA y).mp hy with rfl | ⟨hy, -⟩
        · exact ⟨a, hmem, hstep.symm.trans hyx, hnum.symm.trans hyn⟩
        · exact ⟨y, hy, hyx, hyn⟩
      · rintro ⟨y, hy, hyx, hyn⟩
        by_cases hya : y.id = a.id
        · obtain rfl : y = a := Table.eq_of_key_eq hy hmem hya
          exact ⟨a', Table.mem_put_self A a', hstep.trans hyx, hnum.trans hyn⟩
        · exact ⟨y, (hA y).mpr (Or.inr ⟨hy, hya⟩), hyx, hyn⟩
    rw [hsame]
    rcases (hT x).mp hx with rfl | ⟨hx, -⟩
    · rw [Step.id_of_info hinfo, hcount]
      exact h.numbers t (Table.mem_of_get? ht) n
    · exact h.numbers x hx n
  · by_cases hida : id = a.id
    · subst hida
      exact ⟨a', Table.mem_put_self A a', hid, hnote hsome⟩
    · rw [hH id hida] at hsome
      obtain ⟨x, hx, hxid, hst⟩ := h.handled id hsome
      exact ⟨x, (hA x).mpr (Or.inr ⟨hx, fun heq => hida (hxid.symm.trans heq)⟩), hxid, hst⟩

/-- A dispatch: a further attempt, and a step that counts it. -/
theorem dispatch (h : Ledger T A H) {t t' : Step} {a : TaskAttempt} (ht : T.get? t.id = some t)
    (hst : t.status = .pending ∨ t.status = .retryBackoff) (hnew : A.get? a.id = none)
    (hstep : a.stepID = t.id) (hrun : a.workflowRunID = t.workflowRunID)
    (hnum : a.attemptNumber = t.attemptCount + 1) (hqueued : a.status = .queued)
    (hinfo : t'.info = t.info) (hcount : t'.attemptCount = t.attemptCount + 1)
    (hst' : t'.status = .queued) (hrow : t'.RowOK) : Ledger (T.put t') (A.put a) H := by
  have hmem := Table.mem_of_get? ht
  have hA : ∀ x, x ∈ A.put a ↔ x = a ∨ x ∈ A := fun x => by
    rw [Table.mem_put]
    exact ⟨Or.imp_right And.left, Or.imp_right (fun hx => ⟨hx, Table.get?_eq_none.mp hnew x hx⟩)⟩
  have hT : ∀ x, x ∈ T.put t' ↔ x = t' ∨ (x ∈ T ∧ x.id ≠ t.id) := fun x => by
    rw [Table.mem_put, Step.id_of_info hinfo]
  refine ⟨fun x hx => ?_, fun x hx => ?_, fun x hx y hy hxy hn => ?_, fun x hx n => ?_,
    fun id hsome => ?_⟩
  · rcases (hT x).mp hx with rfl | ⟨hx, -⟩
    · exact hrow
    · exact h.row x hx
  · rcases (hA x).mp hx with rfl | hx
    · refine ⟨t', Table.mem_put_self T t', (Step.id_of_info hinfo).trans hstep.symm,
        hrun.trans (Step.run_of_info hinfo).symm, ?_, fun _ => ?_⟩
      · rw [hnum, hcount]
        exact fun hlt => absurd hlt (lt_irrefl _)
      · simp only [LastOK, hst']
        exact Or.inl hqueued
    · obtain ⟨s, hs, hsid, hsrun, hok⟩ := h.parent x hx
      by_cases hstid : s.id = t.id
      · -- The attempts made so far are dead: a pending step has none, and the
        -- last one of a step that backs off has failed.
        obtain rfl : s = t := Table.eq_of_key_eq hs hmem hstid
        have hxs : T.get? x.stepID = some s := hsid ▸ ht
        obtain ⟨hpos, hle⟩ := h.number_bounds hx hxs
        have hdead : Dead H x := by
          rcases hst with hst | hst
          · have hzero := (h.row s hmem).count
            simp only [Step.CountOK, hst] at hzero
            omega
          · rcases Nat.lt_or_eq_of_le hle with hlt | heq
            · exact hok.1 hlt
            · simpa only [LastOK, hst] using hok.2 heq
        refine ⟨t', Table.mem_put_self T t', (Step.id_of_info hinfo).trans hsid,
          hsrun.trans (Step.run_of_info hinfo).symm, fun _ => hdead, ?_⟩
        rw [hcount]
        omega
      · exact ⟨s, (hT s).mpr (Or.inr ⟨hs, hstid⟩), hsid, hsrun, hok⟩
  · have hfresh : ∀ z ∈ A, z.stepID = t.id → z.attemptNumber ≠ t.attemptCount + 1 := by
      intro z hz hzid hzn
      have hb := (h.numbers t hmem z.attemptNumber).mp ⟨z, hz, hzid, rfl⟩
      omega
    rcases (hA x).mp hx with rfl | hxA <;> rcases (hA y).mp hy with rfl | hyA
    · rfl
    · exact absurd (hn.symm.trans hnum) (hfresh y hyA (hxy.symm.trans hstep))
    · exact absurd (hn.trans hnum) (hfresh x hxA (hxy.trans hstep))
    · exact h.slot x hxA y hyA hxy hn
  · rcases (hT x).mp hx with rfl | ⟨hx, hxt⟩
    · rw [Step.id_of_info hinfo, hcount]
      have hold := h.numbers t hmem n
      constructor
      · rintro ⟨y, hy, hyt, hyn⟩
        rcases (hA y).mp hy with rfl | hy
        · omega
        · have := hold.mp ⟨y, hy, hyt, hyn⟩
          omega
      · rintro ⟨hpos, hle⟩
        by_cases hlast : n = t.attemptCount + 1
        · exact ⟨a, Table.mem_put_self A a, hstep, hnum.trans hlast.symm⟩
        · obtain ⟨y, hy, hyt, hyn⟩ := hold.mpr ⟨hpos, by omega⟩
          exact ⟨y, (hA y).mpr (Or.inr hy), hyt, hyn⟩
    · rw [← h.numbers x hx n]
      constructor
      · rintro ⟨y, hy, hyx, hyn⟩
        rcases (hA y).mp hy with rfl | hy
        · exact absurd (hyx.symm.trans hstep) hxt
        · exact ⟨y, hy, hyx, hyn⟩
      · rintro ⟨y, hy, hyx, hyn⟩
        exact ⟨y, (hA y).mpr (Or.inr hy), hyx, hyn⟩
  · obtain ⟨x, hx, hxid, hxst⟩ := h.handled id hsome
    exact ⟨x, (hA x).mpr (Or.inr hx), hxid, hxst⟩

/-- New steps without attempts. -/
theorem addSteps {T' : Table Step.id} (h : Ledger T A H) {steps : List Step}
    (hT : ∀ t, t ∈ T' ↔ t ∈ steps ∨ t ∈ T) (hnew : ∀ t ∈ steps, T.get? t.id = none)
    (hrow : ∀ t ∈ steps, t.RowOK) (hzero : ∀ t ∈ steps, t.attemptCount = 0) : Ledger T' A H where
  row t ht := ((hT t).mp ht).elim (hrow t) (h.row t)
  parent a ha := by
    obtain ⟨t, ht, hrest⟩ := h.parent a ha
    exact ⟨t, (hT t).mpr (Or.inr ht), hrest⟩
  slot := h.slot
  numbers t ht n := by
    rcases (hT t).mp ht with ht | ht
    · constructor
      · rintro ⟨a, ha, hat, -⟩
        obtain ⟨s, hs, hsid, -⟩ := h.parent a ha
        exact absurd (hsid.trans hat) (Table.get?_eq_none.mp (hnew t ht) s hs)
      · rw [hzero t ht]
        omega
    · exact h.numbers t ht n
  handled := h.handled

/-- The attempts of a step are numbered from one to its count, each number once. -/
theorem numbers_perm (h : Ledger T A H) {t : Step} (ht : t ∈ T) :
    ((A.rows.filter (fun a => a.stepID = t.id)).map (·.attemptNumber)).Perm
      (List.range' 1 t.attemptCount) := by
  have hnodup : ((A.rows.filter (fun a => a.stepID = t.id)).map (·.attemptNumber)).Nodup := by
    refine (A.nodup_rows.filter _).map_on (fun a ha a' ha' hnum => ?_)
    rw [List.mem_filter, decide_eq_true_eq] at ha ha'
    exact h.slot a ha.1 a' ha'.1 (ha.2.trans ha'.2.symm) hnum
  refine (List.perm_ext_iff_of_nodup hnodup List.nodup_range').mpr (fun n => ?_)
  have hnumbers := h.numbers t ht n
  rw [List.mem_range'_1, List.mem_map]
  constructor
  · rintro ⟨a, ha, rfl⟩
    rw [List.mem_filter, decide_eq_true_eq] at ha
    have hbound := hnumbers.mp ⟨a, ha.1, ha.2, rfl⟩
    omega
  · intro hn
    obtain ⟨a, ha, hid, hnum⟩ := hnumbers.mpr (by omega)
    exact ⟨a, List.mem_filter.mpr ⟨ha, by simpa using hid⟩, hnum⟩

/-- The count of a step is the number of its attempts. -/
theorem length_attempts (h : Ledger T A H) {t : Step} (ht : t ∈ T) :
    (A.rows.filter (fun a => a.stepID = t.id)).length = t.attemptCount := by
  have hlen := (h.numbers_perm ht).length_eq
  rwa [List.length_map, List.length_range'] at hlen

/-- A step has at most one attempt that can still produce an outcome. -/
theorem open_unique (h : Ledger T A H) {a a' : TaskAttempt} (ha : a ∈ A) (ha' : a' ∈ A)
    (hstep : a.stepID = a'.stepID) (hopen : Open H a) (hopen' : Open H a') : a = a' := by
  obtain ⟨t, ht, hid, -⟩ := h.parent a ha
  have hget : T.get? a.stepID = some t := hid ▸ Table.mem_iff_get?.mp ht
  have hnum := (h.latest_of_open ha hopen hget).1
  have hnum' := (h.latest_of_open ha' hopen' (hstep ▸ hget)).1
  exact h.slot a ha a' ha' hstep (hnum.trans hnum'.symm)

end Ledger

end Orchestrator
