import Orchestrator.System.Dependencies

/-!
# Crashes

The reaper marks attempts as expired in one statement and deals with each of them
in a transaction of its own. As long as none of these is lost, an attempt that has
expired and was not dealt with is owed its outcome, so a step that has been
dispatched never lacks an attempt that can move it on. A crash between the two
leaves it without one.
-/

namespace Orchestrator

open Lib Program Actions

/-- The outcome of an attempt that was reaped is lost while its step is in flight. -/
def Strands (S : System) : Move → Prop
  | .lose i => ∃ a t, S.owed[i]? = some a ∧ S.db.steps.get? a.stepID = some t ∧
      (t.status = .queued ∨ t.status = .running)
  | _ => False

/-- The step of the attempt has been cancelled. -/
def Moot (v : Db) (a : TaskAttempt) : Prop :=
  ∃ t, v.steps.get? a.stepID = some t ∧ t.status = .cancelled

theorem Moot.evolve {v v' : Db} {a : TaskAttempt} (h : Moot v a) (hev : v.Evolves v') :
    Moot v' a := by
  obtain ⟨t, ht, hst⟩ := h
  obtain ⟨t', ht', htev⟩ := hev.step ht
  obtain rfl := htev.done (by rw [hst]; rfl)
  exact ⟨t', ht', hst⟩

/-- Every attempt that has expired and was not dealt with is owed its outcome,
unless its step has been cancelled. -/
def System.Owes (S : System) : Prop :=
  ∀ a ∈ S.db.attempts, a.status = .expired → S.db.handled.get? a.id = none →
    a ∈ S.owed ∨ Moot S.db a

section Expired

variable {v v' : Db}

/-- Where attempts stay with their workers, those that have expired had. -/
theorem Kept.expired (h : Kept v v') {w : Db} (hev : w.Evolves v')
    (hold : ∀ a ∈ v.attempts, a.status = .expired → a ∈ w.attempts) {a : TaskAttempt}
    (ha : a ∈ v'.attempts) (hst : a.status = .expired) : a ∈ w.attempts := by
  rcases h.back a ha with ⟨x, hx, hid, hstatus, -⟩ | ⟨hqueued, -⟩
  · have hxst : x.status = .expired := hstatus.symm.trans hst
    have hxw := hold x hx hxst
    obtain ⟨y, hy, hxy⟩ := hev.attempts x hxw
    obtain rfl := hxy.done (by simp [TaskAttempt.isLive, hxst])
    obtain rfl := Table.eq_of_key_eq hy ha hid.symm
    exact hxw
  · rw [hst] at hqueued
    cases hqueued

/-- A claim makes no attempt expire. -/
theorem ByClaim.expired {u : List Write} (hb : Base v) (h : engine.Steps ByClaim v u)
    {a : TaskAttempt} (ha : a ∈ (backend.applyAll v u).attempts) (hst : a.status = .expired) :
    a ∈ v.attempts := by
  refine Steps.induct h hb (P := fun w => ∀ a ∈ w.attempts, a.status = .expired → a ∈ v.attempts)
    (fun a ha _ => ha) ?_ a ha hst
  rintro w ⟨run, kind⟩ ws - hl hact ih x hx hxst
  have hact : Act ⟨run, kind⟩ w ws := hact
  cases hact with
  | claim =>
    rcases Table.mem_put.mp hx with rfl | ⟨hx, -⟩
    · cases hxst
    · exact ih x hx hxst
  | running => exact ih x hx hxst
  | _ => rcases hl with hl | hl <;> cases hl

end Expired

/-- A move that strands no step leaves no outcome that nobody owes. -/
theorem System.Owes.turn {S S' : System} {m : Move} (h : S.Owes) (hok : S.Ok) (hturn : Turn S m S')
    (hm : ¬ Strands S m) : S'.Owes := by
  have hb := hok.orderly.base
  have hev := (hok.shift hturn).evolves hb
  cases hturn with
  | quiet _ hkept howed =>
    intro a ha hst hnot
    rw [howed]
    rw [hkept.handled] at hnot
    exact (h a (hkept.expired hev (fun _ hx _ => hx) ha hst) hst hnot).imp id (·.evolve hev)
  | @report _ _ success _ _ _ a _ _ _ _ _ happ =>
    intro x hx hst hnot
    have hkept := happ.kept hb
    rw [hkept.handled] at hnot
    refine (h x (hkept.expired hev (fun y hy hyst => ?_) hx hst) hst hnot).imp id (·.evolve hev)
    rcases Table.mem_put.mp hy with rfl | ⟨hy, -⟩
    · cases success <;> cases hyst
    · exact hy
  | reap hnodup hdue =>
    intro x hx hst hnot
    rw [applyAll_attempts] at hx
    rw [Quietly.handled hb ((steps_expire hnodup hdue).mono (fun _ hl => hl.1))] at hnot
    rcases Table.mem_of_mem_foldl_put hx with hx | hx
    · exact Or.inl (List.mem_append_right _ hx)
    · exact (h x hx hst hnot).imp (List.mem_append_left _) (·.evolve hev)
  | @outcome i ω a db hi happ =>
    intro x hx hst hnot
    have hkept := happ.kept hb
    rw [hkept.handled] at hnot
    have hne : a.id ≠ x.id := by
      intro heq
      change (S.db.handled.put a.id).get? x.id = none at hnot
      rw [← heq, show a.id = (fun id : UUID => id) a.id from rfl, Table.get?_put_self] at hnot
      cases hnot
    have hput : (S.db.handled.put a.id).get? x.id = S.db.handled.get? x.id := by
      refine Table.get?_put_of_ne ?_
      exact hne
    refine (h x (hkept.expired hev (fun _ hy _ => hy) hx hst) hst (hput.symm.trans hnot)).imp
      (fun hmem => ?_) (·.evolve hev)
    obtain ⟨hlt, rfl⟩ := List.getElem?_eq_some_iff.mp hi
    rcases List.mem_cons.mp ((List.getElem_cons_eraseIdx_perm hlt).mem_iff.mpr hmem) with heq | hin
    · exact absurd (congrArg (·.id) heq).symm hne
    · exact hin
  | @lose i hlt =>
    intro x hx hst hnot
    rcases h x hx hst hnot with hmem | hmoot
    · rcases List.mem_cons.mp ((List.getElem_cons_eraseIdx_perm hlt).mem_iff.mpr hmem) with
        heq | hin
      · -- The attempt lost belongs to a step that is not in flight any more.
        obtain ⟨t, ht, hid, -⟩ := hb.ledger.parent x hx
        have hget : S.db.steps.get? x.stepID = some t := hid ▸ Table.mem_iff_get?.mp ht
        obtain ⟨-, hstatus⟩ := hb.ledger.latest_of_open hx (Or.inr (Or.inr ⟨hst, hnot⟩)) hget
        rw [← or_assoc] at hstatus
        refine Or.inr ⟨t, hget, hstatus.resolve_left (fun hfly => hm ⟨x, t, ?_, hget, hfly⟩)⟩
        rw [heq]
        exact List.getElem?_eq_getElem hlt
      · exact Or.inl hin
    · exact Or.inr hmoot
  | arrive => exact h
  | claimEnds => exact h
  | claimNext hc hprog hexec =>
    intro x hx hst hnot
    have hsteps := hok.byClaim hc hprog hexec
    rw [Quietly.handled hb (hsteps.mono (fun _ hl => hl.attends.1))] at hnot
    exact (h x (ByClaim.expired hb hsteps hx hst) hst hnot).imp id (·.evolve hev)
  | claimReturn => exact h

/-- In a run of the system in which no outcome of a reaped attempt is lost while its
step is in flight, a step that has been dispatched has an attempt that can move it
on whenever no outcome is owed. -/
theorem dispatched_never_stranded {S : System}
    (h : System.Reachable (fun S m => ¬ Strands S m) S) (hidle : S.owed = []) {t : Step}
    (ht : t ∈ S.db.steps) (hst : t.status = .queued ∨ t.status = .running) :
    ∃ a ∈ S.db.attempts, a.stepID = t.id ∧ (a.status = .queued ∨ a.status = .leased) := by
  have hb := h.ok.orderly.base
  have howes : S.Owes := h.induct (I := System.Owes) (fun _ ha => by cases ha)
    (fun _ _ _ _ hok hm hturn howes => howes.turn hok hturn hm)
  have hcount : 1 ≤ t.attemptCount := by
    have hcount := (hb.ledger.row t ht).count
    rcases hst with hst | hst <;> simpa only [Step.CountOK, hst] using hcount
  obtain ⟨a, ha, hid, hnum⟩ := (hb.ledger.numbers t ht t.attemptCount).mpr ⟨hcount, le_rfl⟩
  have hget : S.db.steps.get? a.stepID = some t := hid ▸ Table.mem_iff_get?.mp ht
  obtain ⟨-, -, hlast⟩ := hb.ledger.parent_of_get? ha hget
  have hopen : Open S.db.handled a := by
    have hlast := hlast hnum
    rcases hst with hst | hst <;> simpa only [LastOK, hst] using hlast
  rcases hopen with hqueued | hleased | ⟨hexpired, hnot⟩
  · exact ⟨a, ha, hid, Or.inl hqueued⟩
  · exact ⟨a, ha, hid, Or.inr hleased⟩
  · rcases howes a ha hexpired hnot with hmem | ⟨t', ht', hcancelled⟩
    · rw [hidle] at hmem
      exact absurd hmem List.not_mem_nil
    · obtain rfl := Option.some.inj (hget.symm.trans ht')
      rcases hst with hst | hst <;> rw [hst] at hcancelled <;> cases hcancelled

/-- The second step of a chain has been dispatched. -/
theorem dispatched_never_stranded_chain :
    ∃ t ∈ chainSystem.db.steps, t.status = .queued ∧
      ∃ a ∈ chainSystem.db.attempts, a.stepID = t.id ∧
        (a.status = .queued ∨ a.status = .leased) := by
  have hmoves : ∀ S, ∀ m ∈ chainMoves ++ [.report 209 "w" true none none (.ticks 400)],
      ¬ Strands S m := by
    intro S m hm hstrands
    cases m with
    | lose i => simp [chainMoves, Move.claims] at hm
    | _ => exact hstrands
  have hreach : System.Reachable (fun S m => ¬ Strands S m) chainSystem :=
    .run .init hmoves (Option.some_get _).symm
  have hqueued : ∃ t ∈ chainSystem.db.steps.rows, t.status = .queued := by decide +kernel
  have hidle : chainSystem.owed.length = 0 := by decide +kernel
  obtain ⟨t, ht, hst⟩ := hqueued
  exact ⟨t, ht, hst,
    dispatched_never_stranded hreach (List.eq_nil_of_length_eq_zero hidle) ht (Or.inl hst)⟩

/-- The lease of an attempt runs out, the reaper marks the attempt, and the server
crashes before it has dealt with it. -/
def strandedSystem : System :=
  (System.run (chainMoves ++ [.reap 10 (.tick 40000), .lose 0]) .init).get (by decide +kernel)

/-- The step is running, and no attempt of it can be claimed, reported or reaped. -/
theorem dispatched_stranded :
    System.Reachable System.Any strandedSystem ∧ strandedSystem.owed.length = 0 ∧
    strandedSystem.claims.length = 0 ∧
    ∃ t ∈ strandedSystem.db.steps.rows, t.status = .running ∧
      (∃ r ∈ strandedSystem.db.runs.rows, r.id = t.workflowRunID ∧
        runTerminal r.status = false) ∧
      ∀ a ∈ strandedSystem.db.attempts.rows, a.stepID = t.id →
        ¬ (a.status = .queued ∨ a.status = .leased) := by
  refine ⟨.run .init (fun _ _ _ => trivial) (Option.some_get _).symm, ?_, ?_, ?_⟩
  all_goals decide +kernel

end Orchestrator
