import Orchestrator.System.Accounting

/-!
# Claims and outcomes

Every lease given, every handler started, every report accepted and every attempt
reaped leaves a notice. An attempt is leased once, to the worker whose report may
be accepted, and it ends once, by a report or by the reaper. A call of `ClaimTask`
that begins after the run of its attempt has ended is not answered with the task:
the attempt has gone, or the run is cancelled and the call finds out.
-/

namespace Orchestrator

open Lib Program Actions

/-- The part of `ClaimTask` after the attempt has been leased. -/
def claimRest (attempt : TaskAttempt) : Prog ClaimStatus := do
  let step ← getStep attempt.stepID
  let run ← getWorkflowRun attempt.workflowRunID
  if run.status = .cancelled then pure .cancelled
  else do
    let _ ← (Query.updateStepStatus step.id [.queued] .running none none false).issue
    pure .claimed

/-- The first statement of `ClaimTask` leases an attempt that is queued, or the call
is over. -/
theorem claimTask_first {leaseDuration : ℕ} {attemptID key : UUID} {workerID : String} {β : Type}
    {op : Query β} {next : β → Prog ClaimStatus}
    (hprog : claimTask leaseDuration attemptID key workerID = .call op next)
    {d : Draw} {v : Db} {answer : β} {ws : List Write}
    (hexec : backend.exec op d v = .ok (answer, ws)) :
    (op.grants answer = false ∧ ws = [] ∧ ∃ st, st ≠ .claimed ∧ next answer = .ret st) ∨
      (op.grants answer = true ∧ ∃ a, v.attempts.get? attemptID = some a ∧ a.status = .queued ∧
        ws = [.attempt (a.lease workerID leaseDuration d.now)] ∧
        next answer = claimRest (a.lease workerID leaseDuration d.now)) := by
  unfold claimTask at hprog
  split_ifs at hprog
  cases hprog
  cases ha : v.attempts.get? attemptID with
  | none =>
    simp only [backend_exec, Query.exec, ha] at hexec
    cases hexec
    exact Or.inl ⟨rfl, rfl, .notFound, (fun h => by cases h), rfl⟩
  | some a =>
    simp only [backend_exec, Query.exec, ha] at hexec
    split_ifs at hexec with hst
    · cases hexec
      exact Or.inr ⟨rfl, a, rfl, hst.1, rfl, rfl⟩
    · cases hexec
      exact Or.inl ⟨rfl, rfl, .alreadyClaimed, (fun h => by cases h), rfl⟩

/-- The statement gives no lease, and leaves attempts alone. -/
def Query.Follows {β : Type} (op : Query β) : Prop :=
  (∀ b, op.grants b = false) ∧ op.Makes (·.kind = .running)

/-- After the first statement, `ClaimTask` gives no lease. -/
theorem claimRest_follows (attempt : TaskAttempt) :
    (claimRest attempt).Calls Query.Follows := by
  refine ⟨⟨fun _ => rfl, fun _ _ _ => .nil⟩, fun step => ?_⟩
  cases step with
  | none => trivial
  | some step =>
    refine ⟨⟨fun _ => rfl, fun _ _ _ => .nil⟩, fun run => ?_⟩
    cases run with
    | none => trivial
    | some run =>
      change Calls Query.Follows
        (if run.status = .cancelled then pure ClaimStatus.cancelled else _ : Prog ClaimStatus)
      split_ifs
      · trivial
      · exact ⟨⟨fun _ => rfl, makes_start step.id⟩, fun _ => trivial⟩

/-- The call does not answer with the task, whatever happens in between. -/
def Spurns : Prog ClaimStatus → Db → Prop
  | .ret st, _ => st ≠ .claimed
  | .fail _, _ => True
  | .call op next, v => ∀ v' d answer ws, v.Evolves v' → backend.exec op d v' = .ok (answer, ws) →
      Spurns (next answer) v'

theorem Spurns.evolve {p : Prog ClaimStatus} {v v' : Db} (h : Spurns p v) (hev : v.Evolves v') :
    Spurns p v' := by
  cases p with
  | ret st => exact h
  | fail e => trivial
  | call op next => exact fun w d answer ws hw hexec => h w d answer ws (hev.trans hw) hexec

/-- `ClaimTask` finds out that the run has been cancelled. -/
theorem claimRest_spurns {attempt : TaskAttempt} {v : Db} {r : WorkflowRun}
    (hr : v.runs.get? attempt.workflowRunID = some r) (hst : r.status = .cancelled) :
    Spurns (claimRest attempt) v := by
  intro v₁ d step ws hev hexec
  cases hexec
  cases v₁.steps.get? attempt.stepID with
  | none => trivial
  | some step =>
    intro v₂ d run ws hev' hexec
    cases hexec
    obtain ⟨r', hr', hrr⟩ := (hev.trans hev').run hr
    have hst' : r'.status = .cancelled := (hrr.done (by rw [hst]; rfl)).1.trans hst
    rw [hr']
    change Spurns (if r'.status = .cancelled then pure ClaimStatus.cancelled else _) v₂
    rw [if_pos hst']
    exact fun h => by cases h

/-- The notice of a lease of the attempt. -/
def Notice.isLease (attemptID : UUID) : Notice → Bool
  | .claimed id _ => id == attemptID
  | _ => false

/-- The notice of a start of a handler for the attempt. -/
def Notice.isStart (attemptID : UUID) : Notice → Bool
  | .started id _ => id == attemptID
  | _ => false

/-- The notice of an outcome of the attempt. -/
def Notice.isEnd (attemptID : UUID) : Notice → Bool
  | .accepted id _ | .reaped id => id == attemptID
  | _ => false

/-- The call has leased the attempt, and has not been answered. -/
def ClaimCall.holds (attemptID : UUID) (c : ClaimCall) : Bool :=
  c.attemptID == attemptID && match c.prog with
    | .ret st => st == .claimed
    | .fail _ => false
    | .call _ _ => c.seen.isSome

/-- Where a `ClaimTask` call stands. -/
inductive ClaimCall.Stage (v : Db) (c : ClaimCall) : Prop
  | fresh {key : UUID} : c.seen = none →
      c.prog = claimTask c.leaseDuration c.attemptID key c.workerID → Stage v c
  /-- The first statement has met a run that goes on, or the call is in vain. -/
  | begun {v₀ : Db} : c.seen = some v₀ → c.prog.Calls Query.Follows →
      ((∃ a r, v₀.attempts.get? c.attemptID = some a ∧ v₀.runs.get? a.workflowRunID = some r ∧
        runTerminal r.status = false) ∨ Spurns c.prog v) → Stage v c

theorem ClaimCall.Stage.evolve {c : ClaimCall} {v v' : Db} (h : c.Stage v) (hev : v.Evolves v') :
    c.Stage v' := by
  cases h with
  | fresh hseen hprog => exact .fresh hseen hprog
  | begun hseen hcalls hrun => exact .begun hseen hcalls (hrun.imp id (·.evolve hev))

/-- The next statement of a call brings it to its next stage. -/
theorem ClaimCall.Stage.next {c : ClaimCall} {v : Db} (h : c.Stage v) (horderly : Orderly v)
    {β : Type} {op : Query β} {next : β → Prog ClaimStatus} (hprog : c.prog = .call op next)
    {d : Draw} {answer : β} {ws : List Write} (hexec : backend.exec op d v = .ok (answer, ws))
    (hev : v.Evolves (backend.applyAll v ws)) :
    ClaimCall.Stage (backend.applyAll v ws)
      { c with seen := c.seen <|> some v, prog := next answer } := by
  cases h with
  | fresh hseen hclaim =>
    rw [hclaim] at hprog
    have hsees : (c.seen <|> some v) = some v := by rw [hseen]; rfl
    refine .begun hsees ?_ ?_
    · rcases claimTask_first hprog hexec with ⟨-, -, st, -, hnext⟩ | ⟨-, a, -, -, -, hnext⟩
      · rw [hnext]
        trivial
      · rw [hnext]
        exact claimRest_follows _
    · rcases claimTask_first hprog hexec with ⟨-, -, st, hst, hnext⟩ | ⟨-, a, ha, hst, -, hnext⟩
      · rw [hnext]
        exact Or.inr hst
      · rw [hnext]
        obtain ⟨t, -, -, -, hrun, r, hr, hrid, hstate⟩ :=
          horderly.of_open (Table.mem_of_get? ha) (Or.inl hst)
        have hget : v.runs.get? a.workflowRunID = some r := by
          rw [hrun, ← hrid]
          exact Table.mem_iff_get?.mp hr
        rcases hstate with ⟨-, hlive⟩ | ⟨-, hcancelled⟩
        · exact Or.inl ⟨a, r, ha, hget, hlive⟩
        · exact Or.inr ((claimRest_spurns hget hcancelled).evolve hev)
  | begun hseen hcalls hrun =>
    rw [hprog] at hcalls hrun
    refine .begun (by rw [hseen]; rfl) (hcalls.2 answer) (hrun.imp id (fun hspurns => ?_))
    exact (hspurns v d answer ws (.refl v) hexec).evolve hev

/-- A call that has not begun holds nothing. -/
theorem ClaimCall.holds_fresh {c : ClaimCall} {key : UUID} (hseen : c.seen = none)
    (hprog : c.prog = claimTask c.leaseDuration c.attemptID key c.workerID) (id : UUID) :
    c.holds id = false := by
  rw [ClaimCall.holds, hprog, hseen, claimTask]
  split_ifs
  · exact Bool.and_false _
  · exact Bool.and_false _

/-- What the next statement of a call does to attempts: it leaves them with their
workers, or it leases the attempt of the call. -/
theorem ClaimCall.Stage.grants {c : ClaimCall} {v : Db} (h : c.Stage v) (hb : Base v)
    {β : Type} {op : Query β} {next : β → Prog ClaimStatus} (hprog : c.prog = .call op next)
    {d : Draw} {answer : β} {ws : List Write} (hexec : backend.exec op d v = .ok (answer, ws)) :
    (op.grants answer = false ∧ Kept v (backend.applyAll v ws) ∧ ∀ id,
      ClaimCall.holds id { c with seen := c.seen <|> some v, prog := next answer } = true →
        c.holds id = true) ∨
      (op.grants answer = true ∧ (∀ id, c.holds id = false) ∧
        ∃ a, v.attempts.get? c.attemptID = some a ∧ a.status = .queued ∧
          ws = [.attempt (a.lease c.workerID c.leaseDuration d.now)]) := by
  cases h with
  | fresh hseen hclaim =>
    have hnone := ClaimCall.holds_fresh hseen hclaim
    rw [hclaim] at hprog
    rcases claimTask_first hprog hexec with ⟨hgrant, rfl, st, hst, hnext⟩ |
      ⟨hgrant, a, ha, hst, rfl, -⟩
    · refine Or.inl ⟨hgrant, .refl v, fun id hholds => ?_⟩
      rw [hnext] at hholds
      simp [ClaimCall.holds, hst] at hholds
    · exact Or.inr ⟨hgrant, hnone, a, ha, hst, rfl⟩
  | begun hseen hcalls _ =>
    rw [hprog] at hcalls
    have hsteps := hcalls.1.2 d v hb
    rw [hexec] at hsteps
    refine Or.inl ⟨hcalls.1.1 answer, Through.kept ⟨ws, hsteps, rfl⟩ hb
      (fun l hl => by rw [hl]; rfl), fun id hholds => ?_⟩
    rw [ClaimCall.holds, Bool.and_eq_true] at hholds
    rw [ClaimCall.holds, hprog, hseen, hholds.1]
    rfl

/-- An attempt that has been ended stays as it is while its outcome is applied. -/
theorem Applies.row {v v' : Db} {a x : TaskAttempt} {success : Bool} {ws : List Write} {id : UUID}
    (h : Applies Evaluated v a success ws v') (hb : Base v)
    (hx : (backend.applyAll v ws).attempts.get? id = some x) (hdead : x.isLive = false) :
    v'.attempts.get? id = some x := by
  cases h with
  | change _ hact hmoves heval =>
    rw [← hmoves.attempts] at hx
    obtain ⟨y, hy, hxy⟩ := (heval.path.evolves (hact.base hb)).attempt hx
    obtain rfl := hxy.done hdead
    exact hy
  | late _ _ htms heq =>
    subst heq
    rw [Backend.applyAll_append]
    rcases htms with rfl | ⟨-, -, tm, rfl, -⟩ <;> exact hx

/-- What the notices say about attempts and calls. -/
structure Logged (S : System) : Prop where
  stage : ∀ c ∈ S.claims, c.Stage S.db
  leases : ∀ id, S.notices.countP (Notice.isLease id) ≤ 1
  holder : ∀ id w, Notice.claimed id w ∈ S.notices →
    ∃ a, S.db.attempts.get? id = some a ∧ a.status ≠ .queued ∧ a.leaseOwner = some w
  owner : ∀ a ∈ S.db.attempts, a.status ≠ .queued →
    ∃ w, a.leaseOwner = some w ∧ Notice.claimed a.id w ∈ S.notices
  starts : ∀ id, S.notices.countP (Notice.isStart id) + S.claims.countP (ClaimCall.holds id) ≤
    S.notices.countP (Notice.isLease id)
  ends : ∀ id, S.notices.countP (Notice.isEnd id) ≤ 1
  ended : ∀ id, ∀ n ∈ S.notices, n.isEnd id = true →
    ∃ a, S.db.attempts.get? id = some a ∧ a.isLive = false
  accepted : ∀ id w, Notice.accepted id w ∈ S.notices → Notice.claimed id w ∈ S.notices
  owed : ∀ a ∈ S.owed, Notice.reaped a.id ∈ S.notices

namespace Logged

variable {S S' : System} {m : Move}

/-- An attempt that is live has no outcome. -/
theorem no_end (h : Logged S) {id : UUID} {a : TaskAttempt} (ha : S.db.attempts.get? id = some a)
    (hlive : a.isLive = true) : S.notices.countP (Notice.isEnd id) = 0 := by
  refine List.countP_eq_zero.mpr (fun n hn hend => ?_)
  obtain ⟨a', ha', hdead⟩ := h.ended id n hn hend
  obtain rfl := Option.some.inj (ha.symm.trans ha')
  rw [hlive] at hdead
  cases hdead

/-- An attempt that is queued has not been leased. -/
theorem no_lease (h : Logged S) {id : UUID} {a : TaskAttempt} (ha : S.db.attempts.get? id = some a)
    (hst : a.status = .queued) : S.notices.countP (Notice.isLease id) = 0 := by
  refine List.countP_eq_zero.mpr (fun n hn hlease => ?_)
  cases n with
  | claimed id' w =>
    obtain rfl : id' = id := by simpa [Notice.isLease] using hlease
    obtain ⟨a', ha', hne, -⟩ := h.holder id' w hn
    obtain rfl := Option.some.inj (ha.symm.trans ha')
    exact hne hst
  | _ => cases hlease

/-- The holder of a lease stays. -/
theorem holder_evolve (h : Logged S) {db : Db} (hev : S.db.Evolves db) {id : UUID} {w : String}
    (hn : Notice.claimed id w ∈ S.notices) :
    ∃ a, db.attempts.get? id = some a ∧ a.status ≠ .queued ∧ a.leaseOwner = some w := by
  obtain ⟨a, ha, hst, hown⟩ := h.holder id w hn
  obtain ⟨b, hb, hab⟩ := hev.attempt ha
  obtain ⟨hst', hown'⟩ := hab.owner hst
  exact ⟨b, hb, hst', hown'.trans hown⟩

/-- What has ended stays so. -/
theorem ended_evolve (h : Logged S) {db : Db} (hev : S.db.Evolves db) {id : UUID} {n : Notice}
    (hn : n ∈ S.notices) (hend : n.isEnd id = true) :
    ∃ a, db.attempts.get? id = some a ∧ a.isLive = false := by
  obtain ⟨a, ha, hdead⟩ := h.ended id n hn hend
  obtain ⟨b, hb, hab⟩ := hev.attempt ha
  obtain rfl := hab.done hdead
  exact ⟨b, hb, hdead⟩

/-- Attempts that stay with their workers have the notices of their leases. -/
theorem owner_kept (h : Logged S) {v db : Db} (hkept : Kept v db)
    (hold : ∀ a ∈ v.attempts, a.status ≠ .queued → ∃ x ∈ S.db.attempts, x.status ≠ .queued ∧
      x.id = a.id ∧ x.leaseOwner = a.leaseOwner) {a : TaskAttempt} (ha : a ∈ db.attempts)
    (hst : a.status ≠ .queued) :
    ∃ w, a.leaseOwner = some w ∧ Notice.claimed a.id w ∈ S.notices := by
  rcases hkept.back a ha with ⟨x, hx, hid, hstatus, hown⟩ | ⟨hqueued, -⟩
  · obtain ⟨y, hy, hyst, hyid, hyown⟩ := hold x hx (by rw [← hstatus]; exact hst)
    obtain ⟨w, hw, hn⟩ := h.owner y hy hyst
    exact ⟨w, by rw [hown, ← hyown, hw], by rw [hid, ← hyid]; exact hn⟩
  · exact absurd hqueued hst

/-- A move that leaves no notice and serves no claim. -/
theorem keep (h : Logged S) (hev : S.db.Evolves S'.db)
    (hown : ∀ a ∈ S'.db.attempts, a.status ≠ .queued →
      ∃ w, a.leaseOwner = some w ∧ Notice.claimed a.id w ∈ S.notices)
    (howed : ∀ a ∈ S'.owed, a ∈ S.owed) (hclaims : S'.claims = S.claims)
    (hnotices : S'.notices = S.notices) : Logged S' where
  stage := hclaims ▸ fun c hc => (h.stage c hc).evolve hev
  leases := hnotices ▸ h.leases
  holder := hnotices ▸ fun _ _ hn => h.holder_evolve hev hn
  owner := hnotices ▸ hown
  starts := by
    rw [hnotices, hclaims]
    exact h.starts
  ends := hnotices ▸ h.ends
  ended := hnotices ▸ fun _ _ hn hend => h.ended_evolve hev hn hend
  accepted := hnotices ▸ h.accepted
  owed := hnotices ▸ fun a ha => h.owed a (howed a ha)

/-- A report of the worker that has the lease ends the attempt. -/
theorem report (h : Logged S) {a a' : TaskAttempt} {workerID : String} {db : Db}
    (ha : S.db.attempts.get? a.id = some a) (hlease : a.status = .leased ∧
      a.leaseOwner = some workerID) (hev : S.db.Evolves db)
    (ha' : db.attempts.get? a.id = some a') (hdead : a'.isLive = false)
    (hown : ∀ a ∈ db.attempts, a.status ≠ .queued →
      ∃ w, a.leaseOwner = some w ∧ Notice.claimed a.id w ∈ S.notices) :
    Logged { S with db, notices := .accepted a.id workerID :: S.notices } where
  stage c hc := (h.stage c hc).evolve hev
  leases := h.leases
  holder id w hn := by
    rcases List.mem_cons.mp hn with hn | hn
    · cases hn
    · exact h.holder_evolve hev hn
  owner x hx hst := by
    obtain ⟨w, hw, hn⟩ := hown x hx hst
    exact ⟨w, hw, List.mem_cons_of_mem _ hn⟩
  starts := h.starts
  ends id := by
    rw [List.countP_cons]
    split_ifs with hend
    · obtain rfl : a.id = id := by simpa [Notice.isEnd] using hend
      rw [h.no_end ha (by simp [TaskAttempt.isLive, hlease.1])]
    · exact h.ends id
  ended id n hn hend := by
    rcases List.mem_cons.mp hn with rfl | hn
    · obtain rfl : a.id = id := by simpa [Notice.isEnd] using hend
      exact ⟨a', ha', hdead⟩
    · exact h.ended_evolve hev hn hend
  accepted id w hn := by
    refine List.mem_cons_of_mem _ ?_
    rcases List.mem_cons.mp hn with heq | hn
    · obtain ⟨rfl, rfl⟩ := Notice.accepted.inj heq
      obtain ⟨w, hw, hn⟩ := h.owner a (Table.mem_of_get? ha) (by simp [hlease.1])
      obtain rfl := Option.some.inj (hlease.2.symm.trans hw)
      exact hn
    · exact h.accepted id w hn
  owed x hx := List.mem_cons_of_mem _ (h.owed x hx)

/-- Notices of a reap are of no other sort. -/
theorem countP_reaped {p : Notice → Bool} (hp : ∀ id, p (.reaped id) = false)
    (rows : List TaskAttempt) (notices : List Notice) :
    (rows.map (fun a => Notice.reaped a.id) ++ notices).countP p = notices.countP p := by
  rw [List.countP_append, List.countP_eq_zero.mpr, Nat.zero_add]
  intro n hn
  obtain ⟨a, -, rfl⟩ := List.mem_map.mp hn
  rw [hp]
  exact Bool.false_ne_true

/-- The reaper ends attempts that were leased. -/
theorem reap (h : Logged S) {due : List TaskAttempt} {now : Time} {db : Db}
    (hnodup : (due.map (·.id)).Nodup)
    (hdue : ∀ a ∈ due, S.db.attempts.get? a.id = some a ∧ a.status = .leased)
    (hev : S.db.Evolves db) (hattempts : db.attempts =
      (due.map (fun a => a.expire now)).foldl Table.put S.db.attempts) :
    Logged { S with
      db
      owed := S.owed ++ due.map (fun a => a.expire now)
      notices := (due.map (fun a => a.expire now)).map (fun a => .reaped a.id) ++ S.notices } where
  stage c hc := (h.stage c hc).evolve hev
  leases id := by
    rw [countP_reaped (fun _ => rfl)]
    exact h.leases id
  holder id w hn := by
    rcases List.mem_append.mp hn with hn | hn
    · obtain ⟨_, -, heq⟩ := List.mem_map.mp hn
      cases heq
    · exact h.holder_evolve hev hn
  owner x hx hst := by
    rw [hattempts] at hx
    rcases Table.mem_of_mem_foldl_put hx with hx | hx
    · obtain ⟨a, ha, rfl⟩ := List.mem_map.mp hx
      obtain ⟨hget, hleased⟩ := hdue a ha
      obtain ⟨w, hw, hn⟩ := h.owner a (Table.mem_of_get? hget) (by simp [hleased])
      exact ⟨w, hw, List.mem_append_right _ hn⟩
    · obtain ⟨w, hw, hn⟩ := h.owner x hx hst
      exact ⟨w, hw, List.mem_append_right _ hn⟩
  starts id := by
    rw [countP_reaped (fun _ => rfl), countP_reaped (fun _ => rfl)]
    exact h.starts id
  ends id := by
    have hcount : ((due.map (fun a => a.expire now)).map
        (fun a => Notice.reaped a.id)).countP (Notice.isEnd id) = (due.map (·.id)).count id := by
      rw [List.map_map, List.countP_map, List.count, List.countP_map]
      rfl
    rw [List.countP_append, hcount]
    by_cases hmem : id ∈ due.map (·.id)
    · obtain ⟨a, ha, rfl⟩ := List.mem_map.mp hmem
      obtain ⟨hget, hleased⟩ := hdue a ha
      rw [h.no_end hget (by simp [TaskAttempt.isLive, hleased])]
      exact List.nodup_iff_count_le_one.mp hnodup a.id
    · rw [List.count_eq_zero_of_not_mem hmem, Nat.zero_add]
      exact h.ends id
  ended id n hn hend := by
    have hnodup' : ((due.map (fun a => a.expire now)).map (·.id)).Nodup := by
      rw [List.map_map]
      exact hnodup
    rcases List.mem_append.mp hn with hn | hn
    · obtain ⟨x, hx, rfl⟩ := List.mem_map.mp hn
      obtain rfl : x.id = id := by simpa [Notice.isEnd] using hend
      refine ⟨x, by rw [hattempts]; exact Table.get?_foldl_put hnodup' hx, ?_⟩
      obtain ⟨a, -, rfl⟩ := List.mem_map.mp hx
      rfl
    · exact h.ended_evolve hev hn hend
  accepted id w hn := by
    rcases List.mem_append.mp hn with hn | hn
    · obtain ⟨_, -, heq⟩ := List.mem_map.mp hn
      cases heq
    · exact List.mem_append_right _ (h.accepted id w hn)
  owed x hx := by
    rcases List.mem_append.mp hx with hx | hx
    · exact List.mem_append_right _ (h.owed x hx)
    · exact List.mem_append_left _ (List.mem_map_of_mem hx)

/-- How often something occurs when an element is taken out, or replaced. -/
theorem countP_replace {α : Type*} {l : List α} {i : ℕ} {c : α} (hc : l[i]? = some c)
    (p : α → Bool) : l.countP p = (l.eraseIdx i).countP p + (if p c then 1 else 0) ∧
      ∀ c', (l.set i c').countP p = (l.eraseIdx i).countP p + (if p c' then 1 else 0) := by
  obtain ⟨hlt, rfl⟩ := List.getElem?_eq_some_iff.mp hc
  refine ⟨?_, fun c' => ?_⟩
  · rw [← (List.getElem_cons_eraseIdx_perm hlt).countP_eq, List.countP_cons]
  · rw [(List.set_perm_cons_eraseIdx hlt c').countP_eq, List.countP_cons]

theorem ite_le_ite {p q : Bool} (h : p = true → q = true) :
    (if p then 1 else 0) ≤ if q then 1 else 0 := by
  cases p
  · exact Nat.zero_le _
  · rw [h rfl]

/-- A statement of a call that leaves attempts with their workers. -/
theorem proceed (h : Logged S) {i : ℕ} {c c' : ClaimCall} {db : Db} (hc : S.claims[i]? = some c)
    (hev : S.db.Evolves db) (hkept : Kept S.db db) (hstage : c'.Stage db)
    (hholds : ∀ id, c'.holds id = true → c.holds id = true) :
    Logged { S with db, claims := S.claims.set i c' } where
  stage x hx := by
    rcases List.mem_or_eq_of_mem_set hx with hx | rfl
    · exact (h.stage x hx).evolve hev
    · exact hstage
  leases := h.leases
  holder _ _ hn := h.holder_evolve hev hn
  owner _ hx hst := h.owner_kept hkept (fun a ha hst => ⟨a, ha, hst, rfl, rfl⟩) hx hst
  starts id := by
    obtain ⟨hold, hnew⟩ := countP_replace hc (ClaimCall.holds id)
    have hstarts := h.starts id
    have hle := ite_le_ite (hholds id)
    rw [hold] at hstarts
    change _ + (S.claims.set i c').countP _ ≤ _
    rw [hnew]
    exact (Nat.add_le_add_left (Nat.add_le_add_left hle _) _).trans hstarts
  ends := h.ends
  ended _ _ hn hend := h.ended_evolve hev hn hend
  accepted := h.accepted
  owed := h.owed

/-- A call leases its attempt. -/
theorem lease (h : Logged S) {i : ℕ} {c c' : ClaimCall} {a : TaskAttempt} {now : Time}
    (hc : S.claims[i]? = some c) (hfree : ∀ id, c.holds id = false)
    (ha : S.db.attempts.get? c.attemptID = some a) (hst : a.status = .queued)
    (hid : c'.attemptID = c.attemptID)
    (hev : S.db.Evolves (S.db.apply (.attempt (a.lease c.workerID c.leaseDuration now))))
    (hstage : c'.Stage (S.db.apply (.attempt (a.lease c.workerID c.leaseDuration now)))) :
    Logged { S with
      db := S.db.apply (.attempt (a.lease c.workerID c.leaseDuration now))
      claims := S.claims.set i c'
      notices := .claimed c.attemptID c.workerID :: S.notices } where
  stage x hx := by
    rcases List.mem_or_eq_of_mem_set hx with hx | rfl
    · exact (h.stage x hx).evolve hev
    · exact hstage
  leases id := by
    rw [List.countP_cons]
    split_ifs with hlease
    · obtain rfl : c.attemptID = id := by simpa [Notice.isLease] using hlease
      rw [h.no_lease ha hst]
    · exact h.leases id
  holder id w hn := by
    rcases List.mem_cons.mp hn with heq | hn
    · obtain ⟨rfl, rfl⟩ := Notice.claimed.inj heq
      have hkey : a.id = c.attemptID := Table.key_of_get? ha
      rw [← hkey]
      exact ⟨a.lease c.workerID c.leaseDuration now, Table.get?_put_self _ _,
        (fun h => by cases h), rfl⟩
    · exact h.holder_evolve hev hn
  owner x hx hne := by
    rcases Table.mem_put.mp hx with rfl | ⟨hx, -⟩
    · refine ⟨c.workerID, rfl, List.mem_cons.mpr (Or.inl ?_)⟩
      rw [← Table.key_of_get? ha]
      rfl
    · obtain ⟨w, hw, hn⟩ := h.owner x hx hne
      exact ⟨w, hw, List.mem_cons_of_mem _ hn⟩
  starts id := by
    obtain ⟨hold, hnew⟩ := countP_replace hc (ClaimCall.holds id)
    have hstarts := h.starts id
    rw [hold, hfree id] at hstarts
    have hle : (if c'.holds id then 1 else 0) ≤
        if Notice.isLease id (.claimed c.attemptID c.workerID) then 1 else 0 := by
      refine ite_le_ite (fun hholds => ?_)
      rw [ClaimCall.holds, Bool.and_eq_true, hid] at hholds
      exact hholds.1
    rw [hnew, List.countP_cons, List.countP_cons]
    simp only [Notice.isStart, Bool.false_eq_true, if_false] at hstarts ⊢
    omega
  ends := h.ends
  ended id n hn hend := by
    rcases List.mem_cons.mp hn with rfl | hn
    · cases hend
    · exact h.ended_evolve hev hn hend
  accepted id w hn := by
    rcases List.mem_cons.mp hn with heq | hn
    · cases heq
    · exact List.mem_cons_of_mem _ (h.accepted id w hn)
  owed x hx := List.mem_cons_of_mem _ (h.owed x hx)

/-- A call arrives. -/
theorem arrive (h : Logged S) {leaseDuration : ℕ} {attemptID key : UUID} {workerID : String} :
    Logged (S.arrive leaseDuration attemptID key workerID) where
  stage x hx := by
    rcases List.mem_append.mp hx with hx | hx
    · exact h.stage x hx
    · obtain rfl := List.mem_singleton.mp hx
      exact .fresh rfl rfl
  leases := h.leases
  holder := h.holder
  owner := h.owner
  starts id := by
    have hnone : ClaimCall.holds id
        ⟨leaseDuration, attemptID, workerID, none,
          claimTask leaseDuration attemptID key workerID⟩ = false :=
      ClaimCall.holds_fresh rfl rfl id
    change _ + (S.claims ++ [_]).countP _ ≤ _
    rw [List.countP_append, List.countP_singleton, hnone]
    exact h.starts id
  ends := h.ends
  ended := h.ended
  accepted := h.accepted
  owed := h.owed

/-- A call ends without an answer, or with a refusal. -/
theorem callEnds (h : Logged S) {i : ℕ} {c : ClaimCall} (hc : S.claims[i]? = some c) :
    Logged { S with claims := S.claims.eraseIdx i } where
  stage x hx := h.stage x (List.mem_of_mem_eraseIdx hx)
  leases := h.leases
  holder := h.holder
  owner := h.owner
  starts id := by
    have hstarts := h.starts id
    rw [(countP_replace hc (ClaimCall.holds id)).1, ← Nat.add_assoc] at hstarts
    exact (Nat.le_add_right _ _).trans hstarts
  ends := h.ends
  ended := h.ended
  accepted := h.accepted
  owed := h.owed

/-- A worker is told that it has the task, and starts its handler. -/
theorem start (h : Logged S) {i : ℕ} {c : ClaimCall} (hc : S.claims[i]? = some c)
    (hprog : c.prog = .ret .claimed) :
    Logged { S with
      claims := S.claims.eraseIdx i
      notices := .started c.attemptID c.workerID :: S.notices } where
  stage x hx := h.stage x (List.mem_of_mem_eraseIdx hx)
  leases := h.leases
  holder id w hn := h.holder id w ((List.mem_cons.mp hn).resolve_left (fun h => by cases h))
  owner x hx hst := by
    obtain ⟨w, hw, hn⟩ := h.owner x hx hst
    exact ⟨w, hw, List.mem_cons_of_mem _ hn⟩
  starts id := by
    have hstarts := h.starts id
    have hholds : c.holds id = Notice.isStart id (.started c.attemptID c.workerID) := by
      rw [ClaimCall.holds, hprog]
      exact Bool.and_true _
    rw [(countP_replace hc (ClaimCall.holds id)).1, hholds] at hstarts
    rw [List.countP_cons, List.countP_cons]
    simp only [Notice.isLease, Bool.false_eq_true, if_false] at hstarts ⊢
    omega
  ends := h.ends
  ended id n hn hend := by
    rcases List.mem_cons.mp hn with rfl | hn
    · cases hend
    · exact h.ended id n hn hend
  accepted id w hn :=
    List.mem_cons_of_mem _
      (h.accepted id w ((List.mem_cons.mp hn).resolve_left (fun h => by cases h)))
  owed x hx := List.mem_cons_of_mem _ (h.owed x hx)

/-- Every move keeps the notices right. -/
theorem turn (h : Logged S) (hok : S.Ok) (hturn : Turn S m S') : Logged S' := by
  have hb := hok.orderly.base
  have hev := (hok.shift hturn).evolves hb
  have hsame : ∀ a ∈ S.db.attempts, a.status ≠ .queued → ∃ x ∈ S.db.attempts,
      x.status ≠ .queued ∧ x.id = a.id ∧ x.leaseOwner = a.leaseOwner :=
    fun a ha hst => ⟨a, ha, hst, rfl, rfl⟩
  cases hturn with
  | quiet _ hkept howed hclaims hnotices =>
    exact h.keep hev (fun _ ha hst => h.owner_kept hkept hsame ha hst)
      (fun _ ha => howed ▸ ha) hclaims hnotices
  | @report attemptID workerID success output errMsg _ a now db ha hlease _ happ =>
    simp only [TaskAttempt.leasedTo, Bool.and_eq_true, beq_iff_eq] at hlease
    obtain rfl : a.id = attemptID := Table.key_of_get? ha
    have hput : (S.db.attempts.put (a.complete success output errMsg now)).get? a.id =
        some (a.complete success output errMsg now) := Table.get?_put_self _ _
    have hdead : (a.complete success output errMsg now).isLive = false := by cases success <;> rfl
    refine h.report ha hlease hev (happ.row hb hput hdead) hdead (fun x hx hst =>
      h.owner_kept (happ.kept hb) (fun y hy hyst => ?_) hx hst)
    rcases Table.mem_put.mp hy with rfl | ⟨hy, -⟩
    · exact ⟨a, Table.mem_of_get? ha, (by simp [hlease.1]), rfl, rfl⟩
    · exact hsame y hy hyst
  | reap hnodup hdue => exact h.reap hnodup hdue hev (applyAll_attempts _ _)
  | outcome _ happ =>
    exact h.keep hev (fun _ ha hst => h.owner_kept (happ.kept hb) hsame ha hst)
      (fun _ ha => List.mem_of_mem_eraseIdx ha) rfl rfl
  | lose =>
    exact h.keep (.refl _) h.owner (fun _ ha => List.mem_of_mem_eraseIdx ha) rfl rfl
  | arrive => exact h.arrive
  | claimEnds hc => exact h.callEnds hc
  | claimNext hc hprog hexec =>
    have hstage := h.stage _ (List.mem_of_getElem? hc)
    have hnext := hstage.next hok.orderly hprog hexec hev
    rcases hstage.grants hb hprog hexec with ⟨hgrant, hkept, hholds⟩ |
      ⟨hgrant, hfree, a, ha, hst, rfl⟩
    · rw [hgrant]
      exact h.proceed hc hev hkept hnext hholds
    · rw [hgrant]
      exact h.lease hc hfree ha hst rfl hev hnext
  | claimReturn hc hprog => exact h.start hc hprog

end Logged

/-- The notices are right in every state that is reached. -/
theorem System.Reachable.logged {C : System → Move → Prop} {S : System}
    (h : System.Reachable C S) : Logged S := by
  refine h.induct (I := Logged) ?_ (fun _ _ _ _ hok _ hturn hlog => hlog.turn hok hturn)
  exact {
    stage := fun _ hc => absurd hc List.not_mem_nil
    leases := fun _ => Nat.zero_le _
    holder := fun _ _ hn => absurd hn List.not_mem_nil
    owner := fun _ ha => absurd ha List.not_mem_nil
    starts := fun _ => le_rfl
    ends := fun _ => Nat.zero_le _
    ended := fun _ _ hn => absurd hn List.not_mem_nil
    accepted := fun _ _ hn => absurd hn List.not_mem_nil
    owed := fun _ ha => absurd ha List.not_mem_nil }

/-- `CompleteTaskAttempt` writes nothing for a worker without the lease. -/
theorem completeTaskAttempt_refused {attemptID : UUID} {workerID : String} {success : Bool}
    {result : Option RawMessage} {errMsg : Option String} {d : Draw} {v : Db} {a : TaskAttempt}
    {ws : List Write} (h : backend.exec (.completeTaskAttempt attemptID workerID success result
      errMsg) d v = .ok ((a, false), ws)) : ws = [] := by
  simp only [backend_exec, Query.exec, Bind.bind, Except.bind] at h
  split at h
  · cases h
  · split at h
    · cases h
    · split_ifs at h
      · cases h
      · cases h
        rfl

/-- `HandleTaskResult` that refuses a report writes nothing. -/
theorem handleTaskResult_refused {attemptID : UUID} {workerID : String} {success : Bool}
    {output : Option RawMessage} {errMsg : Option String} {ω : ℕ → Draw} {v : Db}
    (h : ((handleTaskResult attemptID workerID success output errMsg).withTx backend ω v []).1 =
      .ok false) :
    ((handleTaskResult attemptID workerID success output errMsg).withTx backend ω v []).2 = v := by
  have hprog : handleTaskResult attemptID workerID success output errMsg =
      .call (.completeTaskAttempt attemptID workerID success output errMsg) (fun answer =>
        if ¬ answer.2 then .ret false
        else handleAttemptOutcome answer.1 success output errMsg >>= fun _ => .ret true) := rfl
  rw [hprog, withTx, run] at h ⊢
  cases hexec : backend.exec (.completeTaskAttempt attemptID workerID success output errMsg) (ω 0)
    (backend.applyAll v []) with
  | error e => rfl
  | ok res =>
    obtain ⟨⟨attempt, applied⟩, ws⟩ := res
    rw [hexec] at h
    cases applied with
    | false =>
      rw [completeTaskAttempt_refused hexec]
      rfl
    | true =>
      -- The rest of the transaction answers that the report was accepted.
      have hrest := run_bind_ret backend (handleAttemptOutcome attempt success output errMsg) true
        (ω := fun i => ω (i + 1)) (s := v) (w := [] ++ ws) (x := false)
      simp only [not_true_eq_false, if_false] at h
      split at h
      · rename_i a w' hrun
        cases h
        exact absurd (hrest (by rw [hrun])) Bool.false_ne_true
      · cases h

/-- A step that was carried out by workers has completed by its latest attempt, and
no other attempt of it has succeeded. -/
theorem Base.succeeded {v : Db} (hb : Base v) {t : Step} (ht : t ∈ v.steps)
    (hst : t.status = .completed) (htype : t.taskType ≠ signalWaitTaskType) :
    ∃ a ∈ v.attempts, a.stepID = t.id ∧ a.status = .succeeded ∧
      a.attemptNumber = t.attemptCount ∧ a.result = t.output ∧
      ∀ a' ∈ v.attempts, a'.stepID = t.id → a'.status = .succeeded → a' = a := by
  have hcount := (hb.ledger.row t ht).count
  simp only [Step.CountOK, hst] at hcount
  obtain ⟨a, ha, hid, hnum⟩ := (hb.ledger.numbers t ht t.attemptCount).mpr ⟨hcount htype, le_rfl⟩
  have hget : v.steps.get? a.stepID = some t := hid ▸ Table.mem_iff_get?.mp ht
  have hlast := (hb.ledger.parent_of_get? ha hget).2.2 hnum
  simp only [LastOK, hst] at hlast
  refine ⟨a, ha, hid, hlast.1, hnum, hlast.2, fun a' ha' hid' hst' => ?_⟩
  have hget' : v.steps.get? a'.stepID = some t := hid' ▸ Table.mem_iff_get?.mp ht
  have hle := (hb.ledger.number_bounds ha' hget').2
  refine hb.ledger.slot a' ha' a ha (hid'.trans hid.symm) (hnum ▸ hle.antisymm ?_)
  by_contra hlt
  rcases (hb.ledger.parent_of_get? ha' hget').2.1 (not_le.mp hlt) with hdead | ⟨hdead, -⟩ <;>
    rw [hst'] at hdead <;> cases hdead

/-- An attempt is leased once and its handler started once, and it ends once, by a
report of the worker that claimed it or by the reaper, whose outcome is applied
once. A report that is refused changes nothing, and a step that workers have carried
out has completed by one attempt, its latest. -/
theorem claimed_and_ended_once {S : System} (h : System.Reachable System.Any S) :
    (∀ id, S.notices.countP (Notice.isLease id) ≤ 1 ∧
      S.notices.countP (Notice.isStart id) ≤ 1) ∧
    (∀ id, S.notices.countP (Notice.isEnd id) ≤ 1 ∧
      ∀ w, Notice.accepted id w ∈ S.notices → Notice.claimed id w ∈ S.notices) ∧
    ((S.owed.map (·.id)).Nodup ∧ ∀ a ∈ S.owed, Notice.reaped a.id ∈ S.notices ∧
      S.db.handled.get? a.id = none) ∧
    (∀ attemptID workerID success output errMsg ω,
      ((handleTaskResult attemptID workerID success output errMsg).withTx backend ω S.db []).1 =
        .ok false →
      ((handleTaskResult attemptID workerID success output errMsg).withTx backend ω S.db []).2 =
        S.db) ∧
    ∀ t ∈ S.db.steps, t.status = .completed → t.taskType ≠ signalWaitTaskType →
      ∃ a ∈ S.db.attempts, a.stepID = t.id ∧ a.status = .succeeded ∧
        a.attemptNumber = t.attemptCount ∧ a.result = t.output ∧
        ∀ a' ∈ S.db.attempts, a'.stepID = t.id → a'.status = .succeeded → a' = a := by
  have hlog := h.logged
  refine ⟨fun id => ⟨hlog.leases id, ?_⟩, fun id => ⟨hlog.ends id, hlog.accepted id⟩,
    ⟨h.ok.once, fun a ha => ⟨hlog.owed a ha, (h.ok.owed a ha).2.2⟩⟩,
    fun _ _ _ _ _ _ hres => handleTaskResult_refused hres,
    fun t ht hst htype => h.ok.orderly.base.succeeded ht hst htype⟩
  exact ((Nat.le_add_right _ _).trans (hlog.starts id)).trans (hlog.leases id)

/-- The first attempt of a chain has been claimed, and its report accepted. -/
theorem claimed_and_ended_once_chain :
    Notice.accepted 209 "w" ∈ chainSystem.notices ∧ Notice.claimed 209 "w" ∈ chainSystem.notices ∧
      chainSystem.notices.countP (Notice.isEnd 209) = 1 ∧
      chainSystem.notices.countP (Notice.isStart 209) = 1 := by
  have hreach : System.Reachable System.Any chainSystem :=
    .run .init (fun _ _ _ => trivial) (Option.some_get _).symm
  have haccepted : Notice.accepted 209 "w" ∈ chainSystem.notices := by decide +kernel
  have hstarted : Notice.started 209 "w" ∈ chainSystem.notices := by decide +kernel
  obtain ⟨hclaims, hends, -⟩ := claimed_and_ended_once hreach
  exact ⟨haccepted, (hends 209).2 "w" haccepted,
    (hends 209).1.antisymm (List.one_le_countP_iff.mpr ⟨_, haccepted, rfl⟩),
    (hclaims 209).2.antisymm (List.one_le_countP_iff.mpr ⟨_, hstarted, rfl⟩)⟩

/-- A `ClaimTask` call that is answered with the task had its first statement while
the run of the attempt went on. -/
theorem claimed_only_while_live {S : System} (h : System.Reachable System.Any S) {c : ClaimCall}
    (hc : c ∈ S.claims) (hanswer : c.prog = .ret .claimed) :
    ∃ v a r, c.seen = some v ∧ v.attempts.get? c.attemptID = some a ∧
      v.runs.get? a.workflowRunID = some r ∧ runTerminal r.status = false := by
  cases h.logged.stage c hc with
  | fresh _ hprog =>
    rw [hprog, claimTask] at hanswer
    split_ifs at hanswer
    all_goals cases hanswer
  | begun hseen _ hrun =>
    rcases hrun with ⟨a, r, ha, hr, hlive⟩ | hspurns
    · exact ⟨_, a, r, hseen, ha, hr, hlive⟩
    · rw [hanswer] at hspurns
      exact absurd rfl hspurns

/-- The answer of a call that has ended. -/
def ClaimCall.answer (c : ClaimCall) : Option ClaimStatus :=
  match c.prog with
  | .ret status => some status
  | _ => none

theorem ClaimCall.prog_of_answer {c : ClaimCall} {status : ClaimStatus}
    (h : c.answer = some status) : c.prog = .ret status := by
  obtain ⟨leaseDuration, attemptID, workerID, seen, prog⟩ := c
  cases prog with
  | ret status' => rw [Option.some.inj h]
  | fail e => cases h
  | call op next => cases h

/-- The first attempt of a chain is about to be given to a worker. -/
def claimingSystem : System :=
  (System.run (chainMoves.take 7) .init).get (by decide +kernel)

/-- The call began while the run went on. -/
theorem claimed_only_while_live_chain :
    ∃ c ∈ claimingSystem.claims, c.prog = .ret .claimed ∧
      ∃ v a r, c.seen = some v ∧ v.attempts.get? c.attemptID = some a ∧
        v.runs.get? a.workflowRunID = some r ∧ runTerminal r.status = false := by
  have hreach : System.Reachable System.Any claimingSystem :=
    .run .init (fun _ _ _ => trivial) (Option.some_get _).symm
  have hanswered : claimingSystem.claims.any (fun c => c.answer = some .claimed) = true := by
    decide +kernel
  obtain ⟨c, hc, hclaimed⟩ := List.any_eq_true.mp hanswered
  have hanswer := ClaimCall.prog_of_answer (of_decide_eq_true hclaimed)
  exact ⟨c, hc, hanswer, claimed_only_while_live hreach hc hanswer⟩

end Orchestrator
