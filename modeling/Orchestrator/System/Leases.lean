import Orchestrator.System.Claims
import Orchestrator.System.Timed
import Orchestrator.System.Progress

/-!
# Leases last as long as they are renewed

A worker that has claimed an attempt renews its lease by heartbeats. As long as no more than
the lease duration passes between them, nobody else gets the attempt, and the reaper leaves
it alone, so that its report is accepted.
-/

namespace Orchestrator

open Lib Program Actions

section Retains

variable {attemptID : UUID} {v v' v'' : Db}

/-- The row of the attempt stays as it is if it is leased. -/
def Retains (attemptID : UUID) (v v' : Db) : Prop :=
  ∀ a, v.attempts.get? attemptID = some a → a.status = .leased →
    v'.attempts.get? attemptID = some a

theorem Retains.refl (v : Db) : Retains attemptID v v := fun _ ha _ => ha

theorem Retains.trans (h : Retains attemptID v v') (h' : Retains attemptID v' v'') :
    Retains attemptID v v'' :=
  fun a ha hst => h' a (h a ha hst) hst

theorem Retains.of_eq (h : v'.attempts = v.attempts) : Retains attemptID v v' :=
  fun _ ha _ => h ▸ ha

/-- The row of another attempt is written, or one that is not leased. -/
theorem retains_put {A : Table TaskAttempt.id} {x : TaskAttempt}
    (h : ∀ a, A.get? x.id = some a → a.status ≠ .leased) :
    ∀ a, A.get? attemptID = some a → a.status = .leased →
      (A.put x).get? attemptID = some a := by
  intro a ha hst
  have hne : x.id ≠ attemptID := fun heq => h a (heq ▸ ha) hst
  rw [Table.get?_put_of_ne hne]
  exact ha

/-- The actions that leave leased attempts alone. -/
def Kind.sparesLeases : Kind → Bool
  | .heartbeat | .expire | .succeed | .retry | .giveUp | .late => false
  | _ => true

/-- An action that spares leases leaves the lease as it is. -/
theorem Act.retains {l : Label} {u : List Write} (hact : Act l v u)
    (hk : l.kind.sparesLeases = true) : Retains attemptID v (backend.applyAll v u) := by
  cases hact with
  | create =>
    rw [applyAll_create]
    exact .of_eq rfl
  | heartbeat => cases hk
  | expire => cases hk
  | succeed => cases hk
  | retry => cases hk
  | giveUp => cases hk
  | late => cases hk
  | dispatch _ _ hnew =>
    refine retains_put (fun a ha => ?_)
    rw [newAttempt, hnew] at ha
    cases ha
  | claim ha hst =>
    refine retains_put (fun x hx hleased => ?_)
    obtain rfl := Option.some.inj (ha.symm.trans hx)
    rw [hst] at hleased
    cases hleased
  | _ => exact .of_eq rfl

theorem Kind.sparesLeases_of_ofReconcile {k : Kind} (h : k.ofReconcile = true) :
    k.sparesLeases = true := by
  cases k <;> first | rfl | cases h

theorem Kind.sparesLeases_of_steady {k : Kind} (h : k.steady = true) (hne : k ≠ .heartbeat) :
    k.sparesLeases = true := by
  cases k <;> first | rfl | exact absurd rfl hne | cases h

/-- So does every steady action that is not a heartbeat. -/
theorem Carried.retains : Carried false (Retains attemptID) where
  refl := .refl
  trans := .trans
  pass _ hpass := by
    obtain ⟨k, hk, hact⟩ := hpass.act
    exact hact.retains (Kind.sparesLeases_of_ofReconcile hk)
  act _ hact hk hbeats :=
    hact.retains (Kind.sparesLeases_of_steady hk (fun heq => by cases hbeats heq))

/-- The outcome of an attempt leaves the others alone. -/
theorem Applies.retains {a : TaskAttempt} {success : Bool} {ws : List Write}
    (h : Applies Evaluated v a success ws v') (hb : Base v)
    (hws : Retains attemptID v (backend.applyAll v ws)) : Retains attemptID v v' := by
  cases h with
  | @change k rest _ hact hmoves heval =>
    have hended : Retains attemptID v (backend.applyAll v (ws ++ rest)) := by
      intro x hx hst
      rw [hmoves.attempts]
      exact hws x hx hst
    exact hended.trans (Carried.retains.passes heval.path (hact.base hb))
  | late _ _ htms heq =>
    subst heq
    rw [Backend.applyAll_append]
    rcases htms with rfl | ⟨-, -, tm, rfl, -⟩ <;> exact hws

/-- A timer that fires takes no lease away. -/
theorem Fires.retains {timerID : UUID} (h : Fires Evaluated v timerID v') (hb : Base v) :
    Retains attemptID v v' := by
  cases h with
  | unarmed _ heq =>
    subst heq
    exact .refl v'
  | idle _ _ _ _ _ _ heq =>
    subst heq
    exact .of_eq rfl
  | @retry tm t r now now' u htm hst hstep ht hr hback hlive hrun hact _ heval =>
    have htimer : Act ⟨tm.workflowRunID, .fireTimer⟩ v [.timer (tm.fire now)] :=
      .fireTimer (Table.get?_key htm) hst
    have hbase : Base (v.apply (.timer (tm.fire now))) := htimer.base hb
    exact ((htimer.retains rfl).trans (hact.retains rfl)).trans
      (Carried.retains.passes heval.path (hact.base hbase))

end Retains

/-- The moves of the others that neither end attempts nor renew leases. -/
theorem retains_next {attemptID : UUID} {S S' : System} {m : Move} (hok : S.Ok)
    (hsteady : m.steady = true) (hbeats : m.beats = false) (h : S.next m = some S') :
    Retains attemptID S.db S'.db := by
  have hcarried : Carried m.beats (Retains attemptID) := hbeats ▸ Carried.retains
  exact hcarried.next hok hsteady h

section Leased

variable {attemptID : UUID} {workerID : String} {expiry lo hi : Time} {S S' : System}

/-- The worker has the lease of the attempt until a time. -/
def Leased (attemptID : UUID) (workerID : String) (expiry : Time) (v : Db) : Prop :=
  ∃ a e, v.attempts.get? attemptID = some a ∧ a.leasedTo workerID = true ∧
    a.leaseExpiresAt = some e ∧ expiry ≤ e

theorem TaskAttempt.leasedTo_iff {a : TaskAttempt} :
    a.leasedTo workerID = true ↔ a.status = .leased ∧ a.leaseOwner = some workerID := by
  simp [TaskAttempt.leasedTo]

/-- A lease that is retained is still held. -/
theorem Leased.retains {v v' : Db} (h : Leased attemptID workerID expiry v)
    (hv : Retains attemptID v v') : Leased attemptID workerID expiry v' := by
  obtain ⟨a, e, ha, hlease, he⟩ := h
  exact ⟨a, e, hv a ha (TaskAttempt.leasedTo_iff.mp hlease).1, hlease, he⟩

/-- The reaper passes over the attempt. -/
theorem Leased.reap {v : Db} (h : Leased attemptID workerID expiry v) {limit : ℕ} {d : Draw}
    (hd : d.now ≤ expiry) {due : List TaskAttempt}
    (hdue : due = (d.shuffle (v.attempts.rows.filter (fun a => a.leaseExpired d.now))).take limit) :
    Leased attemptID workerID expiry
      (backend.applyAll v ((due.map (fun a => a.expire d.now)).map .attempt)) := by
  refine h.retains (fun a ha _ => ?_)
  obtain ⟨x, e, hx, -, hexp, hle⟩ := h
  obtain rfl := Option.some.inj (ha.symm.trans hx)
  rw [applyAll_attempts, Table.get?_foldl_put_of_ne]
  · exact ha
  · intro r hr hid
    obtain ⟨y, hy, rfl⟩ := List.mem_map.mp hr
    rw [hdue] at hy
    have hmem := (d.shuffle_perm _).mem_iff.mp (List.mem_of_mem_take hy)
    obtain ⟨hrow, hexpired⟩ := List.mem_filter.mp hmem
    obtain rfl : y = a := Option.some.inj ((Table.mem_iff_get?.mp hrow).symm.trans (hid ▸ ha))
    -- Its lease has not run out.
    simp only [TaskAttempt.leaseExpired, hexp, Option.any_some, Bool.and_eq_true,
      decide_eq_true_eq] at hexpired
    exact absurd (hd.trans hle) (Nat.not_le.mpr hexpired.2)

/-- The time until which the worker has the lease after a move. A heartbeat renews it for the
`LeaseDuration` of the server that receives it. -/
def Move.renews (attemptID : UUID) (workerID : String) (expiry : Time) : Move → Time
  | .heartbeat leaseDuration id w d =>
    if id = attemptID ∧ w = workerID then d.now + leaseDuration else expiry
  | _ => expiry

/-- A heartbeat of the worker renews its lease, and those of others do no harm. -/
theorem Leased.heartbeat (leaseDuration : ℕ) (id : UUID) (w : String) (d : Draw)
    (h : Leased attemptID workerID expiry S.db)
    (hnext : S.next (.heartbeat leaseDuration id w d) = some S') :
    Leased attemptID workerID
      ((Move.heartbeat leaseDuration id w d).renews attemptID workerID expiry) S'.db := by
  obtain ⟨a, e, ha, hlease, hexp, hle⟩ := h
  simp only [System.next, System.statement, backend_exec, Query.exec] at hnext
  split_ifs at hnext
  by_cases hid : id = attemptID
  · subst hid
    rw [ha] at hnext
    by_cases hw : w = workerID
    · subst hw
      simp only [hlease, if_true] at hnext
      obtain rfl := Option.some.inj hnext
      have hkey : a.id = id := Table.key_of_get? ha
      refine ⟨{ a with leaseExpiresAt := some (d.now + leaseDuration) },
        d.now + leaseDuration, ?_, hlease, rfl, ?_⟩
      · rw [← hkey]
        exact Table.get?_put_self _ _
      · simp [Move.renews]
    · have hother : a.leasedTo w = false := by
        rw [Bool.eq_false_iff, Ne, TaskAttempt.leasedTo_iff, (TaskAttempt.leasedTo_iff.mp hlease).2]
        exact fun heq => hw (Option.some.inj heq.2).symm
      simp only [hother, Bool.false_eq_true, if_false] at hnext
      obtain rfl := Option.some.inj hnext
      rw [Move.renews, if_neg (fun heq => hw heq.2)]
      exact ⟨a, e, ha, hlease, hexp, hle⟩
  · rw [Move.renews, if_neg (fun heq => hid heq.1)]
    refine Leased.retains ⟨a, e, ha, hlease, hexp, hle⟩ ?_
    cases hx : S.db.attempts.get? id with
    | none =>
      rw [hx] at hnext
      obtain rfl := Option.some.inj hnext
      exact .refl _
    | some x =>
      rw [hx] at hnext
      simp only at hnext
      split_ifs at hnext
      · obtain rfl := Option.some.inj hnext
        have hkey : x.id = id := Table.key_of_get? hx
        intro y hy _
        have hne : x.id ≠ attemptID := hkey ▸ hid
        exact (Table.get?_put_of_ne
          (r := { x with leaseExpiresAt := some (d.now + leaseDuration) }) hne).trans hy
      · obtain rfl := Option.some.inj hnext
        exact .refl _

/-- A move that comes in time, other than the report of the worker, leaves it the lease. -/
theorem Leased.next {m : Move} (hreach : System.Reachable System.Any S)
    (h : Leased attemptID workerID expiry S.db) (hm : m.Within lo hi) (hhi : hi ≤ expiry)
    (hreport : ∀ success output errMsg ω,
      m ≠ .report attemptID workerID success output errMsg ω)
    (hnext : S.next m = some S') :
    Leased attemptID workerID (m.renews attemptID workerID expiry) S'.db := by
  have hok := hreach.ok
  have hb := hok.orderly.base
  cases m with
  | heartbeat leaseDuration id w d => exact h.heartbeat leaseDuration id w d hnext
  | report id w success output errMsg ω =>
    refine h.retains ?_
    simp only [System.next] at hnext
    obtain ⟨res, db, rfl, hres⟩ := System.tx_leads hnext (fun hω =>
      (handleTaskResult_solo hb hok.orderly.upright id w success output errMsg).run hω)
    rcases hres with ⟨accepted, rfl, hcase⟩ | ⟨e, rfl, rfl, -⟩
    · rcases hcase with ⟨-, rfl, -⟩ | ⟨-, x, now, hx, hlease, -, happ⟩
      · exact .refl _
      · refine happ.retains hb (fun a ha hst => ?_)
        have hne : x.id ≠ attemptID := by
          intro heq
          obtain ⟨y, e, hy, howner, -⟩ := h
          obtain rfl : id = attemptID := (Table.key_of_get? hx).symm.trans heq
          obtain rfl := Option.some.inj (hx.symm.trans hy)
          have hw := (TaskAttempt.leasedTo_iff.mp hlease).2.symm.trans
            (TaskAttempt.leasedTo_iff.mp howner).2
          obtain rfl := Option.some.inj hw
          exact hreport success output errMsg ω rfl
        exact (Table.get?_put_of_ne (r := x.complete success output errMsg now) hne).trans ha
    · exact .refl _
  | fireTimer timerID ω => exact h.retains ((System.fires_next hb hnext).retains hb)
  | reap limit d =>
    simp only [System.next, System.statement] at hnext
    split_ifs at hnext
    obtain rfl := Option.some.inj hnext
    exact h.reap (hm.2.trans hhi) rfl
  | outcome i ω =>
    refine h.retains ?_
    simp only [System.next] at hnext
    cases hi : S.owed[i]? with
    | none => simp [hi] at hnext
    | some a =>
      rw [hi] at hnext
      obtain ⟨ha, hst, hnot⟩ := hok.owed a (List.mem_of_getElem? hi)
      have hsolo : Solo (fun _ => False) _ (fun _ v' => Applies Evaluated S.db a false _ v') _ :=
        handleAttemptOutcome_solo hb (.expiry ha hst hnot) (hok.orderly.upright _)
          RawMessage.isValid_of_none rfl rfl (some leaseExpiredMessage)
      obtain ⟨res, db, rfl, hres⟩ := System.tx_some hnext hsolo
      rcases hres with ⟨_, rfl, happ⟩ | ⟨e, -, -, hfalse⟩
      · exact happ.retains hb (.of_eq rfl)
      · exact hfalse.elim
  | _ => exact h.retains (retains_next hok rfl rfl hnext)

/-- Moves one after the other, from the time `start` on, at which the worker has got its lease
for the time `leaseDuration`. The heartbeats of the worker renew it until `expiry`, no move
takes place later than the lease lasts, and the worker does not report. -/
inductive Attended (attemptID : UUID) (workerID : String) (leaseDuration : ℕ) (start : Time)
    (S₀ : System) : Time → Time → System → Prop
  | claimed : Attended attemptID workerID leaseDuration start S₀ (start + leaseDuration) start S₀
  | step {expiry lo hi S m S'} : Attended attemptID workerID leaseDuration start S₀ expiry lo S →
      m.Within lo hi → hi ≤ expiry →
      (∀ success output errMsg ω, m ≠ .report attemptID workerID success output errMsg ω) →
      S.next m = some S' →
      Attended attemptID workerID leaseDuration start S₀ (m.renews attemptID workerID expiry) hi S'

/-- The worker has the lease after such moves. -/
theorem Attended.leased {leaseDuration : ℕ} {start now : Time} {S₀ : System}
    (h : Attended attemptID workerID leaseDuration start S₀ expiry now S)
    (hreach : System.Reachable System.Any S₀)
    (hstart : Leased attemptID workerID (start + leaseDuration) S₀.db) :
    System.Reachable System.Any S ∧ Leased attemptID workerID expiry S.db := by
  induction h with
  | claimed => exact ⟨hreach, hstart⟩
  | step _ hm hhi hreport hnext ih =>
    exact ⟨ih.1.step trivial hnext, ih.2.next ih.1 hm hhi hreport hnext⟩

/-- The statement of `ClaimTask` that gives the lease. -/
theorem leased_of_claimed {S₁ S₀ : System} (hreach : System.Reachable System.Any S₁) {i : ℕ}
    {c : ClaimCall} {d : Draw} (hc : S₁.claims[i]? = some c)
    (hclaim : S₁.next (.claimNext i d) = some S₀)
    (hgranted : S₀.notices = .claimed attemptID workerID :: S₁.notices) :
    Leased attemptID workerID (d.now + c.leaseDuration) S₀.db := by
  rw [System.next, hc, Option.bind_some] at hclaim
  unfold System.claimNext at hclaim
  split at hclaim
  · rename_i op rest hprog
    split_ifs at hclaim
    split at hclaim
    · obtain rfl := Option.some.inj hclaim
      exact absurd hgranted (List.cons_ne_self _ _).symm
    · rename_i answer ws hexec
      obtain rfl := Option.some.inj hclaim
      have hstage := hreach.logged.stage c (List.mem_of_getElem? hc)
      rcases hstage.grants hreach.ok.orderly.base hprog hexec with
        ⟨hgrant, -, -⟩ | ⟨hgrant, -, a, ha, hst, rfl⟩
      · simp only [hgrant] at hgranted
        exact absurd hgranted (List.cons_ne_self _ _).symm
      · simp only [hgrant, if_true] at hgranted
        obtain ⟨rfl, rfl⟩ := Notice.claimed.inj (List.cons.inj hgranted).1
        have hkey : a.id = c.attemptID := Table.key_of_get? ha
        refine ⟨a.lease c.workerID c.leaseDuration d.now, _, ?_, a.leasedTo_lease .., rfl, le_rfl⟩
        rw [← hkey]
        exact Table.get?_put_self _ _
  · cases hclaim

/-- A worker that is given the lease of an attempt and renews it in time has it until it
reports, whatever the others do and however long the servers let leases last, and its report
is accepted. -/
theorem lease_lasts {S₁ S₀ : System} (hreach : System.Reachable System.Any S₁) {i : ℕ}
    {c : ClaimCall} {d : Draw} (hc : S₁.claims[i]? = some c)
    (hclaim : S₁.next (.claimNext i d) = some S₀)
    (hgranted : S₀.notices = .claimed attemptID workerID :: S₁.notices) {now : Time}
    (h : Attended attemptID workerID c.leaseDuration d.now S₀ expiry now S) :
    ∃ a, S.db.attempts.get? attemptID = some a ∧ a.leasedTo workerID = true ∧
      ∀ success output errMsg ω S', (∀ o, output = some o → o.IsValid) →
        S.next (.report attemptID workerID success output errMsg ω) = some S' →
        S'.notices = .accepted attemptID workerID :: S.notices ∧
        ∃ b, S'.db.attempts.get? attemptID = some b ∧ b.result = output ∧
          b.status = if success then .succeeded else .failed := by
  obtain ⟨hreach', a, e, ha, hlease, -⟩ :=
    h.leased (hreach.step trivial hclaim) (leased_of_claimed hreach hc hclaim hgranted)
  refine ⟨a, ha, hlease, fun success output errMsg ω S' hvalid hnext => ?_⟩
  have hb := hreach'.ok.orderly.base
  obtain rfl : a.id = attemptID := Table.key_of_get? ha
  simp only [System.next] at hnext
  obtain ⟨res, db, rfl, hres⟩ := System.tx_leads hnext (fun hω =>
    (handleTaskResult_accepts hb hreach'.ok.orderly.upright ha hlease success hvalid
      errMsg).run hω)
  rcases hres with ⟨accepted, rfl, rfl, now, happ⟩ | ⟨e, -, -, hfalse⟩
  · have hput : (S.db.attempts.put (a.complete success output errMsg now)).get? a.id =
        some (a.complete success output errMsg now) := Table.get?_put_self _ _
    have hdead : (a.complete success output errMsg now).isLive = false := by cases success <;> rfl
    exact ⟨rfl, _, happ.row hb hput hdead, rfl, rfl⟩
  · exact hfalse.elim

/-- Moves with their times, as they are attended while the lease lasts. -/
def InTurn (attemptID : UUID) (workerID : String) : Time → Time → List (Move × Time) → Prop
  | _, _, [] => True
  | expiry, lo, (m, hi) :: ms => m.Within lo hi ∧ hi ≤ expiry ∧
      (∀ success output errMsg ω, m ≠ .report attemptID workerID success output errMsg ω) ∧
      InTurn attemptID workerID (m.renews attemptID workerID expiry) hi ms

/-- They can be run one after the other. -/
theorem Attended.run {leaseDuration : ℕ} {start now : Time} {S₀ : System}
    {ms : List (Move × Time)} (h : Attended attemptID workerID leaseDuration start S₀ expiry now S)
    (hms : InTurn attemptID workerID expiry now ms)
    (hrun : System.run (ms.map Prod.fst) S = some S') :
    ∃ expiry' now', Attended attemptID workerID leaseDuration start S₀ expiry' now' S' := by
  induction ms generalizing expiry now S with
  | nil =>
    obtain rfl := Option.some.inj hrun
    exact ⟨expiry, now, h⟩
  | cons p ms ih =>
    obtain ⟨m, hi⟩ := p
    obtain ⟨S₂, hnext, hrun⟩ := Option.bind_eq_some_iff.mp hrun
    obtain ⟨hm, hhi, hreport, hms⟩ := hms
    exact ih (h.step hm hhi hreport hnext) hms hrun

end Leased

/-- A worker asks for the first attempt of a chain. -/
def askedSystem : System := (System.run (chainMoves.take 3) .init).get (by decide +kernel)

/-- It is given the lease. -/
def grantedSystem : System :=
  (askedSystem.next (.claimNext 0 (.tick 300))).get (by decide +kernel)

/-- It sends a heartbeat before the lease runs out, and the reaper comes after the time at which
the lease would have run out. The server that receives the heartbeat lets leases last longer. -/
def attendedMoves : List (Move × Time) :=
  [(.claimNext 0 (.tick 301), 301), (.claimNext 0 (.tick 302), 302),
    (.claimNext 0 (.tick 303), 303), (.claimReturn 0, 303),
    (.heartbeat 40000 209 "w" (.tick 20000), 20000), (.reap 10 (.tick 45000), 45000)]

/-- The system after these moves. -/
def attendedSystem : System :=
  (System.run (attendedMoves.map Prod.fst) grantedSystem).get (by decide +kernel)

/-- The worker still has the lease, and its report is accepted. -/
theorem lease_lasts_chain :
    ∃ a, attendedSystem.db.attempts.get? 209 = some a ∧ a.leasedTo "w" = true ∧
      ∃ S', attendedSystem.next (.report 209 "w" true none none (.ticks 46000)) = some S' ∧
        S'.notices = .accepted 209 "w" :: attendedSystem.notices := by
  have hreach : System.Reachable System.Any askedSystem :=
    .run .init (fun _ _ _ => trivial) (Option.some_get _).symm
  have hclaim : askedSystem.next (.claimNext 0 (.tick 300)) = some grantedSystem :=
    (Option.some_get _).symm
  have hgranted : grantedSystem.notices = .claimed 209 "w" :: askedSystem.notices := by
    decide +kernel
  have hcall : (askedSystem.claims.map (·.leaseDuration)) = [30000] := by decide +kernel
  obtain ⟨c, hcalls, hlasts⟩ := List.map_eq_singleton_iff.mp hcall
  have hturn : InTurn 209 "w" 30300 300 attendedMoves := by
    simp [InTurn, attendedMoves, Move.Within, Move.renews, Draw.tick]
  have hstart : Attended 209 "w" c.leaseDuration (Draw.tick 300).now grantedSystem 30300 300
      grantedSystem := hlasts ▸ .claimed
  obtain ⟨expiry, now, hattended⟩ := hstart.run hturn (Option.some_get _).symm
  obtain ⟨a, ha, hlease, haccepted⟩ :=
    lease_lasts hreach (by rw [hcalls]; rfl) hclaim hgranted hattended
  have hreport : (attendedSystem.next
      (.report 209 "w" true none none (.ticks 46000))).isSome = true := by decide +kernel
  obtain ⟨S', hS'⟩ := Option.isSome_iff_exists.mp hreport
  exact ⟨a, ha, hlease, S', hS', (haccepted true none none _ S' RawMessage.isValid_of_none hS').1⟩

end Orchestrator
