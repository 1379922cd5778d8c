import Orchestrator.System.Shift

/-!
# What each move does

The effect of a move on the store and on what is under way around it. Most moves
leave every attempt with its worker. The others are the statements of a claim, an
accepted report, a reap, and the outcome of an attempt that was reaped.
-/

namespace Orchestrator

open Lib Program Actions

/-- The kinds of actions that leave attempts with their workers. -/
def Kind.handsOff : Kind → Bool
  | .claim | .expire | .succeed | .retry | .giveUp | .late => false
  | _ => true

/-- The rows agree in their identity, their status and their worker. -/
def TaskAttempt.Alike (a b : TaskAttempt) : Prop :=
  b.id = a.id ∧ b.status = a.status ∧ b.leaseOwner = a.leaseOwner

/-- Attempts are where they were, and others wait for a worker. -/
structure Kept (v v' : Db) : Prop where
  handled : v'.handled = v.handled
  back : ∀ a' ∈ v'.attempts, (∃ a ∈ v.attempts, a.Alike a') ∨
    (a'.status = .queued ∧ v.attempts.get? a'.id = none)

namespace Kept

variable {v v' v'' : Db}

theorem refl (v : Db) : Kept v v := ⟨rfl, fun a ha => Or.inl ⟨a, ha, rfl, rfl, rfl⟩⟩

theorem of_eq (hattempts : v'.attempts = v.attempts) (hhandled : v'.handled = v.handled) :
    Kept v v' :=
  ⟨hhandled, fun a ha => Or.inl ⟨a, hattempts ▸ ha, rfl, rfl, rfl⟩⟩

theorem trans (h : Kept v v') (h' : Kept v' v'') (hev : v.Evolves v') : Kept v v'' where
  handled := h'.handled.trans h.handled
  back a ha := by
    rcases h'.back a ha with ⟨a', ha', hid', hst', hown'⟩ | ⟨hst, hnone⟩
    · rcases h.back a' ha' with ⟨a'', ha'', hid, hst, hown⟩ | ⟨hst, hnone⟩
      · exact Or.inl ⟨a'', ha'', hid'.trans hid, hst'.trans hst, hown'.trans hown⟩
      · exact Or.inr ⟨hst'.trans hst, by rw [hid']; exact hnone⟩
    · refine Or.inr ⟨hst, ?_⟩
      cases hget : v.attempts.get? a.id with
      | none => rfl
      | some x =>
        obtain ⟨y, hy, -⟩ := hev.attempt hget
        rw [hnone] at hy
        cases hy

end Kept

/-- An action that leaves attempts with their workers. -/
theorem Act.kept {l : Label} {v : Db} {u : List Write} (hact : Act l v u)
    (hk : l.kind.handsOff = true) : Kept v (backend.applyAll v u) := by
  cases hact with
  | create =>
    rw [applyAll_create]
    exact .of_eq rfl rfl
  | dispatch _ _ hnew =>
    refine ⟨rfl, fun a ha => ?_⟩
    rcases Table.mem_put.mp ha with rfl | ⟨ha, -⟩
    · exact Or.inr ⟨rfl, hnew⟩
    · exact Or.inl ⟨a, ha, rfl, rfl, rfl⟩
  | heartbeat hget =>
    refine ⟨rfl, fun a ha => ?_⟩
    rcases Table.mem_put.mp ha with rfl | ⟨ha, -⟩
    · exact Or.inl ⟨_, Table.mem_of_get? hget, rfl, rfl, rfl⟩
    · exact Or.inl ⟨a, ha, rfl, rfl, rfl⟩
  | claim => cases hk
  | expire => cases hk
  | succeed => cases hk
  | retry => cases hk
  | giveUp => cases hk
  | late => cases hk
  | _ => exact .of_eq rfl rfl

theorem Through.kept {C : Label → Prop} {v v' : Db} (h : Through C v v') (hb : Base v)
    (hC : ∀ l, C l → l.kind.handsOff = true) : Kept v v' := by
  have hboth := h.induct hb (I := fun w => v.Evolves w ∧ Kept v w) ⟨.refl v, .refl v⟩
    (fun w l u _ hl hact hw => ⟨hw.1.trans hact.evolves,
      hw.2.trans (hact.kept (hC l hl)) hw.1⟩)
  exact hboth.2

theorem Passes.kept {runID : UUID} {v v' : Db} (h : Passes runID v v') (hb : Base v) :
    Kept v v' := by
  refine h.through.kept hb (fun l hl => ?_)
  obtain ⟨run, kind⟩ := l
  obtain ⟨-, hk⟩ := hl
  cases kind <;> first | rfl | cases hk

/-- A signal arrives by the move. -/
def Arrives (S : System) : Move → Signal → Prop
  | .signal runID name _ ω, sig => sig.workflowRunID = runID ∧ sig.signalName = name ∧
      sig.receivedAt = (ω 0).now ∧ S.clock ≤ sig.receivedAt
  | _, _ => False

/-- The step has been cancelled while it had attempts left. -/
def Step.Rearms (t : Step) : Prop := t.status = .cancelled ∧ (t.attemptCount : ℤ) < t.maxAttempts

/-- The move brings the failure of an attempt whose step has been cancelled while
it had attempts left. A report with an output that is no document is refused. -/
def FailsLate (S : System) : Move → Prop
  | .report attemptID workerID success output _ _ => success = false ∧
      (∀ o, output = some o → o.IsValid) ∧ ∃ a t,
      S.db.attempts.get? attemptID = some a ∧ a.leasedTo workerID = true ∧
      S.db.steps.get? a.stepID = some t ∧ t.Rearms
  | .outcome i _ => ∃ a t, S.owed[i]? = some a ∧ S.db.steps.get? a.stepID = some t ∧ t.Rearms
  | _ => False

/-- The effect of a move. -/
inductive Turn (S : System) : Move → System → Prop
  /-- Attempts stay with their workers, and no claim is served. -/
  | quiet {m S'} : Shift (Arrives S m) False S.db S'.db → Kept S.db S'.db →
      S'.owed = S.owed → S'.claims = S.claims → S'.notices = S.notices →
      S.clock ≤ S'.clock → (∀ sig, Arrives S m sig → sig.receivedAt = S'.clock) → Turn S m S'
  | report {attemptID workerID success output errMsg ω a now db} :
      S.db.attempts.get? attemptID = some a → a.leasedTo workerID = true →
      (∀ o, output = some o → o.IsValid) →
      Applies Evaluated S.db a success [.attempt (a.complete success output errMsg now)] db →
      Turn S (.report attemptID workerID success output errMsg ω)
        { S with db, notices := .accepted attemptID workerID :: S.notices }
  | reap {limit d} {due : List TaskAttempt} : (due.map (·.id)).Nodup →
      (∀ a ∈ due, S.db.attempts.get? a.id = some a ∧ a.status = .leased) →
      Turn S (.reap limit d) { S with
        db := backend.applyAll S.db ((due.map (fun a => a.expire d.now)).map .attempt)
        owed := S.owed ++ due.map (fun a => a.expire d.now)
        notices := (due.map (fun a => a.expire d.now)).map (fun a => .reaped a.id) ++ S.notices }
  | outcome {i ω a db} : S.owed[i]? = some a → Applies Evaluated S.db a false [.handled a.id] db →
      Turn S (.outcome i ω) { S with db, owed := S.owed.eraseIdx i }
  | lose {i} : i < S.owed.length → Turn S (.lose i) { S with owed := S.owed.eraseIdx i }
  | arrive {m leaseDuration attemptID key workerID} :
      Turn S m (S.arrive leaseDuration attemptID key workerID)
  | claimEnds {m i c} : S.claims[i]? = some c →
      Turn S m { S with claims := S.claims.eraseIdx i }
  | claimNext {i d c} {β : Type} {op : Query β} {next : β → Prog ClaimStatus} {answer ws} :
      S.claims[i]? = some c → c.prog = .call op next →
      backend.exec op d S.db = .ok (answer, ws) →
      Turn S (.claimNext i d) { S with
        db := backend.applyAll S.db ws
        claims := S.claims.set i { c with seen := c.seen <|> some S.db, prog := next answer }
        notices := if op.grants answer then .claimed c.attemptID c.workerID :: S.notices
          else S.notices }
  | claimReturn {i c} : S.claims[i]? = some c → c.prog = .ret .claimed →
      Turn S (.claimReturn i) { S with
        claims := S.claims.eraseIdx i
        notices := .started c.attemptID c.workerID :: S.notices }

/-- What holds of the system around the store. -/
structure System.Ok (S : System) : Prop where
  orderly : Orderly S.db
  /-- The outcomes that are owed have not been handled. -/
  owed : ∀ a ∈ S.owed, S.db.attempts.get? a.id = some a ∧ a.status = .expired ∧
    S.db.handled.get? a.id = none
  once : (S.owed.map (·.id)).Nodup
  calls : ∀ c ∈ S.claims, c.prog.Calls (Query.Makes ByClaim)

namespace System

variable {S S' : System} {m : Move}

/-- What a transaction has done. -/
theorem tx_leads {α : Type} {p : Prog α} {ω : ℕ → Draw} {w : List Write}
    {f : Except Error α → Db → System} {E : Error → Prop} {Q : α → Db → Prop}
    (h : S.tx p ω w f = some S')
    (hp : p.Admissible backend ω S.db w → Leads backend E Q S.db w (p.run backend ω S.db w)) :
    ∃ res db, S' = f res db ∧
      ((∃ a, res = .ok a ∧ Q a db) ∨ (∃ e, res = .error e ∧ db = S.db ∧ E e)) := by
  unfold tx at h
  split_ifs at h with hω
  refine ⟨_, _, (Option.some.inj h).symm, ?_⟩
  rcases (hp hω).withTx with ⟨a, hres, hQ⟩ | ⟨e, hres, hE⟩
  · exact Or.inl ⟨a, hres, hQ⟩
  · exact Or.inr ⟨e, by rw [hres], by rw [hres], hE⟩

theorem tx_some {α : Type} {p : Prog α} {ω : ℕ → Draw} {w : List Write}
    {f : Except Error α → Db → System} {E : Error → Prop} {Q : α → Db → Prop}
    (h : S.tx p ω w f = some S') (hp : Solo E p Q (backend.applyAll S.db w)) :
    ∃ res db, S' = f res db ∧
      ((∃ a, res = .ok a ∧ Q a db) ∨ (∃ e, res = .error e ∧ db = S.db ∧ E e)) :=
  tx_leads h (fun hω => hp.run hω)

/-- A transaction that leaves attempts with their workers. -/
theorem turn_tx {α : Type} {p : Prog α} {ω : ℕ → Draw} {E : Error → Prop} {Q : α → Db → Prop}
    {f : Except Error α → Db → System} (h : S.tx p ω [] f = some S')
    (hp : p.Admissible backend ω S.db [] → Leads backend E Q S.db [] (p.run backend ω S.db []))
    (hf : ∀ res db, (f res db).owed = S.owed ∧ (f res db).claims = S.claims ∧
      (f res db).notices = S.notices ∧ S.clock ≤ (f res db).clock ∧
      ∀ sig, Arrives S m sig → sig.receivedAt = (f res db).clock)
    (hdb : ∀ res db, (f res db).db = db ∨ (f res db).db = S.db)
    (hQ : ∀ a db, Q a db → Shift (Arrives S m) False S.db db ∧ Kept S.db db) : Turn S m S' := by
  obtain ⟨res, db, rfl, hres⟩ := tx_leads h hp
  obtain ⟨howed, hclaims, hnotices, hclock, harrive⟩ := hf res db
  have hsame : Shift (Arrives S m) False S.db S.db ∧ Kept S.db S.db :=
    ⟨.work (u := []) .nil, .refl _⟩
  have hboth : Shift (Arrives S m) False S.db (f res db).db ∧ Kept S.db (f res db).db := by
    rcases hdb res db with heq | heq
    · rw [heq]
      rcases hres with ⟨a, -, ha⟩ | ⟨e, -, rfl, -⟩
      · exact hQ a db ha
      · exact hsame
    · rw [heq]
      exact hsame
  exact .quiet hboth.1 hboth.2 howed hclaims hnotices hclock harrive

/-- The evaluation of a run that begins without an outcome. -/
theorem kept_evaluate {runID : UUID} {v v₀ v' : Db} (hb : Base v)
    (hlead : Through (fun l => l.run = runID ∧ l.kind.handsOff = true) v v₀)
    (heval : Evaluated runID v₀ v') : Kept v v' :=
  (hlead.kept hb (fun _ hl => hl.2)).trans (heval.path.kept (hlead.base hb)) (hlead.evolves hb)

/-- The cancellation of a run that goes on. -/
theorem cancelled_turn {P : Signal → Prop} {runID : UUID} {v v' : Db} (hb : Base v)
    (h : (HasEnded runID v ∧ v' = v) ∨ ∃ r u, v.runs.get? runID = some r ∧
      runTerminal r.status = false ∧ engine.Steps (Cancelling runID) v u ∧
      v' = backend.applyAll v u ∧ Cancelled runID v' ∧
      (∀ tm ∈ v'.timers, tm.workflowRunID = runID → tm.status ≠ .pending) ∧
      RecordsCancel runID v v') :
    Shift P False v v' ∧ Kept v v' := by
  rcases h with ⟨-, rfl⟩ | ⟨r, u, hr, hlive, hu, rfl, hdone, hdis, hrec⟩
  · exact ⟨.work (u := []) .nil, .refl _⟩
  · refine ⟨.cancel hr hlive hu hdone hdis hrec, Through.kept ⟨u, hu, rfl⟩ hb (fun l hl => ?_)⟩
    obtain ⟨run, kind⟩ := l
    obtain ⟨-, hk | rfl⟩ := hl
    · cases kind <;> first | rfl | cases hk
    · rfl

/-- What each move does. -/
theorem next_turn (hok : S.Ok) (h : S.next m = some S') : Turn S m S' := by
  have hb := hok.orderly.base
  have hsame : ∀ {m : Move}, Shift (Arrives S m) False S.db S.db := .work (u := []) .nil
  cases m with
  | registerDefinition d ω =>
    simp only [next] at h
    refine turn_tx h (fun hω => (registerDefinition_solo d).run hω)
      (fun _ _ => ⟨rfl, rfl, rfl, le_rfl, fun _ h => h.elim⟩) (fun _ _ => Or.inl rfl) ?_
    rintro - - ⟨u, hu, rfl⟩
    exact ⟨.work (hu.mono (fun l hl => by rw [Quietly, hl]; rfl)),
      Through.kept ⟨u, hu, rfl⟩ hb (fun l hl => by rw [hl]; rfl)⟩
  | createRun name version input ω =>
    simp only [next] at h
    refine turn_tx (E := fun _ => True) h (fun hω =>
      (createRun_solo hb name version input (fun _ => trivial) (fun _ => trivial)).run hω)
      (fun _ _ => ⟨rfl, rfl, rfl, le_rfl, fun _ h => h.elim⟩) (fun _ _ => Or.inl rfl) ?_
    rintro runID db ⟨d, u, -, hcreates, heval⟩
    exact ⟨.evaluate (.create hcreates.act) heval,
      kept_evaluate hb (.one ⟨rfl, rfl⟩ hcreates.act) heval⟩
  | reconcile runID ω =>
    simp only [next] at h
    refine turn_tx h (fun hω => (reconcile_solo hb runID).run hω)
      (fun _ _ => ⟨rfl, rfl, rfl, le_rfl, fun _ h => h.elim⟩) (fun _ _ => Or.inl rfl) ?_
    rintro - db ⟨r, hr, ⟨-, rfl⟩ | ⟨hlive, heval⟩⟩
    · exact ⟨hsame, .refl _⟩
    · exact ⟨.evaluate (.resume hr hlive) heval, kept_evaluate hb (.refl _) heval⟩
  | report attemptID workerID success output errMsg ω =>
    simp only [next] at h
    obtain ⟨res, db, rfl, hres⟩ := tx_some h (handleTaskResult_solo hb hok.orderly.upright
      attemptID workerID success output errMsg)
    have hquiet : Turn S (.report attemptID workerID success output errMsg ω) S :=
      .quiet hsame (.refl _) rfl rfl rfl le_rfl (fun _ h => h.elim)
    rcases hres with ⟨accepted, rfl, ⟨rfl, rfl, -⟩ | ⟨rfl, a, now, ha, hlease, hvalid, happ⟩⟩ |
      ⟨e, rfl, rfl, -⟩
    · exact hquiet
    · exact .report ha hlease hvalid happ
    · exact hquiet
  | fireTimer timerID ω =>
    simp only [next] at h
    refine turn_tx (E := fun _ => True) h (fun hω => (handleFiredTimer_solo hb timerID).run hω)
      (fun _ _ => ⟨rfl, rfl, rfl, le_rfl, fun _ h => h.elim⟩) (fun _ _ => Or.inl rfl) ?_
    rintro - db hfires
    cases hfires with
    | unarmed _ heq =>
      subst heq
      exact ⟨hsame, .refl _⟩
    | @idle tm t r now htm hst hstep ht hr hidle heq =>
      have hact : Act ⟨tm.workflowRunID, .fireTimer⟩ S.db [.timer (tm.fire now)] :=
        .fireTimer (Table.get?_key htm) hst
      exact heq ▸ ⟨.idle (Table.get?_key htm) hst hstep ht hr hidle, hact.kept rfl⟩
    | @retry tm t r now now' u htm hst hstep ht _ hback _ hrun hact hdis heval =>
      have hfire : Act ⟨tm.workflowRunID, .fireTimer⟩ S.db [.timer (tm.fire now)] :=
        .fireTimer (Table.get?_key htm) hst
      have hlead : Through (fun l => l.run = tm.workflowRunID ∧ l.kind.handsOff = true) S.db
          (backend.applyAll (S.db.apply (.timer (tm.fire now))) u) :=
        .trans (.one ⟨rfl, rfl⟩ hfire)
          (.one (l := ⟨tm.workflowRunID, .dispatch⟩) ⟨rfl, rfl⟩ hact)
      exact ⟨.evaluate (.redispatch (Table.get?_key htm) hst hstep ht hback hrun rfl hact hdis)
        heval, kept_evaluate hb hlead heval⟩
  | signal runID name payload ω =>
    simp only [next] at h
    split_ifs at h with hclock
    by_cases hname : name = "__cancel__"
    · rw [applySignal, if_pos hname] at h
      exact turn_tx h (fun hω => (cancelRun_solo hb runID).run hω)
        (fun _ _ => ⟨rfl, rfl, rfl, hclock, fun _ h => h.2.2.1⟩) (fun _ _ => Or.inl rfl)
        (fun _ _ hdone => cancelled_turn hb hdone)
    · refine turn_tx h (fun hω => applySignal_leads hb hname hω)
        (fun _ _ => ⟨rfl, rfl, rfl, hclock, fun _ h => h.2.2.1⟩) (fun _ _ => Or.inl rfl) ?_
      rintro - db ⟨sig, r, eventPayload, now, hnew, hvalid, hunused, hrun, hsname, hat, hr, hdone⟩
      have harrives : Arrives S (.signal runID name payload ω) sig :=
        ⟨hrun, hsname, hat, hat ▸ hclock⟩
      subst hrun
      have hid : r.id = sig.workflowRunID := Table.key_of_get? hr
      have hsignal : Act ⟨sig.workflowRunID, .signal⟩ S.db [.signal sig] := .signal hnew hvalid hr
      have hlog : Act ⟨r.id, .log⟩ (S.db.apply (.signal sig))
          (historyWrites r .signalReceived eventPayload now) := .log (Table.get?_key hr)
      have hnoted : Through (fun l => l.run = sig.workflowRunID ∧ l.kind.handsOff = true) S.db
          (backend.applyAll S.db
            (.signal sig :: historyWrites r .signalReceived eventPayload now)) :=
        .trans (.one ⟨rfl, rfl⟩ hsignal) (.one ⟨hid, rfl⟩ hlog)
      rcases hdone with ⟨hend, rfl⟩ | ⟨hlive, heval⟩
      · exact ⟨.note hnew hvalid hunused harrives hr hend, hnoted.kept hb (fun _ hl => hl.2)⟩
      · exact ⟨.evaluate (.signal hnew hvalid hunused rfl harrives hr hlive) heval,
          kept_evaluate hb hnoted heval⟩
  | cancel runID ω =>
    simp only [next] at h
    exact turn_tx h (fun hω => (cancelRun_solo hb runID).run hω)
      (fun _ _ => ⟨rfl, rfl, rfl, le_rfl, fun _ h => h.elim⟩) (fun _ _ => Or.inl rfl)
      (fun _ _ hdone => cancelled_turn hb hdone)
  | reap limit d =>
    simp only [next, statement] at h
    split_ifs at h
    obtain ⟨hnodup, hleased⟩ := leased_of_due limit d S.db rfl
    obtain rfl := Option.some.inj h
    exact .reap hnodup hleased
  | outcome i ω =>
    simp only [next] at h
    cases hi : S.owed[i]? with
    | none => simp [hi] at h
    | some a =>
      rw [hi] at h
      obtain ⟨ha, hst, hnot⟩ := hok.owed a (List.mem_of_getElem? hi)
      have hsolo : Solo (fun _ => False) _ (fun _ v' => Applies Evaluated S.db a false _ v') _ :=
        handleAttemptOutcome_solo hb (.expiry ha hst hnot) (hok.orderly.upright _)
          RawMessage.isValid_of_none rfl rfl
          (some leaseExpiredMessage)
      obtain ⟨res, db, rfl, hres⟩ := tx_some h hsolo
      rcases hres with ⟨_, rfl, happ⟩ | ⟨e, -, -, hfalse⟩
      · exact .outcome hi happ
      · exact hfalse.elim
  | lose i =>
    simp only [next] at h
    split_ifs at h with hi
    obtain rfl := Option.some.inj h
    exact .lose hi
  | heartbeat leaseDuration attemptID workerID d =>
    simp only [next, statement] at h
    split_ifs at h
    have hmakes := makes_heartbeat attemptID workerID leaseDuration d S.db hb
    cases hexec : backend.exec (.heartbeatTaskAttempt attemptID workerID leaseDuration) d
      S.db with
    | error e =>
      rw [hexec] at h
      obtain rfl := Option.some.inj h
      exact .quiet hsame (.refl _) rfl rfl rfl le_rfl (fun _ h => h.elim)
    | ok res =>
      rw [hexec] at h hmakes
      obtain rfl := Option.some.inj h
      refine .quiet (.work (Steps.mono hmakes (fun l hl => by rw [Quietly, hl]; rfl)))
        (Through.kept ⟨_, hmakes, rfl⟩ hb (fun l hl => by rw [hl]; rfl)) rfl rfl rfl le_rfl
        (fun _ h => h.elim)
  | claim leaseDuration attemptID key workerID =>
    obtain rfl := Option.some.inj h
    exact .arrive
  | deliver leaseDuration i workerID =>
    obtain ⟨msg, -, rfl⟩ := Option.map_eq_some_iff.mp h
    exact .arrive
  | claimNext i d =>
    obtain ⟨c, hc, h⟩ := Option.bind_eq_some_iff.mp h
    unfold System.claimNext at h
    split at h
    · rename_i op rest hprog
      split_ifs at h
      split at h
      · obtain rfl := Option.some.inj h
        exact .claimEnds hc
      · rename_i answer ws hexec
        obtain rfl := Option.some.inj h
        exact .claimNext hc hprog hexec
    · cases h
  | claimReturn i =>
    obtain ⟨c, hc, h⟩ := Option.bind_eq_some_iff.mp h
    unfold System.claimReturn at h
    split at h
    · rename_i answer hprog
      obtain rfl := Option.some.inj h
      by_cases hans : answer = .claimed
      · subst hans
        exact .claimReturn hc hprog
      · rw [if_neg hans]
        exact .claimEnds hc
    · cases h
  | claimLost i =>
    simp only [next] at h
    split_ifs at h with hi
    obtain rfl := Option.some.inj h
    exact .claimEnds (List.getElem?_eq_getElem hi)
  | relay shardIDs batchSize ω =>
    simp only [next] at h
    refine turn_tx h (fun hω => (makes_solo (relayTick_makes shardIDs batchSize) hb).run hω)
      (fun res _ => ?_) (fun res _ => ?_) ?_
    · cases res <;> exact ⟨rfl, rfl, rfl, le_rfl, fun _ h => h.elim⟩
    · cases res
      · exact Or.inr rfl
      · exact Or.inl rfl
    · rintro - - ⟨u, hu, rfl⟩
      exact ⟨.work (hu.mono (fun l hl => by rw [Quietly, hl]; rfl)),
        Through.kept ⟨u, hu, rfl⟩ hb (fun l hl => by rw [hl]; rfl)⟩
  | relayFails shardIDs batchSize n =>
    obtain rfl := Option.some.inj h
    exact .quiet hsame (.refl _) rfl rfl rfl le_rfl (fun _ h => h.elim)

end System

end Orchestrator
