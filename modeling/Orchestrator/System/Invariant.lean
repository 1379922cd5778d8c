import Orchestrator.System.Turn

/-!
# What holds of every state of the system

The store is in order in every state that is reached, the outcomes that are owed
belong to attempts that have expired and whose expiry has not been dealt with, and
each is owed once.
-/

namespace Orchestrator

open Lib Program Actions

section Applies

variable {P : Signal → Prop} {q : Prop} {v v' : Db} {a : TaskAttempt} {success : Bool}
  {result : Option RawMessage} {ws : List Write}

/-- The outcome of an attempt changes the store in one of the ways listed. -/
theorem Applies.shift (h : Applies Evaluated v a success ws v')
    (hclose : Closes v a success result ws)
    (hq : success = false → ∀ t, v.steps.get? a.stepID = some t → t.Rearms → q) :
    Shift P q v v' := by
  cases h with
  | change hk hact _ heval => exact .evaluate (.outcome hk hact) heval
  | late ht hst htms heq =>
    subst heq
    refine .late hclose ht hst (htms.imp_right ?_)
    rintro ⟨hfail, hcount, htm⟩
    exact ⟨hq hfail _ ht ⟨hst, hcount⟩, htm⟩

/-- Once the attempt has been ended, attempts stay with their workers. -/
theorem Applies.kept (h : Applies Evaluated v a success ws v') (hb : Base v) :
    Kept (backend.applyAll v ws) v' := by
  cases h with
  | change _ hact hmoves heval =>
    obtain ⟨hkept, hback⟩ := heval.path.kept (hact.base hb)
    rw [hmoves.handled] at hkept
    rw [hmoves.attempts] at hback
    exact ⟨hkept, hback⟩
  | late _ _ htms heq =>
    subst heq
    rw [Backend.applyAll_append]
    rcases htms with rfl | ⟨-, -, tm, rfl, -⟩ <;> exact .of_eq rfl rfl

end Applies

theorem Shift.mono {P : Signal → Prop} {q q' : Prop} {v v' : Db} (h : Shift P q v v')
    (hq : q → q') : Shift P q' v v' := by
  cases h with
  | work hu => exact .work hu
  | late hclose ht hst htms => exact .late hclose ht hst (htms.imp id (And.imp hq id))
  | idle htm hst hstep ht hr hidle => exact .idle htm hst hstep ht hr hidle
  | note hnew hvalid hunused hP hr hend => exact .note hnew hvalid hunused hP hr hend
  | evaluate hlead heval => exact .evaluate hlead heval
  | cancel hr hlive hu hdone hdis hrec => exact .cancel hr hlive hu hdone hdis hrec

/-- Actions of workers note no outcome. -/
theorem Quietly.handled {v : Db} {u : List Write} (hb : Base v) (h : engine.Steps Quietly v u) :
    (backend.applyAll v u).handled = v.handled := by
  refine Steps.induct h hb (P := fun w => w.handled = v.handled) rfl ?_
  rintro w ⟨run, kind⟩ ws - hl hact ih
  have hact : Act ⟨run, kind⟩ w ws := hact
  cases hact <;> first | exact ih | cases hl

/-- The rows of attempts that are written one after the other. -/
theorem applyAll_attempts (v : Db) (rows : List TaskAttempt) :
    (backend.applyAll v (rows.map .attempt)).attempts = rows.foldl Table.put v.attempts := by
  induction rows generalizing v with
  | nil => rfl
  | cons a rows ih => exact ih (v.apply (.attempt a))

namespace System

variable {S S' : System} {m : Move}

/-- What a statement of a `ClaimTask` call does. -/
theorem Ok.byClaim (hok : S.Ok) {i : ℕ} {c : ClaimCall} {β : Type} {op : Query β}
    {next : β → Prog ClaimStatus} {d : Draw} {answer : β} {ws : List Write}
    (hc : S.claims[i]? = some c) (hprog : c.prog = .call op next)
    (hexec : backend.exec op d S.db = .ok (answer, ws)) : engine.Steps ByClaim S.db ws := by
  have hcalls := hok.calls c (List.mem_of_getElem? hc)
  rw [hprog] at hcalls
  have hsteps := hcalls.1 d S.db hok.orderly.base
  rwa [hexec] at hsteps

/-- How a move changes the store. -/
theorem Ok.shift (hok : S.Ok) (h : Turn S m S') :
    Shift (Arrives S m) (FailsLate S m) S.db S'.db := by
  have hsame : Shift (Arrives S m) (FailsLate S m) S.db S.db := .work (u := []) .nil
  cases h with
  | quiet hshift => exact hshift.mono False.elim
  | report ha hlease hvalid happ =>
    have hleased := hlease
    simp only [TaskAttempt.leasedTo, Bool.and_eq_true, beq_iff_eq] at hleased
    exact happ.shift (.report (Table.get?_key ha) hleased.1)
      (fun hfail t ht hre => ⟨hfail, hvalid, _, t, ha, hlease, ht, hre⟩)
  | reap hnodup hdue => exact .work ((steps_expire hnodup hdue).mono (fun _ hl => hl.1))
  | outcome hi happ =>
    obtain ⟨ha, hst, hnot⟩ := hok.owed _ (List.mem_of_getElem? hi)
    exact happ.shift (.expiry ha hst hnot) (fun _ t ht hre => ⟨_, t, hi, ht, hre⟩)
  | claimNext hc hprog hexec =>
    exact .work ((hok.byClaim hc hprog hexec).mono (fun _ hl => hl.attends.1))
  | _ => exact hsame

/-- What is owed stays owed as long as nothing is handled. -/
theorem Ok.still_owed (hok : S.Ok) {db : Db} (hev : S.db.Evolves db) {a : TaskAttempt}
    (ha : a ∈ S.owed) (hhandled : db.handled.get? a.id = S.db.handled.get? a.id) :
    db.attempts.get? a.id = some a ∧ a.status = .expired ∧ db.handled.get? a.id = none := by
  obtain ⟨hget, hst, hnot⟩ := hok.owed a ha
  obtain ⟨b, hb, hab⟩ := hev.attempt hget
  obtain rfl := hab.done (by simp [TaskAttempt.isLive, hst])
  exact ⟨hb, hst, hhandled.trans hnot⟩

/-- Every move keeps what holds of the system. -/
theorem Ok.turn (hok : S.Ok) (h : Turn S m S') : S'.Ok := by
  have hshift := hok.shift h
  have hb := hok.orderly.base
  have hev := hshift.evolves hb
  have horderly := hok.orderly.shift hshift
  cases h with
  | quiet _ hkept howed hclaims =>
    refine ⟨horderly, ?_, howed ▸ hok.once, hclaims ▸ hok.calls⟩
    rw [howed]
    exact fun a ha => hok.still_owed hev ha (by rw [hkept.handled])
  | report _ _ _ happ =>
    exact ⟨horderly, fun a ha => hok.still_owed hev ha (by rw [(happ.kept hb).handled]; rfl),
      hok.once, hok.calls⟩
  | @reap limit d due hnodup hdue =>
    have hnodup' : ((due.map (fun a => a.expire d.now)).map (·.id)).Nodup := by
      rw [List.map_map]
      exact hnodup
    refine ⟨horderly, fun a ha => ?_, ?_, hok.calls⟩
    · have hexpire : engine.Steps Quietly S.db
          ((due.map (fun a => a.expire d.now)).map .attempt) :=
        (steps_expire hnodup hdue).mono (fun _ hl => hl.1)
      have hhandled := Quietly.handled hb hexpire
      rcases List.mem_append.mp ha with ha | ha
      · exact hok.still_owed hev ha (by rw [hhandled])
      · obtain ⟨a, hmem, rfl⟩ := List.mem_map.mp ha
        refine ⟨?_, rfl, ?_⟩
        · rw [applyAll_attempts]
          exact Table.get?_foldl_put hnodup' ha
        · rw [hhandled]
          refine Option.not_isSome_iff_eq_none.mp (fun hsome => ?_)
          obtain ⟨x, hx, hid, hst⟩ := hb.ledger.handled _ hsome
          obtain ⟨hget, hleased⟩ := hdue a hmem
          obtain rfl := Table.eq_of_key_eq hx (Table.mem_of_get? hget) hid
          rw [hleased] at hst
          cases hst
    · rw [List.map_append, List.nodup_append]
      refine ⟨hok.once, hnodup', fun id hid id' hid' heq => ?_⟩
      obtain ⟨a, ha, rfl⟩ := List.mem_map.mp hid
      obtain ⟨a', ha', rfl⟩ := List.mem_map.mp hid'
      obtain ⟨b, hmem, rfl⟩ := List.mem_map.mp ha'
      obtain ⟨hget, hst, -⟩ := hok.owed a ha
      obtain ⟨hget', hleased⟩ := hdue b hmem
      have heq : a.id = b.id := heq
      rw [heq, hget'] at hget
      rw [← Option.some.inj hget, hleased] at hst
      cases hst
  | @outcome i ω a db hi happ =>
    obtain ⟨hlt, rfl⟩ := List.getElem?_eq_some_iff.mp hi
    have hperm := List.getElem_cons_eraseIdx_perm hlt
    have hnodup := ((hperm.map (·.id)).nodup_iff).mpr hok.once
    rw [List.map_cons, List.nodup_cons] at hnodup
    refine ⟨horderly, fun x hx => ?_, hnodup.2, hok.calls⟩
    refine hok.still_owed hev (List.mem_of_mem_eraseIdx hx) ?_
    rw [(happ.kept hb).handled]
    exact Table.get?_put_of_ne (fun heq => hnodup.1 (heq ▸ List.mem_map_of_mem hx))
  | lose hi =>
    exact ⟨horderly, fun x hx => hok.owed x (List.mem_of_mem_eraseIdx hx),
      hok.once.sublist ((List.eraseIdx_sublist _ _).map _), hok.calls⟩
  | arrive =>
    refine ⟨horderly, hok.owed, hok.once, fun c hc => ?_⟩
    rcases List.mem_append.mp hc with hc | hc
    · exact hok.calls c hc
    · rw [List.mem_singleton.mp hc]
      exact claimTask_makes ..
  | claimEnds =>
    exact ⟨horderly, hok.owed, hok.once, fun c hc => hok.calls c (List.mem_of_mem_eraseIdx hc)⟩
  | claimNext hc hprog hexec =>
    have hcalls := hok.calls _ (List.mem_of_getElem? hc)
    rw [hprog] at hcalls
    refine ⟨horderly, fun a ha => hok.still_owed hev ha ?_, hok.once, fun c' hc' => ?_⟩
    · rw [Quietly.handled hb ((hok.byClaim hc hprog hexec).mono (fun _ hl => hl.attends.1))]
    · rcases List.mem_or_eq_of_mem_set hc' with hc' | rfl
      · exact hok.calls c' hc'
      · exact hcalls.2 _
  | claimReturn =>
    exact ⟨horderly, hok.owed, hok.once, fun c hc => hok.calls c (List.mem_of_mem_eraseIdx hc)⟩

theorem Ok.init : System.init.Ok :=
  ⟨.empty, fun _ ha => absurd ha List.not_mem_nil, List.nodup_nil,
    fun _ hc => absurd hc List.not_mem_nil⟩

/-- What holds of the system holds in every state that is reached. -/
theorem Reachable.ok {C : System → Move → Prop} (h : Reachable C S) : S.Ok := by
  induction h with
  | init => exact .init
  | step _ _ hnext ih => exact ih.turn (next_turn ih hnext)

/-- What every move keeps holds in every state that is reached. -/
theorem Reachable.induct {C : System → Move → Prop} {I : System → Prop} (h : Reachable C S)
    (h0 : I System.init)
    (hstep : ∀ S m S', Reachable C S → S.Ok → C S m → Turn S m S' → I S → I S') : I S := by
  induction h with
  | init => exact h0
  | step hS hm hnext ih => exact hstep _ _ _ hS hS.ok hm (next_turn hS.ok hnext) ih

/-- What every action keeps holds of the store in every state that is reached. -/
theorem Reachable.induct_db {C : System → Move → Prop} {I : Db → Prop} (h : Reachable C S)
    (h0 : I Db.empty)
    (hstep : ∀ v l u, Base v → Act l v u → I v → I (backend.applyAll v u)) : I S.db :=
  h.induct (I := fun S => I S.db) h0 (fun _ _ _ _ hok _ hturn hI =>
    (hok.shift hturn).through.induct hok.orderly.base hI
      (fun v l u hb _ hact => hstep v l u hb hact))

end System

end Orchestrator
