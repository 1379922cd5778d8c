import Mathlib.Data.Int.Notation
import Mathlib.Data.Nat.Basic
import Mathlib.Logic.Relation
import Mathlib.Order.Basic
import Orchestrator.Lib.Program

/-!
# The leader lock

`internal/lock/redislock/redislock.go`. A lock is a key in Redis whose value is the
identifier of its holder and which Redis drops when its time to live has elapsed. Each
command is executed atomically, at the time of one clock, and the commands of different
calls interleave. Times and durations are in nanoseconds, as in `time.Duration`. Redis
takes a time to live in milliseconds.
-/

namespace Orchestrator.Redislock

open Lib Program

/-- `time.Millisecond`. -/
def millisecond : ℕ := 1000000

/-- The key of the lock. One that was set without a time to live stays. -/
structure Key where
  value : String
  expiresAt : Option ℕ
  deriving DecidableEq

/-- What the commands find at a time: a key whose time to live has elapsed is dropped. -/
def current (now : ℕ) (key : Option Key) : Option Key :=
  key.filter (fun k => k.expiresAt.all (fun t => decide (now < t)))

/-- The commands on the key. Scripts answer with a number. -/
inductive Command : Type → Type
  /-- `SET NX`, with the expiration that the client is given. -/
  | setNX (holderID : String) (expiration : ℕ) : Command Bool
  | renewScript (holderID : String) (ms : ℕ) : Command ℤ
  | releaseScript (holderID : String) : Command ℤ

/-- The argument of `PX`: the client sends whole milliseconds, and at least one. -/
def formatMs (d : ℕ) : ℕ := if d < millisecond then 1 else d / millisecond

/-- `PEXPIRE` on a key. A time to live of zero has elapsed at once. -/
def pexpire (now ms : ℕ) (k : Key) : Option Key :=
  if ms = 0 then none else some { k with expiresAt := some (now + ms * millisecond) }

/-- The answer to a command at a time, and the key that it leaves. -/
def Command.exec : {β : Type} → Command β → ℕ → Option Key → β × Option Key
  | _, .setNX holderID expiration, now, key =>
    match current now key with
    | some k => (false, some k)
    | none =>
      -- Without an expiration the client sends `SETNX`.
      let expiresAt := if expiration = 0 then none
        else some (now + formatMs expiration * millisecond)
      (true, some ⟨holderID, expiresAt⟩)
  | _, .renewScript holderID ms, now, key =>
    match current now key with
    | some k => if k.value = holderID then (1, pexpire now ms k) else (0, some k)
    | none => (0, none)
  | _, .releaseScript holderID, now, key =>
    match current now key with
    | some k => if k.value = holderID then (1, none) else (0, some k)
    | none => (0, none)

/-- A call ends with an error if a command is not executed, or its answer is lost. -/
inductive Failure
  | notExecuted | answerLost

/-- A `Lock`. All locks here are on the same key. -/
structure Lock where
  holderID : String
  ttl : ℕ

/-- `ttl.Milliseconds()`. -/
def Lock.milliseconds (l : Lock) : ℕ := l.ttl / millisecond

/-- `Renew`. -/
def Lock.renew (l : Lock) : Program Command Failure Bool := do
  let res ← request (.renewScript l.holderID l.milliseconds)
  pure (decide (res = 1))

/-- `TryAcquire`. -/
def Lock.tryAcquire (l : Lock) : Program Command Failure Bool := do
  let ok ← request (.setNX l.holderID l.ttl)
  if ok then pure true else l.renew

/-- `Release`. -/
def Lock.release (l : Lock) : Program Command Failure Unit := do
  let _ ← request (.releaseScript l.holderID)
  pure ()

/-- The methods of a lock. -/
inductive Method
  | tryAcquire | renew | release
  deriving DecidableEq

/-- The call of a method, with the answer of the two that return one. -/
def Method.prog (l : Lock) : Method → Program Command Failure (Option Bool)
  | .tryAcquire => do
    let ok ← l.tryAcquire
    pure (some ok)
  | .renew => do
    let ok ← l.renew
    pure (some ok)
  | .release => do
    l.release
    pure none

/-- A call in progress, or one that has ended. -/
structure Call where
  lock : Lock
  prog : Program Command Failure (Option Bool)

/-- Redis, its clock, and the calls that have been made so far. -/
structure Cluster where
  now : ℕ
  key : Option Key
  calls : List Call

/-- What happens next. -/
inductive Event
  /-- Time passes. -/
  | pass (duration : ℕ)
  /-- A holder calls a method. -/
  | call (holderID : String) (method : Method)
  /-- The next command of a call is executed. Its answer may be lost on the way back. -/
  | exec (i : ℕ) (answered : Bool)
  /-- A call gives up before its next command. -/
  | giveUp (i : ℕ)
  deriving DecidableEq

/-- The effect of an event. The locks have the same `ttl`. -/
def Cluster.step (ttl : ℕ) (S : Cluster) : Event → Option Cluster
  | .pass duration => some { S with now := S.now + duration }
  | .call holderID method =>
    let l : Lock := ⟨holderID, ttl⟩
    some { S with calls := S.calls ++ [⟨l, method.prog l⟩] }
  | .exec i answered =>
    match S.calls[i]? with
    | some ⟨l, .call op next⟩ =>
      let (answer, key) := op.exec S.now S.key
      let rest := if answered then next answer else .fail .answerLost
      some { S with key, calls := S.calls.set i ⟨l, rest⟩ }
    | _ => none
  | .giveUp i =>
    match S.calls[i]? with
    | some ⟨l, .call _ _⟩ => some { S with calls := S.calls.set i ⟨l, .fail .notExecuted⟩ }
    | _ => none

/-- The clusters that are reached from one without calls, whatever the key is. -/
inductive Reachable (ttl : ℕ) : Cluster → Prop
  | init (now : ℕ) (key : Option Key) : Reachable ttl ⟨now, key, []⟩
  | step {S S' : Cluster} {e : Event} : Reachable ttl S → S.step ttl e = some S' →
      Reachable ttl S'

/-- The event is a command that makes a call of the holder return true. -/
def Succeeds (A : String) (S : Cluster) (e : Event) (S' : Cluster) : Prop :=
  ∃ i c c', e = .exec i true ∧ S.calls[i]? = some c ∧ c.lock.holderID = A ∧
    S'.calls[i]? = some c' ∧ c'.prog = .ret (some true)

/-- The event is a command of the holder. -/
def Commands (A : String) (S : Cluster) (e : Event) : Prop :=
  ∃ i answered c, e = .exec i answered ∧ S.calls[i]? = some c ∧ c.lock.holderID = A

/-- The event is the command of a `Release` of the holder. -/
def Releases (A : String) (S : Cluster) (e : Event) : Prop :=
  ∃ i answered c next, e = .exec i answered ∧ S.calls[i]? = some c ∧
    c.prog = .call (.releaseScript A) next

/-- The second cluster is reached from the first without a `Release` of the holder. -/
def Keeps (ttl : ℕ) (A : String) : Cluster → Cluster → Prop :=
  Relation.ReflTransGen (fun S S' => ∃ e, S.step ttl e = some S' ∧ ¬ Releases A S e)

section Calls

variable {ttl : ℕ} {S S' : Cluster} {l : Lock}

/-- How far a call has come. -/
inductive Stage (l : Lock) : Program Command Failure (Option Bool) → Prop
  | acquiring : Stage l (Method.tryAcquire.prog l)
  | renewing : Stage l (Method.renew.prog l)
  | releasing : Stage l (Method.release.prog l)
  | returned (r : Option Bool) : Stage l (.ret r)
  | failed (e : Failure) : Stage l (.fail e)

/-- Every call has come to a stage of its lock, and the locks have the same `ttl`. -/
def Staged (ttl : ℕ) (S : Cluster) : Prop :=
  ∀ c ∈ S.calls, c.lock.ttl = ttl ∧ Stage c.lock c.prog

/-- The commands that a call may execute, and how it goes on. -/
inductive Executes (l : Lock) (now : ℕ) (key : Option Key) :
    Option Key → Program Command Failure (Option Bool) → Prop
  | granted : current now key = none → Executes l now key
      ((Command.setNX l.holderID l.ttl).exec now key).2 (.ret (some true))
  | held {k : Key} : current now key = some k → Executes l now key (some k) (Method.renew.prog l)
  | renew : Executes l now key
      ((Command.renewScript l.holderID l.milliseconds).exec now key).2
      (.ret (some (decide (((Command.renewScript l.holderID l.milliseconds).exec now key).1 = 1))))
  | release : Executes l now key ((Command.releaseScript l.holderID).exec now key).2 (.ret none)

/-- The next command of a call that has come to a stage. -/
theorem Stage.exec {β : Type} {op : Command β} {next : β → Program Command Failure (Option Bool)}
    (h : Stage l (.call op next)) (now : ℕ) (key : Option Key) :
    Executes l now key (op.exec now key).2 (next (op.exec now key).1) ∧
      (next (op.exec now key).1 = .ret none →
        ∃ next', Program.call op next = .call (.releaseScript l.holderID) next') := by
  generalize hprog : Program.call op next = p at h
  cases h with
  | acquiring =>
    cases hprog
    cases hcur : current now key with
    | none =>
      have hanswer : ((Command.setNX l.holderID l.ttl).exec now key).1 = true := by
        simp [Command.exec, hcur]
      rw [hanswer]
      exact ⟨.granted hcur, fun h => by cases h⟩
    | some k =>
      have hexec : (Command.setNX l.holderID l.ttl).exec now key = (false, some k) := by
        simp [Command.exec, hcur]
      rw [hexec]
      exact ⟨.held hcur, fun h => by cases h⟩
  | renewing =>
    cases hprog
    exact ⟨.renew, fun h => by cases h⟩
  | releasing =>
    cases hprog
    exact ⟨.release, fun _ => ⟨_, rfl⟩⟩
  | returned r => cases hprog
  | failed e => cases hprog

/-- A call has come to another stage when its command has been executed. -/
theorem Executes.stage {now : ℕ} {key key' : Option Key}
    {rest : Program Command Failure (Option Bool)} (h : Executes l now key key' rest) :
    Stage l rest := by
  cases h with
  | granted => exact .returned _
  | held => exact .renewing
  | renew => exact .returned _
  | release => exact .returned _

/-- What the execution of a command does. -/
theorem Staged.exec (h : Staged ttl S) {i : ℕ} {answered : Bool}
    (hstep : S.step ttl (.exec i answered) = some S') :
    ∃ c key rest, S.calls[i]? = some c ∧ c.lock.ttl = ttl ∧
      Executes c.lock S.now S.key key rest ∧
      (rest = .ret none → Releases c.lock.holderID S (.exec i answered)) ∧
      S' = { S with
        key := key
        calls := S.calls.set i ⟨c.lock, if answered then rest else .fail .answerLost⟩ } := by
  simp only [Cluster.step] at hstep
  split at hstep
  · rename_i l β op next hcall
    obtain ⟨httl, hstage⟩ := h _ (List.mem_of_getElem? hcall)
    obtain ⟨hexec, hrelease⟩ := hstage.exec S.now S.key
    refine ⟨_, _, _, hcall, httl, hexec, fun hnone => ?_, (Option.some.inj hstep).symm⟩
    obtain ⟨next', hprog⟩ := hrelease hnone
    exact ⟨i, answered, _, next', rfl, hcall, hprog⟩
  · cases hstep

/-- Every call that is made has come to a stage. -/
theorem Reachable.staged (h : Reachable ttl S) : Staged ttl S := by
  induction h with
  | init now key => exact fun c hc => absurd hc List.not_mem_nil
  | @step S S' e _ hstep ih =>
    have hset : ∀ {i : ℕ} {c : Call} {rest : Program Command Failure (Option Bool)},
        S.calls[i]? = some c → Stage c.lock rest →
        ∀ x ∈ S.calls.set i ⟨c.lock, rest⟩, x.lock.ttl = ttl ∧ Stage x.lock x.prog := by
      intro i c rest hc hstage x hx
      rcases List.mem_or_eq_of_mem_set hx with hx | rfl
      · exact ih x hx
      · exact ⟨(ih c (List.mem_of_getElem? hc)).1, hstage⟩
    cases e with
    | pass duration =>
      obtain rfl := Option.some.inj hstep
      exact ih
    | call holderID method =>
      obtain rfl := Option.some.inj hstep
      intro c hc
      rcases List.mem_append.mp hc with hc | hc
      · exact ih c hc
      · obtain rfl := List.mem_singleton.mp hc
        cases method with
        | tryAcquire => exact ⟨rfl, .acquiring⟩
        | renew => exact ⟨rfl, .renewing⟩
        | release => exact ⟨rfl, .releasing⟩
    | exec i answered =>
      obtain ⟨c, key, rest, hc, -, hexec, -, rfl⟩ := ih.exec hstep
      refine hset hc ?_
      split_ifs
      · exact hexec.stage
      · exact .failed _
    | giveUp i =>
      simp only [Cluster.step] at hstep
      split at hstep
      · rename_i l β op next hcall
        obtain rfl := Option.some.inj hstep
        exact hset hcall (.failed _)
      · cases hstep

end Calls

section Exclusion

variable {ttl t now : ℕ} {A : String} {l : Lock} {key key' : Option Key}
  {rest : Program Command Failure (Option Bool)} {S S' : Cluster}

/-- The key is the holder's at least until the time. -/
def Held (A : String) (until' : ℕ) (key : Option Key) : Prop :=
  ∃ k, key = some k ∧ k.value = A ∧ ∀ e, k.expiresAt = some e → until' ≤ e

/-- A key that is held is there. -/
theorem Held.current {u : ℕ} (h : Held A u key) (hnow : now < u) :
    ∃ k, key = some k ∧ current now key = some k ∧ k.value = A := by
  obtain ⟨k, rfl, hvalue, hexpires⟩ := h
  refine ⟨k, rfl, Option.filter_eq_some_iff.mpr ⟨rfl, ?_⟩, hvalue⟩
  cases he : k.expiresAt with
  | none => rfl
  | some e => exact decide_eq_true (Nat.lt_of_lt_of_le hnow (hexpires e he))

/-- Commands of others leave a key alone that is held, and no call of theirs succeeds. -/
theorem Executes.other (h : Executes l now key key' rest) {u : ℕ} (hheld : Held A u key)
    (hnow : now < u) (hne : l.holderID ≠ A) : key' = key ∧ rest ≠ .ret (some true) := by
  obtain ⟨k, rfl, hcur, rfl⟩ := hheld.current hnow
  cases h with
  | granted hnone =>
    rw [hcur] at hnone
    cases hnone
  | held hk =>
    rw [hcur] at hk
    exact ⟨hk.symm, fun hret => by cases hret⟩
  | renew =>
    have hexec : (Command.renewScript l.holderID l.milliseconds).exec now (some k) =
        (0, some k) := by
      simp [Command.exec, hcur, Ne.symm hne]
    rw [hexec]
    exact ⟨rfl, fun hret => by simp at hret⟩
  | release =>
    have hexec : (Command.releaseScript l.holderID).exec now (some k) = (0, some k) := by
      simp [Command.exec, hcur, Ne.symm hne]
    rw [hexec]
    exact ⟨rfl, fun hret => by cases hret⟩

/-- The time to live that `PEXPIRE` and `PX` get is the `ttl` of the lock. -/
theorem milliseconds_mul (hms : millisecond ∣ l.ttl) : l.milliseconds * millisecond = l.ttl :=
  Nat.div_mul_cancel hms

/-- `Renew` of the holder. -/
theorem exec_renew {k : Key} (hcur : current now key = some k) (hvalue : k.value = l.holderID)
    (hms : millisecond ∣ l.ttl) (hpos : 0 < l.ttl) :
    (Command.renewScript l.holderID l.milliseconds).exec now key =
      (1, some { k with expiresAt := some (now + l.ttl) }) := by
  have hne : l.milliseconds ≠ 0 := by
    intro hzero
    have hmul := milliseconds_mul hms
    rw [hzero] at hmul
    omega
  simp [Command.exec, hcur, hvalue, pexpire, hne, milliseconds_mul hms]

/-- A command of the holder other than that of a `Release` leaves the key held. -/
theorem Executes.own (h : Executes l now key key' rest) (hms : millisecond ∣ l.ttl)
    (hheld : Held l.holderID (t + l.ttl) key) (hfrom : t ≤ now) (hnow : now < t + l.ttl)
    (hrest : rest ≠ .ret none) : Held l.holderID (t + l.ttl) key' := by
  obtain ⟨k, hkey, hcur, hvalue⟩ := hheld.current hnow
  cases h with
  | granted hnone =>
    rw [hcur] at hnone
    cases hnone
  | held hk =>
    rw [← hk, hcur, ← hkey]
    exact hheld
  | renew =>
    rw [exec_renew hcur hvalue hms (by omega)]
    refine ⟨_, rfl, hvalue, fun e he => ?_⟩
    obtain rfl := Option.some.inj he
    omega
  | release => exact absurd rfl hrest

/-- A command that makes a call return true leaves the key held for the `ttl`. -/
theorem Executes.success (h : Executes l now key key' rest) (hrest : rest = .ret (some true))
    (hms : millisecond ∣ l.ttl) (hpos : 0 < l.ttl) : Held l.holderID (now + l.ttl) key' := by
  cases h with
  | granted hnone =>
    have hle : ¬ l.ttl < millisecond := not_lt.mpr (Nat.le_of_dvd hpos hms)
    have hne : l.ttl ≠ 0 := by omega
    have hexec : ((Command.setNX l.holderID l.ttl).exec now key).2 =
        some ⟨l.holderID, some (now + l.ttl)⟩ := by
      simp [Command.exec, hnone, hne, formatMs, hle, Nat.div_mul_cancel hms]
    rw [hexec]
    exact ⟨_, rfl, rfl, fun e he => (Option.some.inj he).le⟩
  | held hk => cases hrest
  | renew =>
    cases hcur : current now key with
    | none => simp [Command.exec, hcur] at hrest
    | some k =>
      by_cases hvalue : k.value = l.holderID
      · rw [exec_renew hcur hvalue hms hpos]
        exact ⟨_, rfl, hvalue, fun e he => (Option.some.inj he).le⟩
      · simp [Command.exec, hcur, hvalue] at hrest
  | release => cases hrest

/-- Time does not go back. -/
theorem now_le_of_step {e : Event} (h : S.step ttl e = some S') : S.now ≤ S'.now := by
  cases e with
  | pass duration =>
    obtain rfl := Option.some.inj h
    exact Nat.le_add_right _ _
  | call holderID method =>
    obtain rfl := Option.some.inj h
    exact le_rfl
  | exec i answered =>
    simp only [Cluster.step] at h
    split at h
    · obtain rfl := Option.some.inj h
      exact le_rfl
    · cases h
  | giveUp i =>
    simp only [Cluster.step] at h
    split at h
    · obtain rfl := Option.some.inj h
      exact le_rfl
    · cases h

/-- The key stays held as long as its holder does not release it. -/
theorem held_of_step (hS : Staged ttl S) (hms : millisecond ∣ ttl) {e : Event}
    (hstep : S.step ttl e = some S') (hrelease : ¬ Releases A S e) (hfrom : t ≤ S.now)
    (hnow : S.now < t + ttl) (hheld : Held A (t + ttl) S.key) : Held A (t + ttl) S'.key := by
  cases e with
  | pass duration =>
    obtain rfl := Option.some.inj hstep
    exact hheld
  | call holderID method =>
    obtain rfl := Option.some.inj hstep
    exact hheld
  | exec i answered =>
    obtain ⟨c, key, rest, hc, rfl, hexec, hnone, rfl⟩ := hS.exec hstep
    by_cases hown : c.lock.holderID = A
    · subst hown
      exact hexec.own hms hheld hfrom hnow (fun hrest => hrelease (hnone hrest))
    · rw [show key = S.key from (hexec.other hheld hnow hown).1]
      exact hheld
  | giveUp i =>
    simp only [Cluster.step] at hstep
    split at hstep
    · obtain rfl := Option.some.inj hstep
      exact hheld
    · cases hstep

theorem now_le_of_keeps (h : Keeps ttl A S S') : S.now ≤ S'.now := by
  induction h with
  | refl => exact le_rfl
  | tail _ hstep ih =>
    obtain ⟨e, hstep, -⟩ := hstep
    exact ih.trans (now_le_of_step hstep)

/-- From a success of the holder on, the key is held for the `ttl` unless it is released. -/
theorem held_of_keeps (hS : Reachable ttl S) (hms : millisecond ∣ ttl) (hkeeps : Keeps ttl A S S')
    (hfrom : t ≤ S.now) (hheld : Held A (t + ttl) S.key) :
    Reachable ttl S' ∧ (S'.now < t + ttl → Held A (t + ttl) S'.key) := by
  induction hkeeps with
  | refl => exact ⟨hS, fun _ => hheld⟩
  | tail hpast hstep ih =>
    obtain ⟨e, hstep, hrelease⟩ := hstep
    obtain ⟨hreach, hheld⟩ := ih
    refine ⟨.step hreach hstep, fun hnow => ?_⟩
    have hnow := (now_le_of_step hstep).trans_lt hnow
    exact held_of_step hreach.staged hms hstep hrelease (hfrom.trans (now_le_of_keeps hpast)) hnow
      (hheld hnow)

/-- If the `ttl` is a whole number of milliseconds, a command that makes a call of a holder
return true keeps the others out for the `ttl`, unless the holder releases the lock: no
command makes a call of another holder return true, and no command of another holder
changes the key. -/
theorem lock_excludes_others (hms : millisecond ∣ ttl) {S₀ S₁ S₂ S₃ : Cluster} {e₀ e : Event}
    (hreach : Reachable ttl S₀) (hstep₀ : S₀.step ttl e₀ = some S₁)
    (hsuccess : Succeeds A S₀ e₀ S₁) (hkeeps : Keeps ttl A S₁ S₂)
    (hstep : S₂.step ttl e = some S₃) (hnow : S₂.now < S₀.now + ttl) :
    ∀ B, B ≠ A → ¬ Succeeds B S₂ e S₃ ∧ (Commands B S₂ e → S₃.key = S₂.key) := by
  have hle₀ := now_le_of_step hstep₀
  have hle₁ := now_le_of_keeps hkeeps
  obtain ⟨i, c, c', rfl, hc, rfl, hc', hret⟩ := hsuccess
  -- The success leaves the key held.
  obtain ⟨d, key, rest, hd, rfl, hexec, -, rfl⟩ := hreach.staged.exec hstep₀
  obtain rfl := Option.some.inj (hc.symm.trans hd)
  have hi : i < S₀.calls.length := (List.getElem?_eq_some_iff.mp hc).1
  have hrest : rest = .ret (some true) := by
    rw [List.getElem?_set_self hi] at hc'
    rw [← hret, ← Option.some.inj hc']
    rfl
  have hheld : Held c.lock.holderID (S₀.now + c.lock.ttl) key :=
    hexec.success hrest hms (by omega)
  obtain ⟨hreach₂, hheld₂⟩ := held_of_keeps (.step hreach hstep₀) hms hkeeps hle₀ hheld
  have hheld₂ := hheld₂ hnow
  intro B hB
  -- So a command of another holder finds it.
  have hother : ∀ {j answered c₂}, e = .exec j answered → S₂.calls[j]? = some c₂ →
      c₂.lock.holderID = B → S₃.key = S₂.key ∧
        ∀ c₃, S₃.calls[j]? = some c₃ → c₃.prog ≠ .ret (some true) := by
    rintro j answered c₂ rfl hc₂ rfl
    obtain ⟨d, key, rest, hd, -, hexec, -, rfl⟩ := hreach₂.staged.exec hstep
    obtain rfl := Option.some.inj (hc₂.symm.trans hd)
    obtain ⟨hkey, hrest⟩ := hexec.other hheld₂ hnow hB
    refine ⟨hkey, fun c₃ hc₃ => ?_⟩
    rw [List.getElem?_set_self (List.getElem?_eq_some_iff.mp hc₂).1] at hc₃
    obtain rfl := Option.some.inj hc₃
    dsimp only
    split_ifs
    · exact hrest
    · exact fun hret => by cases hret
  constructor
  · rintro ⟨j, c₂, c₃, he, hc₂, hown, hc₃, hret⟩
    exact (hother he hc₂ hown).2 c₃ hc₃ hret
  · rintro ⟨j, answered, c₂, he, hc₂, hown⟩
    exact (hother he hc₂ hown).1

/-- The events in their order. -/
def run (ttl : ℕ) : List Event → Cluster → Option Cluster
  | [], S => some S
  | e :: es, S => (S.step ttl e).bind (run ttl es)

/-- Run a list of events from a cluster that has neither a key nor calls. -/
def runNew (ttl : ℕ) (es : List Event) : Option Cluster := run ttl es ⟨0, none, []⟩

theorem Reachable.run (h : Reachable ttl S) {es : List Event}
    (hrun : Redislock.run ttl es S = some S') : Reachable ttl S' := by
  induction es generalizing S with
  | nil => exact Option.some.inj hrun ▸ h
  | cons e es ih =>
    obtain ⟨S₁, hstep, hrest⟩ := Option.bind_eq_some_iff.mp hrun
    exact ih (.step h hstep) hrest

end Exclusion

/-- With a `ttl` of 15 seconds `b` does not get the lock that `a` has. -/
theorem lock_excludes_others_leader : ∃ S₀ S₁ S₂ S₃,
    runNew 15000000000 [.call "a" .tryAcquire, .call "b" .tryAcquire] = some S₀ ∧
    S₀.step 15000000000 (.exec 0 true) = some S₁ ∧ Succeeds "a" S₀ (.exec 0 true) S₁ ∧
    S₁.step 15000000000 (.pass 14999999999) = some S₂ ∧
    S₂.step 15000000000 (.exec 1 true) = some S₃ ∧
    ¬ Succeeds "b" S₂ (.exec 1 true) S₃ ∧ S₃.key = S₂.key := by
  have hexcludes : ∀ S₀ S₁ S₂ S₃,
      runNew 15000000000 [.call "a" .tryAcquire, .call "b" .tryAcquire] = some S₀ →
      S₀.step 15000000000 (.exec 0 true) = some S₁ → Succeeds "a" S₀ (.exec 0 true) S₁ →
      S₁.step 15000000000 (.pass 14999999999) = some S₂ →
      S₂.step 15000000000 (.exec 1 true) = some S₃ → S₂.now < S₀.now + 15000000000 →
      Commands "b" S₂ (.exec 1 true) →
      ¬ Succeeds "b" S₂ (.exec 1 true) S₃ ∧ S₃.key = S₂.key := by
    intro S₀ S₁ S₂ S₃ h₀ hstep₀ hsuccess hpass hstep hnow hcommand
    have hkeeps : Keeps 15000000000 "a" S₁ S₂ := by
      refine .single ⟨.pass 14999999999, hpass, ?_⟩
      rintro ⟨i, answered, c, next, he, -⟩
      cases he
    have hb := lock_excludes_others (by decide) (.run (.init 0 none) h₀) hstep₀ hsuccess hkeeps
      hstep hnow "b" (by decide)
    exact ⟨hb.1, hb.2 hcommand⟩
  refine ⟨_, _, _, _, rfl, rfl, ⟨0, _, _, rfl, rfl, rfl, rfl, rfl⟩, rfl, rfl, ?_⟩
  exact hexcludes _ _ _ _ rfl rfl ⟨0, _, _, rfl, rfl, rfl, rfl, rfl⟩ rfl rfl (by decide)
    ⟨1, true, _, rfl, rfl, rfl⟩

/-- With a `ttl` below a millisecond `Renew` asks for a time to live of zero. Redis drops
the key and the script answers that it was renewed, so `a` and `b` both succeed at the
same time. -/
theorem renew_drops_lock : ∃ S₀ S₁ S₂ S₃,
    runNew 500000 [.call "a" .tryAcquire, .exec 0 true, .call "a" .renew,
      .call "b" .tryAcquire] = some S₀ ∧
    S₀.step 500000 (.exec 1 true) = some S₁ ∧ Succeeds "a" S₀ (.exec 1 true) S₁ ∧
    Keeps 500000 "a" S₁ S₂ ∧ S₂.now < S₀.now + 500000 ∧
    S₂.step 500000 (.exec 2 true) = some S₃ ∧ Succeeds "b" S₂ (.exec 2 true) S₃ :=
  ⟨_, _, _, _, rfl, rfl, ⟨1, _, _, rfl, rfl, rfl, rfl, rfl⟩, .refl, by decide, rfl,
    ⟨2, _, _, rfl, rfl, rfl, rfl, rfl⟩⟩

end Orchestrator.Redislock
