import Mathlib.Order.Basic
import Orchestrator.Lib.Program

/-!
# Callers that share a state

Any number of callers make calls, and a call is a program whose requests take effect on
a shared state one by one. Between two requests of a call those of others may come, time
may pass, and a call may be given up. A contract says what requests may ask and what they
are answered, as time goes on. If every call keeps to it, whatever the others do, its
invariant holds along every trace.
-/

namespace Lib

universe u

namespace Program

variable {Op : Type → Type} {ε α β τ : Type} [Preorder τ]

/-- From a time on, every request of the program is one that may be asked, as long as it is
answered as it should be, and what it returns has a property. -/
def Guarantees (asks : τ → {β : Type} → Op β → Prop)
    (answers : τ → {β : Type} → Op β → β → Prop) (Q : τ → α → Prop) :
    Program Op ε α → τ → Prop
  | .ret a, t => Q t a
  | .fail _, _ => True
  | .call op next, t => ∀ t', t ≤ t' → asks t' op ∧
      ∀ t'', t' ≤ t'' → ∀ b, answers t'' op b → (next b).Guarantees asks answers Q t''

variable {asks : τ → {β : Type} → Op β → Prop} {answers : τ → {β : Type} → Op β → β → Prop}
  {Q : τ → α → Prop} {Q' : τ → β → Prop} {t t' : τ}

/-- A guarantee from a time on is one from any later time on. -/
theorem Guarantees.later {p : Program Op ε α} (h : p.Guarantees asks answers Q t) (ht : t ≤ t')
    (hQ : ∀ a, Q t a → Q t' a) : p.Guarantees asks answers Q t' := by
  cases p with
  | ret a => exact hQ a h
  | fail e => trivial
  | call op next => exact fun t'' ht'' => h t'' (ht.trans ht'')

/-- A program may be allowed more requests and promised better answers. -/
theorem Guarantees.mono {asks' : τ → {β : Type} → Op β → Prop}
    {answers' : τ → {β : Type} → Op β → β → Prop} {p : Program Op ε α}
    (h : p.Guarantees asks answers Q t)
    (hasks : ∀ t {β : Type} (op : Op β), asks t op → asks' t op)
    (hanswers : ∀ t {β : Type} (op : Op β) b, answers' t op b → answers t op b) :
    p.Guarantees asks' answers' Q t := by
  induction p generalizing t with
  | ret a => exact h
  | fail e => trivial
  | call op next ih =>
    intro t' ht'
    obtain ⟨hop, hnext⟩ := h t' ht'
    exact ⟨hasks t' op hop, fun t'' ht'' b hb => ih b (hnext t'' ht'' b (hanswers t'' op b hb))⟩

/-- What the first part returns is what the second may rely on. -/
theorem Guarantees.bind {p : Program Op ε α} {f : α → Program Op ε β}
    (h : p.Guarantees asks answers Q t)
    (hf : ∀ a t', t ≤ t' → Q t' a → (f a).Guarantees asks answers Q' t') :
    (p >>= f).Guarantees asks answers Q' t := by
  induction p generalizing t with
  | ret a => exact hf a t le_rfl h
  | fail e => trivial
  | call op next ih =>
    intro t₁ ht₁
    obtain ⟨hasks, hnext⟩ := h t₁ ht₁
    refine ⟨hasks, fun t₂ ht₂ b hb => ih b (hnext t₂ ht₂ b hb) (fun a t₃ ht₃ => ?_)⟩
    exact hf a t₃ (ht₁.trans (ht₂.trans ht₃))

/-- A single request: it may be asked, and its answer is as wanted. -/
theorem Guarantees.request {op : Op α}
    (h : ∀ t', t ≤ t' → asks t' op ∧ ∀ t'', t' ≤ t'' → ∀ a, answers t'' op a → Q t'' a) :
    (Program.request op : Program Op ε α).Guarantees asks answers Q t := h

/-- A request that may be asked whenever, and of whose answer nothing is needed. -/
theorem Guarantees.plain {op : Op α} (h : ∀ t', asks t' op) :
    (Program.request op : Program Op ε α).Guarantees asks answers (fun _ _ => True) t :=
  .request (fun t' _ => ⟨h t', fun _ _ _ _ => trivial⟩)

/-- Make the requests of a program through another interface, which may answer a request
with an error. The program then ends without a value. -/
def attempt {Op' : Type → Type} {ε' : Type} (emb : {β : Type} → Op β → Op' (Option β)) :
    Program Op ε α → Program Op' ε' (Option α)
  | .ret a => .ret (some a)
  | .fail _ => .ret none
  | .call op next => .call (emb op) (fun answer =>
      match answer with
      | none => .ret none
      | some b => (next b).attempt emb)

/-- Requests that may be asked at any time and are answered in any way. -/
theorem Guarantees.attempt {Op' : Type → Type} {ε' : Type}
    {emb : {β : Type} → Op β → Op' (Option β)} {asks : τ → {β : Type} → Op' β → Prop}
    {answers : τ → {β : Type} → Op' β → β → Prop}
    (h : ∀ t {β : Type} (op : Op β), asks t (emb op)) (p : Program Op ε α) (t : τ) :
    (p.attempt emb : Program Op' ε' (Option α)).Guarantees asks answers (fun _ _ => True) t := by
  induction p generalizing t with
  | ret a => trivial
  | fail e => trivial
  | call op next ih =>
    rw [Program.attempt, Guarantees]
    refine fun t' _ => ⟨h t' op, fun t'' _ answer _ => ?_⟩
    cases answer with
    | none => trivial
    | some b => exact ih b t''

/-- The program is over. -/
def isOver : Program Op ε Unit → Bool
  | .ret _ => true
  | _ => false

/-- A program that is over has nothing left to do. -/
theorem eq_ret_of_isOver {p : Program Op ε Unit} (h : p.isOver = true) : p = .ret () := by
  cases p with
  | ret a => rfl
  | _ => cases h

end Program

/-- What becomes of a request that may fail: its caller is told so, or not, although it has
had its effect, or it has had none. -/
inductive Reply
  | answered | lost | refused
  deriving DecidableEq

namespace Reply

variable {σ β : Type}

/-- The answer that arrives, and the state that is left. -/
def result (d : Reply) (s : σ) (answer : β) (s' : σ) : Option β × σ :=
  match d with
  | .answered => (some answer, s')
  | .lost => (none, s')
  | .refused => (none, s)

/-- An answer arrives or not, and the state has changed or not. -/
theorem result_cases (d : Reply) (s s' : σ) (answer : β) :
    ((d.result s answer s').1 = some answer ∨ (d.result s answer s').1 = none) ∧
      ((d.result s answer s').2 = s' ∨ (d.result s answer s').2 = s) := by
  cases d
  · exact ⟨Or.inl rfl, Or.inl rfl⟩
  · exact ⟨Or.inr rfl, Or.inl rfl⟩
  · exact ⟨Or.inr rfl, Or.inr rfl⟩

/-- What holds in all three cases holds of the result. -/
theorem result_elim {P : Option β → σ → Prop} {d : Reply} {s s' : σ} {answer : β}
    (hanswered : P (some answer) s') (hlost : P none s') (hrefused : P none s) :
    P (d.result s answer s').1 (d.result s answer s').2 := by
  cases d with
  | answered => exact hanswered
  | lost => exact hlost
  | refused => exact hrefused

end Reply

/-- A shared state, what requests do to it, how it changes by itself, and the programs that
callers may start. -/
structure Protocol (Op : Type → Type) (κ : Type) (σ : Type u) (D E L : Type) where
  /-- The answer to a request of a caller, and the state that it leaves. -/
  exec : {β : Type} → κ → Op β → D → σ → β × σ
  /-- What may happen to the state besides. -/
  drift : E → σ → σ
  prog : κ → L → Program Op Empty Unit

/-- The shared state and the calls made so far, each with the rest of its program. -/
structure Fleet (Op : Type → Type) (κ : Type) (σ : Type u) : Type (max 1 u) where
  state : σ
  calls : List (κ × Program Op Empty Unit)

/-- What happens next. -/
inductive Occurrence (κ D E L : Type)
  | drift (e : E)
  /-- A caller starts a program. -/
  | start (k : κ) (l : L)
  /-- The next request of a call takes effect. -/
  | exec (i : ℕ) (d : D)
  /-- A call is given up. -/
  | drop (i : ℕ)

namespace Protocol

variable {Op : Type → Type} {κ D E L : Type} {σ : Type u} (P : Protocol Op κ σ D E L)

/-- The effect of an occurrence. -/
def step (S : Fleet Op κ σ) : Occurrence κ D E L → Option (Fleet Op κ σ)
  | .drift e => some { S with state := P.drift e S.state }
  | .start k l => some { S with calls := S.calls ++ [(k, P.prog k l)] }
  | .exec i d =>
    match S.calls[i]? with
    | some (k, .call op next) =>
      some ⟨(P.exec k op d S.state).2, S.calls.set i (k, next (P.exec k op d S.state).1)⟩
    | _ => none
  | .drop i => (S.calls[i]?).map (fun c => { S with calls := S.calls.set i (c.1, .ret ()) })

/-- Occurrences one after the other, each with the state that it meets. -/
inductive Trace : Fleet Op κ σ → List (Fleet Op κ σ × Occurrence κ D E L) → Fleet Op κ σ → Prop
  | nil {S} : Trace S [] S
  | cons {S S₁ S' o xs} : P.step S o = some S₁ → Trace S₁ xs S' → Trace S ((S, o) :: xs) S'

/-- Carry out occurrences, as long as they are possible. -/
def run (S : Fleet Op κ σ) :
    List (Occurrence κ D E L) → Option (List (Fleet Op κ σ × Occurrence κ D E L) × Fleet Op κ σ)
  | [] => some ([], S)
  | o :: os => (P.step S o).bind (fun S₁ => (run S₁ os).map (fun r => ((S, o) :: r.1, r.2)))

/-- A caller carries out a program while nothing else happens. -/
def alone {α : Type} (k : κ) (d : D) : Program Op Empty α → σ → α × σ
  | .ret a, s => (a, s)
  | .fail e, _ => e.elim
  | .call op next, s => alone k d (next (P.exec k op d s).1) (P.exec k op d s).2

/-- A program that returns at once changes nothing. -/
@[simp] theorem alone_pure {α : Type} (k : κ) (d : D) (a : α) (s : σ) :
    P.alone k d (pure a) s = (a, s) := rfl

/-- A single request, carried out alone. -/
@[simp] theorem alone_request {β : Type} (k : κ) (d : D) (op : Op β) (s : σ) :
    P.alone k d (Program.request op) s = P.exec k op d s := rfl

/-- Alone, a sequence is carried out part by part. -/
@[simp] theorem alone_bind {α β : Type} (k : κ) (d : D) (p : Program Op Empty α)
    (f : α → Program Op Empty β) (s : σ) :
    P.alone k d (p >>= f) s = P.alone k d (f (P.alone k d p s).1) (P.alone k d p s).2 := by
  induction p generalizing s with
  | ret a => rfl
  | fail e => exact e.elim
  | call op next ih => exact ih _ _

variable {P} {S S' : Fleet Op κ σ} {xs : List (Fleet Op κ σ × Occurrence κ D E L)}

/-- Running occurrences gives a trace of them. -/
theorem trace_of_run {os : List (Occurrence κ D E L)}
    {r : List (Fleet Op κ σ × Occurrence κ D E L) × Fleet Op κ σ} (h : P.run S os = some r) :
    P.Trace S r.1 r.2 := by
  induction os generalizing S r with
  | nil =>
    obtain rfl := Option.some.inj h
    exact .nil
  | cons o os ih =>
    obtain ⟨S₁, hstep, h⟩ := Option.bind_eq_some_iff.mp h
    obtain ⟨r, hr, rfl⟩ := Option.map_eq_some_iff.mp h
    exact .cons hstep (ih hr)

/-- Traces one after the other. -/
theorem Trace.append {S'' : Fleet Op κ σ} {ys : List (Fleet Op κ σ × Occurrence κ D E L)}
    (h : P.Trace S xs S') (h' : P.Trace S' ys S'') : P.Trace S (xs ++ ys) S'' := by
  induction h with
  | nil => exact h'
  | cons hstep _ ih => exact .cons hstep (ih h')

/-- A trace can be cut where something happens. -/
theorem Trace.cut (h : P.Trace S xs S') {x : Fleet Op κ σ × Occurrence κ D E L} (hx : x ∈ xs) :
    ∃ ys zs S₁, xs = ys ++ x :: zs ∧ P.Trace S ys x.1 ∧ P.step x.1 x.2 = some S₁ ∧
      P.Trace S₁ zs S' := by
  induction h with
  | nil => cases hx
  | @cons S S₁ S' o xs hstep hrest ih =>
    rcases List.mem_cons.mp hx with rfl | hx
    · exact ⟨[], xs, S₁, rfl, .nil, hstep, hrest⟩
    · obtain ⟨ys, zs, S₂, rfl, hys, hx, hzs⟩ := ih hx
      exact ⟨(S, o) :: ys, zs, S₂, rfl, .cons hstep hys, hx, hzs⟩

end Protocol

/-- All calls of `S` are over in `S'`. -/
def Fleet.OverIn {Op : Type → Type} {κ : Type} {σ : Type u} (S S' : Fleet Op κ σ) : Prop :=
  ∀ i < S.calls.length, ∀ c, S'.calls[i]? = some c → c.2 = .ret ()

/-- Calls that are all over include the earlier ones. -/
theorem Fleet.overIn_of_forall {Op : Type → Type} {κ : Type} {σ : Type u} {S S' : Fleet Op κ σ}
    (h : ∀ c ∈ S'.calls, c.2.isOver = true) : S.OverIn S' :=
  fun _ _ c hc => Program.eq_ret_of_isOver (h c (List.mem_of_getElem? hc))

/-- What callers may rely on and have to keep to, in the states and for the occurrences that
are `allowed`. It may be another thing for each call, and the calls `since` are bound by it
from their start. -/
structure Contract {Op : Type → Type} {κ D E L : Type} {σ : Type u} (P : Protocol Op κ σ D E L)
    (τ : Type) [Preorder τ] where
  time : σ → τ
  inv : σ → Prop
  since : ℕ
  asks : ℕ → κ → τ → {β : Type} → Op β → Prop
  answers : ℕ → κ → τ → {β : Type} → Op β → β → Prop
  allowed : σ → Occurrence κ D E L → Prop
  drift : ∀ {s e}, allowed s (.drift e) → inv s → inv (P.drift e s) ∧ time s ≤ time (P.drift e s)
  start : ∀ {s i k l}, since ≤ i → allowed s (.start k l) → inv s →
    (P.prog k l).Guarantees (asks i k) (answers i k) (fun _ _ => True) (time s)
  exec : ∀ {s i d k} {β : Type} {op : Op β}, allowed s (.exec i d) → inv s →
    asks i k (time s) op →
    inv (P.exec k op d s).2 ∧ time s ≤ time (P.exec k op d s).2 ∧
      answers i k (time (P.exec k op d s).2) op (P.exec k op d s).1

namespace Contract

variable {Op : Type → Type} {κ D E L τ : Type} {σ : Type u} [Preorder τ]
  {P : Protocol Op κ σ D E L}
  (C : Contract P τ) {S S' : Fleet Op κ σ}

/-- The state meets the invariant, and every call keeps to the contract from now on. -/
structure Kept (S : Fleet Op κ σ) : Prop where
  inv : C.inv S.state
  since : C.since ≤ S.calls.length
  calls : ∀ (i : ℕ) (c : κ × Program Op Empty Unit), S.calls[i]? = some c →
    c.2.Guarantees (C.asks i c.1) (C.answers i c.1) (fun _ _ => True) (C.time S.state)

variable {C}

/-- An entry of an updated list is the new one or was there before. -/
theorem getElem?_set_cases {α : Type*} {l : List α} {i j : ℕ} {a b : α}
    (h : (l.set i a)[j]? = some b) : (i = j ∧ b = a) ∨ l[j]? = some b := by
  rw [List.getElem?_set] at h
  split_ifs at h with hij hlt
  · exact Or.inl ⟨hij, (Option.some.inj h).symm⟩
  · exact Or.inr h

/-- A contract that is kept stays so when something happens. -/
theorem Kept.step (h : C.Kept S) {o : Occurrence κ D E L} (ho : C.allowed S.state o)
    (hstep : P.step S o = some S') : C.Kept S' := by
  cases o with
  | drift e =>
    obtain rfl := Option.some.inj hstep
    obtain ⟨hinv, htime⟩ := C.drift ho h.inv
    exact ⟨hinv, h.since, fun i c hc => (h.calls i c hc).later htime (fun _ _ => trivial)⟩
  | start k l =>
    obtain rfl := Option.some.inj hstep
    refine ⟨h.inv, Nat.le_trans h.since (List.sublist_append_left _ _).length_le,
      fun i c hc => ?_⟩
    rw [List.getElem?_append] at hc
    split_ifs at hc with hi
    · exact h.calls i c hc
    · obtain rfl := List.mem_singleton.mp (List.mem_of_getElem? hc)
      exact C.start (Nat.le_trans h.since (Nat.le_of_not_lt hi)) ho h.inv
  | exec i d =>
    simp only [Protocol.step] at hstep
    split at hstep
    · rename_i k β op next hi
      obtain rfl := Option.some.inj hstep
      obtain ⟨hasks, hnext⟩ := h.calls i _ hi _ le_rfl
      obtain ⟨hinv, htime, hanswers⟩ := C.exec ho h.inv hasks
      refine ⟨hinv, by simpa using h.since, fun j c hc => ?_⟩
      rcases getElem?_set_cases hc with ⟨rfl, rfl⟩ | hc
      · exact hnext _ htime _ hanswers
      · exact (h.calls j c hc).later htime (fun _ _ => trivial)
    · cases hstep
  | drop i =>
    simp only [Protocol.step] at hstep
    cases hi : S.calls[i]? with
    | none =>
      rw [hi] at hstep
      cases hstep
    | some c =>
      rw [hi] at hstep
      obtain rfl := Option.some.inj hstep
      refine ⟨h.inv, by simpa using h.since, fun j c' hc' => ?_⟩
      rcases getElem?_set_cases hc' with ⟨-, rfl⟩ | hc'
      · trivial
      · exact h.calls j c' hc'

/-- A contract that is kept stays so along every trace. -/
theorem Kept.trace (h : C.Kept S) {xs : List (Fleet Op κ σ × Occurrence κ D E L)}
    (htrace : P.Trace S xs S') (hxs : ∀ x ∈ xs, C.allowed x.1.state x.2) : C.Kept S' := by
  induction htrace with
  | nil => exact h
  | cons hstep _ ih =>
    obtain ⟨hx, hxs⟩ := List.forall_mem_cons.mp hxs
    exact ih (h.step hx hstep) hxs

end Contract

end Lib
