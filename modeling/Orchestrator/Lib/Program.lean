import Mathlib.Logic.Function.Basic
import Mathlib.Tactic.Common

/-!
# Programs over a database interface

A program is a tree of calls to an interface `Op` whose continuations depend on
the answers. A backend says what one call answers and which rows it writes when
it is executed against a given state. Writes are collected in order, so a
program can be executed as one transaction: the calls see the initial state
with the program's own writes on top, and the writes take effect together.
-/

namespace Lib

/-- A program that calls `Op`, and returns a value or fails. -/
inductive Program (Op : Type → Type) (ε α : Type) : Type 1 where
  /-- Return a value. -/
  | ret (a : α)
  /-- Fail with an error. -/
  | fail (e : ε)
  /-- Make a call and continue with its answer. -/
  | call {β : Type} (op : Op β) (next : β → Program Op ε α)

namespace Program

variable {Op : Type → Type} {ε α β γ : Type}

/-- Sequential composition. -/
def bind : Program Op ε α → (α → Program Op ε β) → Program Op ε β
  | .ret a, f => f a
  | .fail e, _ => .fail e
  | .call op next, f => .call op (fun b => (next b).bind f)

instance : Monad (Program Op ε) where
  pure := .ret
  bind := bind

/-- The program that makes one call and returns its answer. -/
def request (op : Op β) : Program Op ε β := .call op .ret

/-- Returning in the monad is the constructor `ret`. -/
@[simp] theorem pure_eq_ret (a : α) : (pure a : Program Op ε α) = .ret a := rfl

/-- A program that has returned hands its value on. -/
@[simp] theorem ret_bind (a : α) (f : α → Program Op ε β) : (Program.ret a >>= f) = f a := rfl

/-- A failure skips what follows. -/
@[simp] theorem fail_bind (e : ε) (f : α → Program Op ε β) : (Program.fail e >>= f) = .fail e := rfl

/-- Sequencing goes under the request that is waited for. -/
@[simp] theorem call_bind (op : Op γ) (next : γ → Program Op ε α) (f : α → Program Op ε β) :
    (Program.call op next >>= f) = .call op (fun c => next c >>= f) := rfl

/-- A single request followed by its continuation. -/
@[simp] theorem request_bind (op : Op γ) (f : γ → Program Op ε β) :
    ((request op : Program Op ε γ) >>= f) = .call op f := rfl

/-- Sequencing is associative; the rest of the monad laws hold by definition. -/
theorem bind_assoc (p : Program Op ε α) (f : α → Program Op ε β) (g : β → Program Op ε γ) :
    (p >>= f) >>= g = p >>= fun a => f a >>= g := by
  induction p with
  | ret a => rfl
  | fail e => rfl
  | call op next ih =>
    simp only [call_bind]
    congr 1
    funext c
    exact ih c

/-- Every call that the program may make has a property. -/
def Calls (φ : {β : Type} → Op β → Prop) : Program Op ε α → Prop
  | .ret _ => True
  | .fail _ => True
  | .call op next => φ op ∧ ∀ b, (next b).Calls φ

/-- Requests that are all `φ` are all `ψ` where `φ` implies it. -/
theorem Calls.mono {φ ψ : {β : Type} → Op β → Prop} {p : Program Op ε α} (h : p.Calls φ)
    (hφ : ∀ {β : Type} (op : Op β), φ op → ψ op) : p.Calls ψ := by
  induction p with
  | ret a => trivial
  | fail e => trivial
  | call op next ih => exact ⟨hφ op h.1, fun b => ih b (h.2 b)⟩

/-- The requests of a sequence are those of its parts. -/
theorem Calls.bind {φ : {β : Type} → Op β → Prop} {p : Program Op ε α}
    {f : α → Program Op ε β} (hp : p.Calls φ) (hf : ∀ a, (f a).Calls φ) : (p >>= f).Calls φ := by
  induction p with
  | ret a => exact hf a
  | fail e => trivial
  | call op next ih => exact ⟨hp.1, fun c => ih c (hp.2 c)⟩

/-- The requests of a loop are those of its rounds. -/
theorem Calls.foldlM {φ : {β : Type} → Op β → Prop} {f : β → γ → Program Op ε β} {l : List γ}
    (hf : ∀ b c, c ∈ l → (f b c).Calls φ) (b : β) : (l.foldlM f b).Calls φ := by
  induction l generalizing b with
  | nil => trivial
  | cons c l ih =>
    rw [List.foldlM_cons]
    exact (hf b c List.mem_cons_self).bind
      (ih (fun b c' hc' => hf b c' (List.mem_cons_of_mem c hc')))

/-- Run a program for its effects only. -/
def discard (p : Program Op ε α) : Program Op ε Unit := p >>= fun _ => .ret ()

/-- Discarding no result changes nothing. -/
theorem discard_unit (p : Program Op ε Unit) : p.discard = p := by
  induction p with
  | ret a => rfl
  | fail e => rfl
  | call op next ih =>
    rw [discard, call_bind]
    congr 1
    funext b
    exact ih b

end Program

/-- The result is an error, or a value with the given property. -/
def OnOk {ε α : Type} : Except ε α → (α → Prop) → Prop
  | .error _, _ => True
  | .ok a, P => P a

/-- Nothing is asked of a failed computation. -/
@[simp] theorem onOk_error {ε α : Type} (e : ε) (P : α → Prop) : OnOk (.error e) P := trivial

/-- What is asked of a result that is there. -/
@[simp] theorem onOk_ok {ε α : Type} (a : α) (P : α → Prop) :
    OnOk (.ok a : Except ε α) P ↔ P a := Iff.rfl

/-- A sequence is asked of through its first result. -/
theorem onOk_bind {ε α β : Type} {r : Except ε α} {f : α → Except ε β} {P : β → Prop}
    (h : ∀ a, r = .ok a → OnOk (f a) P) : OnOk (r >>= f) P := by
  cases r with
  | error e => trivial
  | ok a => exact h a rfl

/-- Whether a result is as asked can be evaluated. -/
instance decidableOnOk {ε α : Type} (r : Except ε α) (P : α → Prop) [∀ a, Decidable (P a)] :
    Decidable (OnOk r P) :=
  match r with
  | .error _ => isTrue trivial
  | .ok a => inferInstanceAs (Decidable (P a))

/-- What the calls of an interface mean. `D` is the type of the choices that a
call may make besides looking at the state, such as a generated identifier. -/
structure Backend (Op : Type → Type) (ε S Wr Lk D : Type) where
  /-- The answer to a call and the rows it writes, or an error. -/
  exec : {β : Type} → Op β → D → S → Except ε (β × List Wr)
  /-- The choices that a call may meet in a state. -/
  admits : {β : Type} → Op β → D → S → Prop
  /-- Perform a write. -/
  apply : S → Wr → S
  /-- The locks that a writer of a row takes and holds until its end. -/
  locks : Wr → List Lk

namespace Backend

variable {Op : Type → Type} {ε S Wr Lk D : Type} (b : Backend Op ε S Wr Lk D)

/-- Perform writes in order. -/
def applyAll (s : S) (ws : List Wr) : S := ws.foldl b.apply s

/-- No write, no change. -/
@[simp] theorem applyAll_nil (s : S) : b.applyAll s [] = s := rfl

/-- Writes are applied in the order they were made. -/
@[simp] theorem applyAll_cons (s : S) (w : Wr) (ws : List Wr) :
    b.applyAll s (w :: ws) = b.applyAll (b.apply s w) ws := rfl

/-- A log is applied in two halves. -/
theorem applyAll_append (s : S) (ws us : List Wr) :
    b.applyAll s (ws ++ us) = b.applyAll (b.applyAll s ws) us :=
  List.foldl_append

/-- The locks of a list of writes. -/
def locksOf (ws : List Wr) : List Lk := ws.flatMap b.locks

/-- The locks of a log are those of its two halves. -/
theorem locksOf_append (ws us : List Wr) : b.locksOf (ws ++ us) = b.locksOf ws ++ b.locksOf us :=
  List.flatMap_append

end Backend

namespace Program

variable {Op : Type → Type} {ε α S Wr Lk D : Type} (b : Backend Op ε S Wr Lk D)

/-- Execute a program as one transaction on `s` from the writes `w`, with the
choices `ω` in the order of the calls. The writes made so far are returned also
when the program fails. -/
def run : Program Op ε α → (ℕ → D) → S → List Wr → Except ε α × List Wr
  | .ret a, _, _, w => (.ok a, w)
  | .fail e, _, _, w => (.error e, w)
  | .call op next, ω, s, w =>
    match b.exec op (ω 0) (b.applyAll s w) with
    | .error e => (.error e, w)
    | .ok (a, ws) => (next a).run (fun i => ω (i + 1)) s (w ++ ws)

/-- Execution goes on with the answer of a call. -/
theorem run_call {β : Type} {op : Op β} {next : β → Program Op ε α} {ω : ℕ → D} {s : S}
    {w ws : List Wr} {a : β} (h : b.exec op (ω 0) (b.applyAll s w) = .ok (a, ws)) :
    (Program.call op next).run b ω s w = (next a).run b (fun i => ω (i + 1)) s (w ++ ws) := by
  rw [run, h]

/-- A program that ends in a fixed value returns no other one. -/
theorem run_bind_ret {γ : Type} (p : Program Op ε γ) (a : α) {ω : ℕ → D} {s : S} {w : List Wr}
    {x : α} (h : ((p >>= fun _ => .ret a).run b ω s w).1 = .ok x) : x = a := by
  induction p generalizing ω w with
  | ret c =>
    cases h
    rfl
  | fail e => cases h
  | call op next ih =>
    rw [call_bind, run] at h
    split at h
    · cases h
    · exact ih _ h

/-- The choices met along an execution are ones that their calls may meet. -/
def Admissible : Program Op ε α → (ℕ → D) → S → List Wr → Prop
  | .ret _, _, _, _ => True
  | .fail _, _, _, _ => True
  | .call op next, ω, s, w =>
    b.admits op (ω 0) (b.applyAll s w) ∧
      OnOk (b.exec op (ω 0) (b.applyAll s w))
        (fun r => (next r.1).Admissible (fun i => ω (i + 1)) s (w ++ r.2))

/-- Discarding the result leaves the requests, so what is admissible, alone. -/
theorem admissible_discard {p : Program Op ε α} {ω : ℕ → D} {s : S} {w : List Wr} :
    p.discard.Admissible b ω s w ↔ p.Admissible b ω s w := by
  induction p generalizing ω w with
  | ret a => rfl
  | fail e => rfl
  | call op next ih =>
    rw [discard, call_bind, Admissible, Admissible]
    refine and_congr Iff.rfl ?_
    cases b.exec op (ω 0) (b.applyAll s w) with
    | error e => rfl
    | ok r => exact ih r.1

/-- Whether a run is admissible can be evaluated on given draws. -/
instance decidableAdmissible
    [∀ {β : Type} (op : Op β) (d : D) (s : S), Decidable (b.admits op d s)] :
    (p : Program Op ε α) → (ω : ℕ → D) → (s : S) → (w : List Wr) →
      Decidable (p.Admissible b ω s w)
  | .ret _, _, _, _ => isTrue trivial
  | .fail _, _, _, _ => isTrue trivial
  | .call op next, ω, s, w =>
    @instDecidableAnd (b.admits op (ω 0) (b.applyAll s w)) _ inferInstance
      (@decidableOnOk _ _ _ _
        (fun r => decidableAdmissible (next r.1) (fun i => ω (i + 1)) s (w ++ r.2)))

/-- Where every call can meet some choice, a program can be executed with such choices. -/
theorem exists_admissible {φ : D → Prop}
    (h : ∀ {β : Type} (op : Op β) (s : S), ∃ d, b.admits op d s ∧ φ d) (p : Program Op ε α) (s : S)
    (w : List Wr) (d : D) (hd : φ d) : ∃ ω, p.Admissible b ω s w ∧ ∀ i, φ (ω i) := by
  induction p generalizing w with
  | ret a => exact ⟨fun _ => d, trivial, fun _ => hd⟩
  | fail e => exact ⟨fun _ => d, trivial, fun _ => hd⟩
  | call op next ih =>
    obtain ⟨d₀, hadm, hd₀⟩ := h op (b.applyAll s w)
    cases hexec : b.exec op d₀ (b.applyAll s w) with
    | error e =>
      refine ⟨fun _ => d₀, ⟨hadm, ?_⟩, fun _ => hd₀⟩
      rw [hexec]
      trivial
    | ok r =>
      obtain ⟨ω, hω, hall⟩ := ih r.1 (w ++ r.2)
      refine ⟨fun i => Nat.casesOn i d₀ ω, ⟨hadm, ?_⟩, fun i => ?_⟩
      · change OnOk (b.exec op d₀ (b.applyAll s w)) _
        rw [hexec]
        exact hω
      · cases i with
        | zero => exact hd₀
        | succ i => exact hall i

/-- A transaction: the writes take effect together when the program returns,
and none of them does when it fails. -/
def withTx (p : Program Op ε α) (ω : ℕ → D) (s : S) (w : List Wr) : Except ε α × S :=
  match p.run b ω s w with
  | (.ok a, w') => (.ok a, b.applyAll s w')
  | (.error e, _) => (.error e, s)

/-- A transaction that fails has no effect. -/
theorem withTx_error {p : Program Op ε α} {ω : ℕ → D} {s : S} {w : List Wr} {e : ε}
    (h : (p.run b ω s w).1 = .error e) : p.withTx b ω s w = (.error e, s) := by
  have hrun : p.run b ω s w = (.error e, (p.run b ω s w).2) := Prod.ext h rfl
  rw [withTx, hrun]

/-- Execute a program whose calls commit one by one while others are at work. The calls
meet the states `s` in their order. -/
def runAmong : Program Op ε α → (ℕ → D) → (ℕ → S) → Except ε α
  | .ret a, _, _ => .ok a
  | .fail e, _, _ => .error e
  | .call op next, ω, s =>
    match b.exec op (ω 0) (s 0) with
    | .error e => .error e
    | .ok (a, _) => (next a).runAmong (fun i => ω (i + 1)) (fun i => s (i + 1))

end Program

section Checked

variable {Op : Type → Type} {ε α S Wr Lk D : Type}

/-- The backend that refuses a call with an error if it would write a row without the
property. -/
def Backend.checked (b : Backend Op ε S Wr Lk D) (φ : Wr → Prop) [DecidablePred φ] (e : ε) :
    Backend Op ε S Wr Lk D :=
  { b with exec := fun op d s => do
      let r ← b.exec op d s
      if ∀ w ∈ r.2, φ w then .ok r else .error e }

variable {b : Backend Op ε S Wr Lk D} {φ : Wr → Prop} [DecidablePred φ] {e : ε}

namespace Program

/-- Writes are only added. -/
theorem subset_run (p : Program Op ε α) (ω : ℕ → D) (s : S) (w : List Wr) :
    w ⊆ (p.run b ω s w).2 := by
  induction p generalizing ω w with
  | ret a => exact List.Subset.refl w
  | fail e => exact List.Subset.refl w
  | call op next ih =>
    simp only [run]
    cases b.exec op (ω 0) (b.applyAll s w) with
    | error e => exact List.Subset.refl w
    | ok r => exact List.Subset.trans (List.subset_append_left w r.2) (ih r.1 _ (w ++ r.2))

/-- A program is executed as without the check if all that it writes has the property. -/
theorem run_checked (p : Program Op ε α) {ω : ℕ → D} {s : S} {w : List Wr}
    (h : ∀ x ∈ (p.run b ω s w).2, φ x) : p.run (b.checked φ e) ω s w = p.run b ω s w := by
  induction p generalizing ω w with
  | ret a => rfl
  | fail e => rfl
  | call op next ih =>
    cases hexec : b.exec op (ω 0) (b.applyAll s w) with
    | error e' =>
      have hchecked : (b.checked φ e).exec op (ω 0) ((b.checked φ e).applyAll s w) = .error e' :=
        congrArg (· >>= _) hexec
      rw [run, run, hexec, hchecked]
    | ok r =>
      rw [run_call b hexec] at h ⊢
      have hall : ∀ x ∈ r.2, φ x := fun x hx =>
        h x (subset_run (next r.1) _ s _ (List.mem_append_right w hx))
      have hchecked : (b.checked φ e).exec op (ω 0) ((b.checked φ e).applyAll s w) = .ok r :=
        (congrArg (· >>= _) hexec).trans (if_pos hall)
      rw [run_call (b.checked φ e) hchecked]
      exact ih r.1 h

/-- A program fails on the check, or is executed as without it and writes only rows
with the property. -/
theorem run_checked_cases (p : Program Op ε α) (ω : ℕ → D) (s : S) (w : List Wr) :
    (p.run (b.checked φ e) ω s w).1 = .error e ∨
      p.run (b.checked φ e) ω s w = p.run b ω s w ∧
        ∀ x ∈ (p.run b ω s w).2, x ∈ w ∨ φ x := by
  induction p generalizing ω w with
  | ret a => exact Or.inr ⟨rfl, fun x hx => Or.inl hx⟩
  | fail e => exact Or.inr ⟨rfl, fun x hx => Or.inl hx⟩
  | call op next ih =>
    cases hexec : b.exec op (ω 0) (b.applyAll s w) with
    | error e' =>
      have hchecked : (b.checked φ e).exec op (ω 0) ((b.checked φ e).applyAll s w) = .error e' :=
        congrArg (· >>= _) hexec
      rw [run, run, hexec, hchecked]
      exact Or.inr ⟨rfl, fun x hx => Or.inl hx⟩
    | ok r =>
      have hbind : (b.checked φ e).exec op (ω 0) ((b.checked φ e).applyAll s w) =
          if ∀ x ∈ r.2, φ x then .ok r else .error e := congrArg (· >>= _) hexec
      by_cases hall : ∀ x ∈ r.2, φ x
      · rw [if_pos hall] at hbind
        rw [run_call b hexec, run_call (b.checked φ e) hbind]
        refine (ih r.1 _ (w ++ r.2)).imp_right (fun hrest => ⟨hrest.1, fun x hx => ?_⟩)
        rcases hrest.2 x hx with hx | hx
        · exact (List.mem_append.mp hx).imp_right (hall x)
        · exact Or.inr hx
      · rw [if_neg hall] at hbind
        rw [run, hbind]
        exact Or.inl rfl

end Program

end Checked

end Lib
