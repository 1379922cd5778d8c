import Orchestrator.Lib.Solo

/-!
# Programs that are watched

The calls of a program may carry notes that do not matter for its execution. Dropping
them gives a program of the interface proper, which is executed in the same way. What
holds of every call along an execution, given the state that it meets and its answer, is
proved with a backend that refuses all other calls.
-/

namespace Lib

variable {Op Op' : Type → Type} {ε S Wr Lk D α β γ : Type}

namespace Program

/-- Make other calls in the place of those of a program. -/
def mapOp (f : {β : Type} → Op β → Op' β) : Program Op ε α → Program Op' ε α
  | .ret a => .ret a
  | .fail e => .fail e
  | .call op next => .call (f op) (fun b => (next b).mapOp f)

variable {f : {β : Type} → Op β → Op' β}

theorem mapOp_bind (p : Program Op ε α) (k : α → Program Op ε β) :
    (p >>= k).mapOp f = p.mapOp f >>= fun a => (k a).mapOp f := by
  induction p with
  | ret a => rfl
  | fail e => rfl
  | call op next ih =>
    rw [call_bind, mapOp, mapOp, call_bind]
    congr 1
    funext b
    exact ih b

/-- Notes that are added may be dropped. -/
theorem mapOp_cancel {g : {β : Type} → Op' β → Op β} (h : ∀ {β : Type} (op : Op β), g (f op) = op)
    (p : Program Op ε α) : (p.mapOp f).mapOp g = p := by
  induction p with
  | ret a => rfl
  | fail e => rfl
  | call op next ih =>
    rw [mapOp, mapOp, h]
    congr 1
    funext b
    exact ih b

/-- A loop with other calls, over values that stand for those of the loop. -/
theorem mapOp_foldlM {step : γ → α → Program Op ε γ} {step' : β → α → Program Op' ε β} {h : γ → β}
    (hstep : ∀ c x, ((step c x).mapOp f >>= fun c' => .ret (h c')) = step' (h c) x) (xs : List α)
    (c : γ) : ((xs.foldlM step c).mapOp f >>= fun c' => .ret (h c')) = xs.foldlM step' (h c) := by
  induction xs generalizing c with
  | nil => rfl
  | cons x xs ih =>
    rw [List.foldlM_cons, List.foldlM_cons, ← hstep, mapOp_bind, bind_assoc, bind_assoc]
    congr 1
    funext c'
    exact ih c'

end Program

namespace Backend

/-- The backend for the calls that stand for those of another one. -/
def comap (b : Backend Op' ε S Wr Lk D) (f : {β : Type} → Op β → Op' β) :
    Backend Op ε S Wr Lk D where
  exec := fun op d s => b.exec (f op) d s
  admits := fun op d s => b.admits (f op) d s
  apply := b.apply
  locks := b.locks

open Classical in
/-- The backend that refuses a call unless the state and the result have the property. -/
noncomputable def guarded (b : Backend Op ε S Wr Lk D)
    (φ : {β : Type} → Op β → S → Except ε β → Prop) (e : ε) : Backend Op ε S Wr Lk D :=
  { b with
    exec := fun op d s =>
      if φ op s ((b.exec op d s).map Prod.fst) then b.exec op d s else .error e }

variable {b : Backend Op ε S Wr Lk D} {φ : {β : Type} → Op β → S → Except ε β → Prop} {e : ε}
  {op : Op β} {d : D} {s : S}

theorem exec_guarded (h : φ op s ((b.exec op d s).map Prod.fst)) :
    (b.guarded φ e).exec op d s = b.exec op d s :=
  if_pos h

theorem exec_refused (h : ¬ φ op s ((b.exec op d s).map Prod.fst)) :
    (b.guarded φ e).exec op d s = .error e :=
  if_neg h

end Backend

namespace Program

section Rename

variable {f : {β : Type} → Op β → Op' β} {b : Backend Op' ε S Wr Lk D} {E : ε → Prop}

theorem admissible_mapOp (p : Program Op ε α) (ω : ℕ → D) (s : S) (w : List Wr) :
    (p.mapOp f).Admissible b ω s w ↔ p.Admissible (b.comap f) ω s w := by
  induction p generalizing ω w with
  | ret a => rfl
  | fail e => rfl
  | call op next ih =>
    have hexec : (b.comap f).exec op (ω 0) ((b.comap f).applyAll s w) =
        b.exec (f op) (ω 0) (b.applyAll s w) := rfl
    simp only [mapOp, Admissible, hexec]
    cases b.exec (f op) (ω 0) (b.applyAll s w) with
    | error e => rfl
    | ok r => exact and_congr Iff.rfl (ih r.1 _ _)

theorem wp_mapOp (p : Program Op ε α) {Q : α → S → Prop} {v : S} :
    (p.mapOp f).Wp b E Q v ↔ p.Wp (b.comap f) E Q v := by
  induction p generalizing v with
  | ret a => rfl
  | fail e => rfl
  | call op next ih =>
    refine forall_congr' (fun d => imp_congr Iff.rfl ?_)
    have hexec : (b.comap f).exec op d v = b.exec (f op) d v := rfl
    rw [hexec]
    cases b.exec (f op) d v with
    | error e => rfl
    | ok r => exact ih r.1

end Rename

section Along

variable (b : Backend Op ε S Wr Lk D) (φ : {β : Type} → Op β → S → Except ε β → Prop)

/-- Each call along an execution has the property, given the state that it meets and its
result. -/
def Along : Program Op ε α → (ℕ → D) → S → List Wr → Prop
  | .ret _, _, _, _ => True
  | .fail _, _, _, _ => True
  | .call op next, ω, s, w =>
    φ op (b.applyAll s w) ((b.exec op (ω 0) (b.applyAll s w)).map Prod.fst) ∧
      OnOk (b.exec op (ω 0) (b.applyAll s w))
        (fun r => (next r.1).Along (fun i => ω (i + 1)) s (w ++ r.2))

variable {b φ} {e : ε} {E : ε → Prop} {p : Program Op ε α} {Q : α → S → Prop}

/-- A program that passes its checks does so without them. -/
theorem Wp.unguarded {v : S} (h : p.Wp (b.guarded φ e) E Q v) (he : ¬ E e) : p.Wp b E Q v := by
  induction p generalizing v with
  | ret a => exact h
  | fail e => exact h
  | call op next ih =>
    intro d hd
    have hcall := h d hd
    by_cases hφ : φ op v ((b.exec op d v).map Prod.fst)
    · rw [Backend.exec_guarded hφ] at hcall
      cases hexec : b.exec op d v with
      | error e' => simpa only [hexec] using hcall
      | ok r =>
        simp only [hexec] at hcall ⊢
        exact ih r.1 hcall
    · rw [Backend.exec_refused hφ] at hcall
      exact absurd hcall he

/-- A program that passes its checks makes only calls with the property. -/
theorem Wp.along {ω : ℕ → D} {s : S} {w : List Wr}
    (h : p.Wp (b.guarded φ e) E Q (b.applyAll s w)) (he : ¬ E e) (hω : p.Admissible b ω s w) :
    p.Along b φ ω s w := by
  induction p generalizing ω w with
  | ret a => trivial
  | fail e => trivial
  | call op next ih =>
    obtain ⟨hd, hrest⟩ := hω
    have hcall := h (ω 0) hd
    by_cases hφ : φ op (b.applyAll s w) ((b.exec op (ω 0) (b.applyAll s w)).map Prod.fst)
    · rw [Backend.exec_guarded hφ] at hcall
      refine ⟨hφ, ?_⟩
      cases hexec : b.exec op (ω 0) (b.applyAll s w) with
      | error e' => trivial
      | ok r =>
        simp only [hexec, onOk_ok] at hcall hrest ⊢
        refine ih r.1 ?_ hrest
        rw [Backend.applyAll_append]
        exact hcall
    · rw [Backend.exec_refused hφ] at hcall
      exact absurd hcall he

end Along

end Program

end Lib
