import Mathlib.Data.List.Lattice
import Orchestrator.Lib.Program

/-!
# Triples for transactions under interference

`Safe` is a rely-guarantee triple for a program that runs as one transaction.
Its assertions speak about the committed state and the writes made so far, and
must survive what other transactions may commit between two calls. `Safe.run`
reads the triple off a transaction that runs alone. `SafeAuto` is the triple of
a program whose calls commit one by one.
-/

namespace Lib

variable {Op : Type → Type} {ε S Wr Lk D α β : Type}

section Triples

variable (b : Backend Op ε S Wr Lk D) (J : S → Prop) (R : List Wr → S → S → Prop)

/-- An assertion about the committed state and a transaction's own writes that
survives the interference `R` between states satisfying `J`. -/
def Stable (P : S → List Wr → Prop) : Prop :=
  ∀ s s' w, J s → J s' → R w s s' → P s w → P s' w

/-- Started where `P` holds, the program meets `Q` when it returns and `E` when
it fails, whatever interference occurs between its calls. The assertion `M`
that holds after a call has to be stable. -/
def Safe (E : ε → S → List Wr → Prop) (P : S → List Wr → Prop) :
    Program Op ε α → (α → S → List Wr → Prop) → Prop
  | .ret a, Q => ∀ s w, J s → P s w → Q a s w
  | .fail e, _ => ∀ s w, J s → P s w → E e s w
  | .call (β := β) op next, Q =>
    ∃ M : β → S → List Wr → Prop, (∀ a, Stable J R (M a)) ∧
      (∀ s w d, J s → P s w → b.admits op d (b.applyAll s w) →
        match b.exec op d (b.applyAll s w) with
        | .error e => E e s w
        | .ok (a, ws) => M a s (w ++ ws)) ∧
      ∀ a, Safe E (M a) (next a) Q

end Triples

variable {b : Backend Op ε S Wr Lk D} {J : S → Prop} {R : List Wr → S → S → Prop}
  {E : ε → S → List Wr → Prop} {P P' : S → List Wr → Prop}

/-- Strengthening the precondition of a triple. -/
theorem Safe.pre {p : Program Op ε α} {Q : α → S → List Wr → Prop}
    (h : Safe b J R E P' p Q) (hP : ∀ s w, J s → P s w → P' s w) : Safe b J R E P p Q := by
  cases p with
  | ret a => exact fun s w hJ hp => h s w hJ (hP s w hJ hp)
  | fail e => exact fun s w hJ hp => h s w hJ (hP s w hJ hp)
  | call op next =>
    obtain ⟨M, hM, hexec, hnext⟩ := h
    exact ⟨M, hM, fun s w d hJ hp => hexec s w d hJ (hP s w hJ hp), hnext⟩

/-- Weakening the postcondition of a triple. -/
theorem Safe.post {p : Program Op ε α} {Q Q' : α → S → List Wr → Prop}
    (h : Safe b J R E P p Q') (hQ : ∀ a s w, J s → Q' a s w → Q a s w) : Safe b J R E P p Q := by
  induction p generalizing P with
  | ret a => exact fun s w hJ hp => hQ a s w hJ (h s w hJ hp)
  | fail e => exact h
  | call op next ih =>
    obtain ⟨M, hM, hexec, hnext⟩ := h
    exact ⟨M, hM, hexec, fun a => ih a (hnext a)⟩

/-- Sequential composition of triples. -/
theorem Safe.bind {p : Program Op ε α} {f : α → Program Op ε β}
    {M : α → S → List Wr → Prop} {Q : β → S → List Wr → Prop}
    (hp : Safe b J R E P p M) (hf : ∀ a, Safe b J R E (M a) (f a) Q) :
    Safe b J R E P (p >>= f) Q := by
  induction p generalizing P with
  | ret a => exact (hf a).pre hp
  | fail e => exact hp
  | call op next ih =>
    obtain ⟨N, hN, hexec, hnext⟩ := hp
    exact ⟨N, hN, hexec, fun a => ih a (hnext a)⟩

/-- The triple of a returned value. -/
theorem Safe.ret {a : α} {Q : α → S → List Wr → Prop} (h : ∀ s w, J s → P s w → Q a s w) :
    Safe b J R E P (.ret a) Q := h

/-- The triple of a failure. -/
theorem Safe.fail {e : ε} {Q : α → S → List Wr → Prop} (h : ∀ s w, J s → P s w → E e s w) :
    Safe b J R E P (.fail e) Q := h

/-- The triple of one call: its answer and writes establish a stable assertion. -/
theorem Safe.request {op : Op β} {Q : β → S → List Wr → Prop} (hQ : ∀ a, Stable J R (Q a))
    (h : ∀ s w d, J s → P s w → b.admits op d (b.applyAll s w) →
      match b.exec op d (b.applyAll s w) with
      | .error e => E e s w
      | .ok (a, ws) => Q a s (w ++ ws)) :
    Safe b J R E P (Program.request op) Q :=
  ⟨Q, hQ, h, fun _ _ _ _ hq => hq⟩

/-- A choice that the precondition makes may be fixed before the program. -/
theorem Safe.exists {ι : Type} {P : ι → S → List Wr → Prop} {p : Program Op ε α}
    {Q : α → S → List Wr → Prop} (h : ∀ i, Safe b J R E (P i) p Q) :
    Safe b J R E (fun s w => ∃ i, P i s w) p Q := by
  induction p generalizing P with
  | ret a => rintro s w hJ ⟨i, hi⟩; exact h i s w hJ hi
  | fail e => rintro s w hJ ⟨i, hi⟩; exact h i s w hJ hi
  | call op next ih =>
    choose M hM hexec hnext using h
    refine ⟨fun a s w => ∃ i, M i a s w, ?_, ?_, fun a => ih a (fun i => hnext i a)⟩
    · rintro a s s' w hJ hJ' hR ⟨i, hi⟩
      exact ⟨i, hM i a s s' w hJ hJ' hR hi⟩
    · rintro s w d hJ ⟨i, hi⟩ hd
      have hres := hexec i s w d hJ hi hd
      split at hres
      · exact hres
      · exact ⟨i, hres⟩

/-- A case distinction in the precondition. -/
theorem Safe.or {p : Program Op ε α} {Q : α → S → List Wr → Prop} (h : Safe b J R E P p Q)
    (h' : Safe b J R E P' p Q) : Safe b J R E (fun s w => P s w ∨ P' s w) p Q := by
  have hcases : Safe b J R E (fun s w => ∃ i : Bool, bif i then P s w else P' s w) p Q :=
    Safe.exists (fun i => by cases i; exacts [h', h])
  exact hcases.pre (fun s w _ hp => hp.elim (fun hp => ⟨true, hp⟩) (fun hp => ⟨false, hp⟩))

/-- A precondition that does not hold gives any triple. -/
theorem Safe.false {p : Program Op ε α} {Q : α → S → List Wr → Prop}
    (h : ∀ s w, J s → ¬ P s w) : Safe b J R E P p Q := by
  have hempty : Safe b J R E (fun s w => ∃ i : Empty, (fun (_ : Empty) _ _ => True) i s w) p Q :=
    Safe.exists (fun i => i.elim)
  exact hempty.pre (fun s w hJ hp => absurd hp (h s w hJ))

/-- A pure fact of the precondition may be assumed. -/
theorem Safe.assume {φ : Prop} {p : Program Op ε α} {Q : α → S → List Wr → Prop}
    (h : φ → Safe b J R E P p Q) : Safe b J R E (fun s w => φ ∧ P s w) p Q := by
  by_cases hφ : φ
  · exact (h hφ).pre (fun _ _ _ hp => hp.2)
  · exact Safe.false (fun _ _ _ hp => hφ hp.1)

/-- A loop over a list keeps an invariant of its accumulator that each
iteration keeps. -/
theorem Safe.foldlM {γ : Type} {f : γ → β → Program Op ε γ} {I : γ → S → List Wr → Prop}
    {xs : List β} (h : ∀ c, ∀ x ∈ xs, Safe b J R E (I c) (f c x) I) (c : γ) :
    Safe b J R E (I c) (xs.foldlM f c) I := by
  induction xs generalizing c with
  | nil => exact Safe.ret (fun _ _ _ hI => hI)
  | cons x xs ih =>
    rw [List.foldlM_cons]
    exact (h c x List.mem_cons_self).bind
      (fun c' => ih (fun c x hx => h c x (List.mem_cons_of_mem _ hx)) c')

/-- A loop over a list whose invariant also tells which elements are left. -/
theorem Safe.foldlM_suffix {γ : Type} {f : γ → β → Program Op ε γ}
    {I : List β → γ → S → List Wr → Prop} {xs : List β}
    (h : ∀ c x rest, (x :: rest) <:+ xs → Safe b J R E (I (x :: rest) c) (f c x) (I rest))
    (c : γ) : Safe b J R E (I xs c) (xs.foldlM f c) (I []) := by
  induction xs generalizing c with
  | nil => exact Safe.ret (fun _ _ _ hI => hI)
  | cons x xs ih =>
    rw [List.foldlM_cons]
    exact (h c x xs List.suffix_rfl).bind
      (fun c' => ih (fun c y rest hs => h c y rest (hs.trans (List.suffix_cons x xs))) c')

/-- A triple survives less interference, a stronger invariant of the committed
state and fewer choices. -/
theorem Safe.mono {J' : S → Prop} {R' : List Wr → S → S → Prop} {b' : Backend Op ε S Wr Lk D}
    {p : Program Op ε α} {Q : α → S → List Wr → Prop} (h : Safe b J R E P p Q)
    (hJ : ∀ s, J' s → J s) (hR : ∀ w s s', J' s → J' s' → R' w s s' → R w s s')
    (happly : ∀ s w, b'.applyAll s w = b.applyAll s w)
    (hexec : ∀ {γ : Type} (op : Op γ) d s, b'.exec op d s = b.exec op d s)
    (hadmits : ∀ {γ : Type} (op : Op γ) d s, b'.admits op d s → b.admits op d s) :
    Safe b' J' R' E P p Q := by
  induction p generalizing P with
  | ret a => exact fun s w hj hp => h s w (hJ s hj) hp
  | fail e => exact fun s w hj hp => h s w (hJ s hj) hp
  | call op next ih =>
    obtain ⟨M, hM, hcall, hnext⟩ := h
    refine ⟨M, ?_, ?_, fun a => ih a (hnext a)⟩
    · exact fun a s s' w hj hj' hr hm =>
        hM a s s' w (hJ s hj) (hJ s' hj') (hR w s s' hj hj' hr) hm
    · intro s w d hj hp hd
      rw [happly] at hd
      have hres := hcall s w d (hJ s hj) hp (hadmits op d _ hd)
      rw [happly, hexec]
      exact hres

/-- A transaction that runs alone meets its triple. -/
theorem Safe.run {p : Program Op ε α} {Q : α → S → List Wr → Prop} (h : Safe b J R E P p Q)
    {ω : ℕ → D} {s : S} {w : List Wr} (hJ : J s) (hP : P s w) (hω : p.Admissible b ω s w) :
    match p.run b ω s w with
    | (.ok a, w') => Q a s w'
    | (.error e, w') => E e s w' := by
  induction p generalizing P ω w with
  | ret a => exact h s w hJ hP
  | fail e => exact h s w hJ hP
  | call op next ih =>
    obtain ⟨M, hM, hexec, hnext⟩ := h
    obtain ⟨hd, hrest⟩ := hω
    have hcall := hexec s w (ω 0) hJ hP hd
    simp only [Program.run]
    cases hres : b.exec op (ω 0) (b.applyAll s w) with
    | error e => simpa only [hres] using hcall
    | ok r =>
      simp only [hres, onOk_ok] at hcall hrest ⊢
      exact ih r.1 (hnext r.1) hcall hrest

/-- The triple of a program whose calls commit one by one. Each call commits
writes that satisfy `G`, and leaves a state in which `J` holds again. -/
def SafeAuto (b : Backend Op ε S Wr Lk D) (J : S → Prop) (R : List Wr → S → S → Prop)
    (G : S → List Wr → Prop) (P : S → Prop) : Program Op ε α → (α → S → Prop) → Prop
  | .ret a, Q => ∀ s, J s → P s → Q a s
  | .fail _, _ => True
  | .call (β := β) op next, Q =>
    ∃ M : β → S → Prop, (∀ a s s', J s → J s' → R [] s s' → M a s → M a s') ∧
      (∀ s d, J s → P s → b.admits op d s → OnOk (b.exec op d s) (fun r =>
        J (b.applyAll s r.2) ∧ G s r.2 ∧ M r.1 (b.applyAll s r.2))) ∧
      ∀ a, SafeAuto b J R G (M a) (next a) Q

/-- A program each of whose calls keeps `J` and commits writes that satisfy `G`. -/
theorem SafeAuto.of_calls {φ : {β : Type} → Op β → Prop} {G : S → List Wr → Prop}
    {p : Program Op ε α} {Q : α → S → Prop} (hp : p.Calls φ)
    (hφ : ∀ {β : Type} (op : Op β), φ op → ∀ s d, J s → b.admits op d s →
      OnOk (b.exec op d s) (fun r => J (b.applyAll s r.2) ∧ G s r.2))
    (hQ : ∀ a s, J s → Q a s) : SafeAuto b J R G (fun _ => True) p Q := by
  induction p with
  | ret a => exact fun s hs _ => hQ a s hs
  | fail e => trivial
  | call op next ih =>
    refine ⟨fun _ _ => True, fun _ _ _ _ _ _ _ => trivial, fun s d hs _ hd => ?_,
      fun a => ih a (hp.2 a)⟩
    have hres := hφ op hp.1 s d hs hd
    cases hexec : b.exec op d s with
    | error e => trivial
    | ok r =>
      rw [hexec] at hres
      exact ⟨hres.1, hres.2, trivial⟩

end Lib
