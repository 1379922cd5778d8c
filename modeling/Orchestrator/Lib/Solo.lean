import Orchestrator.Lib.Safety

/-!
# Transactions that run alone

What a transaction sees when nobody else is at work is the initial state with its
own writes on top. `Wp` is the weakest precondition of a program in terms of that
state. A program that meets it ends with an answer and a state in the
postcondition, or with an error that is permitted.
-/

namespace Lib

variable {Op : Type → Type} {ε S Wr Lk D α β γ : Type}

/-- The elements of a list are visited one after the other. -/
def Visits (step : β → S → S → Prop) : List β → S → S → Prop
  | [], v, v' => v' = v
  | x :: xs, v, v' => ∃ w, step x v w ∧ Visits step xs w v'

section Visits

variable {step : β → S → S → Prop} {xs ys : List β} {v v' : S}

/-- Visits can be cut in two. -/
theorem Visits.append (h : Visits step (xs ++ ys) v v') :
    ∃ w, Visits step xs v w ∧ Visits step ys w v' := by
  induction xs generalizing v with
  | nil => exact ⟨v, rfl, h⟩
  | cons x xs ih =>
    obtain ⟨u, hu, hrest⟩ := h
    obtain ⟨w, hw, hrest⟩ := ih hrest
    exact ⟨w, ⟨u, hu, hw⟩, hrest⟩

/-- Visits one after the other. -/
theorem Visits.trans {w : S} (h : Visits step xs v w) (h' : Visits step ys w v') :
    Visits step (xs ++ ys) v v' := by
  induction xs generalizing v with
  | nil => exact h ▸ h'
  | cons x xs ih =>
    obtain ⟨u, hu, hrest⟩ := h
    exact ⟨u, hu, ih hrest⟩

/-- Visits keep an invariant that also tells which elements are left. -/
theorem Visits.rule {I : List β → S → Prop} (h : Visits step xs v v')
    (hstep : ∀ x rest v v', x ∈ xs → I (x :: rest) v → step x v v' → I rest v') (h0 : I xs v) :
    I [] v' := by
  induction xs generalizing v with
  | nil => exact h ▸ h0
  | cons x xs ih =>
    obtain ⟨w, hw, hrest⟩ := h
    refine ih hrest (fun y rest v v' hy => hstep y rest v v' (List.mem_cons_of_mem x hy)) ?_
    exact hstep x xs v w List.mem_cons_self h0 hw

end Visits

namespace Program

variable (b : Backend Op ε S Wr Lk D) (E : ε → Prop)

/-- Run alone in the state `v`, the program ends with an answer and a state that
satisfy `Q`, or with an error that satisfies `E`. -/
def Wp : Program Op ε α → (α → S → Prop) → S → Prop
  | .ret a, Q, v => Q a v
  | .fail e, _, _ => E e
  | .call op next, Q, v => ∀ d, b.admits op d v →
    match b.exec op d v with
    | .error e => E e
    | .ok (a, ws) => (next a).Wp Q (b.applyAll v ws)

variable {b E} {p : Program Op ε α} {Q Q' : α → S → Prop} {v : S}

/-- The rule of consequence. -/
theorem Wp.mono (h : p.Wp b E Q v) (hQ : ∀ a v', Q a v' → Q' a v') : p.Wp b E Q' v := by
  induction p generalizing v with
  | ret a => exact hQ a v h
  | fail e => exact h
  | call op next ih =>
    intro d hd
    have hcall := h d hd
    split at hcall
    · exact hcall
    · exact ih _ hcall

/-- Two things proved of a program hold together. -/
theorem Wp.and (h : p.Wp b E Q v) (h' : p.Wp b E Q' v) :
    p.Wp b E (fun a v' => Q a v' ∧ Q' a v') v := by
  induction p generalizing v with
  | ret a => exact ⟨h, h'⟩
  | fail e => exact h
  | call op next ih =>
    intro d hd
    have hcall := h d hd
    have hcall' := h' d hd
    split at hcall <;> rename_i heq <;> simp only [heq] at hcall'
    · exact hcall
    · exact ih _ hcall hcall'

/-- The rule of sequence. -/
theorem Wp.bind {f : α → Program Op ε β} {Q : β → S → Prop}
    (h : p.Wp b E (fun a v' => (f a).Wp b E Q v') v) : (p >>= f).Wp b E Q v := by
  induction p generalizing v with
  | ret a => exact h
  | fail e => exact h
  | call op next ih =>
    intro d hd
    have hcall := h d hd
    split at hcall
    · exact hcall
    · exact ih _ hcall

/-- More errors may be permitted. -/
theorem Wp.mono_error {E' : ε → Prop} (h : p.Wp b E Q v) (hE : ∀ e, E e → E' e) :
    p.Wp b E' Q v := by
  induction p generalizing v with
  | ret a => exact h
  | fail e => exact hE e h
  | call op next ih =>
    intro d hd
    have hcall := h d hd
    split at hcall
    · exact hE _ hcall
    · exact ih _ hcall

/-- A call that answers and writes what is known. -/
theorem Wp.request {op : Op β} {Q : β → S → Prop}
    (h : ∀ d, b.admits op d v → ∃ a ws, b.exec op d v = .ok (a, ws) ∧ Q a (b.applyAll v ws)) :
    (Program.request op).Wp b E Q v := by
  intro d hd
  obtain ⟨a, ws, hexec, hQ⟩ := h d hd
  rw [hexec]
  exact hQ

/-- A loop over a list keeps an invariant that also tells which elements are left. -/
theorem Wp.foldlM {f : γ → β → Program Op ε γ} {I : List β → γ → S → Prop} {xs : List β}
    (h : ∀ c x rest v, (x :: rest) <:+ xs → I (x :: rest) c v → (f c x).Wp b E (I rest) v)
    {c : γ} (hI : I xs c v) : (xs.foldlM f c).Wp b E (I []) v := by
  induction xs generalizing c v with
  | nil => exact hI
  | cons x xs ih =>
    rw [List.foldlM_cons]
    refine Wp.bind ((h c x xs v List.suffix_rfl hI).mono (fun c' v' hI' => ?_))
    exact ih (fun c y rest v hs => h c y rest v (hs.trans (List.suffix_cons x xs))) hI'

/-- A loop over a list visits its elements, if an execution of its body is a visit. -/
theorem Wp.visits {f : γ → β → Program Op ε γ} {I : γ → S → Prop} {step : β → S → S → Prop}
    (h : ∀ c x v, I c v → (f c x).Wp b E (fun c' v' => I c' v' ∧ step x v v') v) {c : γ}
    (hI : I c v) (xs : List β) :
    (xs.foldlM f c).Wp b E (fun c' v' => I c' v' ∧ Visits step xs v v') v := by
  induction xs generalizing c v with
  | nil => exact ⟨hI, rfl⟩
  | cons x xs ih =>
    rw [List.foldlM_cons]
    refine Wp.bind ((h c x v hI).mono (fun c' w hw => ?_))
    exact (ih hw.1).mono (fun _ v' h' => ⟨h'.1, w, hw.2, h'.2⟩)

/-- What the execution of a transaction leads to. -/
def Leads (b : Backend Op ε S Wr Lk D) (E : ε → Prop) (Q : α → S → Prop) (s : S) (w : List Wr) :
    Except ε α × List Wr → Prop
  | (.ok a, w') => (∃ u, w' = w ++ u) ∧ Q a (b.applyAll s w')
  | (.error e, _) => E e

theorem Leads.mono {s : S} {w : List Wr} {r : Except ε α × List Wr} (h : Leads b E Q s w r)
    (hQ : ∀ a v', Q a v' → Q' a v') : Leads b E Q' s w r := by
  obtain ⟨_ | _, _⟩ := r
  · exact h
  · exact ⟨h.1, hQ _ _ h.2⟩

/-- The first call of a transaction, and what it leads to. -/
theorem Leads.call {op : Op β} {next : β → Program Op ε α} {ω : ℕ → D} {s : S} {w : List Wr}
    (hfail : ∀ e, b.exec op (ω 0) (b.applyAll s w) = .error e → E e)
    (hnext : ∀ a ws, b.exec op (ω 0) (b.applyAll s w) = .ok (a, ws) →
      Leads b E Q s (w ++ ws) ((next a).run b (fun i => ω (i + 1)) s (w ++ ws))) :
    Leads b E Q s w ((Program.call op next).run b ω s w) := by
  simp only [Program.run]
  cases hres : b.exec op (ω 0) (b.applyAll s w) with
  | error e => exact hfail e hres
  | ok r =>
    obtain ⟨a, ws⟩ := r
    have hrest := hnext a ws hres
    simp only
    generalize (next a).run b (fun i => ω (i + 1)) s (w ++ ws) = res at hrest ⊢
    obtain ⟨_ | _, w'⟩ := res
    · exact hrest
    · obtain ⟨⟨u, rfl⟩, hQ⟩ := hrest
      exact ⟨⟨ws ++ u, List.append_assoc w ws u⟩, hQ⟩

/-- What is proved of a program holds of each of its admissible runs. -/
theorem Wp.run {ω : ℕ → D} {s : S} {w : List Wr} (h : p.Wp b E Q (b.applyAll s w))
    (hω : p.Admissible b ω s w) : Leads b E Q s w (p.run b ω s w) := by
  induction p generalizing ω w with
  | ret a => exact ⟨⟨[], (List.append_nil w).symm⟩, h⟩
  | fail e => exact h
  | call op next ih =>
    obtain ⟨hd, hrest⟩ := hω
    have hcall := h (ω 0) hd
    refine Leads.call (fun e hres => ?_) (fun a ws hres => ?_)
    · simpa only [hres] using hcall
    · simp only [hres, onOk_ok] at hcall hrest
      rw [← Backend.applyAll_append] at hcall
      exact ih a hcall hrest

/-- The effect of a transaction that commits or fails. -/
theorem Leads.withTx {ω : ℕ → D} {s : S} {w : List Wr} (h : Leads b E Q s w (p.run b ω s w)) :
    (∃ a, (p.withTx b ω s w).1 = .ok a ∧ Q a (p.withTx b ω s w).2) ∨
      ∃ e, p.withTx b ω s w = (.error e, s) ∧ E e := by
  simp only [Program.withTx]
  generalize p.run b ω s w = res at h ⊢
  obtain ⟨e | a, w'⟩ := res
  · exact Or.inr ⟨e, rfl, h⟩
  · exact Or.inl ⟨a, rfl, h.2⟩

/-- A transaction commits as was proved, or rolls back with an expected error. -/
theorem Wp.withTx {ω : ℕ → D} {s : S} {w : List Wr} (h : p.Wp b E Q (b.applyAll s w))
    (hω : p.Admissible b ω s w) :
    (∃ a, (p.withTx b ω s w).1 = .ok a ∧ Q a (p.withTx b ω s w).2) ∨
      ∃ e, p.withTx b ω s w = (.error e, s) ∧ E e :=
  (h.run hω).withTx

end Program

section Recording

/-- The backend whose states also hold the writes made so far. -/
def Backend.recording (b : Backend Op ε S Wr Lk D) : Backend Op ε (S × List Wr) Wr Lk D where
  exec := fun op d s => b.exec op d s.1
  admits := fun op d s => b.admits op d s.1
  apply := fun s x => (b.apply s.1 x, s.2 ++ [x])
  locks := b.locks

variable {b : Backend Op ε S Wr Lk D}

/-- The store that records its writes has recorded all of them. -/
theorem Backend.applyAll_recording (s : S × List Wr) (ws : List Wr) :
    b.recording.applyAll s ws = (b.applyAll s.1 ws, s.2 ++ ws) := by
  induction ws generalizing s with
  | nil => simp
  | cons x ws ih =>
    rw [Backend.applyAll_cons, ih, Backend.applyAll_cons]
    simp [recording]

/-- What holds of the states with their writes holds of the writes of a transaction. -/
theorem Program.Wp.writes {p : Program Op ε α} {E : ε → Prop} {Q : α → S × List Wr → Prop} {s : S}
    {w : List Wr} {ω : ℕ → D} (h : p.Wp b.recording E Q (b.applyAll s w, w))
    (hω : p.Admissible b ω s w) :
    match p.run b ω s w with
    | (.ok a, w') => Q a (b.applyAll s w', w')
    | (.error e, _) => E e := by
  induction p generalizing ω w with
  | ret a => exact h
  | fail e => exact h
  | call op next ih =>
    obtain ⟨hd, hrest⟩ := hω
    have hcall := h (ω 0) hd
    have hexec : b.recording.exec op (ω 0) (b.applyAll s w, w) =
        b.exec op (ω 0) (b.applyAll s w) := rfl
    rw [hexec] at hcall
    simp only [Program.run]
    cases hres : b.exec op (ω 0) (b.applyAll s w) with
    | error e => simpa only [hres] using hcall
    | ok r =>
      simp only [hres, onOk_ok, Backend.applyAll_recording] at hcall hrest ⊢
      rw [← Backend.applyAll_append] at hcall
      exact ih r.1 hcall hrest

/-- A program is admissible whatever is drawn if its calls do not depend on it. -/
theorem Program.Calls.admissible {p : Program Op ε α}
    (h : p.Calls (fun op => ∀ d s, b.admits op d s)) (ω : ℕ → D) (s : S) (w : List Wr) :
    p.Admissible b ω s w := by
  induction p generalizing ω w with
  | ret a => trivial
  | fail e => trivial
  | call op next ih =>
    refine ⟨h.1 _ _, ?_⟩
    cases b.exec op (ω 0) (b.applyAll s w) with
    | error e => trivial
    | ok r => exact ih r.1 (h.2 r.1) _ _

end Recording

section Restricted

/-- The backend with only some of its draws. -/
def Backend.restrict (b : Backend Op ε S Wr Lk D) (P : D → Prop) : Backend Op ε S Wr Lk D :=
  { b with admits := fun op d s => P d ∧ b.admits op d s }

variable {b : Backend Op ε S Wr Lk D} {P : D → Prop} {E : ε → Prop} {p : Program Op ε α}
  {Q : α → S → Prop}

/-- What holds for all draws holds for some of them. -/
theorem Program.Wp.restrict {v : S} (h : p.Wp b E Q v) : p.Wp (b.restrict P) E Q v := by
  induction p generalizing v with
  | ret a => exact h
  | fail e => exact h
  | call op next ih =>
    intro d hd
    have hcall := h d hd.2
    have hexec : (b.restrict P).exec op d v = b.exec op d v := rfl
    rw [hexec]
    cases hres : b.exec op d v with
    | error e => simpa only [hres] using hcall
    | ok r =>
      simp only [hres] at hcall ⊢
      exact ih r.1 hcall

/-- All draws may be considered. -/
theorem Program.Wp.of_restrict {v : S} (h : p.Wp (b.restrict (fun _ => True)) E Q v) :
    p.Wp b E Q v := by
  induction p generalizing v with
  | ret a => exact h
  | fail e => exact h
  | call op next ih =>
    intro d hd
    have hcall := h d ⟨trivial, hd⟩
    have hexec : (b.restrict (fun _ => True)).exec op d v = b.exec op d v := rfl
    rw [hexec] at hcall
    cases hres : b.exec op d v with
    | error e => simpa only [hres] using hcall
    | ok r =>
      simp only [hres] at hcall ⊢
      exact ih r.1 hcall

theorem Program.Admissible.restrict {ω : ℕ → D} {s : S} {w : List Wr}
    (h : p.Admissible b ω s w) (hP : ∀ i, P (ω i)) : p.Admissible (b.restrict P) ω s w := by
  induction p generalizing ω w with
  | ret a => trivial
  | fail e => trivial
  | call op next ih =>
    refine ⟨⟨hP 0, h.1⟩, ?_⟩
    have hrest := h.2
    have hexec : (b.restrict P).exec op (ω 0) ((b.restrict P).applyAll s w) =
        b.exec op (ω 0) (b.applyAll s w) := rfl
    rw [hexec]
    cases hres : b.exec op (ω 0) (b.applyAll s w) with
    | error e => trivial
    | ok r =>
      rw [hres] at hrest
      exact ih r.1 hrest (fun i => hP (i + 1))

theorem Program.run_restrict (p : Program Op ε α) (ω : ℕ → D) (s : S) (w : List Wr) :
    p.run (b.restrict P) ω s w = p.run b ω s w := by
  induction p generalizing ω w with
  | ret a => rfl
  | fail e => rfl
  | call op next ih =>
    simp only [Program.run, ih]
    rfl

/-- What a transaction leads to when its draws are among those considered. -/
theorem Program.Wp.leads_of_restrict {ω : ℕ → D} {s : S} {w : List Wr}
    (h : p.Wp (b.restrict P) E Q (b.applyAll s w)) (hω : p.Admissible b ω s w)
    (hP : ∀ i, P (ω i)) : Leads b E Q s w (p.run b ω s w) := by
  have hleads := Program.Wp.run (b := b.restrict P) h (hω.restrict hP)
  rw [Program.run_restrict] at hleads
  generalize p.run b ω s w = res at hleads ⊢
  obtain ⟨_ | _, _⟩ := res
  · exact hleads
  · exact hleads

end Restricted

/-- A triple for a program among others holds when it runs alone. -/
theorem Safe.wp {b : Backend Op ε S Wr Lk D} {J : S → Prop} {R : List Wr → S → S → Prop}
    {E : ε → Prop} {P : S → List Wr → Prop} {p : Program Op ε α} {Q : α → S → List Wr → Prop}
    (h : Safe b J R (fun e _ _ => E e) P p Q) {s : S} {w : List Wr} (hJ : J s) (hP : P s w) :
    p.Wp b E (fun a v => ∃ w', v = b.applyAll s w' ∧ Q a s w') (b.applyAll s w) := by
  induction p generalizing P w with
  | ret a => exact ⟨w, rfl, h s w hJ hP⟩
  | fail e => exact h s w hJ hP
  | call op next ih =>
    obtain ⟨M, hM, hexec, hnext⟩ := h
    intro d hd
    have hcall := hexec s w d hJ hP hd
    cases hres : b.exec op d (b.applyAll s w) with
    | error e => simpa only [hres] using hcall
    | ok r =>
      simp only [hres] at hcall ⊢
      rw [← Backend.applyAll_append]
      exact ih r.1 (hnext r.1) hcall

end Lib
