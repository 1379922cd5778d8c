import Orchestrator.Lib.World

/-!
# Transactions made of atomic actions

An action is a list of writes that is permitted in a state and keeps an
invariant. Two actions that lock different rows can be performed in either
order. A transaction whose writes are a sequence of actions therefore keeps the
invariant when it commits, whatever other such transactions have committed since
it began.

A running transaction is described by the state `v` that its completed actions
lead to from the committed state, and by the writes `ws` of an action that it has
begun. An assertion about `v` and `ws` is robust if it survives every action that
another transaction may commit in the meantime.
-/

namespace Lib

variable {Op : Type → Type} {ε S Wr Lk D Λ α β : Type}

/-- Actions over a backend, labelled by `Λ`, and the invariant they keep. -/
structure Actions (b : Backend Op ε S Wr Lk D) (Λ : Type) where
  /-- The writes perform the labelled action in the state. -/
  Act : Λ → S → List Wr → Prop
  /-- The invariant. -/
  Inv : S → Prop
  /-- Writes of different rows can be exchanged. -/
  comm : ∀ s x y, (b.locks x).Disjoint (b.locks y) →
    b.apply (b.apply s x) y = b.apply (b.apply s y) x
  /-- An action keeps the invariant. -/
  inv : ∀ {l s u}, Inv s → Act l s u → Inv (b.applyAll s u)
  /-- An action stays permitted after another one on different rows. -/
  keep : ∀ {l l' s u u'}, Inv s → Act l s u → Act l' s u' →
    (b.locksOf u).Disjoint (b.locksOf u') → Act l (b.applyAll s u') u

namespace Actions

variable {b : Backend Op ε S Wr Lk D} (L : Actions b Λ)

include L in
/-- A write can be moved over writes of other rows. -/
theorem apply_applyAll_comm (s : S) (x : Wr) (ws : List Wr)
    (h : (b.locks x).Disjoint (b.locksOf ws)) :
    b.applyAll (b.apply s x) ws = b.apply (b.applyAll s ws) x := by
  induction ws generalizing s with
  | nil => rfl
  | cons y ws ih =>
    have hsplit : (b.locks x).Disjoint (b.locks y ++ b.locksOf ws) := h
    obtain ⟨hy, hws⟩ := List.disjoint_append_right.mp hsplit
    rw [Backend.applyAll_cons, L.comm s x y hy, ih _ hws, Backend.applyAll_cons]

include L in
/-- Writes of different rows can be exchanged. -/
theorem applyAll_comm (s : S) (us ws : List Wr) (h : (b.locksOf us).Disjoint (b.locksOf ws)) :
    b.applyAll (b.applyAll s us) ws = b.applyAll (b.applyAll s ws) us := by
  induction us generalizing s with
  | nil => rfl
  | cons x us ih =>
    have hsplit : (b.locks x ++ b.locksOf us).Disjoint (b.locksOf ws) := h
    obtain ⟨hx, hus⟩ := List.disjoint_append_left.mp hsplit
    rw [Backend.applyAll_cons, ih _ hus, L.apply_applyAll_comm s x ws hx, Backend.applyAll_cons]

/-- The writes are a sequence of actions with labels in `C`. -/
inductive Steps (C : Λ → Prop) (s : S) : List Wr → Prop
  | nil : Steps C s []
  | snoc {w u : List Wr} {l : Λ} : Steps C s w → C l → L.Act l (b.applyAll s w) u →
      Steps C s (w ++ u)

variable {L} {A C C' : Λ → Prop} {s : S} {w u : List Wr} {l : Λ}

/-- A sequence of actions keeps the invariant. -/
theorem Steps.inv (h : L.Steps C s w) (hs : L.Inv s) : L.Inv (b.applyAll s w) := by
  induction h with
  | nil => exact hs
  | snoc _ _ hact ih => rw [Backend.applyAll_append]; exact L.inv ih hact

theorem Steps.mono (h : L.Steps C s w) (hC : ∀ l, C l → C' l) : L.Steps C' s w := by
  induction h with
  | nil => exact .nil
  | snoc _ hl hact ih => exact .snoc ih (hC _ hl) hact

/-- A single action is a sequence of actions. -/
theorem Steps.one (hl : C l) (h : L.Act l s u) : L.Steps C s u :=
  Steps.snoc (w := []) .nil hl h

/-- Steps one after the other. -/
theorem Steps.append (h : L.Steps C s w) (h' : L.Steps C (b.applyAll s w) u) :
    L.Steps C s (w ++ u) := by
  induction h' with
  | nil => simpa using h
  | snoc _ hl hact ih =>
    rw [← List.append_assoc]
    refine .snoc ih hl ?_
    rwa [Backend.applyAll_append]

/-- What every single action keeps is kept by a sequence of actions. -/
theorem Steps.induct (h : L.Steps C s w) (hs : L.Inv s) {P : S → Prop} (h0 : P s)
    (hstep : ∀ v l u, L.Inv v → C l → L.Act l v u → P v → P (b.applyAll v u)) :
    P (b.applyAll s w) := by
  induction h with
  | nil => exact h0
  | snoc hw hl hact ih =>
    rw [Backend.applyAll_append]
    exact hstep _ _ _ (hw.inv hs) hl hact ih

/-- An action and a sequence of actions on other rows can be exchanged. -/
theorem Steps.keep_act (hs : L.Inv s) (h : L.Steps C s w) (hact : L.Act l s u)
    (hdisj : (b.locksOf u).Disjoint (b.locksOf w)) :
    L.Act l (b.applyAll s w) u ∧ L.Steps C (b.applyAll s u) w := by
  induction h with
  | nil => exact ⟨hact, .nil⟩
  | @snoc w u' l' hw hl' hact' ih =>
    rw [Backend.locksOf_append] at hdisj
    obtain ⟨hdw, hdu⟩ := List.disjoint_append_right.mp hdisj
    obtain ⟨hu, hw'⟩ := ih hdw
    refine ⟨?_, .snoc hw' hl' ?_⟩
    · rw [Backend.applyAll_append]
      exact L.keep (hw.inv hs) hu hact' hdu
    · rw [L.applyAll_comm s u w hdw]
      exact L.keep (hw.inv hs) hact' hu (List.Disjoint.symm hdu)

/-- Two sequences of actions on different rows can be exchanged. -/
theorem Steps.keep (hs : L.Inv s) (hw : L.Steps C s w) (hu : L.Steps A s u)
    (hdisj : (b.locksOf u).Disjoint (b.locksOf w)) :
    L.Steps A (b.applyAll s w) u ∧ L.Steps C (b.applyAll s u) w := by
  induction hu with
  | nil => exact ⟨.nil, hw⟩
  | @snoc u u' l hu hl hact ih =>
    rw [Backend.locksOf_append] at hdisj
    obtain ⟨hdu, hdu'⟩ := List.disjoint_append_left.mp hdisj
    obtain ⟨hAu, hCw⟩ := ih hdu
    obtain ⟨hact', hCw'⟩ := Steps.keep_act (hu.inv hs) hCw hact hdu'
    rw [L.applyAll_comm s u w hdu] at hact'
    exact ⟨.snoc hAu hl hact', by rwa [Backend.applyAll_append]⟩

section Logic

variable (L) (A C)

/-- What other transactions may commit while one holds the locks of `w`. -/
def Rely (w : List Wr) (s s' : S) : Prop :=
  ∃ u, L.Steps A s u ∧ (b.locksOf u).Disjoint (b.locksOf w) ∧ s' = b.applyAll s u

/-- The assertion survives an action with a label in `A` that needs none of the
locks `H` and none of the locks of the action begun. -/
def Robust (H : List Lk) (F : S → List Wr → Prop) : Prop :=
  ∀ v ws l u, L.Inv v → A l → L.Act l v u → (b.locksOf u).Disjoint (b.locksOf ws) →
    (b.locksOf u).Disjoint H → F v ws → F (b.applyAll v u) ws

/-- A running transaction: its completed actions have labels in `C` and hold the
locks `H`, and `F` holds of the state they lead to and of the action begun. -/
def Holds (H : List Lk) (F : S → List Wr → Prop) (s : S) (w : List Wr) : Prop :=
  ∃ w₀ ws, w = w₀ ++ ws ∧ L.Steps C s w₀ ∧ H ⊆ b.locksOf w₀ ∧ F (b.applyAll s w₀) ws

/-- The writes `us` of the action begun in `v` establish `F`, as the beginning of
an action or as a whole one. In the second case their locks are kept. -/
def Lands (H H' : List Lk) (F : S → List Wr → Prop) (v : S) (us : List Wr) : Prop :=
  (H' ⊆ H ∧ F v us) ∨
    ∃ l, C l ∧ L.Act l v us ∧ H' ⊆ H ++ b.locksOf us ∧ F (b.applyAll v us) []

/-- A triple for a part of a transaction. `Err` says which errors it may end
with. -/
def Triple (Err : ε → Prop) (H : List Lk) (F : S → List Wr → Prop) (p : Program Op ε α)
    (H' : List Lk) (F' : α → S → List Wr → Prop) : Prop :=
  Safe b L.Inv (L.Rely A) (fun e _ _ => Err e) (L.Holds C H F) p (fun a => L.Holds C H' (F' a))

variable {L A C} {H H' H'' : List Lk} {F F₁ : S → List Wr → Prop} {Err : ε → Prop}
  {p : Program Op ε α} {F' : α → S → List Wr → Prop}

/-- Two robust facts are robust together. -/
theorem Robust.and (h : L.Robust A H F) (h₁ : L.Robust A H F₁) :
    L.Robust A H (fun v ws => F v ws ∧ F₁ v ws) :=
  fun v ws l u hv hl hact hd hH hF =>
    ⟨h v ws l u hv hl hact hd hH hF.1, h₁ v ws l u hv hl hact hd hH hF.2⟩

theorem Robust.forall {ι : Sort*} {F : ι → S → List Wr → Prop} (h : ∀ i, L.Robust A H (F i)) :
    L.Robust A H (fun v ws => ∀ i, F i v ws) :=
  fun v ws l u hv hl hact hd hH hF i => h i v ws l u hv hl hact hd hH (hF i)

/-- What is said of the writes alone is robust. -/
theorem Robust.pure (φ : List Wr → Prop) : L.Robust A H (fun _ ws => φ ws) :=
  fun _ _ _ _ _ _ _ _ _ hφ => hφ

/-- An assertion about completed actions may be used while another is begun. -/
theorem Robust.at_nil (h : L.Robust A H F) : L.Robust A H (fun v _ => F v []) :=
  fun v _ l u hv hl hact _ hH hF => h v [] l u hv hl hact (List.disjoint_nil_right _) hH hF

/-- A robust assertion survives a sequence of actions of others. -/
theorem Robust.steps (h : L.Robust A H F) {v : S} {ws u : List Wr} (hv : L.Inv v)
    (hu : L.Steps A v u) (hd : (b.locksOf u).Disjoint (b.locksOf ws))
    (hH : (b.locksOf u).Disjoint H) (hF : F v ws) : F (b.applyAll v u) ws := by
  induction hu with
  | nil => exact hF
  | @snoc u u' l hu hl hact ih =>
    rw [Backend.locksOf_append] at hd hH
    obtain ⟨hd, hd'⟩ := List.disjoint_append_left.mp hd
    obtain ⟨hH, hH'⟩ := List.disjoint_append_left.mp hH
    rw [Backend.applyAll_append]
    exact h _ _ _ _ (hu.inv hv) hl hact hd' hH' (ih hd hH)

/-- A robust assertion about a running transaction is stable. -/
theorem Robust.stable (h : L.Robust A H F) : Stable L.Inv (L.Rely A) (L.Holds C H F) := by
  rintro s s' w hs hs' ⟨u, hu, hdisj, rfl⟩ ⟨w₀, ws, rfl, hw₀, hH, hF⟩
  rw [Backend.locksOf_append] at hdisj
  obtain ⟨hdw, hdws⟩ := List.disjoint_append_right.mp hdisj
  obtain ⟨hu', hw₀'⟩ := Steps.keep hs hw₀ hu hdw
  refine ⟨w₀, ws, rfl, hw₀', hH, ?_⟩
  rw [L.applyAll_comm s u w₀ hdw]
  exact h.steps (hw₀.inv hs) hu' hdws (fun l hl hl' => hdw hl (hH hl')) hF

/-- More labels may be permitted, and less may be asserted. -/
theorem Holds.mono {s : S} {w : List Wr} (h : L.Holds C H F s w) (hs : L.Inv s)
    (hC : ∀ l, C l → C' l) (hH : H' ⊆ H) (hF : ∀ v ws, L.Inv v → F v ws → F₁ v ws) :
    L.Holds C' H' F₁ s w := by
  obtain ⟨w₀, ws, rfl, hsteps, hsub, hf⟩ := h
  exact ⟨w₀, ws, rfl, hsteps.mono hC, fun _ hk => hsub (hH hk), hF _ _ (hsteps.inv hs) hf⟩

/-- The writes are the beginning of an action. -/
theorem Lands.begin {v : S} {us : List Wr} (h : F v us) : L.Lands C H H F v us :=
  Or.inl ⟨List.Subset.refl H, h⟩

/-- The writes are a whole action. -/
theorem Lands.act {v : S} {us : List Wr} {l : Λ} (hl : C l) (hact : L.Act l v us)
    (h : F (b.applyAll v us) []) : L.Lands C H H F v us :=
  Or.inr ⟨l, hl, hact, List.subset_append_left H _, h⟩

/-- The writes are a whole action whose locks are noted. -/
theorem Lands.lock {v : S} {us : List Wr} {l : Λ} (hl : C l) (hact : L.Act l v us)
    (hH : H' ⊆ H ++ b.locksOf us) (h : F (b.applyAll v us) []) : L.Lands C H H' F v us :=
  Or.inr ⟨l, hl, hact, hH, h⟩

/-- Landing with a fact is landing with what follows from it. -/
theorem Lands.mono {v : S} {us : List Wr} (h : L.Lands C H H' F v us)
    (hF : ∀ v ws, F v ws → F₁ v ws) : L.Lands C H H' F₁ v us := by
  refine h.imp (And.imp_right (hF _ _)) ?_
  rintro ⟨l, hl, hact, hH, hf⟩
  exact ⟨l, hl, hact, hH, hF _ _ hf⟩

/-- The rule of consequence, for what is known before. -/
theorem Triple.pre (h : L.Triple A C Err H F₁ p H' F')
    (hF : ∀ v ws, L.Inv v → F v ws → F₁ v ws) : L.Triple A C Err H F p H' F' := by
  refine Safe.pre h ?_
  rintro _ _ hs ⟨w₀, ws, hw, hsteps, hH, hf⟩
  exact ⟨w₀, ws, hw, hsteps, hH, hF _ _ (hsteps.inv hs) hf⟩

/-- The rule of consequence, for what is known after. -/
theorem Triple.post {F₂ : α → S → List Wr → Prop} (h : L.Triple A C Err H F p H' F₂)
    (hF : ∀ a v ws, L.Inv v → F₂ a v ws → F' a v ws) : L.Triple A C Err H F p H' F' := by
  refine Safe.post h ?_
  rintro _ _ _ hs ⟨w₀, ws, hw, hsteps, hH, hf⟩
  exact ⟨w₀, ws, hw, hsteps, hH, hF _ _ _ (hsteps.inv hs) hf⟩

/-- The rule of sequence. -/
theorem Triple.bind {f : α → Program Op ε β} {F'' : β → S → List Wr → Prop}
    (hp : L.Triple A C Err H F p H' F') (hf : ∀ a, L.Triple A C Err H' (F' a) (f a) H'' F'') :
    L.Triple A C Err H F (p >>= f) H'' F'' :=
  Safe.bind hp hf

/-- A program that returns has to know already what it claims. -/
theorem Triple.ret {a : α} (hH : H' ⊆ H) (h : ∀ v ws, L.Inv v → F v ws → F' a v ws) :
    L.Triple A C Err H F (.ret a) H' F' := by
  refine Safe.ret ?_
  rintro _ _ hs ⟨w₀, ws, hw, hsteps, hH', hf⟩
  exact ⟨w₀, ws, hw, hsteps, fun _ hl => hH' (hH hl), h _ _ (hsteps.inv hs) hf⟩

/-- A program may only fail with an expected error. -/
theorem Triple.fail {e : ε} (h : ∀ v ws, L.Inv v → F v ws → Err e) :
    L.Triple A C Err H F (.fail e : Program Op ε α) H' F' := by
  refine Safe.fail ?_
  rintro _ _ hs ⟨_, _, _, hsteps, _, hf⟩
  exact h _ _ (hsteps.inv hs) hf

/-- A witness of what is known before may be fixed. -/
theorem Triple.exists {ι : Type} {F : ι → S → List Wr → Prop}
    (h : ∀ i, L.Triple A C Err H (F i) p H' F') :
    L.Triple A C Err H (fun v ws => ∃ i, F i v ws) p H' F' := by
  refine Safe.pre (Safe.exists h) ?_
  rintro _ _ _ ⟨w₀, ws, hw, hsteps, hH, i, hf⟩
  exact ⟨i, w₀, ws, hw, hsteps, hH, hf⟩

/-- A pure fact about a running transaction may be assumed. -/
theorem Holds.assume {φ : Prop} {E : ε → S → List Wr → Prop} {Q : α → S → List Wr → Prop}
    {c : Backend Op ε S Wr Lk D} (h : φ → Safe c L.Inv (L.Rely A) E (L.Holds C H F) p Q) :
    Safe c L.Inv (L.Rely A) E (L.Holds C H (fun v ws => φ ∧ F v ws)) p Q := by
  refine Safe.pre (Safe.assume h) ?_
  rintro _ _ _ ⟨w₀, ws, hw, hsteps, hH, hφ, hf⟩
  exact ⟨hφ, w₀, ws, hw, hsteps, hH, hf⟩

/-- A pure fact that is known before may be used. -/
theorem Triple.assume {φ : Prop} (h : φ → L.Triple A C Err H F p H' F') :
    L.Triple A C Err H (fun v ws => φ ∧ F v ws) p H' F' :=
  Holds.assume h

/-- A precondition that cannot hold gives any triple. -/
theorem Triple.absurd (h : ∀ v ws, L.Inv v → ¬ F v ws) : L.Triple A C Err H F p H' F' := by
  refine Safe.false ?_
  rintro _ _ hs ⟨_, _, _, hsteps, _, hf⟩
  exact h _ _ (hsteps.inv hs) hf

/-- One call. Its writes continue the action begun, or complete it. The labels and
the locks that are noted may depend on the answer. -/
theorem Holds.call {op : Op β} {F' : β → S → List Wr → Prop} {C' : β → Λ → Prop}
    {H' : β → List Lk} {φ : {β : Type} → Op β → S → Prop}
    (hF' : ∀ a, L.Robust A (H' a) (F' a)) (hC : ∀ a l, C l → C' a l)
    (h : ∀ v ws d, L.Inv v → F v ws → b.admits op d (b.applyAll v ws) → φ op (b.applyAll v ws) →
      match b.exec op d (b.applyAll v ws) with
      | .error e => Err e
      | .ok (a, us) => L.Lands (C' a) H (H' a) (F' a) v (ws ++ us)) :
    Safe (b.under φ) L.Inv (L.Rely A) (fun e _ _ => Err e) (L.Holds C H F) (Program.request op)
      (fun a => L.Holds (C' a) (H' a) (F' a)) := by
  refine Safe.request (fun a => (hF' a).stable) ?_
  rintro s w d hs ⟨w₀, ws, rfl, hsteps, hH, hf⟩ hadm
  change b.admits op d (b.applyAll s (w₀ ++ ws)) ∧ φ op (b.applyAll s (w₀ ++ ws)) at hadm
  change match b.exec op d (b.applyAll s (w₀ ++ ws)) with
    | .error e => Err e
    | .ok (a, us) => L.Holds (C' a) (H' a) (F' a) s (w₀ ++ ws ++ us)
  rw [Backend.applyAll_append] at hadm ⊢
  have hres := h _ ws d (hsteps.inv hs) hf hadm.1 hadm.2
  cases hexec : b.exec op d (b.applyAll (b.applyAll s w₀) ws) with
  | error e => rwa [hexec] at hres
  | ok r =>
    obtain ⟨a, us⟩ := r
    rw [hexec] at hres
    have hsteps := hsteps.mono (hC a)
    rcases hres with ⟨hHH, hf'⟩ | ⟨l, hl, hact, hHH, hf'⟩
    · exact ⟨w₀, ws ++ us, by simp, hsteps, fun _ hl => hH (hHH hl), hf'⟩
    · refine ⟨w₀ ++ (ws ++ us), [], by simp, hsteps.snoc hl hact, ?_, ?_⟩
      · rw [Backend.locksOf_append]
        intro k hk
        rcases List.mem_append.mp (hHH hk) with hk | hk
        · exact List.mem_append_left _ (hH hk)
        · exact List.mem_append_right _ hk
      · rwa [Backend.applyAll_append]

/-- One call of a part of a transaction. -/
theorem Triple.call {op : Op β} {F' : β → S → List Wr → Prop}
    (hF' : ∀ a, L.Robust A H' (F' a))
    (h : ∀ v ws d, L.Inv v → F v ws → b.admits op d (b.applyAll v ws) →
      match b.exec op d (b.applyAll v ws) with
      | .error e => Err e
      | .ok (a, us) => L.Lands C H H' (F' a) v (ws ++ us)) :
    L.Triple A C Err H F (Program.request op) H' F' :=
  Safe.of_under (Holds.call (φ := fun _ _ => True) hF' (fun _ _ hl => hl)
    (fun v ws d hv hF hd _ => h v ws d hv hF hd)) (fun _ _ => trivial)

/-- A loop over a list keeps an invariant of its accumulator. -/
theorem Triple.foldlM {γ : Type} {f : γ → β → Program Op ε γ} {I : γ → S → List Wr → Prop}
    {xs : List β} (h : ∀ c, ∀ x ∈ xs, L.Triple A C Err H (I c) (f c x) H I) (c : γ) :
    L.Triple A C Err H (I c) (xs.foldlM f c) H I :=
  Safe.foldlM h c

/-- A loop over a list whose invariant also tells which elements are left. -/
theorem Triple.foldlM_suffix {γ : Type} {f : γ → β → Program Op ε γ}
    {I : List β → γ → S → List Wr → Prop} {xs : List β}
    (h : ∀ c x rest, (x :: rest) <:+ xs →
      L.Triple A C Err H (I (x :: rest) c) (f c x) H (I rest)) (c : γ) :
    L.Triple A C Err H (I xs c) (xs.foldlM f c) H (I []) :=
  Safe.foldlM_suffix (I := fun rest c => L.Holds C H (I rest c)) h c

end Logic

end Actions

end Lib
