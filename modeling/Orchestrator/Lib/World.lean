import Orchestrator.Lib.Safety

/-!
# Interleaved transactions

Several calls are served at once against one committed state, one database call
at a time. A database call sees the committed state with the transaction's own
writes on top. A call that writes a row waits while another transaction holds a
lock of that row, and locks are held to the end. A transaction commits all its
writes at once, or ends without a trace. A session in autocommit mode commits
after every database call.
-/

namespace Lib

variable {Op : Type → Type} {ε S Wr Lk D τ : Type}

/-- A call being served: what remains of its program, and the writes that it has
made and not committed. -/
structure Session (Op : Type → Type) (ε Wr τ : Type) : Type 1 where
  /-- The call. -/
  tag : τ
  /-- Whether each database call commits by itself. -/
  auto : Bool
  /-- What remains to be executed. -/
  prog : Program Op ε Unit
  /-- The uncommitted writes, in order. -/
  writes : List Wr

/-- The writes of a session that is about to commit. -/
def Session.returned (σ : Session Op ε Wr τ) : Option (List Wr) :=
  match σ.prog with
  | .ret () => some σ.writes
  | _ => none

/-- The committed state, the sessions by connection number, and the calls that
have ended well. -/
structure World (Op : Type → Type) (ε S Wr τ : Type) : Type 1 where
  /-- The committed state. -/
  db : S
  /-- The sessions; an entry is empty once its session has ended. -/
  sessions : List (Option (Session Op ε Wr τ))
  /-- The calls whose program has returned and committed, latest first. -/
  done : List τ

/-- The calls that may arrive. -/
structure Service (Op : Type → Type) (ε S Wr τ : Type) : Type 1 where
  /-- The session that serves a call arriving in a committed state, if the call
  can arrive there. -/
  begin : τ → S → Option (Session Op ε Wr τ)
  /-- A condition on the database calls of a session and the state they see. -/
  allows : τ → {β : Type} → Op β → S → Prop
  /-- The condition can be tested. -/
  decAllows : (tag : τ) → {β : Type} → (op : Op β) → (s : S) → Decidable (allows tag op s)

instance (svc : Service Op ε S Wr τ) (tag : τ) {β : Type} (op : Op β) (s : S) :
    Decidable (svc.allows tag op s) := svc.decAllows tag op s

/-- The backend whose choices also meet a condition on the call and the state. -/
def Backend.under (b : Backend Op ε S Wr Lk D) (φ : {β : Type} → Op β → S → Prop) :
    Backend Op ε S Wr Lk D :=
  { b with admits := fun op d s => b.admits op d s ∧ φ op s }

/-- A triple survives a condition on the calls. -/
theorem Safe.under {α : Type} {b : Backend Op ε S Wr Lk D} {J : S → Prop}
    {R : List Wr → S → S → Prop} {E : ε → S → List Wr → Prop} {P : S → List Wr → Prop}
    {p : Program Op ε α} {Q : α → S → List Wr → Prop} {φ : {β : Type} → Op β → S → Prop}
    (h : Safe b J R E P p Q) : Safe (b.under φ) J R E P p Q :=
  h.mono (fun _ hs => hs) (fun _ _ _ _ _ hr => hr) (fun _ _ => rfl) (fun _ _ _ => rfl)
    (fun _ _ _ hd => hd.1)

/-- A condition that always holds may be left out. -/
theorem Safe.of_under {α : Type} {b : Backend Op ε S Wr Lk D} {J : S → Prop}
    {R : List Wr → S → S → Prop} {E : ε → S → List Wr → Prop} {P : S → List Wr → Prop}
    {p : Program Op ε α} {Q : α → S → List Wr → Prop} {φ : {β : Type} → Op β → S → Prop}
    (h : Safe (b.under φ) J R E P p Q) (hφ : ∀ {β : Type} (op : Op β) s, φ op s) :
    Safe b J R E P p Q :=
  h.mono (fun _ hs => hs) (fun _ _ _ _ _ hr => hr) (fun _ _ => rfl) (fun _ _ _ => rfl)
    (fun op _ s hd => ⟨hd, hφ op s⟩)

/-- What may happen next. -/
inductive Action (τ D : Type)
  /-- A call arrives. -/
  | start (tag : τ)
  /-- A session makes its next database call. -/
  | exec (i : ℕ) (d : D)
  /-- A session whose program has returned commits and ends. -/
  | commit (i : ℕ)
  /-- A session ends without committing: its program failed, it was chosen as a
  deadlock victim, or its server was lost. -/
  | abort (i : ℕ)

namespace World

/-- The session on a connection. -/
def session? (W : World Op ε S Wr τ) (i : ℕ) : Option (Session Op ε Wr τ) :=
  (W.sessions[i]?).join

/-- Replace the session on one connection. -/
def set (W : World Op ε S Wr τ) (i : ℕ) (σ : Option (Session Op ε Wr τ)) : World Op ε S Wr τ :=
  { W with sessions := W.sessions.set i σ }

/-- No session on another connection holds a lock of these writes. -/
def free [DecidableEq Lk] (b : Backend Op ε S Wr Lk D) (W : World Op ε S Wr τ) (i : ℕ)
    (ws : List Wr) : Bool :=
  (List.range W.sessions.length).all (fun j =>
    j == i || (W.session? j).all (fun σ =>
      (b.locksOf ws).all (fun l => decide (l ∉ b.locksOf σ.writes))))

/-- One step of an interleaving, if it is possible. -/
def next [DecidableEq Lk] (b : Backend Op ε S Wr Lk D) (svc : Service Op ε S Wr τ)
    [∀ {β : Type} (op : Op β) (d : D) (s : S), Decidable (b.admits op d s)] :
    Action τ D → World Op ε S Wr τ → Option (World Op ε S Wr τ)
  | .start tag, W =>
    match svc.begin tag W.db with
    | none => none
    | some σ =>
      if W.free b W.sessions.length σ.writes then
        some { W with sessions := W.sessions ++ [some σ] }
      else none
  | .exec i d, W =>
    match W.session? i with
    | some ⟨tag, auto, .call op next, w⟩ =>
      if b.admits op d (b.applyAll W.db w) ∧ svc.allows tag op (b.applyAll W.db w) then
        match b.exec op d (b.applyAll W.db w) with
        | .error _ => some (W.set i none)
        | .ok (a, ws) =>
          if W.free b i ws then
            if auto then
              some { (W.set i (some ⟨tag, auto, next a, w⟩)) with db := b.applyAll W.db ws }
            else some (W.set i (some ⟨tag, auto, next a, w ++ ws⟩))
          else none
      else none
    | _ => none
  | .commit i, W =>
    match W.session? i with
    | some ⟨tag, _, .ret (), w⟩ =>
      some { (W.set i none) with db := b.applyAll W.db w, done := tag :: W.done }
    | _ => none
  | .abort i, W => (W.session? i).map (fun _ => W.set i none)

/-- Perform a list of actions, if each of them is possible. -/
def run [DecidableEq Lk] (b : Backend Op ε S Wr Lk D) (svc : Service Op ε S Wr τ)
    [∀ {β : Type} (op : Op β) (d : D) (s : S), Decidable (b.admits op d s)] :
    List (Action τ D) → World Op ε S Wr τ → Option (World Op ε S Wr τ)
  | [], W => some W
  | act :: acts, W => (next b svc act W).bind (run b svc acts)

/-- The world in which no call is being served yet. -/
def init (s : S) : World Op ε S Wr τ := ⟨s, [], []⟩

/-- The worlds that an interleaving reaches from a committed state on which no
session is running. -/
inductive Reachable [DecidableEq Lk] (b : Backend Op ε S Wr Lk D) (svc : Service Op ε S Wr τ)
    [∀ {β : Type} (op : Op β) (d : D) (s : S), Decidable (b.admits op d s)] (s : S) :
    World Op ε S Wr τ → Prop
  | init : Reachable b svc s (init s)
  | step {W W' : World Op ε S Wr τ} {act : Action τ D} : Reachable b svc s W →
      next b svc act W = some W' → Reachable b svc s W'

/-- What a list of actions leads to is reachable. -/
theorem Reachable.run [DecidableEq Lk] {b : Backend Op ε S Wr Lk D} {svc : Service Op ε S Wr τ}
    [∀ {β : Type} (op : Op β) (d : D) (s : S), Decidable (b.admits op d s)] {s : S}
    {acts : List (Action τ D)} {W W' : World Op ε S Wr τ} (h : Reachable b svc s W)
    (hrun : World.run b svc acts W = some W') : Reachable b svc s W' := by
  induction acts generalizing W with
  | nil => exact Option.some.inj hrun ▸ h
  | cons act acts ih =>
    obtain ⟨W₁, hnext, hrest⟩ := Option.bind_eq_some_iff.mp hrun
    exact ih (h.step hnext) hrest

/-- No call is being served. -/
def Idle (W : World Op ε S Wr τ) : Prop := ∀ i, W.session? i = none

variable {W W' : World Op ε S Wr τ} {i j : ℕ} {σ : Session Op ε Wr τ}

/-- Idleness can be tested. -/
theorem idle_of_all (h : W.sessions.all Option.isNone = true) : W.Idle := by
  intro i
  rw [session?]
  cases hi : W.sessions[i]? with
  | none => rfl
  | some σ =>
    rw [Option.join_some, ← Option.isNone_iff_eq_none]
    exact List.all_eq_true.mp h σ (List.mem_of_getElem? hi)

theorem session?_set {σ' : Option (Session Op ε Wr τ)} (h : (W.set i σ').session? j = some σ) :
    (i = j ∧ σ' = some σ) ∨ (i ≠ j ∧ W.session? j = some σ) := by
  simp only [session?, set, List.getElem?_set] at h
  split_ifs at h with hij hlt
  · exact Or.inl ⟨hij, by simpa using h⟩
  · simp at h
  · exact Or.inr ⟨hij, h⟩

theorem session?_append {σ' : Session Op ε Wr τ}
    (h : ({ W with sessions := W.sessions ++ [some σ'] } : World Op ε S Wr τ).session? j =
      some σ) :
    (j = W.sessions.length ∧ σ = σ') ∨ (j ≠ W.sessions.length ∧ W.session? j = some σ) := by
  simp only [session?] at h ⊢
  rcases Nat.lt_trichotomy j W.sessions.length with hj | hj | hj
  · rw [List.getElem?_append_left hj] at h
    exact Or.inr ⟨Nat.ne_of_lt hj, h⟩
  · subst hj
    simp only [List.getElem?_concat_length, Option.join_some, Option.some.injEq] at h
    exact Or.inl ⟨rfl, h.symm⟩
  · rw [List.getElem?_eq_none (by simp; omega)] at h
    cases h

theorem lt_length_of_session? (h : W.session? i = some σ) : i < W.sessions.length := by
  by_contra hlt
  rw [session?, List.getElem?_eq_none (by omega)] at h
  cases h

/-- What `free` tests. -/
theorem disjoint_of_free [DecidableEq Lk] {b : Backend Op ε S Wr Lk D} {ws : List Wr}
    (h : W.free b i ws = true) (hji : j ≠ i) (hj : W.session? j = some σ) :
    (b.locksOf ws).Disjoint (b.locksOf σ.writes) := by
  have hlt := lt_length_of_session? hj
  simp only [free, List.all_eq_true, List.mem_range, Bool.or_eq_true, beq_iff_eq] at h
  have hσ := (h j hlt).resolve_left hji
  rw [hj, Option.all_some, List.all_eq_true] at hσ
  exact fun l hl hl' => by simpa [hl'] using hσ l hl

/-- What holds of every session when it begins, and is kept by each of its calls. -/
theorem Reachable.sessions [DecidableEq Lk] {b : Backend Op ε S Wr Lk D}
    {svc : Service Op ε S Wr τ}
    [∀ {β : Type} (op : Op β) (d : D) (s : S), Decidable (b.admits op d s)] {s : S}
    {I : Session Op ε Wr τ → Prop} (h : Reachable b svc s W)
    (hbegin : ∀ tag s σ, svc.begin tag s = some σ → I σ)
    (hexec : ∀ {β : Type} tag auto (op : Op β) next w d s a ws,
      I ⟨tag, auto, .call op next, w⟩ → svc.allows tag op s → b.exec op d s = .ok (a, ws) →
      I ⟨tag, auto, next a, if auto then w else w ++ ws⟩) :
    ∀ i σ, W.session? i = some σ → I σ := by
  induction h with
  | init =>
    intro i σ hσ
    simp [World.init, session?] at hσ
  | @step W W' act _ hstep ih =>
    have hset : ∀ {j σ'}, I σ' → ∀ i σ, (W.set j (some σ')).session? i = some σ → I σ := by
      intro j σ' hσ' i σ hσ
      rcases session?_set hσ with ⟨-, heq⟩ | ⟨-, hσ⟩
      · exact Option.some.inj heq ▸ hσ'
      · exact ih i σ hσ
    have hnone : ∀ {j}, ∀ i σ, (W.set j none).session? i = some σ → I σ := by
      intro j i σ hσ
      rcases session?_set hσ with ⟨-, heq⟩ | ⟨-, hσ⟩
      · cases heq
      · exact ih i σ hσ
    cases act with
    | start tag =>
      simp only [next] at hstep
      split at hstep
      · cases hstep
      · rename_i σ' hσ'
        split_ifs at hstep
        obtain rfl := Option.some.inj hstep
        intro i σ hσ
        rcases session?_append hσ with ⟨-, rfl⟩ | ⟨-, hσ⟩
        · exact hbegin tag W.db _ hσ'
        · exact ih i σ hσ
    | exec j d =>
      simp only [next] at hstep
      split at hstep
      · rename_i tag auto β op next w hsess
        by_cases hadm : b.admits op d (b.applyAll W.db w) ∧ svc.allows tag op (b.applyAll W.db w)
        · rw [if_pos hadm] at hstep
          split at hstep
          · exact Option.some.inj hstep ▸ hnone
          · rename_i a ws hres
            have hnext := hexec tag auto op next w d _ a ws (ih j _ hsess) hadm.2 hres
            by_cases hfree : W.free b j ws = true
            · rw [if_pos hfree] at hstep
              split_ifs at hstep hnext
              · exact Option.some.inj hstep ▸ hset hnext
              · exact Option.some.inj hstep ▸ hset hnext
            · rw [if_neg hfree] at hstep
              cases hstep
        · rw [if_neg hadm] at hstep
          cases hstep
      · cases hstep
    | commit j =>
      simp only [next] at hstep
      split at hstep
      · exact Option.some.inj hstep ▸ hnone
      · cases hstep
    | abort j =>
      simp only [next, Option.map_eq_some_iff] at hstep
      obtain ⟨σ, -, rfl⟩ := hstep
      exact hnone

/-- Where a session comes from: it was there, or it has just begun, or it has made a
database call. -/
theorem session?_of_next [DecidableEq Lk] {b : Backend Op ε S Wr Lk D}
    {svc : Service Op ε S Wr τ}
    [∀ {β : Type} (op : Op β) (d : D) (s : S), Decidable (b.admits op d s)] {act : Action τ D}
    (hstep : next b svc act W = some W') (hσ : W'.session? i = some σ) :
    W.session? i = some σ ∨
    (∃ tag, i = W.sessions.length ∧ svc.begin tag W.db = some σ) ∨
    ∃ d tag auto β, ∃ op : Op β, ∃ next w a ws,
      W.session? i = some ⟨tag, auto, .call op next, w⟩ ∧
      b.exec op d (b.applyAll W.db w) = .ok (a, ws) ∧
      σ = ⟨tag, auto, next a, if auto then w else w ++ ws⟩ ∧
      W'.db = if auto then b.applyAll W.db ws else W.db := by
  have hnone : ∀ {j}, (W.set j none).session? i = some σ → W.session? i = some σ := by
    intro j hj
    rcases session?_set hj with ⟨-, heq⟩ | ⟨-, hold⟩
    · cases heq
    · exact hold
  cases act with
  | start tag =>
    simp only [next] at hstep
    split at hstep
    · cases hstep
    · rename_i σ' hbegin
      split_ifs at hstep
      obtain rfl := Option.some.inj hstep
      rcases session?_append hσ with ⟨hi, rfl⟩ | ⟨-, hold⟩
      · exact Or.inr (Or.inl ⟨tag, hi, hbegin⟩)
      · exact Or.inl hold
  | exec j d =>
    simp only [next] at hstep
    split at hstep
    · rename_i tag auto β op next w hsess
      by_cases hadm : b.admits op d (b.applyAll W.db w) ∧ svc.allows tag op (b.applyAll W.db w)
      · rw [if_pos hadm] at hstep
        split at hstep
        · exact Or.inl (hnone (Option.some.inj hstep ▸ hσ))
        · rename_i a ws hres
          split_ifs at hstep with hfree hauto
          · obtain rfl := Option.some.inj hstep
            rcases session?_set hσ with ⟨rfl, heq⟩ | ⟨-, hold⟩
            · subst hauto
              exact Or.inr (Or.inr ⟨d, tag, true, β, op, next, w, a, ws, hsess, hres,
                (Option.some.inj heq).symm, rfl⟩)
            · exact Or.inl hold
          · obtain rfl := Option.some.inj hstep
            rcases session?_set hσ with ⟨rfl, heq⟩ | ⟨-, hold⟩
            · rw [Bool.not_eq_true] at hauto
              subst hauto
              exact Or.inr (Or.inr ⟨d, tag, false, β, op, next, w, a, ws, hsess, hres,
                (Option.some.inj heq).symm, rfl⟩)
            · exact Or.inl hold
      · rw [if_neg hadm] at hstep
        cases hstep
    · cases hstep
  | commit j =>
    simp only [next] at hstep
    split at hstep
    · obtain rfl := Option.some.inj hstep
      exact Or.inl (hnone hσ)
    · cases hstep
  | abort j =>
    simp only [next, Option.map_eq_some_iff] at hstep
    obtain ⟨σ', -, rfl⟩ := hstep
    exact Or.inl (hnone hσ)

/-- Connections are numbered consecutively. -/
theorem length_le_of_next [DecidableEq Lk] {b : Backend Op ε S Wr Lk D}
    {svc : Service Op ε S Wr τ}
    [∀ {β : Type} (op : Op β) (d : D) (s : S), Decidable (b.admits op d s)] {act : Action τ D}
    (hstep : next b svc act W = some W') : W.sessions.length ≤ W'.sessions.length := by
  have hset : ∀ j σ, W.sessions.length ≤ (W.set j σ).sessions.length :=
    fun j σ => Nat.le_of_eq List.length_set.symm
  cases act with
  | start tag =>
    simp only [next] at hstep
    split at hstep
    · cases hstep
    · split_ifs at hstep
      obtain rfl := Option.some.inj hstep
      simp
  | exec j d =>
    simp only [next] at hstep
    split at hstep
    · rename_i tag auto β op next w hsess
      by_cases hadm : b.admits op d (b.applyAll W.db w) ∧ svc.allows tag op (b.applyAll W.db w)
      · rw [if_pos hadm] at hstep
        split at hstep
        · exact Option.some.inj hstep ▸ hset j none
        · split_ifs at hstep
          · exact Option.some.inj hstep ▸ hset j _
          · exact Option.some.inj hstep ▸ hset j _
      · rw [if_neg hadm] at hstep
        cases hstep
    · cases hstep
  | commit j =>
    simp only [next] at hstep
    split at hstep
    · exact Option.some.inj hstep ▸ hset j none
    · cases hstep
  | abort j =>
    simp only [next, Option.map_eq_some_iff] at hstep
    obtain ⟨σ', -, rfl⟩ := hstep
    exact hset j none

/-- What holds in every world of an interleaving: the committed state satisfies
`J`, every session meets the rest of its triple, no lock is held twice, and what
ended calls established still holds. -/
structure Ok (b : Backend Op ε S Wr Lk D) (svc : Service Op ε S Wr τ) (J : S → Prop)
    (R : List Wr → S → S → Prop) (G : S → List Wr → Prop) (E : ε → S → List Wr → Prop)
    (Post : τ → S → List Wr → Prop) (K : τ → S → Prop) (W : World Op ε S Wr τ) : Prop where
  inv : J W.db
  running : ∀ i σ, W.session? i = some σ → σ.auto = false → ∃ P, Stable J R P ∧
    P W.db σ.writes ∧ Safe (b.under (svc.allows σ.tag)) J R E P σ.prog (fun _ => Post σ.tag)
  autos : ∀ i σ, W.session? i = some σ → σ.auto = true → σ.writes = [] ∧
    ∃ P, (∀ s s', J s → J s' → R [] s s' → P s → P s') ∧ P W.db ∧
      SafeAuto (b.under (svc.allows σ.tag)) J R G P σ.prog (fun _ => K σ.tag)
  apart : ∀ i j σ σ', i ≠ j → W.session? i = some σ → W.session? j = some σ' →
    (b.locksOf σ.writes).Disjoint (b.locksOf σ'.writes)
  kept : ∀ tag ∈ W.done, K tag W.db

/-- The obligations of a rely-guarantee argument. `G` describes the writes that
are committed together, and `K` what a call has established when it ends. -/
structure Obligations (b : Backend Op ε S Wr Lk D) (svc : Service Op ε S Wr τ) (J : S → Prop)
    (R : List Wr → S → S → Prop) (G : S → List Wr → Prop) (E : ε → S → List Wr → Prop)
    (Post : τ → S → List Wr → Prop) (K : τ → S → Prop) : Prop where
  start : ∀ tag s σ, svc.begin tag s = some σ → J s → σ.auto = false → ∃ P, Stable J R P ∧
    P s σ.writes ∧ Safe (b.under (svc.allows σ.tag)) J R E P σ.prog (fun _ => Post σ.tag)
  startAuto : ∀ tag s σ, svc.begin tag s = some σ → J s → σ.auto = true → σ.writes = [] ∧
    ∃ P, (∀ s s', J s → J s' → R [] s s' → P s → P s') ∧ P s ∧
      SafeAuto (b.under (svc.allows σ.tag)) J R G P σ.prog (fun _ => K σ.tag)
  inv : ∀ tag s w, J s → Post tag s w → J (b.applyAll s w)
  guarantee : ∀ tag s w, J s → Post tag s w → G s w
  result : ∀ tag s w, J s → Post tag s w → K tag (b.applyAll s w)
  rely : ∀ s w w', J s → G s w' → (b.locksOf w').Disjoint (b.locksOf w) →
    R w s (b.applyAll s w')
  kept : ∀ tag s w, J s → G s w → K tag s → K tag (b.applyAll s w)

section Step

variable {b : Backend Op ε S Wr Lk D} {svc : Service Op ε S Wr τ} {J : S → Prop}
  {R : List Wr → S → S → Prop} {G : S → List Wr → Prop} {E : ε → S → List Wr → Prop}
  {Post : τ → S → List Wr → Prop} {K : τ → S → Prop}

/-- A session may be replaced by one that meets its triple and whose locks are
its own. -/
private theorem Ok.set_some (hok : W.Ok b svc J R G E Post K) {i : ℕ}
    {σ : Session Op ε Wr τ}
    (hrun : σ.auto = false → ∃ P, Stable J R P ∧ P W.db σ.writes ∧
      Safe (b.under (svc.allows σ.tag)) J R E P σ.prog (fun _ => Post σ.tag))
    (hauto : σ.auto = true → σ.writes = [] ∧
      ∃ P, (∀ s s', J s → J s' → R [] s s' → P s → P s') ∧ P W.db ∧
        SafeAuto (b.under (svc.allows σ.tag)) J R G P σ.prog (fun _ => K σ.tag))
    (hfree : ∀ j σ', j ≠ i → W.session? j = some σ' →
      (b.locksOf σ.writes).Disjoint (b.locksOf σ'.writes)) :
    (W.set i (some σ)).Ok b svc J R G E Post K := by
  refine ⟨hok.inv, ?_, ?_, ?_, hok.kept⟩
  · intro j σ' hj hmode
    rcases session?_set hj with ⟨-, heq⟩ | ⟨-, hj⟩
    · obtain rfl := Option.some.inj heq
      exact hrun hmode
    · exact hok.running j σ' hj hmode
  · intro j σ' hj hmode
    rcases session?_set hj with ⟨-, heq⟩ | ⟨-, hj⟩
    · obtain rfl := Option.some.inj heq
      exact hauto hmode
    · exact hok.autos j σ' hj hmode
  · intro j k σ₁ σ₂ hjk hj hk
    rcases session?_set hj with ⟨rfl, heq⟩ | ⟨hij, hj⟩ <;>
      rcases session?_set hk with ⟨rfl, heq'⟩ | ⟨hik, hk⟩
    · exact absurd rfl hjk
    · obtain rfl := Option.some.inj heq
      exact hfree k σ₂ (Ne.symm hik) hk
    · obtain rfl := Option.some.inj heq'
      exact List.Disjoint.symm (hfree j σ₁ (Ne.symm hij) hj)
    · exact hok.apart j k σ₁ σ₂ hjk hj hk

/-- A session may end. -/
private theorem Ok.set_none (hok : W.Ok b svc J R G E Post K) (i : ℕ) :
    (W.set i none).Ok b svc J R G E Post K := by
  have hold : ∀ {j σ}, (W.set i none).session? j = some σ → W.session? j = some σ := by
    intro j σ hj
    rcases session?_set hj with ⟨-, heq⟩ | ⟨-, hj⟩
    · cases heq
    · exact hj
  exact ⟨hok.inv, fun j σ hj => hok.running j σ (hold hj), fun j σ hj => hok.autos j σ (hold hj),
    fun j k σ σ' hjk hj hk => hok.apart j k σ σ' hjk (hold hj) (hold hk), hok.kept⟩

/-- What a party beside the sessions commits is like interference to them, if they hold
none of its locks. -/
theorem Ok.beside (hok : W.Ok b svc J R G E Post K) {w : List Wr} (hJ : J (b.applyAll W.db w))
    (hrely : ∀ w', (b.locksOf w).Disjoint (b.locksOf w') → R w' W.db (b.applyAll W.db w))
    (hkept : ∀ tag ∈ W.done, K tag (b.applyAll W.db w))
    (hfree : ∀ j σ, W.session? j = some σ → (b.locksOf w).Disjoint (b.locksOf σ.writes)) :
    ({ W with db := b.applyAll W.db w } : World Op ε S Wr τ).Ok b svc J R G E Post K := by
  refine ⟨hJ, ?_, ?_, hok.apart, hkept⟩
  · intro j σ hj hmode
    obtain ⟨P, hstable, hP, hsafe⟩ := hok.running j σ hj hmode
    exact ⟨P, hstable, hstable _ _ _ hok.inv hJ (hrely _ (hfree j σ hj)) hP, hsafe⟩
  · intro j σ hj hmode
    obtain ⟨hnil, P, hstable, hP, hsafe⟩ := hok.autos j σ hj hmode
    have hnow := hrely σ.writes (hfree j σ hj)
    rw [hnil] at hnow
    exact ⟨hnil, P, hstable, hstable _ _ hok.inv hJ hnow hP, hsafe⟩

/-- Writes whose locks no session holds may be committed. -/
private theorem Ok.commit (hob : Obligations b svc J R G E Post K)
    (hok : W.Ok b svc J R G E Post K) {w : List Wr} (hJ : J (b.applyAll W.db w)) (hG : G W.db w)
    (hfree : ∀ j σ, W.session? j = some σ → (b.locksOf w).Disjoint (b.locksOf σ.writes)) :
    ({ W with db := b.applyAll W.db w } : World Op ε S Wr τ).Ok b svc J R G E Post K :=
  hok.beside hJ (fun w' => hob.rely W.db w' w hok.inv hG)
    (fun tag ht => hob.kept tag W.db w hok.inv hG (hok.kept tag ht)) hfree

/-- A session whose program has returned may commit. -/
private theorem Ok.commit_session (hob : Obligations b svc J R G E Post K)
    (hok : W.Ok b svc J R G E Post K) {i : ℕ} {tag : τ} {auto : Bool} {w : List Wr}
    (hsess : W.session? i = some ⟨tag, auto, .ret (), w⟩) :
    ({ (W.set i none) with db := b.applyAll W.db w, done := tag :: W.done } :
      World Op ε S Wr τ).Ok b svc J R G E Post K := by
  have hend : (W.set i none).Ok b svc J R G E Post K := hok.set_none i
  cases auto with
  | false =>
    obtain ⟨P, -, hP, hret⟩ := hok.running i _ hsess rfl
    have hpost : Post tag W.db w := hret W.db w hok.inv hP
    have hdb := Ok.commit hob hend (hob.inv tag W.db w hok.inv hpost)
      (hob.guarantee tag W.db w hok.inv hpost) (by
        intro j σ hj
        rcases session?_set hj with ⟨-, heq⟩ | ⟨hij, hj⟩
        · cases heq
        · exact hok.apart i j _ σ hij hsess hj)
    exact ⟨hdb.inv, hdb.running, hdb.autos, hdb.apart,
      List.forall_mem_cons.mpr ⟨hob.result tag W.db w hok.inv hpost, hdb.kept⟩⟩
  | true =>
    obtain ⟨hnil, P, -, hP, hret⟩ := hok.autos i _ hsess rfl
    simp only at hnil
    subst hnil
    exact ⟨hend.inv, hend.running, hend.autos, hend.apart,
      List.forall_mem_cons.mpr ⟨hret W.db hok.inv hP, hend.kept⟩⟩

variable [DecidableEq Lk]

/-- A new session takes the next connection. -/
private theorem Ok.start (hob : Obligations b svc J R G E Post K)
    (hok : W.Ok b svc J R G E Post K) {tag : τ} {σ : Session Op ε Wr τ}
    (hbegin : svc.begin tag W.db = some σ)
    (hfree : W.free b W.sessions.length σ.writes = true) :
    ({ W with sessions := W.sessions ++ [some σ] } : World Op ε S Wr τ).Ok
      b svc J R G E Post K := by
  refine ⟨hok.inv, ?_, ?_, ?_, hok.kept⟩
  · intro j σ' hj hmode
    rcases session?_append hj with ⟨-, rfl⟩ | ⟨-, hj⟩
    · exact hob.start tag W.db _ hbegin hok.inv hmode
    · exact hok.running j σ' hj hmode
  · intro j σ' hj hmode
    rcases session?_append hj with ⟨-, rfl⟩ | ⟨-, hj⟩
    · exact hob.startAuto tag W.db _ hbegin hok.inv hmode
    · exact hok.autos j σ' hj hmode
  · intro j k σ₁ σ₂ hjk hj hk
    rcases session?_append hj with ⟨hjlen, rfl⟩ | ⟨hjlen, hj'⟩ <;>
      rcases session?_append hk with ⟨hklen, rfl⟩ | ⟨hklen, hk'⟩
    · exact absurd (hjlen.trans hklen.symm) hjk
    · exact disjoint_of_free hfree hklen hk'
    · exact List.Disjoint.symm (disjoint_of_free hfree hjlen hj')
    · exact hok.apart j k σ₁ σ₂ hjk hj' hk'

/-- The next database call of a session. -/
private theorem Ok.exec (hob : Obligations b svc J R G E Post K)
    (hok : W.Ok b svc J R G E Post K) {i : ℕ} {tag : τ} {auto : Bool} {β : Type} {op : Op β}
    {next : β → Program Op ε Unit} {w ws : List Wr} {d : D} {a : β}
    (hsess : W.session? i = some ⟨tag, auto, .call op next, w⟩)
    (hadm : (b.under (svc.allows tag)).admits op d (b.applyAll W.db w))
    (hexec : b.exec op d (b.applyAll W.db w) = .ok (a, ws)) (hfree : W.free b i ws = true) :
    (if auto then
      ({ (W.set i (some ⟨tag, auto, next a, w⟩)) with db := b.applyAll W.db ws } :
        World Op ε S Wr τ)
     else W.set i (some ⟨tag, auto, next a, w ++ ws⟩)).Ok b svc J R G E Post K := by
  cases auto with
  | false =>
    obtain ⟨P, hstable, hP, M, hM, hcall, hnext⟩ := hok.running i _ hsess rfl
    have hres := hcall W.db w d hok.inv hP hadm
    simp only [Backend.under] at hres
    change match b.exec op d (b.applyAll W.db w) with
      | .error e => E e W.db w
      | .ok (a, ws) => M a W.db (w ++ ws) at hres
    rw [hexec] at hres
    refine hok.set_some (fun _ => ⟨M a, hM a, hres, hnext a⟩) (fun h => by cases h) ?_
    intro j σ hji hj
    rw [Backend.locksOf_append]
    exact List.disjoint_append_left.mpr
      ⟨hok.apart i j _ σ (Ne.symm hji) hsess hj, disjoint_of_free hfree hji hj⟩
  | true =>
    obtain ⟨hnil, P, hstable, hP, M, hM, hcall, hnext⟩ := hok.autos i _ hsess rfl
    simp only at hnil
    subst hnil
    have hres : OnOk (b.exec op d W.db) _ := hcall W.db d hok.inv hP hadm
    rw [b.applyAll_nil] at hexec
    rw [hexec] at hres
    obtain ⟨hJ, hG, hMa⟩ := hres
    -- The rest of the session is put in place before its writes are committed,
    -- so its assertion is the one before the call.
    have hend : (W.set i none).Ok b svc J R G E Post K := hok.set_none i
    have hdb := Ok.commit hob hend hJ hG (by
      intro j σ hj
      rcases session?_set hj with ⟨-, heq⟩ | ⟨hij, hj⟩
      · cases heq
      · exact disjoint_of_free hfree (Ne.symm hij) hj)
    have hput := hdb.set_some (i := i) (σ := ⟨tag, true, next a, []⟩) (fun h => by cases h)
      (fun _ => ⟨rfl, M a, hM a, hMa, hnext a⟩) (fun j σ _ _ => by simp [Backend.locksOf])
    simpa [set] using hput

variable [∀ {β : Type} (op : Op β) (d : D) (s : S), Decidable (b.admits op d s)]

/-- One step of an interleaving keeps `World.Ok`. -/
theorem Ok.step (hob : Obligations b svc J R G E Post K) (hok : W.Ok b svc J R G E Post K)
    {act : Action τ D} (hstep : next b svc act W = some W') : W'.Ok b svc J R G E Post K := by
  cases act with
  | start tag =>
    simp only [next] at hstep
    split at hstep
    · cases hstep
    · split_ifs at hstep with hfree
      obtain rfl := Option.some.inj hstep
      exact hok.start hob ‹_› hfree
  | exec i d =>
    simp only [next] at hstep
    split at hstep
    · rename_i tag auto β op next w hsess
      by_cases hadm : b.admits op d (b.applyAll W.db w) ∧ svc.allows tag op (b.applyAll W.db w)
      · rw [if_pos hadm] at hstep
        split at hstep
        · obtain rfl := Option.some.inj hstep
          exact hok.set_none i
        · rename_i a ws hexec
          by_cases hfree : W.free b i ws = true
          · have hexec := hok.exec hob hsess hadm hexec hfree
            rw [if_pos hfree] at hstep
            split_ifs at hstep hexec with hauto
            · exact Option.some.inj hstep ▸ hexec
            · exact Option.some.inj hstep ▸ hexec
          · rw [if_neg hfree] at hstep
            cases hstep
      · rw [if_neg hadm] at hstep
        cases hstep
    · cases hstep
  | commit i =>
    simp only [next] at hstep
    split at hstep
    · rename_i tag auto w hsess
      obtain rfl := Option.some.inj hstep
      exact hok.commit_session hob hsess
    · cases hstep
  | abort i =>
    simp only [next, Option.map_eq_some_iff] at hstep
    obtain ⟨σ, -, rfl⟩ := hstep
    exact hok.set_none i

/-- One step leaves the committed state as it is, or commits writes as described. -/
theorem Ok.step_db (hob : Obligations b svc J R G E Post K) (hok : W.Ok b svc J R G E Post K)
    {act : Action τ D} (hstep : next b svc act W = some W') :
    W'.db = W.db ∨ ∃ w, G W.db w ∧ W'.db = b.applyAll W.db w := by
  cases act with
  | start tag =>
    simp only [next] at hstep
    split at hstep
    · cases hstep
    · split_ifs at hstep
      exact Or.inl (Option.some.inj hstep ▸ rfl)
  | exec i d =>
    simp only [next] at hstep
    split at hstep
    · rename_i tag auto β op next w hsess
      by_cases hadm : b.admits op d (b.applyAll W.db w) ∧ svc.allows tag op (b.applyAll W.db w)
      · rw [if_pos hadm] at hstep
        split at hstep
        · exact Or.inl (Option.some.inj hstep ▸ rfl)
        · rename_i a ws hexec
          split_ifs at hstep with hfree hauto
          · subst hauto
            obtain ⟨hnil, P, -, hP, M, -, hcall, -⟩ := hok.autos i _ hsess rfl
            simp only at hnil
            subst hnil
            have hres : OnOk (b.exec op d W.db) _ := hcall W.db d hok.inv hP hadm
            rw [b.applyAll_nil] at hexec
            rw [hexec] at hres
            exact Or.inr ⟨ws, hres.2.1, Option.some.inj hstep ▸ rfl⟩
          · exact Or.inl (Option.some.inj hstep ▸ rfl)
      · rw [if_neg hadm] at hstep
        cases hstep
    · cases hstep
  | commit i =>
    simp only [next] at hstep
    split at hstep
    · rename_i tag auto w hsess
      obtain rfl := Option.some.inj hstep
      cases auto with
      | false =>
        obtain ⟨P, -, hP, hret⟩ := hok.running i _ hsess rfl
        exact Or.inr ⟨w, hob.guarantee tag W.db w hok.inv (hret W.db w hok.inv hP), rfl⟩
      | true =>
        obtain ⟨hnil, -⟩ := hok.autos i _ hsess rfl
        simp only at hnil
        subst hnil
        exact Or.inl rfl
    · cases hstep
  | abort i =>
    simp only [next, Option.map_eq_some_iff] at hstep
    obtain ⟨σ, -, rfl⟩ := hstep
    exact Or.inl rfl

/-- Every world of an interleaving is `Ok` if its obligations are met. -/
theorem Reachable.ok (hob : Obligations b svc J R G E Post K) {s : S} (hs : J s)
    (h : Reachable b svc s W) : W.Ok b svc J R G E Post K := by
  induction h with
  | init =>
    have hnone : ∀ i σ, (World.init s : World Op ε S Wr τ).session? i ≠ some σ := by
      intro i σ h
      simp [World.init, session?] at h
    exact ⟨hs, fun i σ h => absurd h (hnone i σ), fun i σ h => absurd h (hnone i σ),
      fun i j σ σ' _ h => absurd h (hnone i σ), fun tag h => absurd h List.not_mem_nil⟩
  | step _ hstep ih => exact ih.step hob hstep

/-- What every commit keeps holds in every world of an interleaving. -/
theorem Reachable.induct (hob : Obligations b svc J R G E Post K) {s : S} (hs : J s)
    (h : Reachable b svc s W) {I : S → Prop} (h0 : I s)
    (hstep : ∀ s w, J s → G s w → I s → I (b.applyAll s w)) : I W.db := by
  induction h with
  | init => exact h0
  | step hW hnext ih =>
    have hok := hW.ok hob hs
    rcases hok.step_db hob hnext with hdb | ⟨w, hG, hdb⟩
    · rwa [hdb]
    · rw [hdb]
      exact hstep _ w hok.inv hG ih

end Step

end World

end Lib
