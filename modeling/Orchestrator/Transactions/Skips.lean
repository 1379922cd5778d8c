import Mathlib.Data.Finset.Card
import Orchestrator.Transactions.View

/-!
# Propagation of skips

`propagateSkips` makes passes over the local view until one changes nothing. In
a quiet run every update applies, so a pass that changes nothing has found no
step to skip, and a pass that changes something leaves fewer steps that could be
skipped. The passes permitted are one more than the steps, which is enough.
-/

namespace Orchestrator

open Lib Actions

/-- The kinds of actions that `reconcileTx` performs. -/
def Kind.ofReconcile : Kind → Bool
  | .skip | .park | .resolve | .burn | .dispatch | .start | .finish _ | .cancelTimer => true
  | _ => false

/-- Some steps of the first view that were not dispatched are skipped in the
second. -/
def RunState.Skips (rs rs' : RunState) : Prop :=
  ∀ name, rs'.get? name = rs.get? name ∨ ∃ s, rs.get? name = some s ∧ s.isFresh = true ∧
    rs'.get? name = some { s with status := .skipped }

/-- The names of the steps that have not been dispatched. -/
def RunState.freshNames (rs : RunState) : Finset String :=
  ((rs.rows.filter Step.isFresh).map (·.stepName)).toFinset

/-- A step that `propagateSkips` has to skip. -/
def RunState.Skippable (rs : RunState) (name : String) : Prop :=
  ∃ s, rs.get? name = some s ∧ s.isFresh = true ∧ rs.blocked s = true

section Local

variable {rs rs' rs'' : RunState}

theorem RunState.Skips.refl (rs : RunState) : rs.Skips rs := fun _ => Or.inl rfl

theorem RunState.Skips.trans (h : rs.Skips rs') (h' : rs'.Skips rs'') : rs.Skips rs'' := by
  intro name
  rcases h' name with heq' | ⟨s', hs', hfresh', hskip'⟩
  · rw [heq']
    exact h name
  · rcases h name with heq | ⟨s, hs, -, hskip⟩
    · exact Or.inr ⟨s', heq ▸ hs', hfresh', hskip'⟩
    · obtain rfl := Option.some.inj (hs'.symm.trans hskip)
      cases hfresh'

/-- Skipping one fresh step. -/
theorem RunState.Skips.put {s : Step} {name : String} (hs : rs.get? name = some s)
    (hfresh : s.isFresh = true) : rs.Skips (rs.put { s with status := .skipped }) := by
  intro n
  by_cases hn : s.stepName = n
  · subst hn
    exact Or.inr ⟨s, Table.get?_key hs, hfresh,
      Table.get?_put_self rs { s with status := .skipped }⟩
  · exact Or.inl (Table.get?_put_of_ne (r := { s with status := .skipped }) hn)

theorem RunState.mem_freshNames {name : String} :
    name ∈ rs.freshNames ↔ ∃ s, rs.get? name = some s ∧ s.isFresh = true := by
  simp only [freshNames, List.mem_toFinset, List.mem_map, List.mem_filter]
  constructor
  · rintro ⟨s, ⟨hs, hfresh⟩, rfl⟩
    exact ⟨s, Table.mem_iff_get?.mp hs, hfresh⟩
  · rintro ⟨s, hs, hfresh⟩
    exact ⟨s, ⟨Table.mem_of_get? hs, hfresh⟩, Table.key_of_get? hs⟩

theorem RunState.Skips.freshNames_subset (h : rs.Skips rs') : rs'.freshNames ⊆ rs.freshNames := by
  intro name hname
  obtain ⟨s, hs, hfresh⟩ := RunState.mem_freshNames.mp hname
  rcases h name with heq | ⟨s', -, -, hskip⟩
  · exact RunState.mem_freshNames.mpr ⟨s, heq ▸ hs, hfresh⟩
  · obtain rfl := Option.some.inj (hs.symm.trans hskip)
    cases hfresh

/-- A skip leaves one step less to skip. -/
theorem RunState.freshNames_put_ssubset {s : Step} {name : String} (hs : rs.get? name = some s)
    (hfresh : s.isFresh = true) :
    RunState.freshNames (rs.put { s with status := .skipped }) ⊂ rs.freshNames := by
  refine Finset.ssubset_iff_subset_ne.mpr ⟨(Skips.put hs hfresh).freshNames_subset, fun heq => ?_⟩
  have hmem : s.stepName ∈ rs.freshNames :=
    RunState.mem_freshNames.mpr ⟨s, Table.get?_key hs, hfresh⟩
  rw [← heq] at hmem
  obtain ⟨s', hs', hfresh'⟩ := RunState.mem_freshNames.mp hmem
  have hput := Table.get?_put_self rs { s with status := .skipped }
  obtain rfl := Option.some.inj (hs'.symm.trans hput)
  cases hfresh'

/-- There are no more fresh names than rows. -/
theorem RunState.card_freshNames_le (rs : RunState) : rs.freshNames.card ≤ rs.rows.length :=
  calc rs.freshNames.card
    _ ≤ ((rs.rows.filter Step.isFresh).map (·.stepName)).length := List.toFinset_card_le _
    _ = (rs.rows.filter Step.isFresh).length := List.length_map _
    _ ≤ rs.rows.length := List.length_filter_le _ _

end Local

/-- What a pass is told about its loop: the local view holds, and a fact that
depends on the run being quiet. -/
def Viewing (Q : Db → Prop) (run : WorkflowRun) (K : Prop) (rs : RunState) (v : Db)
    (ws : List Write) : Prop :=
  ws = [] ∧ View Q run rs v ∧ (Q v → K)

section Programs

variable {A C : Label → Prop} {Err : Error → Prop} {H : List Lock} {Q : Db → Prop}
  {run : WorkflowRun} {K : Prop} {rs : RunState}

theorem Viewing.robust (hQ : Quiet A H run.id Q) : engine.Robust A H (Viewing Q run K rs) := by
  refine hQ.robust ?_
  rintro _ _ _ _ hev - hcalm ⟨hws, hV, hK⟩
  exact ⟨hws, hV.evolve hev hcalm, fun hq => hK (hcalm hq).1⟩

theorem Viewing.aside {v : Db} {ws : List Write} (h : Viewing Q run K rs v ws) : Aside ws :=
  h.1 ▸ aside_nil

theorem Viewing.imp {K' : Prop} {v : Db} {ws : List Write} (h : Viewing Q run K rs v ws)
    (hK : K → K') : Viewing Q run K' rs v ws :=
  ⟨h.1, h.2.1, fun hq => hK (h.2.2 hq)⟩

/-- An action has changed a step and recorded it, and the local copy follows. -/
theorem Viewing.changed (hQ : Quiet A H run.id Q) {v : Db} {s s' t t' : Step} {r : WorkflowRun}
    {us : List Write} {l : Label} {eventType : EventType} {payload : Option Json} {now : Time}
    (hF : Viewing Q run K rs v []) (hs : s ∈ rs) (ht : v.steps.get? s.id = some t)
    (hr : v.runs.get? run.id = some r) (hus : Aside us)
    (hact : Act l v (us ++ .step t' :: historyWrites r eventType payload now))
    (hinfo : t'.info = t.info) (hinfo' : s'.info = s.info) (hcopy : s'.Copies t')
    (hmirror : Q v → s'.Mirrors t') :
    Viewing Q run K (rs.put s')
      (backend.applyAll v (us ++ .step t' :: historyWrites r eventType payload now)) [] := by
  obtain ⟨-, hV, hK⟩ := hF
  have hev := hact.evolves
  refine ⟨rfl, hV.put hs ht hinfo hinfo' ?_ hev (hQ.back hev) ?_ hcopy
    (fun hq => hmirror (hQ.back hev hq)), fun hq => hK (hQ.back hev hq)⟩
  · rw [Backend.applyAll_append]
    exact congrArg (fun T => Table.put T t') (hus v).1
  · rw [Backend.applyAll_append]
    have hr' : ((backend.applyAll v us).apply (.step t')).runs.get? run.id = some r :=
      (congrArg (fun T => T.get? run.id) (hus v).2).trans hr
    exact (Calm.event hr').status.trans (by rw [hr', hr])

theorem fresh_ne_queued {s : Step} (h : s.isFresh = true) : s.status ≠ .queued :=
  fun hst => by simp [Step.isFresh, hst] at h

/-- A step that is not dispatched is pending. -/
theorem pending_of_fresh {v : Db} (hb : Base v) {s t : Step} {id : UUID}
    (ht : v.steps.get? id = some t) (hfresh : s.isFresh = true) (hst : t.status ∈ [s.status]) :
    t.status = .pending := by
  have hcount := (hb.ledger.row t (Table.mem_of_get? ht)).count
  rw [List.mem_singleton] at hst
  have hcases : s.status = .pending ∨ s.status = .ready := by simpa [Step.isFresh] using hfresh
  rcases hcases with h | h
  · exact hst.trans h
  · rw [Step.CountOK, hst, h] at hcount
    exact hcount.elim

variable (hQ : Quiet A H run.id Q) (hC : ∀ k : Kind, k.ofReconcile = true → C ⟨run.id, k⟩)

include hQ hC

/-- One iteration skips the step or leaves everything as it is. In a quiet run
the second means that the step is not to be skipped. -/
theorem skipStep_spec (acc : RunState × Bool) (name : String) :
    engine.Triple A C Err H (Viewing Q run K acc.1) (skipStep run acc name) H
      (fun acc' v ws => (acc' = acc ∧ Viewing Q run (K ∧ ¬ acc.1.Skippable name) acc.1 v ws) ∨
        (∃ s, acc.1.get? name = some s ∧ s.isFresh = true ∧
          acc' = (acc.1.put { s with status := .skipped }, true) ∧
          Viewing Q run K acc'.1 v ws)) := by
  unfold skipStep
  cases hs : acc.1.get? name with
  | none =>
    refine Triple.ret (List.Subset.refl _) (fun v ws _ hF => Or.inl ⟨rfl, hF.imp (fun hK => ?_)⟩)
    refine ⟨hK, ?_⟩
    rintro ⟨s, hs', -⟩
    rw [hs] at hs'
    cases hs'
  | some s =>
    by_cases hskip : (s.isFresh && acc.1.blocked s) = true
    · obtain ⟨hfresh, hblocked⟩ := Bool.and_eq_true_iff.mp hskip
      simp only [hskip, if_true]
      refine Triple.bind (changeStep_rule (G := Viewing Q run False acc.1)
        RawMessage.isValid_of_none
        (Viewing.robust hQ) (Viewing.robust hQ) (fun _ _ hF => hF.aside) ?_) (fun ok => ?_)
      · rintro v ws hb ⟨rfl, hV, -⟩ hnot
        refine .begin ⟨rfl, hV, fun hq => ?_⟩
        obtain ⟨-, -, t, ht, -, hmirror⟩ := hV.row_of_get? hs
        exact hnot t ht (by simp [(hmirror hq).status_eq (fresh_ne_queued hfresh)])
      · cases ok with
        | false =>
          exact Triple.ret (List.Subset.refl _)
            (fun v ws _ hF => Or.inl ⟨rfl, hF.imp False.elim⟩)
        | true =>
          refine Triple.bind (changed_rule (Viewing.robust hQ) (fun _ _ hF => hF.aside)
            (fun _ _ _ hF => hF.2.1.row.imp (fun _ h => h.1)) ?_) (fun _ =>
              Triple.ret (List.Subset.refl _) (fun v ws _ hF =>
                Or.inr ⟨s, rfl, hfresh, rfl, hF⟩))
          rintro v ws t r now now' hb ⟨rfl, hV, hK⟩ ht hst hr
          obtain ⟨-, hrun, t₀, ht₀, hcopy, hmirror⟩ := hV.row_of_get? hs
          obtain rfl : t₀ = t := Option.some.inj (ht₀.symm.trans ht)
          have htrun : t₀.workflowRunID = run.id := (Step.run_of_info hcopy.info).trans hrun
          have hact : Act ⟨t₀.workflowRunID, .skip⟩ v ([] ++
              .step (t₀.transition .skipped none none false now) ::
                historyWrites r .stepSkipped (some (skippedDocument t₀)) now') :=
            .skip (Table.get?_key ht) (pending_of_fresh hb ht hfresh hst)
              (hV.blocked hrun hcopy.info hblocked) (htrun.symm ▸ hr)
          rw [skippedDocument, Step.name_of_info hcopy.info] at hact
          exact .act (htrun ▸ hC .skip rfl) hact (Viewing.changed hQ ⟨rfl, hV, hK⟩
            (Table.mem_of_get? hs) ht hr aside_nil hact rfl rfl
            ⟨hcopy.info, hcopy.count, fun _ => rfl, (fun h => by cases h)⟩
            (fun hq => ⟨(hmirror hq).count, Or.inl rfl⟩))
    · simp only [hskip]
      refine Triple.ret (List.Subset.refl _) (fun v ws _ hF => Or.inl ⟨rfl, hF.imp (fun hK => ?_)⟩)
      refine ⟨hK, ?_⟩
      rintro ⟨s', hs', hfresh, hblocked⟩
      refine hskip ?_
      obtain rfl := Option.some.inj (hs.symm.trans hs')
      rw [hfresh, hblocked]
      rfl

omit hQ hC in
/-- A `range` statement meets every step once. -/
theorem range_spec {F : Db → List Write → Prop} (hF : engine.Robust A H F) (rs : RunState) :
    engine.Triple A C Err H F rs.range H
      (fun names v ws => names.Perm (rs.rows.map (·.stepName)) ∧ F v ws) :=
  read_rule (fun d _ => d.shuffle (rs.rows.map (·.stepName))) (fun _ _ => rfl)
    (fun names => (Robust.pure (fun _ => names.Perm (rs.rows.map (·.stepName)))).and hF)
    (fun _ _ d _ hF => ⟨d.shuffle_perm _, hF⟩)

/-- One pass skips steps, or finds in a quiet run that none is to be skipped. -/
theorem skipPass_spec {names : List String} (hnames : ∀ s ∈ rs, s.stepName ∈ names) :
    engine.Triple A C Err H (Viewing Q run K rs) (names.foldlM (skipStep run) (rs, false)) H
      (fun acc v ws => (rs.Skips acc.1 ∧
          (acc.2 = true → RunState.freshNames acc.1 ⊂ rs.freshNames)) ∧
        Viewing Q run (K ∧ (acc.2 = false → ∀ s ∈ acc.1, s.isFresh = true →
          ¬ acc.1.blocked s = true)) acc.1 v ws) := by
  let Left (rest : List String) (acc : RunState × Bool) : Prop :=
    acc.2 = false → ∀ name ∈ names, name ∈ rest ∨ ¬ rs.Skippable name
  let Made (acc : RunState × Bool) : Prop := rs.Skips acc.1 ∧
    (acc.2 = true → RunState.freshNames acc.1 ⊂ rs.freshNames) ∧ (acc.2 = false → acc.1 = rs)
  have hloop : engine.Triple A C Err H
      (fun v ws => Made (rs, false) ∧ Viewing Q run (K ∧ Left names (rs, false)) rs v ws)
      (names.foldlM (skipStep run) (rs, false)) H
      (fun acc v ws => Made acc ∧ Viewing Q run (K ∧ Left [] acc) acc.1 v ws) := by
    refine Triple.foldlM_suffix
      (I := fun rest acc v ws => Made acc ∧ Viewing Q run (K ∧ Left rest acc) acc.1 v ws)
      (fun acc name rest _ => Triple.assume ?_) (rs, false)
    rintro ⟨hskips, hless, hsame⟩
    refine (skipStep_spec hQ hC acc name).post ?_
    rintro acc' v ws - (⟨rfl, hF⟩ | ⟨s, hs, hfresh, rfl, hF⟩)
    · refine ⟨⟨hskips, hless, hsame⟩, hF.imp ?_⟩
      rintro ⟨⟨hK, hleft⟩, hnot⟩
      refine ⟨hK, fun hfalse n hn => ?_⟩
      rcases hleft hfalse n hn with hrest | hdone
      · rcases List.mem_cons.mp hrest with rfl | hrest
        · exact Or.inr (hsame hfalse ▸ hnot)
        · exact Or.inl hrest
      · exact Or.inr hdone
    · exact ⟨⟨hskips.trans (.put hs hfresh), fun _ =>
        (RunState.freshNames_put_ssubset hs hfresh).trans_subset hskips.freshNames_subset,
          (fun h => by cases h)⟩,
        hF.imp (fun hK => ⟨hK.1, (fun h => by cases h)⟩)⟩
  refine (hloop.pre (fun v ws _ hF => ⟨⟨.refl rs, (fun h => by cases h), fun _ => rfl⟩,
    hF.imp (fun hK => ⟨hK, fun _ n hn => Or.inl hn⟩)⟩)).post ?_
  rintro ⟨rs', changed⟩ v ws - ⟨⟨hskips, hless, hsame⟩, hF⟩
  refine ⟨⟨hskips, hless⟩, hF.imp ?_⟩
  rintro ⟨hK, hleft⟩
  refine ⟨hK, fun hfalse s hs hfresh hblocked => ?_⟩
  obtain rfl : rs' = rs := hsame hfalse
  exact (hleft hfalse s.stepName (hnames s hs)).resolve_left List.not_mem_nil
    ⟨s, Table.mem_iff_get?.mp hs, hfresh, hblocked⟩

/-- In a quiet run no step is left that has to be skipped, if enough passes are
permitted. -/
theorem skipPasses_spec (n : ℕ) (rs : RunState) (hn : rs.freshNames.card < n) :
    engine.Triple A C Err H (Viewing Q run K rs) (skipPasses run n rs) H
      (fun rs' v ws => rs.Skips rs' ∧ Viewing Q run (K ∧ ∀ s ∈ rs', s.isFresh = true →
        ¬ rs'.blocked s = true) rs' v ws) := by
  induction n generalizing rs with
  | zero => exact absurd hn (Nat.not_lt_zero _)
  | succ n ih =>
    refine Triple.bind (range_spec (Viewing.robust hQ) rs) (fun names =>
      Triple.assume (fun hperm => ?_))
    have hnames : ∀ s ∈ rs, s.stepName ∈ names := fun s hs =>
      hperm.mem_iff.mpr (List.mem_map_of_mem hs)
    refine Triple.bind (skipPass_spec hQ hC hnames) (fun acc => Triple.assume ?_)
    rintro ⟨hskips, hless⟩
    obtain ⟨rs', changed⟩ := acc
    cases changed with
    | true =>
      have hcard : rs'.freshNames.card < rs.freshNames.card := Finset.card_lt_card (hless rfl)
      refine ((ih rs' (by omega)).pre (fun v ws _ hF => hF.imp And.left)).post ?_
      exact fun rs'' v ws _ => And.imp_left hskips.trans
    | false =>
      exact Triple.ret (List.Subset.refl _) (fun v ws _ hF =>
        ⟨hskips, hF.imp (And.imp_right (fun hdone => hdone rfl))⟩)

/-- `propagateSkips`. -/
theorem propagateSkips_spec (rs : RunState) :
    engine.Triple A C Err H (Viewing Q run K rs) (propagateSkips run rs) H
      (fun rs' v ws => rs.Skips rs' ∧ Viewing Q run (K ∧ ∀ s ∈ rs', s.isFresh = true →
        ¬ rs'.blocked s = true) rs' v ws) :=
  skipPasses_spec hQ hC _ rs (Nat.lt_succ_of_le rs.card_freshNames_le)

end Programs

end Orchestrator
