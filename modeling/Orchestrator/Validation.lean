import Orchestrator.Lib.Dag
import Orchestrator.Workflowdsl

/-!
# What validation guarantees

A document that passes `Validate` and can be rendered is a finite acyclic graph
of declared steps. Acyclicity is read off the depth-first search: the nodes that
it blackens, latest first, form a list in which every dependency of a node stands
after it.
-/

namespace Orchestrator

open Lib

/-- A document whose runs can be evaluated. -/
structure Definition.WellFormed (d : Definition) : Prop where
  nonempty : d.steps ≠ []
  nodup : (d.steps.map (·.name)).Nodup
  declared : ∀ s ∈ d.steps, ∀ dep ∈ s.dependsOn, ∃ s' ∈ d.steps, s'.name = dep
  acyclic : ∃ rank : String → ℕ, ∀ s ∈ d.steps, ∀ dep ∈ s.dependsOn, rank dep < rank s.name
  inputs : ∀ s ∈ d.steps, ∃ m, s.input = some m ∧ m.IsValid
  attempts : ∀ s ∈ d.steps, 1 ≤ s.maxAttempts

/-- Of steps that are ranked by their dependencies, one of least rank has none. -/
theorem exists_root_of_rank {steps : List StepSpec} (hne : steps ≠ [])
    (hdeclared : ∀ s ∈ steps, ∀ dep ∈ s.dependsOn, ∃ s' ∈ steps, s'.name = dep)
    {rank : String → ℕ} (hrank : ∀ s ∈ steps, ∀ dep ∈ s.dependsOn, rank dep < rank s.name) :
    ∃ s ∈ steps, s.dependsOn = [] := by
  obtain ⟨s₀, hs₀⟩ := List.exists_mem_of_ne_nil _ hne
  obtain ⟨n, ⟨s, hs, rfl⟩, hmin⟩ := exists_least_rank (P := fun n => ∃ s ∈ steps, s.name = n)
    rank ⟨s₀.name, s₀, hs₀, rfl⟩
  refine ⟨s, hs, List.eq_nil_iff_forall_not_mem.mpr (fun dep hdep => ?_)⟩
  have hle := hmin dep (hdeclared s hs dep hdep)
  have hlt := hrank s hs dep hdep
  omega

/-- A step to begin with exists. -/
theorem Definition.WellFormed.exists_root {d : Definition} (h : d.WellFormed) :
    ∃ s ∈ d.steps, s.dependsOn = [] := by
  obtain ⟨rank, hrank⟩ := h.acyclic
  exact exists_root_of_rank h.nonempty h.declared hrank

section Search

variable {deps : String → List String}

/-- The black nodes are the members of a list in dependency order. -/
def Finished (deps : String → List String) (color : String → Color) (l : List String) : Prop :=
  Topological deps l ∧ ∀ n, color n = .black ↔ n ∈ l

/-- A search from a white node that meets no gray node blackens it and nodes it
reaches, and leaves the gray nodes as they are. -/
def VisitSound (deps : String → List String)
    (visit : String → (String → Color) → Option (String × (String → Color))) : Prop :=
  ∀ n color color' l, Finished deps color l → color n = .white →
    visit n color = some ("", color') →
    ∃ l', Finished deps color' l' ∧ n ∈ l' ∧ l ⊆ l' ∧ ∀ m, color' m = .gray ↔ color m = .gray

/-- The loop over dependencies blackens them all if it ends without a return. -/
theorem visitDependencies_sound
    {visit : String → (String → Color) → Option (String × (String → Color))}
    (hvisit : VisitSound deps visit) {ds : List String} {color color' : String → Color}
    {l : List String} (hl : Finished deps color l)
    (h : visitDependencies visit ds color = some (none, color')) :
    ∃ l', Finished deps color' l' ∧ (∀ d ∈ ds, d ∈ l') ∧ l ⊆ l' ∧
      ∀ m, color' m = .gray ↔ color m = .gray := by
  induction ds generalizing color l with
  | nil =>
    simp only [visitDependencies, Option.some.injEq, Prod.mk.injEq, true_and] at h
    subst h
    exact ⟨l, hl, fun d hd => absurd hd List.not_mem_nil, List.Subset.refl l, fun m => Iff.rfl⟩
  | cons d ds ih =>
    simp only [visitDependencies] at h
    split at h
    · rename_i hwhite
      cases hv : visit d color with
      | none => rw [hv] at h; cases h
      | some res =>
        obtain ⟨r, color₁⟩ := res
        simp only [hv, Option.bind_eq_bind, Option.bind_some] at h
        by_cases hr : r = ""
        · subst hr
          simp only [ne_eq, not_true_eq_false, if_false] at h
          obtain ⟨l₁, hl₁, hd, hsub, hgray⟩ := hvisit d color color₁ l hl hwhite hv
          obtain ⟨l', hl', hds, hsub', hgray'⟩ := ih hl₁ h
          refine ⟨l', hl', ?_, List.Subset.trans hsub hsub', fun m => (hgray' m).trans (hgray m)⟩
          exact List.forall_mem_cons.mpr ⟨hsub' hd, hds⟩
        · simp [hr] at h
    · cases h
    · rename_i hblack
      obtain ⟨l', hl', hds, hsub, hgray⟩ := ih hl h
      exact ⟨l', hl', List.forall_mem_cons.mpr ⟨hsub ((hl.2 d).mp hblack), hds⟩, hsub, hgray⟩

/-- A value returned from inside the loop is a gray dependency, or the value of a
search below it. It is not empty if no dependency has an empty name. -/
theorem visitDependencies_ne_empty
    {visit : String → (String → Color) → Option (String × (String → Color))} {ds : List String}
    {color color' : String → Color} {r : String} (hds : "" ∉ ds)
    (h : visitDependencies visit ds color = some (some r, color')) : r ≠ "" := by
  induction ds generalizing color with
  | nil => cases h
  | cons d ds ih =>
    have hd : d ≠ "" := fun heq => hds (by simp [heq])
    have hrest : "" ∉ ds := fun hmem => hds (List.mem_cons_of_mem _ hmem)
    simp only [visitDependencies] at h
    split at h
    · cases hv : visit d color with
      | none => rw [hv] at h; cases h
      | some res =>
        simp only [hv, Option.bind_eq_bind, Option.bind_some] at h
        by_cases hr : res.1 = ""
        · simp only [hr, ne_eq, not_true_eq_false, if_false] at h
          exact ih hrest h
        · simp only [ne_eq, hr, not_false_eq_true, if_true, Option.some.injEq, Prod.mk.injEq] at h
          exact h.1 ▸ hr
    · simp only [Option.some.injEq, Prod.mk.injEq] at h
      exact h.1 ▸ hd
    · exact ih hrest h

/-- A node being searched is not among the finished ones. -/
theorem Finished.update_gray {color : String → Color} {l : List String}
    (hl : Finished deps color l) {n : String} (hwhite : color n = .white) :
    Finished deps (Function.update color n .gray) l := by
  refine ⟨hl.1, fun m => ?_⟩
  by_cases hm : m = n
  · subst hm
    rw [Function.update_self, ← hl.2, hwhite]
    simp
  · rw [Function.update_of_ne hm, hl.2]

/-- The search is sound at every depth. -/
theorem visit_sound (hdeps : ∀ n, "" ∉ deps n) (fuel : ℕ) : VisitSound deps (visit deps fuel) := by
  induction fuel with
  | zero => intro n color color' l _ _ h; cases h
  | succ fuel ih =>
    intro n color color' l hl hwhite h
    simp only [visit, Option.bind_eq_bind] at h
    cases hloop : visitDependencies (visit deps fuel) (deps n)
        (Function.update color n .gray) with
    | none => rw [hloop] at h; cases h
    | some res =>
      obtain ⟨r, color₁⟩ := res
      rw [hloop] at h
      cases r with
      | some r =>
        simp only [Option.bind_some, Option.some.injEq, Prod.mk.injEq] at h
        exact absurd h.1 (visitDependencies_ne_empty (hdeps n) hloop)
      | none =>
        simp only [Option.bind_some, Option.some.injEq, Prod.mk.injEq, true_and] at h
        subst h
        obtain ⟨l', hl', hds, hsub, hkeep⟩ :=
          visitDependencies_sound ih (hl.update_gray hwhite) hloop
        have hn : color₁ n = .gray := (hkeep n).mpr (Function.update_self ..)
        have hnl : n ∉ l' := fun hmem => by
          rw [(hl'.2 n).mpr hmem] at hn
          cases hn
        refine ⟨n :: l', ⟨.cons hds hnl hl'.1, fun m => ?_⟩, List.mem_cons_self,
          fun m hm => List.mem_cons_of_mem _ (hsub hm), fun m => ?_⟩
        · by_cases hm : m = n
          · simp [hm]
          · rw [Function.update_of_ne hm, hl'.2]
            simp [hm]
        · by_cases hm : m = n
          · subst hm
            simp [hwhite]
          · rw [Function.update_of_ne hm, hkeep m, Function.update_of_ne hm]

/-- The outer loop finishes every step if it answers no cycle. -/
theorem visitSteps_sound (hdeps : ∀ n, "" ∉ deps n) {fuel : ℕ} {steps : List StepSpec}
    {color : String → Color} {l : List String} (hl : Finished deps color l)
    (hgray : ∀ n, color n ≠ .gray) (h : visitSteps deps fuel steps color = some "") :
    ∃ l', Topological deps l' ∧ l ⊆ l' ∧ ∀ s ∈ steps, s.name ∈ l' := by
  induction steps generalizing color l with
  | nil => exact ⟨l, hl.1, List.Subset.refl l, fun s hs => absurd hs List.not_mem_nil⟩
  | cons s steps ih =>
    simp only [visitSteps] at h
    split_ifs at h with hwhite
    · cases hv : visit deps fuel s.name color with
      | none => rw [hv] at h; cases h
      | some res =>
        obtain ⟨r, color₁⟩ := res
        simp only [hv, Option.bind_eq_bind, Option.bind_some] at h
        by_cases hr : r = ""
        · subst hr
          simp only [ne_eq, not_true_eq_false, if_false] at h
          obtain ⟨l₁, hl₁, hs, hsub, hkeep⟩ := visit_sound hdeps fuel _ _ _ _ hl hwhite hv
          obtain ⟨l', htopo, hsub', hrest⟩ := ih hl₁ (fun n hn => hgray n ((hkeep n).mp hn)) h
          exact ⟨l', htopo, List.Subset.trans hsub hsub',
            List.forall_mem_cons.mpr ⟨hsub' hs, hrest⟩⟩
        · simp [hr] at h
    · have hblack : color s.name = .black := by
        cases hc : color s.name with
        | white => exact absurd hc hwhite
        | gray => exact absurd hc (hgray _)
        | black => rfl
      obtain ⟨l', htopo, hsub, hrest⟩ := ih hl hgray h
      exact ⟨l', htopo, hsub, List.forall_mem_cons.mpr ⟨hsub ((hl.2 _).mp hblack), hrest⟩⟩

end Search

/-- The defaults leave no input unset. -/
theorem StepSpec.isSome_input_withDefaults (s : StepSpec) : s.withDefaults.input.isSome := by
  unfold StepSpec.withDefaults
  dsimp only
  split <;> rfl

/-- The defaults leave at least one attempt. -/
theorem StepSpec.one_le_maxAttempts_withDefaults (s : StepSpec) :
    1 ≤ s.withDefaults.maxAttempts := by
  unfold StepSpec.withDefaults
  dsimp only
  split_ifs with h <;> omega

/-- The first loop keeps the names, finds them distinct and not blank, and fills
in the defaults. -/
theorem validateSteps_ok {seen : List String} {index : ℕ} {specs steps : List StepSpec}
    (h : validateSteps seen index specs = .ok steps) :
    (∀ s ∈ steps, blank s.name = false ∧ s.name ∉ seen ∧ ∃ spec : StepSpec, s = spec.withDefaults) ∧
      (steps.map (·.name)).Nodup ∧ steps.length = specs.length := by
  induction specs generalizing seen index steps with
  | nil =>
    simp only [validateSteps, Except.ok.injEq] at h
    subst h
    simp
  | cons spec specs ih =>
    simp only [validateSteps] at h
    split_ifs at h with hblank hseen htype
    cases hrest : validateSteps (spec.name :: seen) (index + 1) specs with
    | error e => rw [hrest] at h; cases h
    | ok rest =>
      rw [hrest] at h
      obtain rfl : spec.withDefaults :: rest = steps := Except.ok.inj h
      obtain ⟨hall, hnodup, hlen⟩ := ih hrest
      refine ⟨List.forall_mem_cons.mpr ⟨⟨Bool.eq_false_iff.mpr hblank, hseen, spec, rfl⟩, ?_⟩,
        ?_, ?_⟩
      · intro s hs
        obtain ⟨hb, hnot, hspec⟩ := hall s hs
        exact ⟨hb, fun hmem => hnot (List.mem_cons_of_mem _ hmem), hspec⟩
      · rw [List.map_cons, List.nodup_cons]
        refine ⟨fun hmem => ?_, hnodup⟩
        obtain ⟨s, hs, hname⟩ := List.mem_map.mp hmem
        exact (hall s hs).2.1 (hname ▸ List.mem_cons_self)
      · simp [hlen]

/-- The second loop finds every dependency among the names. -/
theorem validateDependencies_ok {seen : List String} {step : String} {deps : List String}
    (h : validateDependencies seen step deps = .ok ()) : ∀ dep ∈ deps, dep ∈ seen := by
  induction deps with
  | nil => exact fun dep hdep => absurd hdep List.not_mem_nil
  | cons dep deps ih =>
    simp only [validateDependencies] at h
    split_ifs at h with hseen hself
    exact List.forall_mem_cons.mpr ⟨hseen, ih h⟩

private theorem forM_ok {α ε : Type} {f : α → Except ε Unit} {xs : List α}
    (h : xs.forM f = .ok ()) : ∀ x ∈ xs, f x = .ok () := by
  induction xs with
  | nil => exact fun x hx => absurd hx List.not_mem_nil
  | cons x xs ih =>
    change (f x >>= fun _ => xs.forM f) = .ok () at h
    cases hx : f x with
    | error e => rw [hx] at h; cases h
    | ok u => rw [hx] at h; exact List.forall_mem_cons.mpr ⟨hx, ih h⟩

/-- What the checks of `Validate` have established when it returns. -/
theorem Definition.validate_ok {d d' : Definition} (h : d.validate = .ok d') :
    ∃ steps, blank d.name = false ∧ d.steps ≠ [] ∧ validateSteps [] 0 d.steps = .ok steps ∧
      (∀ s ∈ steps, ∀ dep ∈ s.dependsOn, dep ∈ steps.map (·.name)) ∧
      findCycle steps = some "" ∧
      d' = { d with version := versionOrDefault d.version, steps := steps } := by
  unfold Definition.validate at h
  split_ifs at h with hname hnil
  cases hsteps : validateSteps [] 0 d.steps with
  | error e => rw [hsteps] at h; cases h
  | ok steps =>
    rw [hsteps] at h
    refine ⟨steps, Bool.eq_false_iff.mpr hname, hnil, rfl, ?_⟩
    cases hdeps : steps.forM
        (fun s => validateDependencies (steps.map (·.name)) s.name s.dependsOn) with
    | error e =>
      simp only [bind, Except.bind, hdeps] at h
      cases h
    | ok u =>
      simp only [bind, Except.bind, hdeps] at h
      split_ifs at h with hroot
      split at h
      · cases h
      · rename_i hcycle
        obtain rfl := Except.ok.inj h
        exact ⟨fun s hs => validateDependencies_ok (forM_ok hdeps s hs), hcycle, rfl⟩
      · cases h

/-- The last step of a name is the only one if names are distinct. -/
theorem dependenciesOf_eq {steps : List StepSpec} (hnodup : (steps.map (·.name)).Nodup)
    {s : StepSpec} (hs : s ∈ steps) : dependenciesOf steps s.name = s.dependsOn := by
  unfold dependenciesOf
  cases hfind : steps.reverse.find? (fun s' => s'.name = s.name) with
  | none =>
    have hnone := List.find?_eq_none.mp hfind s (List.mem_reverse.mpr hs)
    simp at hnone
  | some s' =>
    have hmem : s' ∈ steps := List.mem_reverse.mp (List.mem_of_find?_eq_some hfind)
    have hname : s'.name = s.name := by simpa using List.find?_some hfind
    obtain rfl := List.inj_on_of_nodup_map hnodup hmem hs hname
    rfl

/-- An undeclared name has no dependencies. -/
theorem mem_of_mem_dependenciesOf {steps : List StepSpec} {n dep : String}
    (h : dep ∈ dependenciesOf steps n) : ∃ s ∈ steps, s.name = n ∧ dep ∈ s.dependsOn := by
  unfold dependenciesOf at h
  cases hfind : steps.reverse.find? (fun s' => s'.name = n) with
  | none => rw [hfind] at h; cases h
  | some s =>
    rw [hfind] at h
    exact ⟨s, List.mem_reverse.mp (List.mem_of_find?_eq_some hfind),
      by simpa using List.find?_some hfind, h⟩

/-- The search answers no cycle only for ranked dependencies. -/
theorem findCycle_sound {steps : List StepSpec} (hnodup : (steps.map (·.name)).Nodup)
    (hdeps : ∀ s ∈ steps, "" ∉ s.dependsOn) (h : findCycle steps = some "") :
    ∃ rank : String → ℕ, ∀ s ∈ steps, ∀ dep ∈ s.dependsOn, rank dep < rank s.name := by
  have hempty : ∀ n, "" ∉ dependenciesOf steps n := by
    intro n hmem
    obtain ⟨s, hs, -, hdep⟩ := mem_of_mem_dependenciesOf hmem
    exact hdeps s hs hdep
  have hstart : Finished (dependenciesOf steps) (fun _ => .white) [] :=
    ⟨.nil, fun n => by simp⟩
  obtain ⟨l, htopo, -, hall⟩ := visitSteps_sound hempty hstart (fun n => by simp) h
  obtain ⟨rank, hrank⟩ := htopo.exists_rank
  refine ⟨rank, fun s hs dep hdep => hrank s.name (hall s hs) dep ?_⟩
  rwa [dependenciesOf_eq hnodup hs]

/-- A document that is accepted is well formed. -/
theorem Definition.validate_wellFormed {d d' dag : Definition} (h : d.validate = .ok d')
    (hjson : d'.toJSON = some dag) : dag.WellFormed := by
  obtain ⟨steps, -, hnil, hsteps, hdeclared, hcycle, rfl⟩ := Definition.validate_ok h
  obtain ⟨hall, hnodup, hlen⟩ := validateSteps_ok hsteps
  unfold Definition.toJSON at hjson
  split_ifs at hjson with hvalid
  obtain rfl := Option.some.inj hjson
  have hblank : ∀ s ∈ steps, s.name ≠ "" := by
    intro s hs hname
    have hb := (hall s hs).1
    rw [hname] at hb
    exact absurd hb (by decide)
  refine ⟨?_, hnodup, ?_, findCycle_sound hnodup ?_ hcycle, ?_, ?_⟩
  · intro hempty
    have hzero : steps.length = 0 := congrArg List.length hempty
    exact hnil (List.length_eq_zero_iff.mp (hlen.symm.trans hzero))
  · intro s hs dep hdep
    obtain ⟨s', hs', hname⟩ := List.mem_map.mp (hdeclared s hs dep hdep)
    exact ⟨s', hs', hname⟩
  · intro s hs hdep
    obtain ⟨s', hs', hname⟩ := List.mem_map.mp (hdeclared s hs "" hdep)
    exact hblank s' hs' hname
  · intro s hs
    obtain ⟨-, -, spec, rfl⟩ := hall s hs
    have hv := List.all_eq_true.mp hvalid _ hs
    obtain ⟨m, hm⟩ := Option.isSome_iff_exists.mp spec.isSome_input_withDefaults
    rw [hm] at hv ⊢
    exact ⟨m, rfl, by simpa using hv⟩
  · intro s hs
    obtain ⟨-, -, spec, rfl⟩ := hall s hs
    exact spec.one_le_maxAttempts_withDefaults

end Orchestrator
