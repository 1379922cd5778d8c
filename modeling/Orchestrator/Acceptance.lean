import Mathlib.Logic.Relation
import Orchestrator.Validation

/-!
# Which documents are accepted

`Validate` accepts exactly the documents that describe a directed acyclic graph.
One half is read off the search in `Validation`. For the other half, a node that
the search answers is gray when it is met again, and every gray node leads to the
node being searched, so the answer lies on a cycle. The search ends because a
declared name is white only until it is visited, and an undeclared one has no
dependencies.
-/

namespace Orchestrator

open Lib Relation

section Search

variable {deps : String → List String}
  {visit' : String → (String → Color) → Option (String × (String → Color))}

/-- The first node depends on the second. -/
def Needs (deps : String → List String) (n m : String) : Prop := m ∈ deps n

/-- How the loop over the dependencies goes on after a search from a white one. -/
theorem visitDependencies_white_eq {d : String} {ds : List String} {color : String → Color}
    (hd : color d = .white) :
    visitDependencies visit' (d :: ds) color = (visit' d color).bind (fun res =>
      if res.1 ≠ "" then some (some res.1, res.2) else visitDependencies visit' ds res.2) := by
  rw [visitDependencies, hd]
  rfl

/-- A gray dependency closes a cycle: the loop answers it. -/
theorem visitDependencies_gray_eq {d : String} {ds : List String} {color : String → Color}
    (hd : color d = .gray) : visitDependencies visit' (d :: ds) color = some (some d, color) := by
  rw [visitDependencies, hd]

/-- A black dependency is passed over. -/
theorem visitDependencies_black_eq {d : String} {ds : List String} {color : String → Color}
    (hd : color d = .black) :
    visitDependencies visit' (d :: ds) color = visitDependencies visit' ds color := by
  rw [visitDependencies, hd]

/-- What a search makes of the loop over the dependencies of its node. -/
def closeNode (n : String) (res : Option String × (String → Color)) : String × (String → Color) :=
  match res.1 with
  | some r => (r, res.2)
  | none => ("", Function.update res.2 n .black)

/-- A search is the loop over the dependencies of its node, made gray before. -/
theorem visit_succ (fuel : ℕ) (n : String) (color : String → Color) :
    visit deps (fuel + 1) n color = (visitDependencies (visit deps fuel) (deps n)
      (Function.update color n .gray)).map (closeNode n) := by
  rw [visit]
  cases visitDependencies (visit deps fuel) (deps n) (Function.update color n .gray) with
  | none => rfl
  | some res =>
    obtain ⟨r, color'⟩ := res
    cases r <;> rfl

/-- No search turns a node white. -/
def Darkens (visit : String → (String → Color) → Option (String × (String → Color))) : Prop :=
  ∀ n color res, visit n color = some res → ∀ m, res.2 m = .white → color m = .white

/-- The loop over the dependencies turns no node white if no search does. -/
theorem visitDependencies_darkens (hvisit : Darkens visit') {ds : List String}
    {color : String → Color} {res : Option String × (String → Color)}
    (h : visitDependencies visit' ds color = some res) {m : String} (hm : res.2 m = .white) :
    color m = .white := by
  induction ds generalizing color with
  | nil =>
    obtain rfl := Option.some.inj h
    exact hm
  | cons d ds ih =>
    cases hd : color d with
    | white =>
      rw [visitDependencies_white_eq hd, Option.bind_eq_some_iff] at h
      obtain ⟨res', hres', h⟩ := h
      refine hvisit d color res' hres' m ?_
      split_ifs at h
      · obtain rfl := Option.some.inj h
        exact hm
      · exact ih h
    | gray =>
      rw [visitDependencies_gray_eq hd] at h
      obtain rfl := Option.some.inj h
      exact hm
    | black =>
      rw [visitDependencies_black_eq hd] at h
      exact ih h

/-- By induction on the fuel, no search turns a node white. -/
theorem visit_darkens (fuel : ℕ) : Darkens (visit deps fuel) := by
  induction fuel with
  | zero => intro n color res h; cases h
  | succ fuel ih =>
    intro n color res h m hm
    rw [visit_succ, Option.map_eq_some_iff] at h
    obtain ⟨⟨r, color'⟩, hloop, rfl⟩ := h
    have hne : m ≠ n ∧ color' m = .white := by
      cases r with
      | none =>
        by_cases hmn : m = n
        · simp [closeNode, hmn] at hm
        · exact ⟨hmn, by simpa [closeNode, hmn] using hm⟩
      | some r =>
        refine ⟨?_, hm⟩
        rintro rfl
        have hgray := visitDependencies_darkens ih hloop hm
        simp at hgray
    have hwhite := visitDependencies_darkens ih hloop hne.2
    rwa [Function.update_of_ne hne.1] at hwhite

/-- How many of the names are white. -/
def whites (names : List String) (color : String → Color) : ℕ :=
  names.countP (fun n => color n = .white)

/-- Darker colours, fewer white names. -/
theorem whites_le (names : List String) {color color' : String → Color}
    (h : ∀ m, color' m = .white → color m = .white) : whites names color' ≤ whites names color :=
  List.countP_mono_left (fun m _ hm => by simpa using h m (by simpa using hm))

/-- A search has one white name less to visit than its caller. -/
theorem whites_lt {names : List String} {color : String → Color} {n : String} (hn : n ∈ names)
    (hwhite : color n = .white) :
    whites names (Function.update color n .gray) < whites names color := by
  have hle : ∀ l, whites l (Function.update color n .gray) ≤ whites l color := by
    refine fun l => whites_le l (fun m hm => ?_)
    by_cases hmn : m = n
    · simp [hmn] at hm
    · rwa [Function.update_of_ne hmn] at hm
  obtain ⟨l₁, l₂, rfl⟩ := List.append_of_mem hn
  have h₁ := hle l₁
  have h₂ := hle l₂
  simp only [whites, List.countP_append, List.countP_cons, Function.update_self, hwhite] at h₁ h₂ ⊢
  simp only [decide_true, reduceCtorEq, decide_false, if_true, Bool.false_eq_true, if_false]
  omega

/-- The loop ends if the searches from white dependencies do. -/
theorem visitDependencies_ends (names : List String) {k : ℕ} (hdark : Darkens visit')
    (hvisit : ∀ n color, color n = .white → whites names color ≤ k →
      ∃ res, visit' n color = some res)
    {ds : List String} {color : String → Color} (hk : whites names color ≤ k) :
    ∃ res, visitDependencies visit' ds color = some res := by
  induction ds generalizing color with
  | nil => exact ⟨(none, color), rfl⟩
  | cons d ds ih =>
    cases hd : color d with
    | white =>
      obtain ⟨res, hres⟩ := hvisit d color hd hk
      rw [visitDependencies_white_eq hd, hres, Option.bind_some]
      split_ifs
      · exact ⟨_, rfl⟩
      · exact ih ((whites_le names (hdark d color res hres)).trans hk)
    | gray => exact ⟨_, visitDependencies_gray_eq hd⟩
    | black =>
      rw [visitDependencies_black_eq hd]
      exact ih hk

/-- The search ends if its fuel exceeds the number of white names. -/
theorem visit_ends {names : List String} (hnames : ∀ n, deps n ≠ [] → n ∈ names) {fuel : ℕ}
    {n : String} {color : String → Color} (hwhite : color n = .white)
    (hfuel : whites names color < fuel) : ∃ res, visit deps fuel n color = some res := by
  induction fuel generalizing n color with
  | zero => omega
  | succ fuel ih =>
    have hloop : ∃ res, visitDependencies (visit deps fuel) (deps n)
        (Function.update color n .gray) = some res := by
      by_cases hn : n ∈ names
      · have hlt := whites_lt hn hwhite
        exact visitDependencies_ends names (k := fuel - 1) (visit_darkens fuel)
          (fun m color' hm hk => ih hm (by omega)) (by omega)
      · rw [not_imp_comm.mp (hnames n) hn]
        exact ⟨_, rfl⟩
    obtain ⟨res, hres⟩ := hloop
    exact ⟨closeNode n res, by rw [visit_succ, hres, Option.map_some]⟩

/-- With more fuel than there are white names the search over all steps ends. -/
theorem visitSteps_ends {names : List String} (hnames : ∀ n, deps n ≠ [] → n ∈ names) {fuel : ℕ}
    (steps : List StepSpec) {color : String → Color} (hfuel : whites names color < fuel) :
    ∃ r, visitSteps deps fuel steps color = some r := by
  induction steps generalizing color with
  | nil => exact ⟨"", rfl⟩
  | cons s steps ih =>
    rw [visitSteps]
    split_ifs with hwhite
    · obtain ⟨res, hres⟩ := visit_ends hnames hwhite hfuel
      have hle := whites_le names (visit_darkens fuel _ _ _ hres)
      simp only [hres, Option.bind_eq_bind, Option.bind_some]
      split_ifs
      · exact ⟨_, rfl⟩
      · exact ih (by omega)
    · exact ih hfuel

/-- More fuel does not change an answer. -/
theorem visitDependencies_mono
    {visit₁ visit₂ : String → (String → Color) → Option (String × (String → Color))}
    (hvisit : ∀ n color res, visit₁ n color = some res → visit₂ n color = some res)
    {ds : List String} {color : String → Color} {res : Option String × (String → Color)}
    (h : visitDependencies visit₁ ds color = some res) :
    visitDependencies visit₂ ds color = some res := by
  induction ds generalizing color with
  | nil => exact h
  | cons d ds ih =>
    cases hd : color d with
    | white =>
      rw [visitDependencies_white_eq hd, Option.bind_eq_some_iff] at h ⊢
      obtain ⟨res', hres', h⟩ := h
      refine ⟨res', hvisit d color res' hres', ?_⟩
      split_ifs at h ⊢
      · exact h
      · exact ih h
    | gray =>
      rw [visitDependencies_gray_eq hd] at h ⊢
      exact h
    | black =>
      rw [visitDependencies_black_eq hd] at h ⊢
      exact ih h

/-- More fuel does not change the answer of a search. -/
theorem visit_mono {fuel fuel' : ℕ} (hle : fuel ≤ fuel') {n : String} {color : String → Color}
    {res : String × (String → Color)} (h : visit deps fuel n color = some res) :
    visit deps fuel' n color = some res := by
  induction fuel generalizing fuel' n color res with
  | zero => cases h
  | succ fuel ih =>
    obtain ⟨fuel', rfl⟩ : ∃ k, fuel' = k + 1 := ⟨fuel' - 1, by omega⟩
    rw [visit_succ, Option.map_eq_some_iff] at h ⊢
    obtain ⟨res', hloop, rfl⟩ := h
    exact ⟨res', visitDependencies_mono (fun _ _ _ hres => ih (by omega) hres) hloop, rfl⟩

/-- More fuel does not change the answer of the search over all steps. -/
theorem visitSteps_mono {fuel fuel' : ℕ} (hle : fuel ≤ fuel') {steps : List StepSpec}
    {color : String → Color} {r : String} (h : visitSteps deps fuel steps color = some r) :
    visitSteps deps fuel' steps color = some r := by
  induction steps generalizing color with
  | nil => exact h
  | cons s steps ih =>
    rw [visitSteps] at h ⊢
    split_ifs at h ⊢
    · simp only [Option.bind_eq_bind, Option.bind_eq_some_iff] at h ⊢
      obtain ⟨res, hres, h⟩ := h
      refine ⟨res, visit_mono hle hres, ?_⟩
      split_ifs at h ⊢
      · exact h
      · exact ih h
    · exact ih h

/-- A search from a node that every gray node leads to answers a node on a cycle,
or none. -/
def AnswersCycle (deps : String → List String)
    (visit : String → (String → Color) → Option (String × (String → Color))) : Prop :=
  ∀ n color l res, Finished deps color l → color n = .white →
    (∀ g, color g = .gray → TransGen (Needs deps) g n) →
    visit n color = some res → res.1 ≠ "" → TransGen (Needs deps) res.1 res.1

/-- What the loop over the dependencies answers lies on a cycle. -/
theorem visitDependencies_cycle (hvisit : AnswersCycle deps visit')
    (hsound : VisitSound deps visit') {n : String} {ds : List String}
    (hds : ∀ d ∈ ds, Needs deps n d) {color color' : String → Color}
    {l : List String} (hl : Finished deps color l)
    (hgray : ∀ g, color g = .gray → ReflTransGen (Needs deps) g n) {r : String}
    (h : visitDependencies visit' ds color = some (some r, color')) :
    TransGen (Needs deps) r r := by
  induction ds generalizing color l with
  | nil => cases h
  | cons d ds ih =>
    have hd := hds d List.mem_cons_self
    have hrest : ∀ d ∈ ds, Needs deps n d := fun d hd => hds d (List.mem_cons_of_mem _ hd)
    cases hcolor : color d with
    | white =>
      rw [visitDependencies_white_eq hcolor, Option.bind_eq_some_iff] at h
      obtain ⟨⟨r', color₁⟩, hres, h⟩ := h
      by_cases hr : r' = ""
      · subst hr
        obtain ⟨l₁, hl₁, -, -, hkeep⟩ := hsound d color color₁ l hl hcolor hres
        exact ih hrest hl₁ (fun g hg => hgray g ((hkeep g).mp hg)) (by simpa using h)
      · obtain rfl : r' = r := by simpa [hr] using congrArg (Option.map (·.1)) h
        exact hvisit d color l _ hl hcolor (fun g hg => .tail' (hgray g hg) hd) hres hr
    | gray =>
      rw [visitDependencies_gray_eq hcolor] at h
      obtain rfl : d = r := by simpa using congrArg (Option.map (·.1)) h
      exact .tail' (hgray d hcolor) hd
    | black =>
      rw [visitDependencies_black_eq hcolor] at h
      exact ih hrest hl hgray h

/-- What a search answers lies on a cycle, unless it is the empty name. -/
theorem visit_cycle (hdeps : ∀ n, "" ∉ deps n) (fuel : ℕ) :
    AnswersCycle deps (visit deps fuel) := by
  induction fuel with
  | zero => intro n color l res _ _ _ h; cases h
  | succ fuel ih =>
    intro n color l res hl hwhite hgray h hr
    rw [visit_succ, Option.map_eq_some_iff] at h
    obtain ⟨⟨r, color'⟩, hloop, rfl⟩ := h
    cases r with
    | none => exact absurd rfl hr
    | some r =>
      refine visitDependencies_cycle ih (visit_sound hdeps fuel) (fun d hd => hd)
        (Finished.update_gray hl hwhite) (fun g hg => ?_) hloop
      by_cases hgn : g = n
      · exact hgn ▸ .refl
      · rw [Function.update_of_ne hgn] at hg
        exact (hgray g hg).to_reflTransGen

/-- The step that the whole search names depends on itself. -/
theorem visitSteps_cycle (hdeps : ∀ n, "" ∉ deps n) {fuel : ℕ} {steps : List StepSpec}
    {color : String → Color} {l : List String} (hl : Finished deps color l)
    (hgray : ∀ n, color n ≠ .gray) {r : String} (h : visitSteps deps fuel steps color = some r)
    (hr : r ≠ "") : TransGen (Needs deps) r r := by
  induction steps generalizing color l with
  | nil => exact absurd (Option.some.inj h).symm hr
  | cons s steps ih =>
    rw [visitSteps] at h
    split_ifs at h with hwhite
    · simp only [Option.bind_eq_bind, Option.bind_eq_some_iff] at h
      obtain ⟨⟨r', color₁⟩, hres, h⟩ := h
      by_cases hr' : r' = ""
      · subst hr'
        obtain ⟨l₁, hl₁, -, -, hkeep⟩ := visit_sound hdeps fuel _ _ _ _ hl hwhite hres
        exact ih hl₁ (fun n hn => hgray n ((hkeep n).mp hn)) (by simpa using h)
      · obtain rfl : r' = r := by simpa [hr'] using h
        exact visit_cycle hdeps fuel _ _ _ _ hl hwhite (fun g hg => absurd hg (hgray g)) hres hr
    · exact ih hl hgray h

end Search

/-- The search of `findCycle` ends on every list of steps, and more fuel would not
change its answer. -/
theorem findCycle_ends (steps : List StepSpec) : ∃ r, findCycle steps = some r ∧
    ∀ fuel, steps.length + 1 ≤ fuel →
      visitSteps (dependenciesOf steps) fuel steps (fun _ => .white) = some r := by
  have hnames : ∀ n, dependenciesOf steps n ≠ [] → n ∈ steps.map (·.name) := by
    intro n hn
    obtain ⟨dep, hdep⟩ := List.exists_mem_of_ne_nil _ hn
    obtain ⟨s, hs, hname, -⟩ := mem_of_mem_dependenciesOf hdep
    exact List.mem_map.mpr ⟨s, hs, hname⟩
  have hfuel : whites (steps.map (·.name)) (fun _ => .white) < steps.length + 1 := by
    have hle := List.countP_le_length (p := fun n : String => decide (Color.white = .white))
      (l := steps.map (·.name))
    rw [List.length_map] at hle
    exact Nat.lt_succ_of_le hle
  obtain ⟨r, hr⟩ := visitSteps_ends hnames steps hfuel
  exact ⟨r, hr, fun fuel hle => visitSteps_mono hle hr⟩

/-- What the search answers lies on a cycle. -/
theorem findCycle_cycle {steps : List StepSpec} (hdeps : ∀ s ∈ steps, "" ∉ s.dependsOn)
    {r : String} (h : findCycle steps = some r) (hr : r ≠ "") :
    TransGen (Needs (dependenciesOf steps)) r r := by
  have hempty : ∀ n, "" ∉ dependenciesOf steps n := by
    intro n hmem
    obtain ⟨s, hs, -, hdep⟩ := mem_of_mem_dependenciesOf hmem
    exact hdeps s hs hdep
  exact visitSteps_cycle hempty (l := []) ⟨.nil, fun n => by simp⟩ (fun n => by simp) h hr

/-- The first step depends on the second. -/
def Definition.DependsOn (d : Definition) (n m : String) : Prop :=
  ∃ s ∈ d.steps, s.name = n ∧ m ∈ s.dependsOn

/-- The document describes a directed acyclic graph of named and typed steps. -/
structure Definition.IsDag (d : Definition) : Prop where
  name : blank d.name = false
  nonempty : d.steps ≠ []
  names : ∀ s ∈ d.steps, blank s.name = false
  nodup : (d.steps.map (·.name)).Nodup
  types : ∀ s ∈ d.steps, blank s.type = false
  declared : ∀ s ∈ d.steps, ∀ dep ∈ s.dependsOn, ∃ s' ∈ d.steps, s'.name = dep
  acyclic : ∀ n, ¬ TransGen d.DependsOn n n

/-- The document with the defaults of what is unset. -/
def Definition.withDefaults (d : Definition) : Definition :=
  { d with version := versionOrDefault d.version, steps := d.steps.map StepSpec.withDefaults }

/-- A default is not replaced again. -/
theorem default_default {α : Type} (unset : α → Prop) [DecidablePred unset] (x c : α) :
    (if unset (if unset x then c else x) then c else if unset x then c else x) =
      if unset x then c else x := by
  by_cases h : unset x <;> simp [h]

/-- Defaults are filled in once. -/
theorem StepSpec.withDefaults_withDefaults (s : StepSpec) :
    s.withDefaults.withDefaults = s.withDefaults := by
  obtain ⟨name, type, deps, input, attempts, initial, multiplier, maximum, timeout⟩ := s
  simp only [StepSpec.withDefaults, StepSpec.mk.injEq, true_and]
  refine ⟨?_, default_default (· ≤ 0) _ _, default_default (· ≤ 0) _ _,
    default_default (· ≤ 0) _ _, default_default (· ≤ 0) _ _, default_default (· ≤ 0) _ _⟩
  split <;> split <;> simp_all [RawMessage.emptyObject]

/-- A definition that is stored has nothing left to fill in. -/
theorem Definition.withDefaults_withDefaults (d : Definition) :
    d.withDefaults.withDefaults = d.withDefaults := by
  have hversion : versionOrDefault (versionOrDefault d.version) = versionOrDefault d.version :=
    default_default (· ≤ 0) _ _
  have hsteps : (d.steps.map StepSpec.withDefaults).map StepSpec.withDefaults =
      d.steps.map StepSpec.withDefaults := by
    simp [StepSpec.withDefaults_withDefaults]
  simp only [Definition.withDefaults, hversion, hsteps]

/-- Which lists of steps pass the first loop. -/
theorem validateSteps_iff {seen : List String} {index : ℕ} {specs steps : List StepSpec} :
    validateSteps seen index specs = .ok steps ↔ steps = specs.map StepSpec.withDefaults ∧
      (∀ s ∈ specs, blank s.name = false ∧ s.name ∉ seen ∧ blank s.type = false) ∧
      (specs.map (·.name)).Nodup := by
  induction specs generalizing seen index steps with
  | nil =>
    rw [validateSteps, Except.ok.injEq, eq_comm]
    simp
  | cons spec specs ih =>
    rw [validateSteps]
    split_ifs with hblank hseen htype
    · simp [hblank]
    · simp [hseen]
    · simp [htype]
    · have hrest : (validateSteps (spec.name :: seen) (index + 1) specs >>= fun rest =>
          Except.ok (spec.withDefaults :: rest)) = .ok steps ↔
          ∃ rest, validateSteps (spec.name :: seen) (index + 1) specs = .ok rest ∧
            spec.withDefaults :: rest = steps := by
        cases validateSteps (spec.name :: seen) (index + 1) specs <;> simp [bind, Except.bind]
      rw [hrest, List.forall_mem_cons, List.map_cons, List.map_cons, List.nodup_cons]
      simp only [ih, List.mem_cons, not_or]
      constructor
      · rintro ⟨rest, ⟨rfl, hall, hnodup⟩, rfl⟩
        refine ⟨rfl, ⟨⟨Bool.eq_false_iff.mpr hblank, hseen, Bool.eq_false_iff.mpr htype⟩,
          fun s hs => ⟨(hall s hs).1, (hall s hs).2.1.2, (hall s hs).2.2⟩⟩, fun hmem => ?_, hnodup⟩
        obtain ⟨s, hs, hname⟩ := List.mem_map.mp hmem
        exact (hall s hs).2.1.1 hname
      · rintro ⟨rfl, ⟨-, hall⟩, hnot, hnodup⟩
        refine ⟨_, ⟨rfl, fun s hs => ⟨(hall s hs).1, ⟨fun hname => hnot ?_, (hall s hs).2.1⟩,
          (hall s hs).2.2⟩, hnodup⟩, rfl⟩
        exact List.mem_map.mpr ⟨s, hs, hname⟩

/-- Which dependencies pass the second loop. -/
theorem validateDependencies_iff {seen : List String} {step : String} {deps : List String} :
    validateDependencies seen step deps = .ok () ↔ ∀ dep ∈ deps, dep ∈ seen ∧ dep ≠ step := by
  induction deps with
  | nil => simp [validateDependencies]
  | cons dep deps ih =>
    rw [validateDependencies, List.forall_mem_cons]
    split_ifs with hseen hself
    · simp [hself]
    · rw [ih]
      exact ⟨fun h => ⟨⟨hseen, hself⟩, h⟩, fun h => h.2⟩
    · simp [hseen]

/-- A loop of checks passes if each of them does. -/
theorem forM_ok_iff {α ε : Type} {f : α → Except ε Unit} {xs : List α} :
    xs.forM f = .ok () ↔ ∀ x ∈ xs, f x = .ok () := by
  induction xs with
  | nil => exact ⟨fun _ x hx => absurd hx List.not_mem_nil, fun _ => rfl⟩
  | cons x xs ih =>
    change (f x >>= fun _ => xs.forM f) = .ok () ↔ _
    rw [List.forall_mem_cons, ← ih]
    cases f x <;> simp [bind, Except.bind]

/-- A loop of checks fails only as one of them does. -/
theorem forM_ne {α ε : Type} {f : α → Except ε Unit} {xs : List α} {e : ε}
    (h : ∀ x, f x ≠ .error e) : xs.forM f ≠ .error e := by
  induction xs with
  | nil => exact fun h => by cases h
  | cons x xs ih =>
    change (f x >>= fun _ => xs.forM f) ≠ .error e
    cases hx : f x with
    | error e' => exact fun heq => h x (hx.trans heq)
    | ok u => exact ih

namespace Definition

variable {d d' : Definition}

/-- Filling in defaults renames no step. -/
theorem withDefaults_names (d : Definition) :
    d.withDefaults.steps.map (·.name) = d.steps.map (·.name) := by
  rw [withDefaults, List.map_map]
  rfl

/-- What `Validate` answers once the names and types have passed. -/
theorem validate_eq (hname : blank d.name = false) (hnil : d.steps ≠ [])
    (hsteps : validateSteps [] 0 d.steps = .ok d.withDefaults.steps)
    (hdeps : d.withDefaults.steps.forM (fun s => validateDependencies
      (d.withDefaults.steps.map (·.name)) s.name s.dependsOn) = .ok ())
    (hroot : d.withDefaults.steps.all (fun s => !s.dependsOn.isEmpty) = false) {r : String}
    (hcycle : findCycle d.withDefaults.steps = some r) :
    d.validate = if r = "" then .ok d.withDefaults else .error (.cycle r) := by
  rw [Definition.validate, hname, if_neg (by simp), if_neg hnil, hsteps]
  simp only [bind, Except.bind, hdeps, hroot, Bool.false_eq_true, if_false, hcycle]
  split_ifs with hr
  · subst hr
    rfl
  · split
    · rename_i h
      cases h
    · rename_i h
      exact absurd (Option.some.inj h) hr
    · rename_i step _ h
      rw [Option.some.inj h]

/-- No dependency has an empty name if each is the name of a step. -/
theorem no_empty_dependency (hnames : ∀ s ∈ d.steps, blank s.name = false)
    (hdeps : ∀ s ∈ d.steps, ∀ dep ∈ s.dependsOn, ∃ s' ∈ d.steps, s'.name = dep) :
    ∀ s ∈ d.withDefaults.steps, "" ∉ s.dependsOn := by
  intro s hs hempty
  obtain ⟨spec, hspec, rfl⟩ := List.mem_map.mp hs
  obtain ⟨s', hs', hname⟩ := hdeps spec hspec "" hempty
  have hblank := hnames s' hs'
  rw [hname] at hblank
  cases hblank

/-- A document that is accepted describes a graph without cycles, and the answer
is the document with its defaults. -/
theorem isDag_of_validate (h : d.validate = .ok d') : d.IsDag ∧ d' = d.withDefaults := by
  obtain ⟨steps, hname, hnil, hsteps, hdeclared, hcycle, rfl⟩ := Definition.validate_ok h
  obtain ⟨rfl, hall, hnodup⟩ := validateSteps_iff.mp hsteps
  have hdeps : ∀ s ∈ d.steps, ∀ dep ∈ s.dependsOn, ∃ s' ∈ d.steps, s'.name = dep := by
    intro s hs dep hdep
    obtain ⟨s', hs', hdep'⟩ := List.mem_map.mp
      (hdeclared s.withDefaults (List.mem_map_of_mem hs) dep hdep)
    obtain ⟨spec, hspec, rfl⟩ := List.mem_map.mp hs'
    exact ⟨spec, hspec, hdep'⟩
  refine ⟨⟨hname, hnil, fun s hs => (hall s hs).1, hnodup, fun s hs => (hall s hs).2.2, hdeps,
    fun n hn => ?_⟩, rfl⟩
  obtain ⟨rank, hrank⟩ := findCycle_sound (by rwa [withDefaults_names])
    (no_empty_dependency (fun s hs => (hall s hs).1) hdeps) hcycle
  -- A rank decreases along every dependency, so it cannot do so along a cycle.
  have hlt : ∀ {m}, TransGen d.DependsOn n m → rank m < rank n := by
    intro m hm
    induction hm with
    | single h =>
      obtain ⟨s, hs, rfl, hdep⟩ := h
      exact hrank s.withDefaults (List.mem_map_of_mem hs) _ hdep
    | tail _ h ih =>
      obtain ⟨s, hs, rfl, hdep⟩ := h
      exact (hrank s.withDefaults (List.mem_map_of_mem hs) _ hdep).trans ih
  exact lt_irrefl _ (hlt hn)

/-- A dependency that the search follows is one of the document. -/
theorem dependsOn_of_needs {n m : String}
    (h : Needs (dependenciesOf d.withDefaults.steps) n m) : d.DependsOn n m := by
  obtain ⟨s, hs, rfl, hm⟩ := mem_of_mem_dependenciesOf h
  obtain ⟨spec, hspec, rfl⟩ := List.mem_map.mp hs
  exact ⟨spec, hspec, rfl, hm⟩

/-- The search finds no cycle in a graph without cycles, and a step to begin with
exists. -/
theorem IsDag.search (h : d.IsDag) : findCycle d.withDefaults.steps = some "" ∧
    ∃ s ∈ d.steps, s.dependsOn = [] := by
  have hempty := no_empty_dependency h.names h.declared
  obtain ⟨r, hr, -⟩ := findCycle_ends d.withDefaults.steps
  have hnone : r = "" := by
    by_contra hne
    exact h.acyclic r (TransGen.mono (fun _ _ => dependsOn_of_needs) _ _
      (findCycle_cycle hempty hr hne))
  subst hnone
  obtain ⟨rank, hrank⟩ := findCycle_sound
    (by rw [withDefaults_names]; exact h.nodup) hempty hr
  exact ⟨hr, exists_root_of_rank h.nonempty h.declared
    (fun s hs => hrank s.withDefaults (List.mem_map_of_mem hs))⟩

/-- A document that describes a graph without cycles is accepted. -/
theorem IsDag.validate (h : d.IsDag) : d.validate = .ok d.withDefaults := by
  obtain ⟨hcycle, root, hroot, hnone⟩ := h.search
  refine validate_eq h.name h.nonempty ?_ (forM_ok_iff.mpr (fun s hs => ?_)) ?_ hcycle
  · exact validateSteps_iff.mpr ⟨rfl, fun s hs => ⟨h.names s hs, List.not_mem_nil, h.types s hs⟩,
      h.nodup⟩
  · obtain ⟨spec, hspec, rfl⟩ := List.mem_map.mp hs
    refine validateDependencies_iff.mpr (fun dep hdep => ⟨?_, fun hself => ?_⟩)
    · obtain ⟨s', hs', rfl⟩ := h.declared spec hspec dep hdep
      exact List.mem_map.mpr ⟨s'.withDefaults, List.mem_map_of_mem hs', rfl⟩
    · exact h.acyclic dep (.single ⟨spec, hspec, hself.symm, hdep⟩)
  · refine Bool.eq_false_iff.mpr (fun hall => ?_)
    have hdeps := List.all_eq_true.mp hall root.withDefaults (List.mem_map_of_mem hroot)
    change (!root.dependsOn.isEmpty) = true at hdeps
    rw [hnone] at hdeps
    cases hdeps

/-- The defaults keep the graph. -/
theorem IsDag.withDefaults (h : d.IsDag) : d.withDefaults.IsDag where
  name := h.name
  nonempty := by simpa [Definition.withDefaults] using h.nonempty
  names := List.forall_mem_map.mpr h.names
  nodup := by
    rw [withDefaults_names]
    exact h.nodup
  types := List.forall_mem_map.mpr h.types
  declared := by
    refine List.forall_mem_map.mpr (fun s hs dep hdep => ?_)
    obtain ⟨s', hs', hname⟩ := h.declared s hs dep hdep
    exact ⟨s'.withDefaults, List.mem_map_of_mem hs', hname⟩
  acyclic n hn := by
    refine h.acyclic n (TransGen.mono (fun a b hab => ?_) _ _ hn)
    obtain ⟨s, hs, rfl, hdep⟩ := hab
    obtain ⟨spec, hspec, rfl⟩ := List.mem_map.mp hs
    exact ⟨spec, hspec, rfl, hdep⟩

/-- The checks before the search do not speak of cycles. -/
theorem validateSteps_ne_cycle {seen : List String} {index : ℕ} {specs : List StepSpec}
    {n : String} : validateSteps seen index specs ≠ .error (.cycle n) := by
  induction specs generalizing seen index with
  | nil => rw [validateSteps]; exact fun h => by cases h
  | cons s specs ih =>
    rw [validateSteps]
    split_ifs
    iterate 3 exact fun h => by cases h
    cases hrest : validateSteps (s.name :: seen) (index + 1) specs with
    | error e => exact fun h => ih (hrest.trans h)
    | ok rest => exact fun h => by cases h

/-- Checking the names of dependencies never reports a cycle. -/
theorem validateDependencies_ne_cycle {seen : List String} {step : String} {deps : List String}
    {n : String} : validateDependencies seen step deps ≠ .error (.cycle n) := by
  induction deps with
  | nil => rw [validateDependencies]; exact fun h => by cases h
  | cons dep deps ih =>
    rw [validateDependencies]
    split_ifs
    · exact fun h => by cases h
    · exact ih
    · exact fun h => by cases h

/-- A step that is reported lies on a cycle. -/
theorem cycle_of_validate {n : String} (h : d.validate = .error (.cycle n)) :
    TransGen d.DependsOn n n := by
  unfold Definition.validate at h
  split_ifs at h with hname hnil
  · cases h
  · cases h
  cases hsteps : validateSteps [] 0 d.steps with
  | error e =>
    rw [hsteps] at h
    obtain rfl : e = .cycle n := Except.error.inj h
    exact absurd hsteps validateSteps_ne_cycle
  | ok steps =>
    rw [hsteps] at h
    obtain ⟨rfl, hall, -⟩ := validateSteps_iff.mp hsteps
    cases hdeps : (d.steps.map StepSpec.withDefaults).forM (fun s => validateDependencies
        ((d.steps.map StepSpec.withDefaults).map (·.name)) s.name s.dependsOn) with
    | error e =>
      simp only [bind, Except.bind, hdeps] at h
      obtain rfl : e = .cycle n := Except.error.inj h
      exact absurd hdeps (forM_ne (fun _ => validateDependencies_ne_cycle))
    | ok u =>
      simp only [bind, Except.bind, hdeps] at h
      split_ifs at h with hroot
      · cases h
      split at h
      · cases h
      · cases h
      · rename_i step hne hcycle
        obtain rfl : step = n := ValidationError.cycle.inj (Except.error.inj h)
        refine TransGen.mono (fun _ _ => dependsOn_of_needs) _ _ (findCycle_cycle
          (no_empty_dependency (fun s hs => (hall s hs).1) (fun s hs dep hdep => ?_)) hcycle hne)
        have hok := forM_ok_iff.mp hdeps s.withDefaults (List.mem_map_of_mem hs)
        obtain ⟨s', hs', hname'⟩ := List.mem_map.mp (validateDependencies_iff.mp hok dep hdep).1
        obtain ⟨spec, hspec, rfl⟩ := List.mem_map.mp hs'
        exact ⟨spec, hspec, hname'⟩

end Definition

/-- `Validate` accepts exactly the documents that describe a directed acyclic graph,
and such a graph has a step to begin with. A step that is reported for a cycle lies
on one. The search ends on every list of steps. A document that has been accepted is
accepted again as it is. -/
theorem validate_accepts_dags :
    (∀ d : Definition, (∃ d', d.validate = .ok d') ↔ d.IsDag) ∧
      (∀ d : Definition, d.IsDag → ∃ s ∈ d.steps, s.dependsOn = []) ∧
      (∀ (d : Definition) (n : String), d.validate = .error (.cycle n) →
        TransGen d.DependsOn n n) ∧
      (∀ steps : List StepSpec, ∃ r, findCycle steps = some r ∧ ∀ fuel, steps.length + 1 ≤ fuel →
        visitSteps (dependenciesOf steps) fuel steps (fun _ => .white) = some r) ∧
      ∀ d d' : Definition, d.validate = .ok d' → d'.validate = .ok d' := by
  refine ⟨fun d => ⟨?_, fun h => ⟨_, h.validate⟩⟩, fun d h => h.search.2,
    fun d n => Definition.cycle_of_validate, findCycle_ends, fun d d' h => ?_⟩
  · rintro ⟨d', h⟩
    exact (Definition.isDag_of_validate h).1
  · obtain ⟨hdag, rfl⟩ := Definition.isDag_of_validate h
    rw [hdag.withDefaults.validate, Definition.withDefaults_withDefaults]

/-- A step that depends on another one in two ways. -/
def diamondDefinition : Definition :=
  ⟨"diamond", 0, [⟨"d", "work", ["b", "c"], none, 0, 0, 0, 0, 0⟩,
    ⟨"b", "work", ["a"], none, 0, 0, 0, 0, 0⟩, ⟨"c", "work", ["a"], none, 0, 0, 0, 0, 0⟩,
    ⟨"a", "work", [], none, 0, 0, 0, 0, 0⟩]⟩

/-- A step that leads to two others which depend on each other. -/
def knotDefinition : Definition :=
  ⟨"knot", 0, [⟨"a", "work", ["b"], none, 0, 0, 0, 0, 0⟩,
    ⟨"b", "work", ["c"], none, 0, 0, 0, 0, 0⟩, ⟨"c", "work", ["d", "b"], none, 0, 0, 0, 0, 0⟩,
    ⟨"d", "work", [], none, 0, 0, 0, 0, 0⟩]⟩

/-- The first of them is accepted, and the second is rejected for a step on its
cycle. -/
theorem validate_accepts_dags_diamond : diamondDefinition.IsDag ∧
    (∃ s ∈ diamondDefinition.steps, s.dependsOn = []) ∧
    TransGen knotDefinition.DependsOn "b" "b" := by
  have hdag : diamondDefinition.IsDag := (validate_accepts_dags.1 diamondDefinition).mp ⟨_, rfl⟩
  exact ⟨hdag, validate_accepts_dags.2.1 _ hdag, validate_accepts_dags.2.2.1 knotDefinition "b" rfl⟩

end Orchestrator
