import Orchestrator.Memory.Store
import Orchestrator.Solo.Mirror
import Orchestrator.Transactions.Skips

/-!
# Skips as a least fixpoint

`propagateSkips` on any local view that agrees with its store, whatever the dependency
graph looks like, and on both stores. The steps skipped are those from which a step that
has failed, or was skipped or cancelled, is reached through steps that have not been
dispatched. A partial propagation has skipped some of them, in the order in which its
passes met them.
-/

namespace Orchestrator

open Lib Program

/-- The step has not been dispatched and depends on the other one. -/
def RunState.Needs (rs : RunState) (s d : Step) : Prop :=
  s.isFresh = true ∧ ∃ dep ∈ s.dependsOn, rs.get? dep = some d

/-- A step with a bad status is reached along dependencies, through steps that have not
been dispatched. -/
def RunState.Condemned (rs : RunState) (s : Step) : Prop :=
  ∃ d, d.status.isBad = true ∧ Relation.TransGen rs.Needs s d

/-- The run's row is there, and each local copy agrees with the row of its step. -/
structure InStep (run : WorkflowRun) (rs : RunState) (v : Db) : Prop where
  run : ∃ r, v.runs.get? run.id = some r
  rows : ∀ s ∈ rs, ∃ t, v.steps.get? s.id = some t ∧ s.Same t

/-- The event that a write inserts. -/
def Write.event? : Write → Option HistoryEvent
  | .history e => some e
  | _ => none

/-- What an event says apart from its number and time. -/
def HistoryEvent.content (e : HistoryEvent) : UUID × EventType × Json :=
  (e.workflowRunID, e.eventType, e.payload)

/-- The document of the event that the step of a name was skipped. -/
def skipContent (runID : UUID) (name : String) : UUID × EventType × Json :=
  (runID, .stepSkipped, .obj [("step", .str name)])

/-- What `propagateSkips` makes of a local view and its store: the copies and rows of the
condemned steps are skipped, the others stay, and there is one event for each. -/
structure LeastSkips (run : WorkflowRun) (rs : RunState) (v : Db) (rs' : RunState)
    (ws : List Write) : Prop where
  names : ∀ name, rs.get? name = none → rs'.get? name = none
  skipped : ∀ s ∈ rs, rs.Condemned s → rs'.get? s.stepName = some { s with status := .skipped }
  kept : ∀ s ∈ rs, ¬ rs.Condemned s → rs'.get? s.stepName = some s
  rowsSkipped : ∀ s ∈ rs, rs.Condemned s → ∃ t now, v.steps.get? s.id = some t ∧
    (backend.applyAll v ws).steps.get? s.id = some (t.transition .skipped none none false now)
  rowsKept : ∀ id, (∀ s ∈ rs, rs.Condemned s → s.id ≠ id) →
    (backend.applyAll v ws).steps.get? id = v.steps.get? id
  events : ∃ order : List String, order.Nodup ∧
    (∀ name, name ∈ order ↔ ∃ s ∈ rs, s.stepName = name ∧ rs.Condemned s) ∧
    (ws.filterMap Write.event?).map HistoryEvent.content = order.map (skipContent run.id)

/-- The copies are determined by those from before. -/
theorem LeastSkips.unique {run run' : WorkflowRun} {rs rs' rs'' : RunState} {v v' : Db}
    {ws ws' : List Write} (h : LeastSkips run rs v rs' ws) (h' : LeastSkips run' rs v' rs'' ws') :
    rs' = rs'' := by
  refine Table.ext_get? (fun name => ?_)
  cases hs : rs.get? name with
  | none => rw [h.names name hs, h'.names name hs]
  | some s =>
    obtain rfl : s.stepName = name := Table.key_of_get? hs
    have hmem := Table.mem_of_get? hs
    by_cases hc : rs.Condemned s
    · rw [h.skipped s hmem hc, h'.skipped s hmem hc]
    · rw [h.kept s hmem hc, h'.kept s hmem hc]

section Progress

variable {run : WorkflowRun} {rs rs' : RunState} {v : Db} {order : List String} {ws : List Write}

/-- The copies of the steps with the names are skipped. -/
def Step.mark (order : List String) (s : Step) : Step :=
  if s.stepName ∈ order then { s with status := .skipped } else s

@[simp] theorem Step.mark_stepName (order : List String) (s : Step) :
    (s.mark order).stepName = s.stepName := by
  unfold mark
  split_ifs <;> rfl

/-- The steps with the names have been skipped so far, in the order of the list. -/
structure Progress (run : WorkflowRun) (rs : RunState) (v : Db) (order : List String)
    (rs' : RunState) (ws : List Write) : Prop where
  inStep : InStep run rs' (backend.applyAll v ws)
  view : ∀ name, rs'.get? name = (rs.get? name).map (Step.mark order)
  nodup : order.Nodup
  condemned : ∀ name ∈ order, ∃ s, rs.get? name = some s ∧ rs.Condemned s
  skipped : ∀ s ∈ rs, s.stepName ∈ order → ∃ t now, v.steps.get? s.id = some t ∧
    (backend.applyAll v ws).steps.get? s.id = some (t.transition .skipped none none false now)
  kept : ∀ id, (∀ s ∈ rs, s.stepName ∈ order → s.id ≠ id) →
    (backend.applyAll v ws).steps.get? id = v.steps.get? id
  events : (ws.filterMap Write.event?).map HistoryEvent.content = order.map (skipContent run.id)

/-- Nothing has been skipped yet. -/
theorem Progress.init (h : InStep run rs v) : Progress run rs v [] rs [] where
  inStep := h
  view name := by
    have hmark : Step.mark [] = id := funext (fun s => if_neg List.not_mem_nil)
    rw [hmark, Option.map_id_fun, id]
  nodup := List.nodup_nil
  condemned name hname := absurd hname List.not_mem_nil
  skipped s _ hname := absurd hname List.not_mem_nil
  kept id _ := rfl
  events := rfl

/-- No more steps are skipped than there are. -/
theorem Progress.length_le (h : Progress run rs v order rs' ws) :
    order.length ≤ rs.rows.length := by
  have hsub : order ⊆ rs.rows.map (·.stepName) := by
    intro name hname
    obtain ⟨s, hs, -⟩ := h.condemned name hname
    exact List.mem_map.mpr ⟨s, Table.mem_of_get? hs, Table.key_of_get? hs⟩
  calc order.length
    _ ≤ (rs.rows.map (·.stepName)).length := (h.nodup.subperm hsub).length_le
    _ = rs.rows.length := List.length_map _

/-- A step that is still fresh has not been skipped. -/
theorem Progress.unmarked (h : Progress run rs v order rs' ws) {s : Step} (hs : s ∈ rs')
    (hfresh : s.isFresh = true) : rs.get? s.stepName = some s ∧ s.stepName ∉ order := by
  have hview := (Table.mem_iff_get?.mp hs).symm.trans (h.view s.stepName)
  obtain ⟨s₀, hs₀, hmark⟩ := Option.map_eq_some_iff.mp hview.symm
  have hname : s₀.stepName = s.stepName := Table.key_of_get? hs₀
  by_cases hin : s₀.stepName ∈ order
  · rw [Step.mark, if_pos hin] at hmark
    rw [← hmark] at hfresh
    cases hfresh
  · rw [Step.mark, if_neg hin] at hmark
    obtain rfl := hmark
    exact ⟨hs₀, hin⟩

/-- A step that is blocked by what has been skipped is condemned. -/
theorem Progress.blocked (h : Progress run rs v order rs' ws) {s : Step}
    (hfresh : s.isFresh = true) (hblocked : rs'.blocked s = true) : rs.Condemned s := by
  obtain ⟨dep, hdep, hany⟩ := List.any_eq_true.mp hblocked
  obtain ⟨d', hd', hbad⟩ := (Option.any_eq_true ..).mp hany
  obtain ⟨d, hd, hmark⟩ := Option.map_eq_some_iff.mp ((h.view dep).symm.trans hd')
  have hneeds : rs.Needs s d := ⟨hfresh, dep, hdep, hd⟩
  by_cases hin : d.stepName ∈ order
  · obtain ⟨d₀, hd₀, e, hbad, hpath⟩ := h.condemned d.stepName hin
    obtain rfl := Option.some.inj (hd₀.symm.trans (Table.get?_key hd))
    exact ⟨e, hbad, .head hneeds hpath⟩
  · rw [Step.mark, if_neg hin] at hmark
    exact ⟨d, hmark ▸ hbad, .single hneeds⟩

/-- One more step is skipped, with its event. -/
theorem Progress.skip (h : Progress run rs v order rs' ws) {s t : Step} (hs : s ∈ rs')
    (hfresh : s.isFresh = true) (hblocked : rs'.blocked s = true)
    (ht : (backend.applyAll v ws).steps.get? s.id = some t) {r : WorkflowRun}
    (hr : (backend.applyAll v ws).runs.get? run.id = some r) (now now' : Time) :
    Progress run rs v (order ++ [s.stepName]) (rs'.put { s with status := .skipped })
      (ws ++ .step (t.transition .skipped none none false now) ::
        historyWrites r .stepSkipped (some (.obj [("step", .str s.stepName)])) now') := by
  obtain ⟨hs₀, hnew⟩ := h.unmarked hs hfresh
  have hrid : r.id = run.id := Table.key_of_get? hr
  have htid : t.id = s.id := Table.key_of_get? ht
  obtain ⟨t', ht', hsame⟩ := h.inStep.rows s hs
  obtain rfl := Option.some.inj (ht'.symm.trans ht)
  set m := backend.applyAll v ws with hm
  -- The store after the two statements.
  have happly : backend.applyAll v (ws ++ .step (t'.transition .skipped none none false now) ::
      historyWrites r .stepSkipped (some (.obj [("step", .str s.stepName)])) now') =
      backend.applyAll m (.step (t'.transition .skipped none none false now) ::
        historyWrites r .stepSkipped (some (.obj [("step", .str s.stepName)])) now') := by
    rw [Backend.applyAll_append]
  have hself : (m.steps.put (t'.transition .skipped none none false now)).get? s.id =
      some (t'.transition .skipped none none false now) := by
    rw [← htid]
    exact Table.get?_put_self m.steps (t'.transition .skipped none none false now)
  have hother : ∀ id, id ≠ s.id →
      (m.steps.put (t'.transition .skipped none none false now)).get? id = m.steps.get? id := by
    intro id hne
    refine Table.get?_put_of_ne (fun heq => hne ?_)
    exact heq.symm.trans htid
  -- Copies of other names are of other rows.
  have hids : ∀ x ∈ rs', x.stepName ≠ s.stepName → x.id ≠ s.id := by
    intro x hx hne hid
    obtain ⟨y, hy, hxy⟩ := h.inStep.rows x hx
    obtain rfl := Option.some.inj ((hid ▸ hy).symm.trans ht)
    exact hne ((Step.name_of_info hxy.info).symm.trans (Step.name_of_info hsame.info))
  have hmarked : ∀ x ∈ rs, x.stepName ∈ order → x.id ≠ s.id := by
    intro x hx hname
    have hcopy : rs'.get? x.stepName = some (x.mark order) := by
      rw [h.view, Table.mem_iff_get?.mp hx]
      rfl
    have hid : (x.mark order).id = x.id := by
      rw [Step.mark, if_pos hname]
    rw [← hid]
    refine hids _ (Table.mem_of_get? hcopy) (fun heq => hnew ?_)
    rwa [← heq, Step.mark_stepName]
  refine ⟨⟨?_, ?_⟩, ?_, ?_, ?_, ?_, ?_, ?_⟩
  · rw [happly]
    exact ⟨_, by rw [← hrid]; exact Table.get?_put_self m.runs _⟩
  · rw [happly]
    intro x hx
    rcases Table.mem_put.mp hx with rfl | ⟨hx, hne⟩
    · exact ⟨_, hself, hsame.transition .skipped false now⟩
    · obtain ⟨y, hy, hxy⟩ := h.inStep.rows x hx
      exact ⟨y, (hother x.id (hids x hx hne)).trans hy, hxy⟩
  · intro name
    by_cases hname : s.stepName = name
    · subst hname
      rw [hs₀]
      refine (Table.get?_put_self rs' { s with status := .skipped }).trans ?_
      rw [Option.map_some, Step.mark, if_pos (by simp)]
    · have hget : (rs'.put { s with status := .skipped }).get? name = rs'.get? name :=
        Table.get?_put_of_ne (r := { s with status := .skipped }) hname
      rw [hget, h.view name]
      refine Option.map_congr (fun x hx => ?_)
      have hxname : x.stepName = name := Table.key_of_get? hx
      have hiff : x.stepName ∈ order ++ [s.stepName] ↔ x.stepName ∈ order := by
        simp [hxname, Ne.symm hname]
      simp only [Step.mark, hiff]
  · rw [List.nodup_append]
    refine ⟨h.nodup, List.nodup_singleton _, fun x hx y hy heq => hnew ?_⟩
    rwa [← List.mem_singleton.mp hy, ← heq]
  · intro name hname
    rcases List.mem_append.mp hname with hname | hname
    · exact h.condemned name hname
    · rw [List.mem_singleton.mp hname]
      exact ⟨s, hs₀, h.blocked hfresh hblocked⟩
  · rw [happly]
    intro x hx hname
    rcases List.mem_append.mp hname with hname | hname
    · obtain ⟨t, at', hv, hrow⟩ := h.skipped x hx hname
      exact ⟨t, at', hv, (hother x.id (hmarked x hx hname)).trans hrow⟩
    · obtain rfl := Table.eq_of_key_eq hx (Table.mem_of_get? hs₀) (List.mem_singleton.mp hname)
      exact ⟨t', now, (h.kept x.id hmarked).symm.trans ht, hself⟩
  · rw [happly]
    intro id hid
    have hne : s.id ≠ id := hid s (Table.mem_of_get? hs₀) (by simp)
    refine (hother id hne.symm).trans (h.kept id (fun x hx hname => ?_))
    exact hid x hx (List.mem_append_left _ hname)
  · rw [List.filterMap_append, List.map_append, h.events, List.map_append, List.map_singleton,
      ← hrid]
    rfl

/-- A propagation that leaves no step to be skipped has skipped the condemned ones. -/
theorem Progress.closed (h : Progress run rs v order rs' ws)
    (hdone : ∀ name, ¬ rs'.Skippable name) {s : Step} (hs : s ∈ rs) (hc : rs.Condemned s) :
    s.stepName ∈ order := by
  obtain ⟨e, hbad, hpath⟩ := hc
  have hcopy : ∀ {x : Step}, x ∈ rs → rs'.get? x.stepName = some (x.mark order) := by
    intro x hx
    rw [h.view, Table.mem_iff_get?.mp hx]
    rfl
  -- A fresh step with a bad dependency in the view would be skipped.
  have hstep : ∀ {x d : Step}, x ∈ rs → rs.Needs x d → (d.mark order).status.isBad = true →
      x.stepName ∈ order := by
    rintro x d hx ⟨hfresh, dep, hdep, hd⟩ hbad
    by_contra hnot
    have hmark : x.mark order = x := if_neg hnot
    refine hdone x.stepName ⟨x, (hcopy hx).trans (congrArg some hmark), hfresh, ?_⟩
    refine List.any_eq_true.mpr ⟨dep, hdep, ?_⟩
    rw [h.view, hd]
    exact hbad
  induction hpath using Relation.TransGen.head_induction_on with
  | single hneeds =>
    refine hstep hs hneeds ?_
    unfold Step.mark
    split_ifs
    · rfl
    · exact hbad
  | head hneeds hrest ih =>
    obtain ⟨-, dep, -, hd⟩ := id hneeds
    refine hstep hs hneeds ?_
    rw [Step.mark, if_pos (ih (Table.mem_of_get? hd))]
    rfl

/-- The end of the propagation. -/
theorem Progress.least (h : Progress run rs v order rs' ws)
    (hdone : ∀ name, ¬ rs'.Skippable name) : LeastSkips run rs v rs' ws := by
  have hiff : ∀ s ∈ rs, s.stepName ∈ order ↔ rs.Condemned s := by
    intro s hs
    refine ⟨fun hin => ?_, h.closed hdone hs⟩
    obtain ⟨s', hs', hc⟩ := h.condemned s.stepName hin
    obtain rfl := Table.eq_of_key_eq (Table.mem_of_get? hs') hs (Table.key_of_get? hs')
    exact hc
  have hcopy : ∀ s ∈ rs, rs'.get? s.stepName = some (s.mark order) := by
    intro s hs
    rw [h.view, Table.mem_iff_get?.mp hs]
    rfl
  refine ⟨fun name hnone => by rw [h.view, hnone]; rfl, fun s hs hc => ?_, fun s hs hc => ?_,
    fun s hs hc => h.skipped s hs ((hiff s hs).mpr hc),
    fun id hid => h.kept id (fun s hs hin => hid s hs ((hiff s hs).mp hin)),
    order, h.nodup, fun name => ⟨fun hin => ?_, ?_⟩, h.events⟩
  · rw [hcopy s hs, Step.mark, if_pos ((hiff s hs).mpr hc)]
  · rw [hcopy s hs, Step.mark, if_neg (fun hin => hc ((hiff s hs).mp hin))]
  · obtain ⟨s, hs, hc⟩ := h.condemned name hin
    exact ⟨s, Table.mem_of_get? hs, Table.key_of_get? hs, hc⟩
  · rintro ⟨s, hs, rfl, hc⟩
    exact (hiff s hs).mpr hc

end Progress

section Store

variable {S W : Type} {b : Backend Query Error S W Lock Draw} {rows : S → Db}
  {written : W → List Write} {run : WorkflowRun} {rs rs' : RunState} {v : Db}
  {order : List String} {s : S} {l : List W}

/-- What the calls of `propagateSkips` do on a store whose rows are tables. -/
structure SkipStore (b : Backend Query Error S W Lock Draw) (rows : S → Db)
    (written : W → List Write) : Prop where
  apply : ∀ s x, rows (b.apply s x) = backend.applyAll (rows s) (written x)
  range : ∀ keys d s, b.exec (.mapOrder keys) d s = .ok (d.shuffle keys, [])
  update : ∀ {s : S} {id : UUID} {t : Step} (d : Draw), (rows s).steps.get? id = some t →
    ∃ ws, b.exec (.updateStepStatus id [t.status] .skipped none none false) d s = .ok (true, ws) ∧
      ws.flatMap written = [.step (t.transition .skipped none none false d.now)]
  append : ∀ {s : S} {id : UUID} {r : WorkflowRun} (type : EventType) (payload : Option Json)
    (d : Draw), (rows s).runs.get? id = some r →
    ∃ e ws, b.exec (.appendHistory id type payload) d s = .ok (some e, ws) ∧
      ws.flatMap written = historyWrites r type payload d.now
  admits : ∀ {β : Type} (q : Query β) (d : Draw) (s : S), q.admits d (rows s) = true →
    b.admits q d s

theorem SkipStore.applyAll (h : SkipStore b rows written) (s : S) (ws : List W) :
    rows (b.applyAll s ws) = backend.applyAll (rows s) (ws.flatMap written) := by
  induction ws generalizing s with
  | nil => rfl
  | cons x ws ih =>
    rw [Backend.applyAll_cons, ih, h.apply, List.flatMap_cons, Backend.applyAll_append]

/-- The propagation as far as the writes of a transaction tell. -/
def Reached (rows : S → Db) (written : W → List Write) (run : WorkflowRun) (rs : RunState) (v : Db)
    (order : List String) (rs' : RunState) (σ : S × List W) : Prop :=
  rows σ.1 = backend.applyAll v (σ.2.flatMap written) ∧
    Progress run rs v order rs' (σ.2.flatMap written)

/-- The body of the loop of a pass. -/
theorem skipStep_reached (hb : SkipStore b rows written) {changed : Bool} {name : String}
    (h : Reached rows written run rs v order rs' (s, l)) :
    (skipStep run (rs', changed) name).Wp b.recording (fun _ => False)
      (fun acc σ => ∃ order', Reached rows written run rs v order' acc.1 σ ∧
        ((acc = (rs', changed) ∧ order' = order ∧ ¬ rs'.Skippable name) ∨
          (acc.2 = true ∧ order.length < order'.length))) (s, l) := by
  obtain ⟨hrows, hprog⟩ := id h
  unfold skipStep
  cases hs : rs'.get? name with
  | none =>
    refine ⟨order, h, Or.inl ⟨rfl, rfl, ?_⟩⟩
    rintro ⟨x, hx, -⟩
    rw [hs] at hx
    cases hx
  | some x =>
    dsimp only
    split_ifs with hskip
    · rw [Bool.and_eq_true] at hskip
      have hx := Table.mem_of_get? hs
      obtain ⟨t, ht, hsame⟩ := hprog.inStep.rows x hx
      obtain ⟨r, hr⟩ := hprog.inStep.run
      refine Wp.bind (Wp.request (fun d _ => ?_))
      obtain ⟨ws, hexec, hws⟩ := hb.update d (hrows ▸ ht)
      rw [hsame.status] at hexec
      refine ⟨true, ws, hexec, ?_⟩
      rw [Backend.applyAll_recording, if_pos rfl]
      have hrows' : rows (b.applyAll s ws) = backend.applyAll v (l.flatMap written ++
          [.step (t.transition .skipped none none false d.now)]) := by
        rw [hb.applyAll, hrows, hws, Backend.applyAll_append]
      have hr' : (rows (b.applyAll s ws)).runs.get? run.id = some r := by
        rw [hrows', Backend.applyAll_append]
        exact hr
      refine Wp.bind (Wp.bind (Wp.request (fun d' _ => ?_)))
      obtain ⟨e, ws', hexec', hws'⟩ := hb.append .stepSkipped
        (some (.obj [("step", .str x.stepName)])) d' hr'
      refine ⟨some e, ws', hexec', ?_⟩
      rw [Backend.applyAll_recording]
      have hwrites : (l ++ ws ++ ws').flatMap written = l.flatMap written ++
          .step (t.transition .skipped none none false d.now) ::
            historyWrites r .stepSkipped (some (.obj [("step", .str x.stepName)])) d'.now := by
        rw [List.flatMap_append, List.flatMap_append, hws, hws', List.append_assoc]
        rfl
      refine ⟨order ++ [x.stepName], ⟨?_, ?_⟩, Or.inr ⟨rfl, ?_⟩⟩
      · change rows (b.applyAll (b.applyAll s ws) ws') = _
        rw [hb.applyAll, hrows', hws', ← Backend.applyAll_append, hwrites, List.append_assoc]
        rfl
      · change Progress run rs v _ _ ((l ++ ws ++ ws').flatMap written)
        rw [hwrites]
        exact hprog.skip hx hskip.1 hskip.2 ht hr d.now d'.now
      · rw [List.length_append, List.length_singleton]
        exact Nat.lt_succ_self _
    · refine ⟨order, h, Or.inl ⟨rfl, rfl, ?_⟩⟩
      rintro ⟨x', hx', hfresh, hblocked⟩
      obtain rfl := Option.some.inj (hs.symm.trans hx')
      exact hskip (by rw [hfresh, hblocked]; rfl)

/-- A pass leaves nothing to be skipped, or it skips something. -/
theorem skipPass_reached (hb : SkipStore b rows written) {names : List String}
    (hnames : names.Perm (rs'.rows.map (·.stepName)))
    (h : Reached rows written run rs v order rs' (s, l)) :
    (names.foldlM (skipStep run) (rs', false)).Wp b.recording (fun _ => False)
      (fun acc σ => ∃ order', Reached rows written run rs v order' acc.1 σ ∧
        ((acc.2 = false ∧ ∀ name, ¬ acc.1.Skippable name) ∨
          (acc.2 = true ∧ order.length < order'.length))) (s, l) := by
  refine (Wp.foldlM (I := fun rest acc σ => ∃ order', Reached rows written run rs v order' acc.1 σ ∧
    ((acc = (rs', false) ∧ order' = order ∧
      ∃ done, done ++ rest = names ∧ ∀ name ∈ done, ¬ rs'.Skippable name) ∨
      (acc.2 = true ∧ order.length < order'.length))) ?_ ⟨order, h, Or.inl ⟨rfl, rfl, [], rfl,
        fun name hname => absurd hname List.not_mem_nil⟩⟩).mono ?_
  · rintro acc name rest ⟨s, l⟩ - ⟨order', hreached, hcase⟩
    obtain ⟨rs'', changed⟩ := acc
    refine (skipStep_reached hb hreached).mono ?_
    rintro acc σ ⟨order'', hreached', hstep⟩
    refine ⟨order'', hreached', ?_⟩
    rcases hstep with ⟨rfl, rfl, hnot⟩ | ⟨hchanged, hlt⟩
    · rcases hcase with ⟨heq, rfl, done, hdone, hnone⟩ | hcase
      · obtain ⟨rfl, rfl⟩ := Prod.mk.inj heq
        refine Or.inl ⟨rfl, rfl, done ++ [name], by simpa using hdone, fun n hn => ?_⟩
        rcases List.mem_append.mp hn with hn | hn
        · exact hnone n hn
        · exact List.mem_singleton.mp hn ▸ hnot
      · exact Or.inr hcase
    · refine Or.inr ⟨hchanged, ?_⟩
      rcases hcase with ⟨-, rfl, -⟩ | ⟨-, hlt'⟩
      · exact hlt
      · exact hlt'.trans hlt
  · rintro acc σ ⟨order', hreached, hcase⟩
    refine ⟨order', hreached, hcase.imp_left ?_⟩
    rintro ⟨rfl, rfl, done, hdone, hnone⟩
    refine ⟨rfl, fun name hskip => ?_⟩
    obtain ⟨x, hx, -⟩ := id hskip
    refine hnone name ?_ hskip
    rw [← List.append_nil done, hdone, hnames.mem_iff]
    exact List.mem_map.mpr ⟨x, Table.mem_of_get? hx, Table.key_of_get? hx⟩

/-- As many passes as there are steps left, and one more, reach the end. -/
theorem skipPasses_reached (hb : SkipStore b rows written) {n : ℕ}
    (hn : rs.rows.length - order.length < n)
    (h : Reached rows written run rs v order rs' (s, l)) :
    (skipPasses run n rs').Wp b.recording (fun _ => False)
      (fun rs'' σ => ∃ order', Reached rows written run rs v order' rs'' σ ∧
        ∀ name, ¬ rs''.Skippable name) (s, l) := by
  induction n generalizing rs' order s l with
  | zero => omega
  | succ n ih =>
    refine Wp.bind (Wp.request (fun d _ => ⟨_, [], hb.range _ d s, ?_⟩))
    rw [Backend.applyAll_nil]
    refine Wp.bind ((skipPass_reached hb (d.shuffle_perm _) h).mono ?_)
    rintro ⟨rs'', changed⟩ ⟨s', l'⟩ ⟨order', hreached, hcase⟩
    dsimp only at hcase ⊢
    rcases hcase with ⟨rfl, hdone⟩ | ⟨rfl, hlt⟩
    · exact ⟨order', hreached, hdone⟩
    · have hle := hreached.2.length_le
      exact ih (by omega) hreached

/-- `propagateSkips` issues statements that draw no identifier. -/
theorem propagateSkips_calls (run : WorkflowRun) (rs : RunState) :
    (propagateSkips run rs).Calls (fun op => ∀ d v, op.admits d v = true) := by
  have hstep : ∀ acc name, (skipStep run acc name).Calls
      (fun op => ∀ d v, op.admits d v = true) := by
    intro acc name
    unfold skipStep
    split
    · trivial
    · split_ifs
      · refine ⟨fun _ _ => rfl, fun ok => ?_⟩
        cases ok with
        | false => trivial
        | true =>
          refine ⟨fun _ _ => rfl, fun e => ?_⟩
          cases e <;> trivial
      · trivial
  unfold propagateSkips
  generalize rs.rows.length + 1 = n
  induction n generalizing rs with
  | zero => trivial
  | succ n ih =>
    refine ⟨fun _ _ => rfl, fun names => ?_⟩
    change (names.foldlM (skipStep run) (rs, false) >>= _).Calls _
    refine Calls.bind (Calls.foldlM (fun acc name _ => hstep acc name) _) (fun acc => ?_)
    obtain ⟨rs', changed⟩ := acc
    cases changed with
    | false => trivial
    | true => exact ih rs'

/-- `propagateSkips` on a store. -/
theorem propagateSkips_reached (hb : SkipStore b rows written) (hin : InStep run rs (rows s))
    (ω : ℕ → Draw) : ∃ rs' ws, (propagateSkips run rs).run b ω s [] = (.ok rs', ws) ∧
      LeastSkips run rs (rows s) rs' (ws.flatMap written) := by
  have hwp := skipPasses_reached (n := rs.rows.length + 1) (s := s) (l := []) hb
    (by rw [List.length_nil]; omega) ⟨rfl, Progress.init hin⟩
  have hω : (propagateSkips run rs).Admissible b ω s [] :=
    ((propagateSkips_calls run rs).mono
      (fun op h d s => hb.admits op d s (h d _))).admissible ω s []
  have hend := Wp.writes (w := []) hwp hω
  revert hend
  unfold propagateSkips
  generalize (skipPasses run (rs.rows.length + 1) rs).run b ω s [] = res
  obtain ⟨e | rs', ws⟩ := res
  · exact fun hfalse => hfalse.elim
  · rintro ⟨order, hreached, hdone⟩
    exact ⟨rs', ws, rfl, hreached.2.least hdone⟩

end Store

/-- The Postgres store. -/
theorem skipStore_postgres : SkipStore backend (fun v : Db => v) (fun w => [w]) where
  apply _ _ := rfl
  range _ _ _ := rfl
  update {v id t} d ht := by
    refine ⟨[.step (t.transition .skipped none none false d.now)], ?_, rfl⟩
    simp [Query.exec, jsonb, ht]
    rfl
  append {v id r} type payload d hr := by
    refine ⟨⟨r.id, r.historySeq + 1, type, payload.getD (.obj []), d.now⟩,
      historyWrites r type payload d.now, ?_, List.flatMap_singleton' _⟩
    simp only [backend_exec, Query.exec, hr]
  admits _ _ _ h := h

/-- The assignments that a change of the memory store makes to rows. -/
def Memory.Change.written : Memory.Change → List Write
  | .row w => [w]
  | .nextOutboxID _ => []

/-- The memory store. -/
theorem skipStore_memory :
    SkipStore Memory.backend Memory.Store.rows Memory.Change.written where
  apply _ x := by cases x <;> rfl
  range _ _ _ := rfl
  update {s id t} d ht := by
    refine ⟨[.row (.step (t.transition .skipped none none false d.now))], ?_, rfl⟩
    have hupdate : Memory.updateStepStatus s.rows id [t.status] .skipped none none false d.now =
        (true, [.step (t.transition .skipped none none false d.now)]) := by
      simp [Memory.updateStepStatus, ht, Memory.assignStep, Step.transition, coalesce, stepTerminal]
    change Memory.assigns (Memory.updateStepStatus ..) = _
    rw [hupdate]
    rfl
  append {s id r} type payload d hr := by
    refine ⟨⟨id, r.historySeq + 1, type, payload.getD (.obj []), d.now⟩,
      (historyWrites r type payload d.now).map .row, ?_, rfl⟩
    change Memory.exec (Query.appendHistory id type payload) d s = _
    simp only [Memory.exec, hr]
    rfl
  admits _ _ _ h := h

/-- On both stores `propagateSkips` returns, for every dependency graph and every mixture of
statuses in a local view that agrees with the store. The copies that it leaves do not
depend on the iteration orders. It skips exactly the steps from which a step with a bad
status is reached through steps that have not been dispatched, changes no other step, and
appends one event for each step that it skips. -/
theorem propagateSkips_least (run : WorkflowRun) (rs : RunState) :
    ∃ rs', (∀ v, InStep run rs v → ∀ ω, ∃ ws,
        (propagateSkips run rs).run backend ω v [] = (.ok rs', ws) ∧
          LeastSkips run rs v rs' ws) ∧
      ∀ s : Memory.Store, InStep run rs s.rows → ∀ ω, ∃ changes,
        (propagateSkips run rs).run Memory.backend ω s [] = (.ok rs', changes) ∧
          LeastSkips run rs s.rows rs' (changes.flatMap Memory.Change.written) := by
  by_cases hany : ∃ v, InStep run rs v
  swap
  · exact ⟨rs, fun v hin => absurd ⟨v, hin⟩ hany, fun s hin => absurd ⟨s.rows, hin⟩ hany⟩
  obtain ⟨v₀, hin₀⟩ := hany
  obtain ⟨rs', ws₀, -, hleast₀⟩ := propagateSkips_reached skipStore_postgres hin₀ Draw.tick
  refine ⟨rs', fun v hin ω => ?_, fun s hin ω => ?_⟩
  · obtain ⟨rs'', ws, hrun, hleast⟩ := propagateSkips_reached skipStore_postgres hin ω
    rw [List.flatMap_singleton'] at hleast
    rw [hleast₀.unique hleast]
    exact ⟨ws, hrun, hleast⟩
  · obtain ⟨rs'', changes, hrun, hleast⟩ := propagateSkips_reached skipStore_memory hin ω
    rw [hleast₀.unique hleast]
    exact ⟨changes, hrun, hleast⟩

/-- A step of a run, with its name, its dependencies and its status. -/
def tangledStep (id : UUID) (name : String) (dependsOn : List String) (status : StepStatus) :
    Step :=
  { newStepRow id 7 ⟨name, "work", dependsOn, none, 1, 1000, 2, 60000, 30⟩ 0 with status }

/-- A failed step, a cycle that depends on it, and a step that depends on itself and on one
that does not exist. -/
def tangledSteps : List Step :=
  [tangledStep 1 "a" [] .failed, tangledStep 2 "b" ["a", "c"] .pending,
    tangledStep 3 "c" ["b"] .ready, tangledStep 4 "d" ["c"] .queued,
    tangledStep 5 "e" ["d", "e", "ghost"] .pending]

/-- The store with the run and its steps. -/
def tangledStore : Db :=
  backend.applyAll Db.empty
    (.run (newRun 7 0 "tangled" 1 0 .emptyObject 0) :: tangledSteps.map .step)

theorem propagateSkips_least_tangled :
    InStep (newRun 7 0 "tangled" 1 0 .emptyObject 0) (newRunState tangledSteps) tangledStore ∧
    ∃ rs' ws, (propagateSkips (newRun 7 0 "tangled" 1 0 .emptyObject 0)
        (newRunState tangledSteps)).run backend Draw.tick tangledStore [] = (.ok rs', ws) ∧
      LeastSkips (newRun 7 0 "tangled" 1 0 .emptyObject 0) (newRunState tangledSteps) tangledStore
        rs' ws ∧
      rs'.rows.map (fun s => (s.stepName, s.status)) = [("a", .failed), ("b", .skipped),
        ("c", .skipped), ("d", .queued), ("e", .pending)] := by
  have hin : InStep (newRun 7 0 "tangled" 1 0 .emptyObject 0) (newRunState tangledSteps)
      tangledStore := by
    have hnames : (tangledSteps.map (·.stepName)).Nodup := by decide
    have hrows : ∀ s ∈ tangledSteps, tangledStore.steps.get? s.id = some s := by
      simp only [tangledSteps, List.forall_mem_cons]
      exact ⟨rfl, rfl, rfl, rfl, rfl, fun s hs => absurd hs List.not_mem_nil⟩
    refine ⟨⟨_, rfl⟩, fun s hs => ⟨s, hrows s ((mem_newRunState hnames).mp hs), .refl s⟩⟩
  have hrows : ((propagateSkips (newRun 7 0 "tangled" 1 0 .emptyObject 0)
      (newRunState tangledSteps)).run backend Draw.tick tangledStore []).1.map
        (fun rs' => rs'.rows.map (fun s => (s.stepName, s.status))) =
      .ok [("a", .failed), ("b", .skipped), ("c", .skipped), ("d", .queued), ("e", .pending)] := by
    decide +kernel
  obtain ⟨rs', hpostgres, -⟩ := propagateSkips_least (newRun 7 0 "tangled" 1 0 .emptyObject 0)
    (newRunState tangledSteps)
  obtain ⟨ws, hrun, hleast⟩ := hpostgres tangledStore hin Draw.tick
  rw [hrun] at hrows
  exact ⟨hin, rs', ws, hrun, hleast, Except.ok.inj hrows⟩

end Orchestrator
