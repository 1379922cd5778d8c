import Orchestrator.Transactions.Timer

/-!
# Requests about a run or a definition

`Reconcile` and `ApplySignal` on a run, and `RegisterDefinition`. `Reconcile`
reads the steps without having locked the run's row, so it reconciles the run
only if nobody interferes.
-/

namespace Orchestrator

open Lib Actions

section

variable {A : Label → Prop} {Err : Error → Prop} {runID : UUID} {Q : Db → Prop} {q : Prop}

/-- A run that is read, and is known to go on if it did then. -/
theorem getWorkflowRun_spec {C : Label → Prop} {H : List Lock} (hQ : Quiet A H runID Q)
    (herr : Err .notFound) :
    engine.Triple A C Err H (fun _ ws => ws = []) (getWorkflowRun runID) H
      (fun run v ws => run.id = runID ∧ ws = [] ∧
        RowThere run v ∧ (runTerminal run.status = false → RowKnown Q run v)) := by
  refine lookup_rule (fun _ v => v.runs.get? runID) (fun _ _ => rfl) (fun run => ?_) ?_
  · by_cases hid : run.id = runID
    · refine (Robust.pure (fun _ => _ = _)).and ((Robust.pure (· = [])).and
        (RowThere.robust.and (Robust.forall (fun _ => RowKnown.robust (hid ▸ hQ)))))
    · exact fun _ _ _ _ _ _ _ _ _ h => absurd h.1 hid
  · rintro v ws - - rfl
    cases hr : v.runs.get? runID with
    | none => exact Or.inl ⟨hr, herr⟩
    | some r =>
      obtain rfl : r.id = runID := Table.key_of_get? hr
      exact Or.inr ⟨r, hr, rfl, rfl, ⟨r, hr, rfl⟩, fun hlive => ⟨r, hr, rfl, fun _ => hlive⟩⟩

/-- The steps are read and reconciled. -/
theorem evaluate_spec {C : Label → Prop} {run : WorkflowRun} (hR : Regime A Err run.id Q q)
    (hQ : Quiet A [] run.id Q) (hC : ∀ l, C l → Idles run.id l) :
    Serves A Err (engine.Holds C [] (fun v ws => ws = [] ∧
        (runTerminal run.status = false → RowKnown Q run v)))
      (do let steps ← (Query.getSteps run.id).issue; reconcileTx run steps)
      (fun _ => Concluded Q run.id) := by
  by_cases hend : runTerminal run.status = true
  · exact Safe.post (Safe.pre (reload_ended hend) (fun s w hs h => h.mono hs
      (fun l hl => hC l hl) (List.Subset.refl _) (fun _ _ _ hF => hF.1)))
      (fun _ s w _ h => .idle h)
  · have hlive : runTerminal run.status = false := by simpa using hend
    exact Safe.post (Safe.pre (reload_spec hR hQ (fun _ => hlive)) (fun s w hs h => h.mono hs
      (fun l hl => (hC l hl).1) (List.Subset.refl _) (fun _ _ _ hF => ⟨hF.1, hF.2 hlive⟩)))
      (fun _ s w _ h => .settled h)

/-- `Reconcile`. -/
theorem reconcile_spec (hR : Regime A Err runID Q q) (hQ : Quiet A [] runID Q)
    (herr : Err .notFound) :
    Serves A Err (Beginning (fun _ ws => ws = [])) (reconcile runID)
      (fun _ => Concluded Q runID) := by
  refine Safe.bind (getWorkflowRun_spec hQ herr) (fun run => Holds.assume (fun hid => ?_))
  subst hid
  exact (evaluate_spec hR hQ (fun _ hl => hl.elim)).pre (fun s w hs h => h.mono hs
    (fun _ hl => hl) (List.Subset.refl _) (fun _ _ _ hF => ⟨hF.1, hF.2.2⟩))

/-- The insertion of a signal. -/
theorem insertSignal_spec (herr : ∀ e, Err e) (name : String) (payload : Option RawMessage) :
    engine.Triple A (Idles runID) Err [] (fun _ ws => ws = [])
      (Query.insertSignal runID name payload).issue [] (fun _ _ ws => ws = []) := by
  refine statement_rule (fun _ => Robust.pure (· = [])) ?_
  rintro v ws d - rfl hadm
  cases hr : v.runs.get? runID with
  | none => exact Or.inl ⟨_, by simp [Query.exec, hr]; rfl, herr _⟩
  | some r =>
    cases hjson : jsonb payload with
    | error e => exact Or.inl ⟨e, by simp [Query.exec, hr, hjson]; rfl, herr _⟩
    | ok o =>
      obtain ⟨rfl, hvalid⟩ := jsonb_eq_ok hjson
      let sig : Signal :=
        { id := d.uuid, workflowRunID := runID, signalName := name,
          payload := o.getD .emptyObject, processed := false, receivedAt := d.now }
      have hnew : v.signals.get? sig.id = none := by simpa [Query.admits, sig] using hadm
      have hdoc : sig.payload.IsValid := by
        cases o with
        | none => trivial
        | some x => exact hvalid x rfl
      have hact : Act ⟨runID, .signal⟩ v [.signal sig] := .signal hnew hdoc hr
      exact Or.inr ⟨sig, [.signal sig], by simp [Query.exec, hr, hjson]; rfl,
        .act ⟨⟨rfl, rfl⟩, rfl⟩ hact rfl⟩

/-- The part of `ApplySignal` for a signal that is not a request to cancel. -/
theorem applySignal_spec (hR : Regime A Err runID Q q) (hQ : Quiet A [] runID Q)
    (herr : ∀ e, Err e) (name : String) (payload : Option RawMessage)
    (hname : name ≠ "__cancel__") :
    Serves A Err (Beginning (fun _ ws => ws = [])) (applySignal runID name payload)
      (fun _ => Concluded Q runID) := by
  unfold applySignal
  rw [if_neg hname]
  refine Safe.bind (Safe.pre (insertSignal_spec herr name payload) (fun s w hs h => h.mono hs
    (fun _ hl => hl.elim) (List.Subset.refl _) (fun _ _ _ hF => hF))) (fun _ => ?_)
  refine Safe.bind (getWorkflowRun_spec hQ (herr _)) (fun run => Holds.assume (fun hid => ?_))
  subst hid
  have hlog : engine.Triple A (Idles run.id) Err [] (fun v ws => ws = [] ∧
      RowThere run v ∧ (runTerminal run.status = false → RowKnown Q run v))
      (appendHistory run.id .signalReceived (some (.obj [("name", .str name)]))) []
      (fun _ v ws => ws = [] ∧ (runTerminal run.status = false → RowKnown Q run v)) := by
    refine appendHistory_rule ((Robust.pure (· = [])).and
      (Robust.forall (fun _ => RowKnown.robust hQ))) ?_
    rintro v ws now hb ⟨rfl, ⟨r, hr, hshard⟩, hrow⟩
    have hid : r.id = run.id := Table.key_of_get? hr
    have hact : Act ⟨r.id, .log⟩ v (historyWrites r .signalReceived
        (some (.obj [("name", .str name)])) now) := .log (Table.get?_key hr)
    refine ⟨r, hr, .act ⟨⟨hid, rfl⟩, rfl⟩ hact ⟨rfl, fun hlive => ?_⟩⟩
    obtain ⟨r', hr', -, hgoes⟩ := hrow hlive
    obtain rfl := Option.some.inj (hr.symm.trans hr')
    have hget := get?_event v r .signalReceived (some (.obj [("name", .str name)])) now
    rw [hid] at hget
    exact ⟨_, hget, hshard, fun hq => hgoes (hQ.back (Act.evolves hact) hq)⟩
  exact Safe.bind hlog (fun _ => evaluate_spec hR hQ (fun _ hl => hl))

end

/-- `RegisterDefinition`. -/
theorem registerDefinition_spec {A : Label → Prop} {Err : Error → Prop} (herr : ∀ e, Err e)
    (Q : UUID → Db → Prop) (d : Definition) :
    Serves A Err (Beginning (fun _ ws => ws = [])) (registerDefinition d)
      (fun _ s w => ∃ runID, Concluded (Q runID) runID s w) := by
  unfold registerDefinition
  cases hvalid : d.validate with
  | error e => exact Safe.fail (fun _ _ _ _ => herr _)
  | ok d' =>
    dsimp only
    cases hjson : d'.toJSON with
    | none => exact Safe.fail (fun _ _ _ _ => herr _)
    | some dag =>
      have hwf := Definition.validate_wellFormed hvalid hjson
      have hinsert : Serves A Err (Beginning (fun _ ws => ws = []))
          (Query.createWorkflowDefinition d'.name d'.version dag).issue
          (fun row => engine.Holds (Idles row.id) [] (fun _ ws => ws = [])) := by
        refine Safe.of_under (Holds.call (φ := fun _ _ => True) (fun _ => Robust.pure (· = []))
          (fun _ _ hl => hl.elim) ?_) (fun _ _ => trivial)
        rintro v ws d - rfl hadm -
        simp only [backend_exec, Query.exec, Backend.applyAll_nil]
        split_ifs with hany
        · exact herr _
        · refine .act ⟨⟨rfl, rfl⟩, rfl⟩ (.define hwf ?_ (noDefinition_of_any hany)) rfl
          simpa [Query.admits] using hadm
      exact hinsert.post (fun row s w _ h => ⟨row.id, .idle h⟩)

end Orchestrator
