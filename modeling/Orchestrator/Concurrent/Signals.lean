import Orchestrator.Concurrent.Punctual

/-!
# Signals and the steps they complete

`tryResolveSignalWait` marks a signal as processed and then completes the step
that waits for it, on the condition that the step still has the status that was
read. The outcome of this update is ignored. As long as it goes through, every
signal that a transaction marks completes a step in the same transaction. A
transaction whose copy of the step is out of date swallows the signal.
-/

namespace Orchestrator

open Lib Actions Program

/-- The signal that a write marks as processed. -/
def Write.marked : Write → Option Signal
  | .signal s => if s.processed then some s else none
  | _ => none

/-- The write completes a step. -/
def Write.completes : Write → Bool
  | .step t => t.status == .completed
  | _ => false

/-- The step waiting for a signal that a write completes. -/
def Write.completedWait : Write → Option Step
  | .step t => if t.status = .completed ∧ t.taskType = signalWaitTaskType then some t else none
  | _ => none

/-- The signals that writes mark as processed. -/
def markedSignals (w : List Write) : List Signal := w.filterMap Write.marked

/-- The steps waiting for a signal that writes complete. -/
def completedWaits (w : List Write) : List Step := w.filterMap Write.completedWait

/-- The step waited for the signal, and its output is the signal's payload. -/
def Signal.Answers (sig : Signal) (t : Step) : Prop :=
  sig.workflowRunID = t.workflowRunID ∧ sig.signalName = t.wantName ∧ t.output = some sig.payload

/-- Each signal that is marked completes a step of its own. -/
structure Matched (w : List Write) : Prop where
  pairs : List.Forall₂ Signal.Answers (markedSignals w) (completedWaits w)
  signals : ((markedSignals w).map (·.id)).Nodup
  steps : ((completedWaits w).map (·.id)).Nodup

/-- In the writes, the mark of a signal is followed by the completion of a step.
At the end such a completion may be due. -/
inductive Prompt : List Write → Bool → Prop
  | nil : Prompt [] false
  | due {x} : x.marked.isSome = true → Prompt [x] true
  | other {x w due} : x.marked = none → Prompt w due → Prompt (x :: w) due
  | pair {x y w due} : x.marked.isSome = true → y.completes = true → Prompt w due →
      Prompt (x :: y :: w) due

namespace Prompt

variable {x y : Write} {w u : List Write} {due : Bool}

/-- Writes that mark no signal leave nothing due. -/
theorem of_none (h : ∀ x ∈ w, x.marked = none) : Prompt w false := by
  induction w with
  | nil => exact .nil
  | cons x w ih =>
    exact .other (h x List.mem_cons_self) (ih (fun y hy => h y (List.mem_cons_of_mem x hy)))

/-- A log can be followed by another once nothing is due. -/
theorem append (h : Prompt w false) (hu : Prompt u due) : Prompt (w ++ u) due := by
  generalize hlate : false = late at h
  induction h with
  | nil => exact hu
  | due => cases hlate
  | other hx _ ih => exact .other hx (ih hlate)
  | pair hx hy _ ih => exact .pair hx hy (ih hlate)

/-- The completion that is due. -/
theorem close (h : Prompt w true) (hy : y.completes = true) : Prompt (w ++ [y]) false := by
  generalize hlate : true = late at h
  induction h with
  | nil => cases hlate
  | due hx => exact .pair hx hy .nil
  | other hx _ ih => exact .other hx (ih hlate)
  | pair hx hy' _ ih => exact .pair hx hy' (ih hlate)

/-- Writes that do not begin with a completion begin where none is due. -/
theorem split (h : Prompt (w ++ y :: u) due) (hy : y.completes = false) :
    Prompt w false ∧ Prompt (y :: u) due := by
  generalize hl : w ++ y :: u = l at h
  induction h generalizing w with
  | nil => simp at hl
  | due hx =>
    cases w with
    | nil =>
      rw [List.nil_append] at hl
      exact ⟨.nil, hl ▸ .due hx⟩
    | cons z w => simp at hl
  | other hx hrest ih =>
    cases w with
    | nil =>
      rw [List.nil_append] at hl
      exact ⟨.nil, hl ▸ .other hx hrest⟩
    | cons z w =>
      obtain ⟨rfl, htail⟩ := List.cons.inj hl
      exact (ih htail).imp (.other hx) id
  | pair hx hy' hrest ih =>
    rcases w with - | ⟨z, - | ⟨z', w⟩⟩
    · rw [List.nil_append] at hl
      exact ⟨.nil, hl ▸ .pair hx hy' hrest⟩
    · simp only [List.cons_append, List.nil_append, List.cons.injEq] at hl
      rw [← hl.2.1, hy] at hy'
      cases hy'
    · simp only [List.cons_append, List.cons.injEq] at hl
      obtain ⟨rfl, rfl, htail⟩ := hl
      exact (ih htail).imp (.pair hx hy') id

end Prompt

/-- The signals that are marked by one log and then another. -/
@[simp] theorem markedSignals_append (w u : List Write) :
    markedSignals (w ++ u) = markedSignals w ++ markedSignals u := List.filterMap_append

/-- The waiting steps that are completed by one log and then another. -/
@[simp] theorem completedWaits_append (w u : List Write) :
    completedWaits (w ++ u) = completedWaits w ++ completedWaits u := List.filterMap_append

/-- A signal that is marked is processed. -/
theorem processed_of_marked {w : List Write} {sig : Signal} (h : sig ∈ markedSignals w) :
    sig.processed = true := by
  obtain ⟨x, -, hx⟩ := List.mem_filterMap.mp h
  cases x with
  | signal s =>
    simp only [Write.marked, Option.ite_none_right_eq_some, Option.some.injEq] at hx
    exact hx.2 ▸ hx.1
  | _ => cases hx

/-- A waiting step that is completed is over. -/
theorem terminal_of_completed {w : List Write} {t : Step} (h : t ∈ completedWaits w) :
    stepTerminal t.status = true := by
  obtain ⟨x, -, hx⟩ := List.mem_filterMap.mp h
  cases x with
  | step s =>
    simp only [Write.completedWait, Option.ite_none_right_eq_some, Option.some.injEq] at hx
    rw [← hx.2, hx.1.1]
    rfl
  | _ => cases hx

/-- The update that completes a waiting step is counted. -/
theorem completedWaits_step {t : Step} (hst : t.status = .completed)
    (htype : t.taskType = signalWaitTaskType) (w : List Write) :
    completedWaits (.step t :: w) = t :: completedWaits w := by
  simp [completedWaits, Write.completedWait, hst, htype]

/-- A statement writes a mark only if it is answered that it has. -/
theorem Query.prompt {β : Type} {op : Query β} {d : Draw} {v : Db} {a : β} {ws : List Write}
    (h : op.exec d v = .ok (a, ws)) : Prompt ws (op.marks a) := by
  cases op with
  | markSignalProcessed id =>
    simp only [Query.exec] at h
    split at h
    · cases h
      exact .nil
    · split_ifs at h
      · cases h
        exact .nil
      · cases h
        exact .due rfl
  | reapExpiredAttempts limit =>
    cases h
    refine .of_none (fun x hx => ?_)
    obtain ⟨a, -, rfl⟩ := List.mem_map.mp hx
    rfl
  | appendHistory runID e payload =>
    simp only [Query.exec] at h
    split at h
    · cases h
      exact .nil
    · cases h
      exact .other rfl (.other rfl .nil)
  | _ =>
    simp only [Query.exec, Bind.bind, Except.bind] at h
    repeat' split at h
    all_goals
      first
      | cases h; exact .nil
      | cases h; exact .other rfl .nil
      | cases h

/-- The update by which a signal completes a step meets the step in the status that
was read. -/
def Query.hits : {β : Type} → Query β → Db → Bool
  | _, .updateStepStatus id [st] .completed (some _) none false, v =>
    (v.steps.get? id).any (fun t => t.status == st)
  | _, _, _ => true

/-- Such an update completes the step. -/
theorem Query.completes_of_hits {β : Type} {op : Query β} {d : Draw} {v : Db} {a : β}
    {ws : List Write} (hop : op.answers = true) (hits : op.hits v = true)
    (h : op.exec d v = .ok (a, ws)) :
    (∃ y : Write, ws = [y] ∧ y.completes = true) ∧ op.marks a = false := by
  unfold Query.answers at hop
  split at hop
  · rename_i id st payload
    refine ⟨?_, rfl⟩
    cases ht : v.steps.get? id with
    | none => simp [Query.hits, ht] at hits
    | some t =>
      have hst : t.status = st := by simpa [Query.hits, ht] using hits
      simp only [Query.exec, ht, hst, List.mem_singleton, if_true, Bind.bind, Except.bind] at h
      split at h
      · cases h
      · cases h
        exact ⟨_, rfl, rfl⟩
  · cases hop

/-- An action does not begin with the completion of a step. -/
theorem Act.head {l : Label} {v : Db} {u : List Write} (hact : Act l v u) :
    ∃ x u', u = x :: u' ∧ x.completes = false := by
  cases hact with
  | succeed hclose =>
    cases hclose
    exact ⟨_, _, rfl, rfl⟩
  | retry hclose => cases hclose <;> exact ⟨_, _, rfl, rfl⟩
  | giveUp hclose => cases hclose <;> exact ⟨_, _, rfl, rfl⟩
  | late hclose => cases hclose <;> exact ⟨_, _, rfl, rfl⟩
  | _ => exact ⟨_, _, rfl, rfl⟩

/-- The writes mark no signal, and complete no step that waits for one. -/
def Plain (u : List Write) : Prop := ∀ x ∈ u, x.marked = none ∧ x.completedWait = none

/-- One more plain write. -/
theorem Plain.cons {x : Write} {u : List Write} (hx : x.marked = none ∧ x.completedWait = none)
    (h : Plain u) : Plain (x :: u) :=
  List.forall_mem_cons.mpr ⟨hx, h⟩

/-- Plain writes one after the other. -/
theorem Plain.append {w u : List Write} (hw : Plain w) (hu : Plain u) : Plain (w ++ u) :=
  List.forall_mem_append.mpr ⟨hw, hu⟩

/-- No write is plain. -/
theorem Plain.nil : Plain [] := List.forall_mem_nil _

/-- A single plain write. -/
theorem Plain.one {x : Write} (hx : x.marked = none ∧ x.completedWait = none) : Plain [x] :=
  .cons hx .nil

/-- An event neither marks a signal nor completes a step. -/
theorem Plain.event {r : WorkflowRun} {e : EventType} {payload : Option Json} {now : Time} :
    Plain (historyWrites r e payload now) :=
  .cons ⟨rfl, rfl⟩ (.one ⟨rfl, rfl⟩)

/-- A step that is written with another status, or is of another type. -/
theorem Plain.step {t : Step} {u : List Write}
    (ht : t.status = .completed → t.taskType ≠ signalWaitTaskType) (h : Plain u) :
    Plain (.step t :: u) :=
  .cons ⟨rfl, if_neg (fun hboth => ht hboth.1 hboth.2)⟩ h

/-- Closing an attempt does neither as well. -/
theorem Plain.closes {v : Db} {a : TaskAttempt} {success : Bool} {result : Option RawMessage}
    {ws : List Write} (h : Closes v a success result ws) : Plain ws := by
  cases h <;> exact .one ⟨rfl, rfl⟩

/-- Plain writes mark no signal. -/
theorem Plain.marked {u : List Write} (h : Plain u) : markedSignals u = [] :=
  List.filterMap_eq_nil_iff.mpr (fun x hx => (h x hx).1)

/-- Plain writes complete no waiting step. -/
theorem Plain.completed {u : List Write} (h : Plain u) : completedWaits u = [] :=
  List.filterMap_eq_nil_iff.mpr (fun x hx => (h x hx).2)

/-- A signal that completes a step: the rows before, and what is written. -/
structure Hears (v : Db) (u : List Write) (sig : Signal) (t : Step) : Prop where
  signal : ∃ sig₀, v.signals.get? sig.id = some sig₀ ∧ sig₀.processed = false
  step : ∃ t₀, v.steps.get? t.id = some t₀ ∧ stepTerminal t₀.status = false
  answers : sig.Answers t
  marked : markedSignals u = [sig]
  completed : completedWaits u = [t]
  signalAfter : (backend.applyAll v u).signals.get? sig.id = some sig
  stepAfter : (backend.applyAll v u).steps.get? t.id = some t

/-- An action that marks a signal and is not left half done completes a step. -/
theorem Act.hears {l : Label} {v : Db} {u : List Write} (hb : Base v) (hact : Act l v u)
    (hprompt : Prompt u false) : Plain u ∨ ∃ sig t, Hears v u sig t := by
  cases hact with
  | @resolve _ t sig r now now' hsig hproc hrun hname ht hst htype hdeps hr =>
    refine Or.inr ⟨{ sig with processed := true },
      t.transition .completed (some sig.payload) none false now, ⟨sig, hsig, hproc⟩, ⟨t, ht, ?_⟩,
      ⟨hrun, hname, rfl⟩, rfl, completedWaits_step (t := t.transition ..) rfl htype _,
      Table.get?_put_self _ _, Table.get?_put_self _ _⟩
    rcases hst with hst | hst <;> rw [hst] <;> rfl
  | burn =>
    cases hprompt with
    | other hx _ => cases hx
  | @succeed _ a t r result ws number now now' hclose ht hst _ hr =>
    refine Or.inl (.append (.closes hclose) (.step (fun _ htype => ?_) .event))
    have hrow := hb.ledger.row t (Table.mem_of_get? ht)
    have hzero := hrow.signal htype
    have hcount := hrow.count
    rcases hst with hst | hst <;> simp only [Step.CountOK, hst] at hcount <;> omega
  | create hd hr hsteps hnew hnodup =>
    refine Or.inl (.cons ⟨rfl, rfl⟩ (.append (fun x hx => ?_) .event))
    obtain ⟨t, ht, rfl⟩ := List.mem_map.mp hx
    obtain ⟨ns, -, stepID, now, rfl⟩ := forall₂_right hsteps t ht
    exact ⟨rfl, rfl⟩
  | skip => exact Or.inl (.step (fun h => by cases h) .event)
  | park => exact Or.inl (.step (fun h => by cases h) .nil)
  | dispatch =>
    exact Or.inl (.cons ⟨rfl, rfl⟩ (.cons ⟨rfl, rfl⟩ (.step (fun h => by cases h) .event)))
  | retry hclose =>
    exact Or.inl (.append (.closes hclose) (.cons ⟨rfl, rfl⟩ (.step (fun h => by cases h) .event)))
  | giveUp hclose => exact Or.inl (.append (.closes hclose) (.step (fun h => by cases h) .event))
  | late hclose _ _ htms =>
    refine Or.inl (.append (.closes hclose) ?_)
    rcases htms with rfl | ⟨tm, rfl, -⟩
    · exact .nil
    · exact .one ⟨rfl, rfl⟩
  | signal =>
    cases hprompt with
    | other hx _ => exact Or.inl (.one ⟨hx, rfl⟩)
  | start => exact Or.inl (.cons ⟨rfl, rfl⟩ .event)
  | finish => exact Or.inl (.cons ⟨rfl, rfl⟩ .event)
  | cancelEvent => exact Or.inl .event
  | log => exact Or.inl .event
  | cancelStep => exact Or.inl (.step (fun h => by cases h) .nil)
  | running => exact Or.inl (.step (fun h => by cases h) .nil)
  | _ => exact Or.inl (.one ⟨rfl, rfl⟩)

/-- Plain writes leave every mark matched. -/
theorem Matched.plain {w u : List Write} (h : Matched w) (hu : Plain u) : Matched (w ++ u) := by
  have hmarked : markedSignals (w ++ u) = markedSignals w := by
    rw [markedSignals_append, hu.marked, List.append_nil]
  have hcompleted : completedWaits (w ++ u) = completedWaits w := by
    rw [completedWaits_append, hu.completed, List.append_nil]
  constructor
  · rw [hmarked, hcompleted]
    exact h.pairs
  · rw [hmarked]
    exact h.signals
  · rw [hcompleted]
    exact h.steps

/-- One more signal is marked, and one more step completed. -/
theorem Matched.hears {v : Db} {w u : List Write} {sig : Signal} {t : Step} (h : Matched w)
    (hears : Hears v u sig t) (hsig : ∀ sig' ∈ markedSignals w, sig'.id ≠ sig.id)
    (ht : ∀ t' ∈ completedWaits w, t'.id ≠ t.id) : Matched (w ++ u) := by
  constructor
  · rw [markedSignals_append, completedWaits_append, hears.marked, hears.completed]
    exact List.rel_append h.pairs (.cons hears.answers .nil)
  · rw [markedSignals_append, hears.marked, List.map_append, List.nodup_append]
    refine ⟨h.signals, List.nodup_singleton _, fun a ha b hb => ?_⟩
    obtain ⟨sig', hsig', rfl⟩ := List.mem_map.mp ha
    rw [List.map_singleton, List.mem_singleton] at hb
    exact hb ▸ hsig sig' hsig'
  · rw [completedWaits_append, hears.completed, List.map_append, List.nodup_append]
    refine ⟨h.steps, List.nodup_singleton _, fun a ha b hb => ?_⟩
    obtain ⟨t', ht', rfl⟩ := List.mem_map.mp ha
    rw [List.map_singleton, List.mem_singleton] at hb
    exact hb ▸ ht t' ht'

/-- Where no completion is left due, the writes of a transaction are matched, and
what they are about is final. -/
theorem matched_of_steps {C : Label → Prop} {s : Db} {w : List Write} (hb : Base s)
    (h : engine.Steps C s w) (hprompt : Prompt w false) :
    Matched w ∧
    (∀ sig ∈ markedSignals w, ∃ r, (backend.applyAll s w).signals.get? sig.id = some r ∧
      r.processed = true) ∧
    (∀ t ∈ completedWaits w, ∃ r, (backend.applyAll s w).steps.get? t.id = some r ∧
      stepTerminal r.status = true) := by
  induction h with
  | nil =>
    exact ⟨⟨.nil, List.nodup_nil, List.nodup_nil⟩, fun _ h => absurd h List.not_mem_nil,
      fun _ h => absurd h List.not_mem_nil⟩
  | @snoc w u l hw _ hact ih =>
    obtain ⟨x, u', rfl, hx⟩ := Act.head hact
    obtain ⟨hprompt, hprompt'⟩ := hprompt.split hx
    obtain ⟨hmatched, hsignals, hsteps⟩ := ih hprompt
    have hev := Act.evolves hact
    have hsignals' : ∀ sig ∈ markedSignals w, ∃ r, (backend.applyAll (backend.applyAll s w)
        (x :: u')).signals.get? sig.id = some r ∧ r.processed = true := by
      intro sig hsig
      obtain ⟨r, hr, hproc⟩ := hsignals sig hsig
      obtain ⟨r', hr', hrev⟩ := hev.signal hr
      exact ⟨r', hr', hrev.done hproc⟩
    have hsteps' : ∀ t ∈ completedWaits w, ∃ r, (backend.applyAll (backend.applyAll s w)
        (x :: u')).steps.get? t.id = some r ∧ stepTerminal r.status = true := by
      intro t ht
      obtain ⟨r, hr, hend⟩ := hsteps t ht
      obtain ⟨r', hr', hrev⟩ := hev.step hr
      exact ⟨r', hr', by rw [hrev.done hend]; exact hend⟩
    rw [Backend.applyAll_append]
    rcases Act.hears (Steps.inv hw hb) hact hprompt' with hplain | ⟨sig, t, hears⟩
    · refine ⟨hmatched.plain hplain, ?_, ?_⟩
      · rwa [markedSignals_append, hplain.marked, List.append_nil]
      · rwa [completedWaits_append, hplain.completed, List.append_nil]
    · refine ⟨hmatched.hears hears (fun sig' hsig' heq => ?_) (fun t' ht' heq => ?_), ?_, ?_⟩
      · obtain ⟨r, hr, hproc⟩ := hsignals sig' hsig'
        obtain ⟨sig₀, hsig₀, hnot⟩ := hears.signal
        rw [heq, hsig₀] at hr
        rw [Option.some.inj hr, hproc] at hnot
        cases hnot
      · obtain ⟨r, hr, hend⟩ := hsteps t' ht'
        obtain ⟨t₀, ht₀, hnot⟩ := hears.step
        rw [heq, ht₀] at hr
        rw [Option.some.inj hr, hend] at hnot
        cases hnot
      · rw [markedSignals_append, hears.marked]
        refine List.forall_mem_append.mpr ⟨hsignals', List.forall_mem_singleton.mpr ?_⟩
        exact ⟨sig, hears.signalAfter,
          processed_of_marked (hears.marked ▸ List.mem_singleton_self _)⟩
      · rw [completedWaits_append, hears.completed]
        refine List.forall_mem_append.mpr ⟨hsteps', List.forall_mem_singleton.mpr ?_⟩
        exact ⟨t, hears.stepAfter,
          terminal_of_completed (hears.completed ▸ List.mem_singleton_self _)⟩

/-- Calls of any kind, where the update by which a signal completes a step meets
the step in the status that was read. -/
def hearing : Service Query Error Db Write Call where
  begin := Call.session
  allows := fun _ _ op v => op.hits v = true
  decAllows := fun _ _ _ _ => inferInstance

/-- A session is in step with what it has written. -/
theorem hearing_prompt {W : World Query Error Db Write Call}
    (h : World.Reachable backend hearing Db.empty W) :
    ∀ i σ, W.session? i = some σ → σ.auto = true ∨
      ∃ due, Punctual σ.prog due ∧ Prompt σ.writes due := by
  refine h.sessions (fun c v σ hσ => ?_) ?_
  · refine (Bool.eq_false_or_eq_true σ.auto).imp id (fun hauto => ?_)
    refine ⟨false, Call.session_punctual hσ hauto, .of_none (fun x hx => ?_)⟩
    cases c with
    | handleExpiredAttempt attemptID =>
      simp only [hearing, Call.session] at hσ
      split at hσ
      · cases hσ
      · split_ifs at hσ
        obtain rfl := Option.some.inj hσ
        rw [List.mem_singleton.mp hx]
        rfl
    | _ =>
      obtain rfl := Option.some.inj hσ
      exact absurd hx List.not_mem_nil
  · rintro β c auto op next w d v a ws (hauto | ⟨due, hprog, hw⟩) hallows hexec
    · exact Or.inl hauto
    · cases auto with
      | true => exact Or.inl rfl
      | false =>
        refine Or.inr ⟨op.marks a, hprog.2 a, ?_⟩
        cases due with
        | false => exact hw.append (Query.prompt hexec)
        | true =>
          obtain ⟨⟨y, rfl, hy⟩, hmarks⟩ := Query.completes_of_hits (hprog.1 rfl) hallows hexec
          rw [hmarks]
          exact hw.close hy

/-- Every transaction that commits completes a step with each signal that it marks
as processed. -/
theorem hearing_never_swallows {W : World Query Error Db Write Call}
    (h : World.Reachable backend hearing Db.empty W) {i : ℕ} {w : List Write}
    (hcommit : (W.session? i).bind Session.returned = some w) : Matched w := by
  obtain ⟨⟨c, auto, prog, writes⟩, hσ, hret⟩ := Option.bind_eq_some_iff.mp hcommit
  cases prog with
  | ret u =>
    obtain rfl := Option.some.inj hret
    have hok := h.ok (session_obligations rfl) Base.empty
    cases auto with
    | false =>
      obtain ⟨P, -, hP, hsafe⟩ := hok.running i _ hσ rfl
      have hsteps : engine.Steps (·.kind ≠ .publish) W.db writes := hsafe _ _ hok.inv hP
      obtain hauto | ⟨due, hprog, hw⟩ := hearing_prompt h i _ hσ
      · cases hauto
      · obtain rfl : due = false := hprog
        exact (matched_of_steps hok.inv hsteps hw).1
    | true =>
      obtain rfl : writes = [] := (hok.autos i _ hσ rfl).1
      exact ⟨.nil, List.nodup_nil, List.nodup_nil⟩
  | fail e => cases hret
  | call op next => cases hret

/-- A step that waits for a signal of its own name, and another step. -/
def waitDefinition : Definition :=
  ⟨"wait", 0, [⟨"s", signalWaitTaskType, [], none, 0, 0, 0, 0, 0⟩,
    ⟨"b", "work", [], none, 0, 0, 0, 0, 0⟩]⟩

/-- A run is created, in which the first step waits. -/
def waitSchedule : List (Action Call Draw) :=
  [.start (.registerDefinition waitDefinition)] ++ Call.turns 0 100 1 ++ [.commit 0] ++
  [.start (.createRun "wait" 0 none)] ++ Call.turns 1 200 17 ++ [.commit 1]

/-- The signal arrives and is about to be committed. -/
def heardWorld : World Query Error Db Write Call :=
  (World.run backend hearing (waitSchedule ++ [.start (.applySignal 201 "s" none)] ++
    Call.turns 2 300 11) (.init Db.empty)).get (by decide +kernel)

/-- The transaction has marked one signal, and completes one step. -/
theorem hearing_never_swallows_heard :
    ∃ w, (heardWorld.session? 2).bind Session.returned = some w ∧
      (markedSignals w).map (·.signalName) = ["s"] ∧ Matched w := by
  have hsome : ((heardWorld.session? 2).bind Session.returned).isSome = true := by decide +kernel
  have hmarked : ∀ w ∈ (heardWorld.session? 2).bind Session.returned,
      (markedSignals w).map (·.signalName) = ["s"] := by decide +kernel
  obtain ⟨w, hw⟩ := Option.isSome_iff_exists.mp hsome
  have hreach : World.Reachable backend hearing Db.empty heardWorld :=
    .run .init (Option.some_get _).symm
  exact ⟨w, hw, hmarked w hw, hearing_never_swallows hreach hw⟩

/-- `Reconcile` reads the steps. The signal arrives and completes the step, and a
second one arrives that nobody waits for. Then `Reconcile` goes on. -/
def swallowedWorld : World Query Error Db Write Call :=
  (World.run backend nodes (waitSchedule ++ [.start (.reconcile 201)] ++ Call.turns 2 300 2 ++
    [.start (.applySignal 201 "s" none)] ++ Call.turns 3 310 11 ++ [.commit 3] ++
    [.start (.applySignal 201 "s" none)] ++ Call.turns 4 340 7 ++ [.commit 4] ++
    Call.turns 2 360 6) (.init Db.empty)).get (by decide +kernel)

/-- `Reconcile` is about to commit. It has marked the second signal and completes
no step. -/
theorem hearing_swallowed :
    World.Reachable backend nodes Db.empty swallowedWorld ∧
    swallowedWorld.db.signals.rows.map (fun s => (s.signalName, s.processed)) =
      [("s", true), ("s", false)] ∧
    ((swallowedWorld.session? 2).bind Session.returned).map
      (fun w => ((markedSignals w).map (·.signalName), (completedWaits w).length)) =
      some (["s"], 0) := by
  refine ⟨.run .init (Option.some_get _).symm, ?_, ?_⟩
  all_goals decide +kernel

end Orchestrator
