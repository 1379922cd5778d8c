import Mathlib.Data.Set.Basic
import Mathlib.Logic.Relation

/-!
# Transactional outboxes

Messages are committed together with what they are about, and sent afterwards. A
message is marked as settled in a transaction of its own, and a message that was sent
cannot be called back. Seen from outside, the outbox is the messages committed, those
of them settled, and everything ever sent. The order of the three is what matters:
nothing is sent before it is committed, and nothing is settled before it is sent.
-/

namespace Lib

variable {M : Type}

/-- What can be seen of an outbox. -/
structure Outbox (M : Type) where
  /-- The messages that have been committed. -/
  committed : Set M
  /-- The messages that nobody will send any more. -/
  settled : Set M
  /-- Everything ever sent, in order. -/
  sent : List M

namespace Outbox

/-- What may happen to an outbox. -/
inductive Step (o : Outbox M) : Outbox M → Prop
  /-- A transaction commits. It takes no message back, and settles only what was sent. -/
  | commit {committed settled : Set M} : o.committed ⊆ committed →
      (∀ m ∈ settled, m ∈ o.settled ∨ m ∈ o.sent) → Step o ⟨committed, settled, o.sent⟩
  /-- A committed message is sent, for the first time or again. -/
  | send {m : M} : m ∈ o.committed → Step o { o with sent := o.sent ++ [m] }

/-- Only committed messages are visible, and no message is lost. -/
structure Sound (o : Outbox M) : Prop where
  visible : ∀ m ∈ o.sent, m ∈ o.committed
  delivered : ∀ m ∈ o.settled, m ∈ o.sent

variable {o o' : Outbox M}

theorem Sound.step (h : o.Sound) (hstep : o.Step o') : o'.Sound := by
  cases hstep with
  | commit hcommitted hsettled =>
    refine ⟨fun m hm => hcommitted (h.visible m hm), fun m hm => ?_⟩
    rcases hsettled m hm with hold | hsent
    · exact h.delivered m hold
    · exact hsent
  | send hm =>
    refine ⟨fun m' hm' => ?_, fun m' hm' => List.mem_append_left _ (h.delivered m' hm')⟩
    rcases List.mem_append.mp hm' with hold | hnew
    · exact h.visible m' hold
    · rw [List.mem_singleton.mp hnew]
      exact hm

/-- What was sent stays sent. -/
theorem Step.sent_subset (hstep : o.Step o') : o.sent ⊆ o'.sent := by
  cases hstep with
  | commit => exact List.Subset.refl _
  | send => exact List.subset_append_left _ _

/-- A machine whose moves are steps of an outbox, or no steps at all, is sound in every
state that it reaches. -/
theorem Sound.of_simulation {T : Type*} {view : T → Outbox M} {move : T → T → Prop}
    {I : T → Prop} (hmove : ∀ s s', I s → move s s' →
      I s' ∧ Relation.ReflGen Step (view s) (view s')) {s s' : T} (hs : I s)
    (hsound : (view s).Sound) (hrun : Relation.ReflTransGen move s s') :
    I s' ∧ (view s').Sound ∧ (view s).sent ⊆ (view s').sent := by
  induction hrun with
  | refl => exact ⟨hs, hsound, List.Subset.refl _⟩
  | @tail s₁ s₂ _ hlast ih =>
    obtain ⟨hI, hsound₁, hsub⟩ := ih
    obtain ⟨hI', hstep⟩ := hmove s₁ s₂ hI hlast
    rcases (Relation.reflGen_iff ..).mp hstep with hsame | hstep
    · rw [hsame]
      exact ⟨hI', hsound₁, hsub⟩
    · exact ⟨hI', hsound₁.step hstep, List.Subset.trans hsub hstep.sent_subset⟩

end Outbox

end Lib
