import Mathlib.Order.Defs.PartialOrder
import Orchestrator.Lib.Program

/-!
# Programs that stay within a scope

A scope says which calls may be made with a given knowledge, and what is known after
an answer. Knowledge only grows. A relation between two states that the calls of a
scope keep is one that a program of the scope cannot tell apart: with the same
choices it gives the same answer and makes the same writes in both.
-/

namespace Lib

variable {Op : Type → Type} {ε S Wr Lk D κ α β γ : Type} [Preorder κ]

/-- Which calls may be made, and what their answers add to what is known. -/
structure Scope (Op : Type → Type) (κ : Type) [Preorder κ] where
  allows : {β : Type} → κ → Op β → Prop
  learns : {β : Type} → κ → Op β → β → κ → Prop
  grows : ∀ {β : Type} {k k' : κ} {op : Op β} {a : β}, learns k op a k' → k ≤ k'

namespace Program

/-- The program stays within the scope, and ends with an answer and a knowledge that
satisfy `Q`. -/
def Within (σ : Scope Op κ) : Program Op ε α → (κ → α → Prop) → κ → Prop
  | .ret a, Q, k => Q k a
  | .fail _, _, _ => True
  | .call op next, Q, k =>
    σ.allows k op ∧ ∀ a k', σ.learns k op a k' → (next a).Within σ Q k'

variable {σ : Scope Op κ} {p : Program Op ε α} {Q Q' : κ → α → Prop} {k : κ}

theorem Within.bind {f : α → Program Op ε β} {Q' : κ → β → Prop} (h : p.Within σ Q k)
    (hf : ∀ k' a, k ≤ k' → Q k' a → (f a).Within σ Q' k') : (p >>= f).Within σ Q' k := by
  induction p generalizing k with
  | ret a => exact hf k a le_rfl h
  | fail e => trivial
  | call op next ih =>
    exact ⟨h.1, fun a k' hk' => ih a (h.2 a k' hk')
      (fun k'' a' hle => hf k'' a' (le_trans (σ.grows hk') hle))⟩

theorem Within.request {op : Op β} {Q : κ → β → Prop} (h : σ.allows k op)
    (hQ : ∀ a k', σ.learns k op a k' → Q k' a) :
    (Program.request op : Program Op ε β).Within σ Q k :=
  ⟨h, hQ⟩

theorem Within.discard {Q' : κ → Unit → Prop} (h : p.Within σ Q k)
    (hQ : ∀ k' a, k ≤ k' → Q k' a → Q' k' ()) : p.discard.Within σ Q' k :=
  h.bind hQ

/-- An invariant of the rounds of a loop. -/
theorem Within.foldlM {f : β → γ → Program Op ε β} {I : κ → β → Prop} {l : List γ} {b : β}
    (hb : I k b)
    (hf : ∀ k' b c, k ≤ k' → c ∈ l → I k' b → (f b c).Within σ I k') :
    (l.foldlM f b).Within σ I k := by
  induction l generalizing k b with
  | nil => exact hb
  | cons c l ih =>
    rw [List.foldlM_cons]
    refine (hf k b c le_rfl List.mem_cons_self hb).bind (fun k' b' hle hb' => ?_)
    exact ih hb' (fun k'' b'' c' hle' hc' =>
      hf k'' b'' c' (le_trans hle hle') (List.mem_cons_of_mem c hc'))

end Program

/-- The calls of the scope have the same effect in states that are related, and lead
to states that are related. -/
def Scope.Tracks (σ : Scope Op κ) (b : Backend Op ε S Wr Lk D) (R : κ → S → S → Prop) : Prop :=
  ∀ {β : Type} {k : κ} {op : Op β} {d : D} {s s' : S}, σ.allows k op → R k s s' →
    b.admits op d s → b.admits op d s' → b.exec op d s' = b.exec op d s ∧
      OnOk (b.exec op d s) (fun r => ∃ k', σ.learns k op r.1 k' ∧
        R k' (b.applyAll s r.2) (b.applyAll s' r.2))

/-- A program of the scope does the same in states that are related. -/
theorem Program.Within.run_eq {σ : Scope Op κ} {b : Backend Op ε S Wr Lk D}
    {R : κ → S → S → Prop} (hR : σ.Tracks b R) {p : Program Op ε α} {Q : κ → α → Prop} {k : κ}
    {ω : ℕ → D} {s s' : S} {w w' : List Wr} (h : p.Within σ Q k)
    (hk : R k (b.applyAll s w) (b.applyAll s' w')) (hadm : p.Admissible b ω s w)
    (hadm' : p.Admissible b ω s' w') :
    ∃ answer u k', p.run b ω s w = (answer, w ++ u) ∧ p.run b ω s' w' = (answer, w' ++ u) ∧
      R k' (b.applyAll s (w ++ u)) (b.applyAll s' (w' ++ u)) := by
  induction p generalizing k ω w w' with
  | ret a => exact ⟨.ok a, [], k, by simp [run], by simp [run], by simpa using hk⟩
  | fail e => exact ⟨.error e, [], k, by simp [run], by simp [run], by simpa using hk⟩
  | call op next ih =>
    obtain ⟨hop, hadm⟩ := hadm
    obtain ⟨hop', hadm'⟩ := hadm'
    obtain ⟨hexec, hnext⟩ := hR h.1 hk hop hop'
    rw [hexec] at hadm'
    cases hr : b.exec op (ω 0) (b.applyAll s w) with
    | error e =>
      rw [hr] at hexec
      exact ⟨.error e, [], k, by simp [run, hr], by simp [run, hexec], by simpa using hk⟩
    | ok r =>
      rw [hr] at hexec hnext hadm hadm'
      obtain ⟨k', hlearns, hk'⟩ := hnext
      rw [← b.applyAll_append, ← b.applyAll_append] at hk'
      obtain ⟨answer, u, k'', hrun, hrun', hend⟩ := ih r.1 (h.2 r.1 k' hlearns) hk' hadm hadm'
      refine ⟨answer, r.2 ++ u, k'', ?_, ?_, ?_⟩
      · simp only [run, hr, hrun, List.append_assoc]
      · simp only [run, hexec, hrun', List.append_assoc]
      · simpa only [List.append_assoc] using hend

end Lib
