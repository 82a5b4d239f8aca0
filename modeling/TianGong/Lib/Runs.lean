/-
**The states of a run.**

A machine takes steps, and may refuse one: a run goes as far as its steps are taken.

* `states`: the states that a run reaches, the first one included.
* `Meets`: every step of a run meets a condition; the rules for steps that do.
-/

import Mathlib.Data.List.Chain

namespace TianGong.Runs

variable {σ ε : Type} {step : σ → ε → Option σ}

section Statement

variable (step)

/-- The states of a run, as far as it goes. -/
def states (s : σ) : List ε → List σ
  | [] => [s]
  | event :: rest =>
    match step s event with
    | none => [s]
    | some next => s :: states next rest

/-- Every step of a run meets a condition. -/
def meets (good : σ → ε → Bool) (s : σ) : List ε → Bool
  | [] => true
  | event :: rest => good s event && (step s event).all fun next => meets good next rest

end Statement

/-- A run starts in its first state. -/
theorem states_cons (s : σ) (events : List ε) : ∃ rest, states step s events = s :: rest := by
  cases events with
  | nil => exact ⟨[], rfl⟩
  | cons event rest =>
    unfold states
    split
    · exact ⟨[], rfl⟩
    · exact ⟨_, rfl⟩

/-- **What every step that meets the condition does**, every two states of a run show. -/
theorem isChain_of_meets {good : σ → ε → Bool} {P : σ → Prop} {R : σ → σ → Prop}
    (keeps : ∀ s event next, P s → good s event = true → step s event = some next →
      P next ∧ R s next) {s : σ} (start : P s) {events : List ε}
    (good_ : meets step good s events = true) :
    (∀ state ∈ states step s events, P state) ∧ (states step s events).IsChain R := by
  induction events generalizing s with
  | nil => exact ⟨List.forall_mem_singleton.mpr start, List.isChain_singleton s⟩
  | cons event rest ih =>
    obtain ⟨here, later⟩ := Bool.and_eq_true_iff.mp good_
    unfold states
    split
    · exact ⟨List.forall_mem_singleton.mpr start, List.isChain_singleton s⟩
    · rename_i next stepped
      rw [stepped] at later
      obtain ⟨kept, shown⟩ := keeps s event next start here stepped
      obtain ⟨all, chain⟩ := ih kept later
      obtain ⟨tail, is⟩ := @states_cons _ _ step next rest
      rw [is] at all chain ⊢
      exact ⟨List.forall_mem_cons.mpr ⟨start, all⟩, List.isChain_cons_cons.mpr ⟨shown, chain⟩⟩

theorem meets_true (s : σ) (events : List ε) : meets step (fun _ _ => true) s events = true := by
  induction events generalizing s with
  | nil => rfl
  | cons event rest ih =>
    unfold meets
    cases step s event with
    | none => rfl
    | some next => exact ih next

/-- **What every step does**, every two states of a run show. -/
theorem isChain_states {R : σ → σ → Prop}
    (does : ∀ s event next, step s event = some next → R s next) (s : σ) (events : List ε) :
    (states step s events).IsChain R :=
  (@isChain_of_meets _ _ step (fun _ _ => true) (fun _ => True) R
    (fun s event next _ _ stepped => ⟨trivial, does s event next stepped⟩) s trivial events
    (meets_true s events)).2

/-- **What every step keeps** holds in every state of a run. -/
theorem forall_states {P : σ → Prop} {s : σ} (start : P s)
    (keeps : ∀ s event next, P s → step s event = some next → P next) (events : List ε) :
    ∀ state ∈ states step s events, P state :=
  (@isChain_of_meets _ _ step (fun _ _ => true) P (fun _ _ => True)
    (fun s event next holds _ stepped => ⟨keeps s event next holds stepped, trivial⟩) s start events
    (meets_true s events)).1

end TianGong.Runs
