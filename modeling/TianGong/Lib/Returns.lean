/-
**What a program that may throw returns.**

A program of type `Except ε α` is taken apart by what it returned.

* `bind_eq_ok`, `map_eq_ok`: each step before the last returned.
* `foldlM_keeps`: the invariant rule of a loop that may throw.
-/

import Mathlib.Logic.Basic

namespace TianGong.Returns

variable {ε α β σ : Type}

variable {b : β}

theorem bind_eq_ok {r : Except ε α} {f : α → Except ε β} :
    (r >>= f) = .ok b ↔ ∃ a, r = .ok a ∧ f a = .ok b := by
  cases r with
  | ok a =>
    constructor
    · exact fun is => ⟨a, rfl, is⟩
    · rintro ⟨_, same, is⟩
      cases same
      exact is
  | error e =>
    constructor
    · intro is
      cases is
    · rintro ⟨_, same, -⟩
      cases same

theorem map_eq_ok {r : Except ε α} {f : α → β} : r.map f = .ok b ↔ ∃ a, r = .ok a ∧ f a = b := by
  cases r with
  | ok a =>
    constructor
    · intro is
      cases is
      exact ⟨a, rfl, rfl⟩
    · rintro ⟨_, same, rfl⟩
      cases same
      rfl
  | error e =>
    constructor
    · intro is
      cases is
    · rintro ⟨_, same, -⟩
      cases same

theorem of_mapError {ε' : Type} {f : ε → ε'} {r : Except ε β} (is : r.mapError f = .ok b) :
    r = .ok b := by
  cases r with
  | ok a =>
    cases is
    rfl
  | error e => cases is

/-- A check that throws. -/
theorem ite_error_eq_ok {c : Prop} [Decidable c] {e : ε} {r : Except ε β} :
    (if c then .error e else r) = .ok b ↔ ¬ c ∧ r = .ok b := by
  split
  · rename_i holds
    refine ⟨fun is => ?_, fun both => absurd holds both.1⟩
    cases is
  · rename_i fails
    exact ⟨fun is => ⟨fails, is⟩, fun both => both.2⟩

/-- A check without which it throws. -/
theorem ite_ok_eq_ok {c : Prop} [Decidable c] {e : ε} {r : Except ε β} :
    (if c then r else .error e) = .ok b ↔ c ∧ r = .ok b := by
  split
  · rename_i holds
    exact ⟨fun is => ⟨holds, is⟩, fun both => both.2⟩
  · rename_i fails
    refine ⟨fun is => ?_, fun both => absurd both.1 fails⟩
    cases is

/-- **What every step keeps, the loop keeps.** -/
theorem foldlM_keeps {f : σ → α → Except ε σ} {P : σ → Prop}
    (step : ∀ s a t, P s → f s a = .ok t → P t) {items : List α} {s t : σ} (start : P s)
    (ran : items.foldlM f s = .ok t) : P t := by
  induction items generalizing s with
  | nil =>
    cases ran
    exact start
  | cons a rest ih =>
    rw [List.foldlM_cons, bind_eq_ok] at ran
    obtain ⟨next, stepped, goesOn⟩ := ran
    exact ih (step s a next start stepped) goesOn

/-- A step that is taken where its guard holds. -/
theorem of_guard {c : Prop} [Decidable c] {a b : α} (taken : (if c then some a else none) = some b) :
    c ∧ a = b := by
  obtain ⟨holds, same⟩ := Option.ite_none_right_eq_some.mp taken
  exact ⟨holds, Option.some.inj same⟩

/-- A step that is refused where a condition holds. -/
theorem of_refusal {c : Prop} [Decidable c] {a b : α} (taken : (if c then none else some a) = some b) :
    ¬ c ∧ a = b := by
  obtain ⟨fails, same⟩ := Option.ite_none_left_eq_some.mp taken
  exact ⟨fails, Option.some.inj same⟩

end TianGong.Returns
