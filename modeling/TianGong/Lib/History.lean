/-
**Histories of a machine.**

A machine is a function `step : S → A → O × S`: what an action returns, and the state after it. Its
history is the list of what happened, with the states around each action.

* `later`: what an action establishes and every action keeps holds before every later action.
-/

import Mathlib.Data.List.Basic

namespace TianGong.Lib

variable {S A O : Type}

/-- What happened at one action. -/
structure Event (S A O : Type) where
  before : S
  action : A
  outcome : O
  after : S

/-- The history of a list of actions from a state. -/
def events (step : S → A → O × S) (s : S) : List A → List (Event S A O)
  | [] => []
  | a :: rest => ⟨s, a, (step s a).1, (step s a).2⟩ :: events step (step s a).2 rest

variable {step : S → A → O × S} {Inv K : S → Prop}

variable {actions : List A} {e : Event S A O}

/-- **An invariant holds around every action of a history.** -/
theorem mem_events (keeps : ∀ s a, Inv s → Inv (step s a).2) {s : S} (start : Inv s)
    (member : e ∈ events step s actions) :
    Inv e.before ∧ step e.before e.action = (e.outcome, e.after) := by
  induction actions generalizing s with
  | nil => cases member
  | cons a rest ih =>
    rcases List.mem_cons.mp member with rfl | later
    · exact ⟨start, rfl⟩
    · exact ih (keeps s a start) later

/-- What every action keeps holds before every action of a history that starts with it. -/
theorem keeps_to (keeps : ∀ s a, Inv s → Inv (step s a).2)
    (kept : ∀ s a, Inv s → K s → K (step s a).2) {s : S} (start : Inv s) (holds : K s)
    (member : e ∈ events step s actions) : K e.before := by
  have both := mem_events
    (fun s a (both : Inv s ∧ K s) => ⟨keeps s a both.1, kept s a both.1 both.2⟩) ⟨start, holds⟩ member
  exact both.1.2

/-- **What an action establishes and every action keeps holds before every later action.** -/
theorem later (keeps : ∀ s a, Inv s → Inv (step s a).2)
    (kept : ∀ s a, Inv s → K s → K (step s a).2) {s : S} (start : Inv s) {i j : Nat}
    (order : i < j) {e' : Event S A O} (first : (events step s actions)[i]? = some e)
    (second : (events step s actions)[j]? = some e') (holds : K e.after) : K e'.before := by
  induction actions generalizing s i j with
  | nil => cases first
  | cons a rest ih =>
    cases j with
    | zero => cases order
    | succ j =>
      cases i with
      | zero =>
        cases first
        exact keeps_to keeps kept (keeps s a start) holds (List.mem_of_getElem? second)
      | succ i => exact ih (keeps s a start) (Nat.lt_of_succ_lt_succ order) first second

end TianGong.Lib
