/-
**Binary search in an ascending list of numbers.**

`lowerBound values value` is the first position whose value is at least the given one.
`lowerBound_spec` says it; `ascending_setAt` is what it is for: writing the value there keeps the
list ascending.
-/

import Mathlib.Data.List.Basic

namespace TianGong.Lib

/-- Each value is smaller than the ones after it. -/
def Ascending (values : List Nat) : Prop :=
  ∀ (i j v w : Nat), values[i]? = some v → values[j]? = some w → i < j → v < w

/-- Narrow the bounds. `fuel` bounds the number of halvings; the distance of the bounds is enough. -/
def lowerBoundLoop (values : List Nat) (value : Nat) : Nat → Nat → Nat → Nat
  | 0, low, _ => low
  | fuel + 1, low, high =>
    if low < high then
      let middle := (low + high) / 2
      if values.getD middle 0 < value then lowerBoundLoop values value fuel (middle + 1) high
      else lowerBoundLoop values value fuel low middle
    else low

/-- The first position whose value is at least `value`. -/
def lowerBound (values : List Nat) (value : Nat) : Nat :=
  lowerBoundLoop values value values.length 0 values.length

variable {values : List Nat}

/-- What the search keeps: below the bounds every value is smaller, above them none is. -/
theorem lowerBoundLoop_spec (ascending : Ascending values) {value fuel low high : Nat}
    (enough : high - low ≤ fuel) (order : low ≤ high) (inside : high ≤ values.length)
    (below : ∀ i v, i < low → values[i]? = some v → v < value)
    (above : ∀ i v, high ≤ i → values[i]? = some v → value ≤ v) :
    lowerBoundLoop values value fuel low high ≤ values.length ∧
      (∀ i v, i < lowerBoundLoop values value fuel low high → values[i]? = some v → v < value) ∧
      ∀ i v, lowerBoundLoop values value fuel low high ≤ i → values[i]? = some v → value ≤ v := by
  induction fuel generalizing low high with
  | zero =>
    have same : low = high := by omega
    subst same
    exact ⟨inside, below, above⟩
  | succ fuel ih =>
    unfold lowerBoundLoop
    split
    · rename_i narrower
      have within : (low + high) / 2 < values.length := by omega
      have here : values[(low + high) / 2]? = some (values.getD ((low + high) / 2) 0) := by
        rw [List.getD_eq_getElem?_getD, List.getElem?_eq_getElem within, Option.getD_some]
      dsimp only
      split
      · rename_i smaller
        refine ih (by omega) (by omega) inside (fun i v less found => ?_) above
        rcases Nat.lt_or_eq_of_le (Nat.le_of_lt_succ less) with before | rfl
        · exact Nat.lt_trans (ascending i _ v _ found here before) smaller
        · rw [here] at found
          cases found
          exact smaller
      · rename_i larger
        refine ih (by omega) (by omega) (by omega) below fun i v more found => ?_
        rcases Nat.lt_or_eq_of_le more with after | rfl
        · exact Nat.le_of_lt (Nat.lt_of_le_of_lt (Nat.le_of_not_lt larger)
            (ascending _ i _ v here found after))
        · rw [here] at found
          cases found
          exact Nat.le_of_not_lt larger
    · have same : low = high := by omega
      subst same
      exact ⟨inside, below, above⟩

theorem lowerBound_spec (ascending : Ascending values) (value : Nat) :
    lowerBound values value ≤ values.length ∧
      (∀ i v, i < lowerBound values value → values[i]? = some v → v < value) ∧
      ∀ i v, lowerBound values value ≤ i → values[i]? = some v → value ≤ v := by
  refine lowerBoundLoop_spec ascending (by omega) (Nat.zero_le _) (Nat.le_refl _)
    (fun i v less _ => absurd less (Nat.not_lt_zero i)) fun i v past found => ?_
  rw [List.getElem?_eq_none past] at found
  cases found

/-! ### Writing at a position -/

/-- Write at a position of the list, or one past its end. -/
def setAt {V : Type} (i : Nat) (v : V) (values : List V) : List V :=
  if i < values.length then values.set i v else values ++ [v]

theorem length_setAt {V W : Type} {i : Nat} {v : V} {w : W} {vs : List V} {ws : List W}
    (same : vs.length = ws.length) : (setAt i v vs).length = (setAt i w ws).length := by
  unfold setAt
  rw [same]
  split <;> simp [same]

theorem getElem?_setAt {V : Type} {i : Nat} {v : V} {values : List V} (inside : i ≤ values.length)
    (k : Nat) : (setAt i v values)[k]? = if k = i then some v else values[k]? := by
  unfold setAt
  split
  · rename_i less
    rw [List.getElem?_set]
    split_ifs with same other other
    · rfl
    · exact absurd same.symm other
    · exact absurd other.symm same
    · rfl
  · rename_i last
    have exact : i = values.length := by omega
    subst exact
    split_ifs with same
    · subst same
      simp
    · by_cases within : k < values.length
      · rw [List.getElem?_append_left within]
      · have beyond : values.length < k := by omega
        rw [List.getElem?_eq_none (by simp; omega), List.getElem?_eq_none (by omega)]

/-- **Writing a value at its lower bound keeps the list ascending.** -/
theorem ascending_setAt (ascending : Ascending values) (value : Nat) :
    Ascending (setAt (lowerBound values value) value values) := by
  obtain ⟨inside, below, above⟩ := lowerBound_spec ascending value
  intro i j v w foundV foundW less
  rw [getElem?_setAt inside] at foundV foundW
  split_ifs at foundV foundW with atI atJ atJ
  · omega
  · cases foundV
    -- The value that was there is no smaller, and those after it are larger still.
    have there : lowerBound values value < values.length := by
      have bound := (List.getElem?_eq_some_iff.mp foundW).1
      omega
    have old := List.getElem?_eq_getElem there
    exact Nat.lt_of_le_of_lt (above _ _ (Nat.le_refl _) old)
      (ascending _ j _ w old foundW (by omega))
  · cases foundW
    exact below i v (by omega) foundV
  · exact ascending i j v w foundV foundW less

theorem Ascending.nil : Ascending [] := fun i j v w found => (by cases found)

theorem Ascending.concat (ascending : Ascending values) {last : Nat}
    (larger : ∀ v ∈ values, v < last) : Ascending (values ++ [last]) := by
  intro i j v w foundV foundW less
  have bound := (List.getElem?_eq_some_iff.mp foundW).1
  rw [List.length_append, List.length_singleton] at bound
  rw [List.getElem?_append_left (by omega)] at foundV
  by_cases inside : j < values.length
  · rw [List.getElem?_append_left inside] at foundW
    exact ascending i j v w foundV foundW less
  · have end_ : j = values.length := by omega
    subst end_
    rw [List.getElem?_append_right (Nat.le_refl _), Nat.sub_self] at foundW
    cases foundW
    exact larger v (List.mem_of_getElem? foundV)

theorem Ascending.pairwise (ascending : Ascending values) : values.Pairwise (· < ·) := by
  rw [List.pairwise_iff_getElem]
  exact fun i j insideI insideJ less => ascending i j _ _ (List.getElem?_eq_getElem insideI)
    (List.getElem?_eq_getElem insideJ) less

end TianGong.Lib
