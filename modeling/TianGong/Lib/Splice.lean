/-
**Splicing lists, as `Array.prototype.splice` and `copyWithin` do.**

`splice start remove items xs` is the array after `xs.splice(start, remove, ...items)`: a start past
the end counts as the end, and a count past the end removes what there is.

* `copyWithin_tail`, `defineFrom_gap`: moving the tail of an array and writing items over the gap.
-/

import Mathlib.Algebra.GroupWithZero.Nat
import Mathlib.Data.List.Basic

namespace TianGong.Lib

open List

variable {V W : Type}

/-- `xs.splice(start, remove, ...items)`. -/
def splice (start remove : Nat) (items xs : List V) : List V :=
  xs.take start ++ items ++ xs.drop (start + remove)

theorem map_splice (f : V → W) (start remove : Nat) (items xs : List V) :
    (splice start remove items xs).map f = splice start remove (items.map f) (xs.map f) := by
  simp only [splice, map_append, map_take, map_drop]

/-- A splice keeps at most what there was and adds the items. -/
theorem sum_map_splice_le (weight : V → Nat) (start remove : Nat) (items xs : List V) :
    ((splice start remove items xs).map weight).sum ≤ (xs.map weight).sum + (items.map weight).sum := by
  have whole : (xs.map weight).sum =
      ((xs.take start).map weight).sum + ((xs.drop start).map weight).sum := by
    rw [← sum_append, ← map_append, take_append_drop]
  have tail : ((xs.drop start).map weight).sum =
      (((xs.drop start).take remove).map weight).sum +
        ((xs.drop (start + remove)).map weight).sum := by
    rw [← drop_drop, ← sum_append, ← map_append, take_append_drop]
  simp only [splice, map_append, sum_append]
  omega

/-! ### Inserting in chunks -/

/-- One insertion for each chunk of `size` items, at growing positions. `fuel` bounds the number of
chunks; the number of items is enough. -/
def insertChunks (size : Nat) : Nat → Nat → List V → List V → List V
  | 0, _, _, xs => xs
  | fuel + 1, index, items, xs =>
    if items.isEmpty then xs
    else insertChunks size fuel (index + size) (items.drop size)
      (splice index 0 (items.take size) xs)

theorem insertChunks_nil (size fuel index : Nat) (xs : List V) :
    insertChunks size fuel index [] xs = xs := by
  cases fuel <;> rfl

theorem insertChunks_append {size : Nat} (positive : 0 < size) {fuel index : Nat}
    {items front back : List V} (enough : items.length ≤ fuel)
    (position : front.length = index ∨ (front.length < index ∧ back = [])) :
    insertChunks size fuel index items (front ++ back) = front ++ items ++ back := by
  induction fuel generalizing index items front with
  | zero =>
    have empty : items = [] := List.length_eq_zero_iff.mp (Nat.le_zero.mp enough)
    subst empty
    simp [insertChunks]
  | succ fuel ih =>
    have spliced : splice index 0 (items.take size) (front ++ back) =
        front ++ items.take size ++ back := by
      rcases position with exact | ⟨past, rfl⟩
      · rw [splice, Nat.add_zero, ← exact, take_left, drop_left]
      · rw [splice, Nat.add_zero, append_nil, append_nil,
          take_of_length_le (Nat.le_of_lt past), drop_eq_nil_of_le (Nat.le_of_lt past),
          append_nil]
    rw [insertChunks, spliced]
    split
    · rename_i empty
      rw [List.isEmpty_iff.mp empty, append_nil]
    · rename_i full
      have some_item : 0 < items.length :=
        List.length_pos_iff.mpr (by simpa [List.isEmpty_iff] using full)
      by_cases whole : size ≤ items.length
      · rw [ih, append_assoc front, take_append_drop]
        · rw [length_drop]
          omega
        · rw [length_append, length_take, Nat.min_eq_left whole]
          rcases position with exact | ⟨past, none⟩
          · exact .inl (by omega)
          · exact .inr ⟨by omega, none⟩
      -- The last chunk is short, and nothing is left to insert after it.
      · rw [drop_eq_nil_of_le (Nat.le_of_not_le whole), insertChunks_nil,
          take_of_length_le (Nat.le_of_not_le whole)]

/-- **Removing, then inserting in chunks, is one splice.** -/
theorem insertChunks_eq {size : Nat} (positive : 0 < size) (index remove : Nat)
    (items xs : List V) :
    insertChunks size items.length index items (splice index remove [] xs) =
      splice index remove items xs := by
  rw [splice, append_nil, insertChunks_append positive (Nat.le_refl _), splice]
  rw [length_take]
  by_cases inside : index ≤ xs.length
  · exact .inl (Nat.min_eq_left inside)
  · refine .inr ⟨by omega, drop_eq_nil_of_le (by omega)⟩

/-! ### Moving the tail in place -/

/-- An array that may have holes. -/
abbrev Sparse (V : Type) := List (Option V)

/-- `xs.copyWithin(target, start, end)`: the length stays, what does not fit is dropped. -/
def copyWithin (target start stop : Nat) (xs : Sparse V) : Sparse V :=
  let moved := (xs.take stop).drop start
  let fits := moved.take (xs.length - target)
  xs.take target ++ fits ++ xs.drop (target + fits.length)

/-- `xs.length = length`: cut off the end, or add holes. -/
def setLength (length : Nat) (xs : Sparse V) : Sparse V :=
  xs.take length ++ List.replicate (length - xs.length) none

/-- Define an element, with holes up to it when it is past the end. -/
def defineAt (index : Nat) (x : V) (xs : Sparse V) : Sparse V :=
  if index < xs.length then xs.set index (some x)
  else xs ++ List.replicate (index - xs.length) none ++ [some x]

/-- Define consecutive elements. -/
def defineFrom (index : Nat) : List V → Sparse V → Sparse V
  | [], xs => xs
  | x :: items, xs => defineFrom (index + 1) items (defineAt index x xs)

/-- The array without holes, if it has none. -/
def dense : Sparse V → Option (List V)
  | [] => some []
  | none :: _ => none
  | some x :: xs => (dense xs).map (x :: ·)

theorem dense_map_some (xs : List V) : dense (xs.map some) = some xs := by
  induction xs with
  | nil => rfl
  | cons x xs ih => rw [map_cons, dense, ih, Option.map_some]

/-- Items defined over a gap of their own length fill it. -/
theorem defineFrom_gap {items : List V} {front gap back : Sparse V}
    (room : gap.length = items.length) :
    defineFrom front.length items (front ++ gap ++ back) = front ++ items.map some ++ back := by
  induction items generalizing front gap with
  | nil =>
    rw [List.length_eq_zero_iff.mp room]
    rfl
  | cons x items ih =>
    cases gap with
    | nil => cases room
    | cons old gap =>
      have wrote : defineAt front.length x (front ++ (old :: gap) ++ back) =
          (front ++ [some x]) ++ gap ++ back := by
        rw [defineAt, if_pos (by simp), append_assoc, set_append_right _ _ (Nat.le_refl _),
          Nat.sub_self]
        simp
      have next : defineFrom (front ++ [some x]).length items (front ++ [some x] ++ gap ++ back) =
          front ++ [some x] ++ items.map some ++ back := ih (by simpa using room)
      rw [length_append, length_singleton] at next
      rw [defineFrom, wrote, next]
      simp

/-- **Moving the tail to the end.** When nothing is left to the right of where the tail goes, the
tail is what stands there, and the elements before are kept. -/
theorem copyWithin_tail {target start stop : Nat} {xs tail : Sparse V}
    (moved : (xs.take stop).drop start = tail) (fits : target + tail.length ≤ xs.length) :
    copyWithin target start stop xs = xs.take target ++ tail ++ xs.drop (target + tail.length) := by
  have kept : tail.take (xs.length - target) = tail := take_of_length_le (by omega)
  simp only [copyWithin, moved, kept]

end TianGong.Lib
