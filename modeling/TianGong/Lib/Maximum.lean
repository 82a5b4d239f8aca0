/-
**The first greatest element.**

A loop that goes through a list and keeps what is better than the best so far, where better means
a greater key.

* `firstMax_split`: the end is the start, or stands after smaller elements and before none greater.
-/

import Mathlib.Data.List.Basic
import Mathlib.Data.List.Induction
import Mathlib.Order.Lattice

namespace TianGong.Maximum

variable {A K : Type} [LinearOrder K] (key : A → K)

/-- The first element of greatest key, of a start and those after it. -/
def firstMax (start : A) (items : List A) : A :=
  items.foldl (fun best x => if key best < key x then x else best) start

variable {key} {start : A} {items : List A}

/-- A comparison that agrees with the keys gives the same. -/
theorem foldl_eq_firstMax {better : A → A → Bool}
    (agrees : ∀ x ∈ items, ∀ best, better x best = true ↔ key best < key x) :
    items.foldl (fun best x => if better x best then x else best) start =
      firstMax key start items := by
  unfold firstMax
  induction items generalizing start with
  | nil => rfl
  | cons x rest ih =>
    rw [List.foldl_cons, List.foldl_cons,
      ih fun y member => agrees y (List.mem_cons_of_mem x member)]
    simp only [agrees x List.mem_cons_self]

theorem firstMax_concat (x : A) :
    firstMax key start (items ++ [x]) =
      if key (firstMax key start items) < key x then x else firstMax key start items :=
  List.foldl_concat ..

/-- **No element is greater.** -/
theorem le_firstMax {x : A} (member : x ∈ items) : key x ≤ key (firstMax key start items) := by
  induction items using List.reverseRecOn with
  | nil => cases member
  | append_singleton items y ih =>
    rw [firstMax_concat]
    rcases List.mem_append.mp member with earlier | last
    · split_ifs with less
      · exact (ih earlier).trans less.le
      · exact ih earlier
    · rw [List.mem_singleton.mp last]
      split_ifs with less
      · exact le_rfl
      · exact not_lt.mp less

/-- **It is the start, or it comes after smaller elements.** -/
theorem firstMax_split :
    firstMax key start items = start ∨
      ∃ before after, items = before ++ firstMax key start items :: after ∧
        ∀ x ∈ before, key x < key (firstMax key start items) := by
  induction items using List.reverseRecOn with
  | nil => exact .inl rfl
  | append_singleton items y ih =>
    rw [firstMax_concat]
    split_ifs with less
    · exact .inr ⟨items, [], rfl, fun x member => (le_firstMax member).trans_lt less⟩
    · rcases ih with same | ⟨before, after, split, smaller⟩
      · exact .inl same
      · refine .inr ⟨before, after ++ [y], ?_, smaller⟩
        conv_lhs => rw [split]
        rw [List.append_assoc, List.cons_append]

theorem firstMax_mem (other : firstMax key start items ≠ start) :
    firstMax key start items ∈ items := by
  obtain ⟨before, after, split, -⟩ := firstMax_split.resolve_left other
  exact (congrArg (firstMax key start items ∈ ·) split).mpr
    (List.mem_append_right _ List.mem_cons_self)

end TianGong.Maximum
