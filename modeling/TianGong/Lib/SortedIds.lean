/-
**Indexes of ascending ids.**

An index is a list of ids in ascending order. It is searched by halving, and kept in order by the
operations that write it.

* `take_lowerBound`, `drop_lowerBound`: the two sides of a lower bound are filters; `take_upperBound` says it
  of an upper bound.
* `insertSorted_eq`, `removeSorted_eq`: what inserting and removing an id makes of an index.
-/

import Mathlib.Data.List.Sort
import TianGong.Lib.LowerBound

namespace TianGong.Lib

open List

/-- The first position whose id is above `target`: on integers, not above it is below `target + 1`. -/
def upperBound (ids : List Nat) (target : Nat) : Nat := lowerBound ids (target + 1)

/-- Put an id at its place. -/
def insertSorted (ids : List Nat) (id : Nat) : List Nat :=
  if ids.getLast?.all fun last => decide (last < id) then ids ++ [id]
  else ids.take (lowerBound ids id) ++ id :: ids.drop (lowerBound ids id)

/-- Take an id out, if it is there. -/
def removeSorted (ids : List Nat) (id : Nat) : List Nat :=
  if ids[lowerBound ids id]? = some id then ids.eraseIdx (lowerBound ids id) else ids

theorem Ascending.of_pairwise {ids : List Nat} (sorted : ids.Pairwise (· < ·)) : Ascending ids := by
  intro i j v w foundV foundW less
  obtain ⟨insideI, rfl⟩ := List.getElem?_eq_some_iff.mp foundV
  obtain ⟨insideJ, rfl⟩ := List.getElem?_eq_some_iff.mp foundW
  exact List.pairwise_iff_getElem.mp sorted i j insideI insideJ less

/-! ### The sides of a bound -/

variable {ids : List Nat}

/-- A position with the chosen items before it and none of them behind splits a list by the choice. -/
theorem split_at_position {α : Type} {items : List α} {p : α → Bool} {k : Nat}
    (before : ∀ x ∈ items.take k, p x = true) (behind : ∀ x ∈ items.drop k, p x = false) :
    items.take k = items.filter p ∧ items.drop k = items.filter fun x => !p x := by
  have first : (items.take k).filter p = items.take k := List.filter_eq_self.mpr before
  have second : (items.drop k).filter p = [] := by
    refine List.filter_eq_nil_iff.mpr fun x member => ?_
    rw [behind x member]
    exact Bool.false_ne_true
  have first' : (items.take k).filter (fun x => !p x) = [] := by
    refine List.filter_eq_nil_iff.mpr fun x member => ?_
    simp [before x member]
  have second' : (items.drop k).filter (fun x => !p x) = items.drop k := by
    refine List.filter_eq_self.mpr fun x member => ?_
    simp [behind x member]
  constructor
  · conv_rhs => rw [← take_append_drop k items]
    rw [filter_append, first, second, append_nil]
  · conv_rhs => rw [← take_append_drop k items]
    rw [filter_append, first', second', nil_append]

theorem lowerBound_split (sorted : ids.Pairwise (· < ·)) (target : Nat) :
    ids.take (lowerBound ids target) = ids.filter (fun id => decide (id < target)) ∧
      ids.drop (lowerBound ids target) = ids.filter fun id => !decide (id < target) := by
  obtain ⟨_, below, above⟩ := lowerBound_spec (Ascending.of_pairwise sorted) target
  refine split_at_position (fun id member => ?_) fun id member => ?_
  · obtain ⟨i, inside, found⟩ := List.mem_take_iff_getElem.mp member
    have early : i < lowerBound ids target := by omega
    exact decide_eq_true (below i id early (List.getElem?_eq_some_iff.mpr ⟨_, found⟩))
  · obtain ⟨i, inside, found⟩ := List.mem_drop_iff_getElem.mp member
    have late := above (lowerBound ids target + i) id (Nat.le_add_right _ _)
      (List.getElem?_eq_some_iff.mpr ⟨_, found⟩)
    exact decide_eq_false (Nat.not_lt.mpr late)

/-- **Below a lower bound lie the smaller ids.** -/
theorem take_lowerBound (sorted : ids.Pairwise (· < ·)) (target : Nat) :
    ids.take (lowerBound ids target) = ids.filter fun id => decide (id < target) :=
  (lowerBound_split sorted target).1

theorem drop_lowerBound (sorted : ids.Pairwise (· < ·)) (target : Nat) :
    ids.drop (lowerBound ids target) = ids.filter fun id => decide (target ≤ id) := by
  rw [(lowerBound_split sorted target).2]
  refine filter_congr fun id _ => ?_
  rw [← decide_not, decide_eq_decide]
  exact Nat.not_lt

theorem take_upperBound (sorted : ids.Pairwise (· < ·)) (target : Nat) :
    ids.take (upperBound ids target) = ids.filter fun id => decide (id ≤ target) := by
  rw [upperBound, take_lowerBound sorted]
  refine filter_congr fun id _ => ?_
  rw [decide_eq_decide]
  exact Nat.lt_succ_iff

/-! ### Writing an index -/

theorem insertSorted_perm (ids : List Nat) (id : Nat) : (insertSorted ids id).Perm (id :: ids) := by
  unfold insertSorted
  split
  · exact perm_append_singleton id ids
  · conv_rhs => rw [← take_append_drop (lowerBound ids id) ids]
    exact perm_middle

@[simp]
theorem mem_insertSorted {id other : Nat} : other ∈ insertSorted ids id ↔ other = id ∨ other ∈ ids := by
  rw [(insertSorted_perm ids id).mem_iff, mem_cons]

section Sorted

variable (sorted : ids.Pairwise (· < ·))
include sorted

/-- **An id is inserted between the smaller and the larger ones.** -/
theorem insertSorted_eq (id : Nat) :
    insertSorted ids id =
      (ids.filter fun x => decide (x < id)) ++ id :: ids.filter fun x => decide (id ≤ x) := by
  unfold insertSorted
  split
  · rename_i last
    have smaller : ∀ x ∈ ids, x < id := by
      intro x member
      rcases eq_nil_or_concat ids with rfl | ⟨front, final, rfl⟩
      · exact absurd member not_mem_nil
      · rw [concat_eq_append, List.getLast?_append, List.getLast?_singleton, Option.some_or,
          Option.all_some] at last
        have bound := of_decide_eq_true last
        rcases List.mem_append.mp (concat_eq_append ▸ member) with before | here
        · have order := (List.pairwise_append.mp (concat_eq_append ▸ sorted)).2.2
          exact Nat.lt_trans (order x before final mem_cons_self) bound
        · rwa [List.mem_singleton.mp here]
    have all : ids.filter (fun x => decide (x < id)) = ids :=
      List.filter_eq_self.mpr fun x member => decide_eq_true (smaller x member)
    have none : ids.filter (fun x => decide (id ≤ x)) = [] :=
      List.filter_eq_nil_iff.mpr fun x member => by simpa using smaller x member
    rw [all, none]
  · rw [take_lowerBound sorted, drop_lowerBound sorted]

theorem Pairwise.insertSorted {id : Nat} (fresh : id ∉ ids) :
    (insertSorted ids id).Pairwise (· < ·) := by
  rw [insertSorted_eq sorted]
  have larger : ∀ x ∈ ids.filter (fun x => decide (id ≤ x)), id < x := by
    intro x member
    obtain ⟨inside, reaches⟩ := List.mem_filter.mp member
    refine Nat.lt_of_le_of_ne (of_decide_eq_true reaches) ?_
    rintro rfl
    exact fresh inside
  refine List.pairwise_append.mpr ⟨sorted.filter _,
    List.pairwise_cons.mpr ⟨larger, sorted.filter _⟩, fun x low y high => ?_⟩
  have below := of_decide_eq_true (List.mem_filter.mp low).2
  rcases List.mem_cons.mp high with rfl | high
  · exact below
  · exact Nat.lt_trans below (larger y high)

/-- **Removing an id leaves the other ones.** -/
theorem removeSorted_eq (id : Nat) :
    removeSorted ids id = ids.filter fun x => decide (x ≠ id) := by
  have parts : ids.filter (fun x => decide (x ≠ id)) =
      (ids.take (lowerBound ids id)).filter (fun x => decide (x ≠ id)) ++
        (ids.drop (lowerBound ids id)).filter fun x => decide (x ≠ id) := by
    rw [← filter_append, take_append_drop]
  have low : (ids.take (lowerBound ids id)).filter (fun x => decide (x ≠ id)) =
      ids.take (lowerBound ids id) := by
    refine List.filter_eq_self.mpr fun x member => decide_eq_true ?_
    rw [take_lowerBound sorted] at member
    exact Nat.ne_of_lt (of_decide_eq_true (List.mem_filter.mp member).2)
  unfold removeSorted
  rw [parts, low]
  split
  · rename_i there
    obtain ⟨inside, here⟩ := List.getElem?_eq_some_iff.mp there
    have rest := drop_eq_getElem_cons inside
    have order := sorted.sublist (drop_sublist (lowerBound ids id) ids)
    rw [rest, here] at order
    have others : ∀ x ∈ ids.drop (lowerBound ids id + 1), decide (x ≠ id) = true := fun x member =>
      decide_eq_true (Nat.ne_of_gt ((List.pairwise_cons.mp order).1 x member))
    rw [rest, here, filter_cons_of_neg (by simp), List.filter_eq_self.mpr others,
      eraseIdx_eq_take_drop_succ]
  · rename_i absent
    have others : ∀ x ∈ ids.drop (lowerBound ids id), decide (x ≠ id) = true := by
      intro x member
      refine decide_eq_true ?_
      rintro rfl
      -- The id would be the first one of the right side.
      have same := drop_lowerBound sorted x
      cases shape : ids.drop (lowerBound ids x) with
      | nil => rw [shape] at member; exact absurd member not_mem_nil
      | cons y rest =>
        have first : ids[lowerBound ids x]? = some y := by
          rw [← List.head?_drop, shape, List.head?_cons]
        have order := sorted.sublist (drop_sublist (lowerBound ids x) ids)
        rw [shape] at order member
        have reaches : y ∈ ids.filter fun id => decide (x ≤ id) := by
          rw [← same, shape]
          exact mem_cons_self
        have bound := of_decide_eq_true (List.mem_filter.mp reaches).2
        rcases List.mem_cons.mp member with rfl | later
        · exact absent first
        · exact absurd ((List.pairwise_cons.mp order).1 x later) (Nat.not_lt.mpr bound)
    rw [List.filter_eq_self.mpr others, take_append_drop]

theorem Pairwise.removeSorted (id : Nat) :
    (removeSorted ids id).Pairwise (· < ·) := by
  rw [removeSorted_eq sorted]
  exact sorted.filter _

theorem mem_removeSorted {id other : Nat} :
    other ∈ removeSorted ids id ↔ other ∈ ids ∧ other ≠ id := by
  rw [removeSorted_eq sorted, mem_filter, decide_eq_true_iff]

/-- Two ascending lists of the same ids are one list. -/
theorem ascending_ext {other : List Nat} (sortedOther : other.Pairwise (· < ·))
    (same : ∀ id, id ∈ ids ↔ id ∈ other) : ids = other := by
  have nodup := sorted.imp fun less => Nat.ne_of_lt less
  have nodupOther := sortedOther.imp fun less => Nat.ne_of_lt less
  have perm : ids.Perm other := (perm_ext_iff_of_nodup nodup nodupOther).mpr same
  exact perm.eq_of_pairwise (fun a b _ _ less more => absurd less (Nat.lt_asymm more)) sorted sortedOther

end Sorted

end TianGong.Lib
