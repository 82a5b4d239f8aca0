/-
**Names, given in order.**

Items get their names one after the other, each with a look at the names that are already given.

* `firstFree`: the first name of a sequence that is not given; `firstFree_notMem`: it is new.
-/

import Mathlib.Data.List.Induction
import Mathlib.Data.List.Nodup

namespace TianGong.Naming

open List

variable {α ν : Type}

section Assign

variable (pick : List ν → α → ν)

/-- The names of some items, behind those that are already given. -/
def assign (used : List ν) : List α → List ν
  | [] => []
  | item :: items => pick used item :: assign (used ++ [pick used item]) items

/-- **The last item is named last.** -/
theorem assign_snoc (used : List ν) (items : List α) (item : α) :
    assign pick used (items ++ [item]) =
      assign pick used items ++ [pick (used ++ assign pick used items) item] := by
  induction items generalizing used with
  | nil => simp only [nil_append, assign, append_nil]
  | cons first items ih =>
    rw [cons_append, assign, ih, assign, cons_append, append_assoc, singleton_append]

/-- **The name of an item** is picked behind those of the items before it. -/
theorem getElem?_assign (used : List ν) (items : List α) (i : Nat) :
    (assign pick used items)[i]? =
      items[i]?.map (pick (used ++ assign pick used (items.take i))) := by
  induction items generalizing used i with
  | nil => rfl
  | cons item items ih =>
    cases i with
    | zero => simp only [assign, List.getElem?_cons_zero, take_zero, append_nil, Option.map_some]
    | succ i =>
      rw [assign, List.getElem?_cons_succ, ih, List.getElem?_cons_succ, take_succ_cons, assign,
        append_assoc, singleton_append]

/-- **The names differ** exactly when each is new where it is picked. -/
theorem nodup_assign_iff (items : List α) :
    (assign pick [] items).Nodup ↔ ∀ i item, items[i]? = some item →
      pick (assign pick [] (items.take i)) item ∉ assign pick [] (items.take i) := by
  induction items using List.reverseRecOn with
  | nil => simp [assign]
  | append_singleton items last ih =>
    rw [assign_snoc, nil_append, nodup_append, ih]
    constructor
    · rintro ⟨earlier, -, apart⟩ i item found
      rcases Nat.lt_or_ge i items.length with before | atLast
      · rw [List.getElem?_append_left before] at found
        rw [take_append_of_le_length (Nat.le_of_lt before)]
        exact earlier i item found
      · rw [List.getElem?_append_right atLast, List.getElem?_singleton] at found
        split at found
        · cases found
          rename_i here
          rw [take_append_of_le_length (by omega), take_of_length_le (by omega)]
          exact fun given => apart _ given _ mem_cons_self rfl
        · cases found
    · intro new
      refine ⟨fun i item found => ?_, nodup_singleton _, ?_⟩
      · obtain ⟨before, -⟩ := List.getElem?_eq_some_iff.mp found
        have here := new i item (by rw [List.getElem?_append_left before, found])
        rwa [take_append_of_le_length (Nat.le_of_lt before)] at here
      · rintro name given other isLast rfl
        have here := new items.length last (by simp)
        rw [take_left] at here
        rw [mem_singleton] at isLast
        exact here (isLast ▸ given)

end Assign

/-! ### The first free name of a sequence -/

section FirstFree

variable [DecidableEq ν] (name : Nat → ν)

/-- The first name from a number on that is not given, after so many tries. -/
def firstFree (used : List ν) (n : Nat) : Nat → Nat
  | 0 => n
  | tries + 1 => if name n ∈ used then firstFree used (n + 1) tries else n

variable {name}

/-- What comes before the first free name is given. -/
theorem mem_of_lt_firstFree {used : List ν} {n tries m : Nat} (from_ : n ≤ m)
    (before : m < firstFree name used n tries) : name m ∈ used := by
  induction tries generalizing n with
  | zero => exact absurd before (Nat.not_lt.mpr from_)
  | succ tries ih =>
    unfold firstFree at before
    split at before
    · rename_i given
      rcases Nat.eq_or_lt_of_le from_ with rfl | later
      · exact given
      · exact ih later before
    · exact absurd before (Nat.not_lt.mpr from_)

theorem le_firstFree (used : List ν) (n tries : Nat) : n ≤ firstFree name used n tries := by
  induction tries generalizing n with
  | zero => exact Nat.le_refl _
  | succ tries ih =>
    unfold firstFree
    split
    · exact Nat.le_trans (Nat.le_succ n) (ih (n + 1))
    · exact Nat.le_refl _

theorem firstFree_le (used : List ν) (n tries : Nat) : firstFree name used n tries ≤ n + tries := by
  induction tries generalizing n with
  | zero => exact Nat.le_refl _
  | succ tries ih =>
    unfold firstFree
    split
    · exact Nat.le_trans (ih (n + 1)) (by omega)
    · exact Nat.le_add_right _ _

/-- A search that ends before its tries do has found a free name. -/
theorem firstFree_notMem_of_lt {used : List ν} {n tries : Nat}
    (short : firstFree name used n tries < n + tries) : name (firstFree name used n tries) ∉ used := by
  induction tries generalizing n with
  | zero => exact absurd short (Nat.lt_irrefl _)
  | succ tries ih =>
    unfold firstFree at short ⊢
    split
    · rename_i given
      rw [if_pos given] at short
      exact ih (by omega)
    · assumption

/-- **As many tries as there are names find a new one**, if no two names of the sequence are the same. -/
theorem firstFree_notMem (apart : Function.Injective name) (used : List ν) (n : Nat) :
    name (firstFree name used n used.length) ∉ used := by
  rcases Nat.lt_or_ge (firstFree name used n used.length) (n + used.length) with short | long
  · exact firstFree_notMem_of_lt short
  · intro given
    -- All the names tried, and the last one, are given: one more than there are.
    have tried : (List.range' n (used.length + 1)).map name ⊆ used := by
      intro found isIn
      obtain ⟨m, within, rfl⟩ := List.mem_map.mp isIn
      have range := List.mem_range'_1.mp within
      rcases Nat.lt_or_ge m (firstFree name used n used.length) with before | last
      · exact mem_of_lt_firstFree range.1 before
      · have upper := @firstFree_le ν _ name used n used.length
        have same : m = firstFree name used n used.length := by omega
        rw [same]
        exact given
    have many := (List.Nodup.map apart nodup_range').length_le_of_subset tried
    rw [length_map, length_range'] at many
    omega

end FirstFree

end TianGong.Naming
