/-
**The order in which an object lists its properties.**

Array indices come first, ascending, then the other keys as they were added. `listed` puts items with keys
in that order.

* `map_listed`, `filter_listed`: what is mapped or left out is listed in the same order.
* `assign_foldl`: an object that is filled by assignments.
-/

import Mathlib.Algebra.GroupWithZero.Nat
import Mathlib.Data.List.Sort
import TianGong.Text
import TianGong.Lib.Assoc

namespace TianGong.Lib

open List

/-- The array index that a property key is, if it is one. -/
def arrayIndex (key : Text) : Option Nat :=
  let n := key.foldl (fun n c => 10 * n + (c.toNat - 48)) 0
  if key = decimal n ∧ n < 2 ^ 32 - 1 then some n else none

section Listed

variable {α β : Type}

/-- The order of two array indices. -/
def IndexLE (key : α → Text) (a b : α) : Prop :=
  (arrayIndex (key a)).getD 0 ≤ (arrayIndex (key b)).getD 0

instance (key : α → Text) : DecidableRel (IndexLE key) := fun _ _ => inferInstanceAs (Decidable (_ ≤ _))

/-- The items of an object that got them in this order, as it lists them. -/
def listed (key : α → Text) (items : List α) : List α :=
  (items.filter fun a => (arrayIndex (key a)).isSome).insertionSort (IndexLE key) ++
    items.filter fun a => (arrayIndex (key a)).isNone

variable (key : α → Text)

instance : Std.Total (IndexLE key) := ⟨fun _ _ => Nat.le_total _ _⟩

instance : IsTrans α (IndexLE key) := ⟨fun _ _ _ => Nat.le_trans⟩

theorem arrayIndex_some {k : Text} {n : Nat} (index : arrayIndex k = some n) : k = decimal n := by
  unfold arrayIndex at index
  simp only at index
  split at index
  · rename_i canonical
    rw [← Option.some.inj index]
    exact canonical.1
  · cases index

/-- **The items are the same.** -/
theorem listed_perm (items : List α) : (listed key items).Perm items := by
  have parts := filter_append_perm (fun a => (arrayIndex (key a)).isSome) items
  refine ((perm_insertionSort _ _).append_right _).trans ?_
  simpa using parts

theorem map_listed (f : β → α) (items : List β) :
    (listed (fun b => key (f b)) items).map f = listed key (items.map f) := by
  have sorted := map_insertionSort (IndexLE fun b => key (f b)) (IndexLE key) f
    (items.filter fun b => (arrayIndex (key (f b))).isSome) fun a _ b _ => Iff.rfl
  rw [listed, map_append, sorted, listed, filter_map, filter_map]
  rfl

/-- **What is left out of an object** leaves the others in their order. -/
theorem filter_listed {items : List α} (once : (items.map key).Nodup) (p : α → Bool) :
    (listed key items).filter p = listed key (items.filter p) := by
  unfold listed
  rw [filter_append, filter_filter, filter_filter, filter_filter]
  refine congrArg₂ (· ++ ·) ?_ (filter_congr fun a _ => Bool.and_comm _ _)
  refine List.Perm.eq_of_pairwise ?_ ?_ (pairwise_insertionSort (IndexLE key) _) ?_
  · intro a b first second below above
    obtain ⟨there, isSome⟩ := List.mem_filter.mp
      ((mem_insertionSort _).mp (mem_of_mem_filter first))
    have here := List.mem_filter.mp ((mem_insertionSort _).mp second)
    obtain ⟨m, indexA⟩ := Option.isSome_iff_exists.mp isSome
    obtain ⟨n, indexB⟩ := Option.isSome_iff_exists.mp (Bool.and_eq_true_iff.mp here.2).1
    have same : m = n := by
      have least := Nat.le_antisymm below above
      rwa [indexA, indexB] at least
    refine inj_on_of_nodup_map once there here.1 ?_
    rw [arrayIndex_some indexA, arrayIndex_some indexB, same]
  · exact (pairwise_insertionSort _ _).filter _
  · refine ((perm_insertionSort _ _).filter p).trans ?_
    rw [filter_filter]
    refine (List.Perm.of_eq (filter_congr fun a _ => Bool.and_comm _ _)).trans
      (perm_insertionSort _ _).symm

end Listed

/-! ### Assignments -/

variable {V W : Type}

def PROTO : Text := text "__proto__"

/-- `object[key] = value`. Under `__proto__` it sets the prototype, which is no property. -/
def assign (key : Text) (value : V) (object : List (Text × V)) : List (Text × V) :=
  if key = PROTO then object else Assoc.set key value object

/-- **An object that is filled by assignments**, each under a key that is not there yet. -/
theorem assign_foldl (c : Text × W → Bool) (f : Text × W → V) (entries : List (Text × W))
    (object : List (Text × V)) (once : (Assoc.keys entries).Nodup)
    (fresh : ∀ e ∈ entries, c e = true → e.1 ∉ Assoc.keys object) :
    entries.foldl (fun object e => if c e then assign e.1 (f e) object else object) object =
      object ++ (entries.filter fun e => c e && decide (e.1 ≠ PROTO)).map fun e => (e.1, f e) := by
  induction entries generalizing object with
  | nil => simp
  | cons e rest ih =>
    obtain ⟨absent, once⟩ := List.nodup_cons.mp once
    have apart : ∀ later ∈ rest, e.1 ≠ later.1 := fun later member same =>
      absent (List.mem_map.mpr ⟨later, member, same.symm⟩)
    have others : ∀ later ∈ rest, c later = true → later.1 ∉ Assoc.keys object :=
      fun later member => fresh later (mem_cons_of_mem _ member)
    rw [foldl_cons]
    by_cases counts : c e = true ∧ e.1 ≠ PROTO
    · have behind : (if c e then assign e.1 (f e) object else object) = object ++ [(e.1, f e)] := by
        rw [if_pos counts.1, assign, if_neg counts.2]
        exact if_neg (mt Assoc.has_iff.mp (fresh e mem_cons_self counts.1))
      rw [behind, ih _ once, filter_cons_of_pos (by simpa using counts), map_cons,
        append_assoc]
      · rfl
      · intro later member holds
        rw [Assoc.keys_append, mem_append, not_or]
        exact ⟨others later member holds, fun same => apart later member (List.mem_singleton.mp same).symm⟩
    · have stays : (if c e then assign e.1 (f e) object else object) = object := by
        rw [assign]
        split_ifs with holds proto
        · rfl
        · exact (counts ⟨holds, proto⟩).elim
        · rfl
      rw [stays, ih _ once others, filter_cons_of_neg (by simpa using counts)]

end TianGong.Lib
