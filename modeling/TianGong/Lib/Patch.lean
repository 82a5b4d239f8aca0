/-
**Patches of an ordered map.**

A patch lists changes of a map that iterates in insertion order: a new value under a key, set in place or
behind the others, or its removal.

* `keys_patch`: the keys afterwards, in order.
-/

import TianGong.Lib.Assoc

namespace TianGong.Lib

open List
open Assoc

variable {K V : Type} [DecidableEq K]

/-- One change. -/
def patchOne (shown : List (K × V)) (change : K × Option V) : List (K × V) :=
  match change.2 with
  | none => erase change.1 shown
  | some value => set change.1 value shown

/-- All changes, in order. -/
def patch (shown : List (K × V)) (changes : List (K × Option V)) : List (K × V) :=
  changes.foldl patchOne shown

variable {shown : List (K × V)} {changes : List (K × Option V)}

theorem nodup_patchOne (nodup : (keys shown).Nodup) (change : K × Option V) :
    (keys (patchOne shown change)).Nodup := by
  obtain ⟨key, value⟩ := change
  cases value with
  | none => exact nodup_erase key nodup
  | some value => exact nodup_set value nodup

theorem nodup_patch (nodup : (keys shown).Nodup) (changes : List (K × Option V)) :
    (keys (patch shown changes)).Nodup := by
  induction changes generalizing shown with
  | nil => exact nodup
  | cons change rest ih => exact ih (nodup_patchOne nodup change)

/-- What holds of the entries of a map and of every change, holds of the entries afterwards. -/
theorem of_patch {P : K → V → Prop} (before : ∀ e ∈ shown, P e.1 e.2)
    (new : ∀ change ∈ changes, ∀ value, change.2 = some value → P change.1 value) :
    ∀ e ∈ patch shown changes, P e.1 e.2 := by
  induction changes generalizing shown with
  | nil => exact before
  | cons change rest ih =>
    refine ih (fun e member => ?_) fun later there => new later (mem_cons_of_mem _ there)
    obtain ⟨key, value⟩ := change
    cases value with
    | none => exact before e (mem_of_mem_filter member)
    | some value =>
      rcases mem_set member with same | old
      · rw [same]
        exact new _ mem_cons_self value rfl
      · exact before e old

theorem get_patchOne (shown : List (K × V)) (change : K × Option V) (k : K) :
    get k (patchOne shown change) = if change.1 = k then change.2 else get k shown := by
  obtain ⟨key, value⟩ := change
  cases value with
  | none => exact get_erase key k shown
  | some value => exact get_set key k value shown

/-- **What is under a key afterwards**, where no key is changed twice. -/
theorem get_patch (once : (keys changes).Nodup) (shown : List (K × V)) (k : K) :
    get k (patch shown changes) = (get k changes).getD (get k shown) := by
  induction changes generalizing shown with
  | nil => rfl
  | cons change rest ih =>
    obtain ⟨fresh, once⟩ := List.nodup_cons.mp once
    show get k (patch (patchOne shown change) rest) = _
    rw [ih once, get_patchOne]
    obtain ⟨key, value⟩ := change
    by_cases same : key = k
    · subst same
      rw [if_pos rfl, get_cons_self, get_eq_none_iff.mpr fresh]
      rfl
    · rw [if_neg same, get_cons_ne same]

/-- The keys that changes add to a map. -/
def newKeys (shown : List (K × V)) (changes : List (K × Option V)) : List K :=
  keys (changes.filter fun change => change.2.isSome && !has change.1 shown)

theorem newKeys_congr {other : List (K × V)}
    (same : ∀ change ∈ changes, (change.1 ∈ keys shown ↔ change.1 ∈ keys other)) :
    newKeys shown changes = newKeys other changes := by
  unfold newKeys
  congr 1
  refine filter_congr fun change member => ?_
  have known : has change.1 shown = has change.1 other := by
    rw [Bool.eq_iff_iff, has_iff, has_iff]
    exact same change member
  rw [known]

/-- **The keys afterwards**, where no key is changed twice. -/
theorem keys_patch (once : (keys changes).Nodup) (shown : List (K × V)) :
    keys (patch shown changes) =
      (keys shown).filter (fun k => (get k changes).all Option.isSome) ++ newKeys shown changes := by
  induction changes generalizing shown with
  | nil => simp [patch, newKeys]
  | cons change rest ih =>
    obtain ⟨key, value⟩ := change
    obtain ⟨fresh, later⟩ := List.nodup_cons.mp once
    have unread : get key rest = none := get_eq_none_iff.mpr fresh
    have apart : ∀ change ∈ rest, change.1 ≠ key := fun change member same =>
      fresh (List.mem_map.mpr ⟨change, member, same⟩)
    show keys (patch (patchOne shown (key, value)) rest) = _
    rw [ih later]
    cases value with
    | none =>
      show (keys (erase key shown)).filter _ ++ newKeys (erase key shown) rest = _
      have added : newKeys (erase key shown) rest = newKeys shown ((key, none) :: rest) := by
        have same : newKeys (erase key shown) rest = newKeys shown rest := by
          refine newKeys_congr fun change member => ?_
          rw [keys_erase, mem_filter, decide_eq_true_iff]
          exact and_iff_left (apart change member)
        rw [same, newKeys, newKeys, filter_cons_of_neg (by simp)]
      rw [added, keys_erase, filter_filter]
      congr 1
      refine filter_congr fun k _ => ?_
      by_cases same : key = k
      · simp [same, get_cons_self]
      · simp [get_cons_ne same, Ne.symm same]
    | some value =>
      show (keys (set key value shown)).filter _ ++ newKeys (set key value shown) rest = _
      have kept : ∀ k, (get k ((key, some value) :: rest)).all Option.isSome =
          (get k rest).all Option.isSome := by
        intro k
        by_cases same : key = k
        · subst same
          simp [get_cons_self, unread]
        · rw [get_cons_ne same]
      simp only [kept]
      by_cases inside : key ∈ keys shown
      · have same : newKeys (set key value shown) rest = newKeys shown rest :=
          newKeys_congr fun change _ => by rw [keys_set, if_pos inside]
        rw [same, keys_set, if_pos inside, newKeys, newKeys,
          filter_cons_of_neg (by simp [has_iff.mpr inside])]
      · have added : newKeys shown ((key, some value) :: rest) =
            key :: newKeys (set key value shown) rest := by
          have same : newKeys (set key value shown) rest = newKeys shown rest := by
            refine newKeys_congr fun change member => ?_
            rw [keys_set, if_neg inside, mem_append, mem_singleton]
            exact or_iff_left (apart change member)
          have unknown : has key shown = false := Bool.eq_false_iff.mpr (mt has_iff.mp inside)
          rw [same, newKeys, filter_cons_of_pos (by simp [unknown]), Assoc.keys_cons]
          rfl
        have stays : [key].filter (fun k => (get k rest).all Option.isSome) = [key] :=
          filter_cons_of_pos (by rw [unread]; rfl)
        rw [added, keys_set, if_neg inside, filter_append, stays, append_assoc]
        rfl

/-- **Removals leave the other entries in order.** -/
theorem patch_removals (shown : List (K × V)) (removed : List K) :
    patch shown (removed.map fun k => (k, none)) = shown.filter fun e => e.1 ∉ removed := by
  induction removed generalizing shown with
  | nil => simp [patch]
  | cons k rest ih =>
    show patch (erase k shown) (rest.map fun k => (k, none)) = _
    rw [ih, erase, filter_filter]
    refine filter_congr fun e _ => ?_
    simp [Bool.and_comm]

theorem patch_removals_eq {removed : List K} {p : K × V → Bool}
    (which : ∀ e ∈ shown, p e = true ↔ e.1 ∉ removed) :
    patch shown (removed.map fun k => (k, none)) = shown.filter p := by
  rw [patch_removals]
  refine filter_congr fun e member => ?_
  rw [Bool.eq_iff_iff, which e member, decide_eq_true_iff]

theorem patch_cleared {removed : List K} (all : ∀ e ∈ shown, e.1 ∈ removed) :
    patch shown (removed.map fun k => (k, none)) = [] := by
  rw [patch_removals]
  exact List.filter_eq_nil_iff.mpr fun e member left => of_decide_eq_true left (all e member)

/-- **New entries stand behind the others in order.** -/
theorem patch_additions (shown added : List (K × V)) (once : (keys (shown ++ added)).Nodup) :
    patch shown (added.map fun e => (e.1, some e.2)) = shown ++ added := by
  induction added generalizing shown with
  | nil => simp [patch]
  | cons e rest ih =>
    have fresh : e.1 ∉ keys shown := by
      rw [Assoc.keys_append] at once
      intro inside
      exact (List.nodup_append.mp once).2.2 _ inside _ mem_cons_self rfl
    have behind : set e.1 e.2 shown = shown ++ [e] := if_neg (mt has_iff.mp fresh)
    show patch (set e.1 e.2 shown) (rest.map fun e => (e.1, some e.2)) = _
    rw [behind, ih _ (by simpa using once), append_assoc]
    rfl

/-- **A patch leads from one map to another** when it has its values and adds its keys in order. -/
theorem patch_eq {desired : List (K × V)} (shownOnce : (keys shown).Nodup)
    (once : (keys changes).Nodup)
    (values : ∀ k, (get k changes).getD (get k shown) = get k desired)
    (order : (keys shown).filter (fun k => has k desired) ++ newKeys shown changes = keys desired) :
    patch shown changes = desired := by
  refine Assoc.ext (nodup_patch shownOnce changes) ?_ fun k => (get_patch once shown k).trans (values k)
  rw [keys_patch once, ← order]
  congr 1
  refine filter_congr fun k member => ?_
  have value := values k
  rw [Bool.eq_iff_iff, has_iff, ← not_iff_not, ← get_eq_none_iff, ← value]
  obtain ⟨v, there⟩ := Option.ne_none_iff_exists'.mp (mt get_eq_none_iff.mp (not_not.mpr member))
  cases read : get k changes with
  | none => simp [there]
  | some change => cases change <;> simp

/-- Whether a list differs from another at one of its own places. -/
def differs (keys other : List K) : Bool :=
  keys.zipIdx.any fun e => decide (other[e.2]? ≠ some e.1)

/-- **Keys that do not differ from others of their number are the others.** -/
theorem differs_eq_false {keys other : List K} (length : keys.length = other.length) :
    differs keys other = false ↔ keys = other := by
  rw [differs, any_eq_false]
  constructor
  · intro agree
    refine ext_getElem length fun i inside there => ?_
    have here := agree (keys[i], i) (List.mem_zipIdx_iff_getElem?.mpr (List.getElem?_eq_getElem inside))
    simp only [decide_not, Bool.not_eq_true', decide_eq_false_iff_not, not_not] at here
    rw [List.getElem?_eq_getElem there] at here
    exact (Option.some.inj here).symm
  · rintro rfl e member
    simpa using List.mem_zipIdx_iff_getElem?.mp member

end TianGong.Lib
