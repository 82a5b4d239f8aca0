/-
**Lists whose items have a key.**

* `lookup`: the first item of a key; `last`: the last, which is what a map built from the list
  holds.
-/

import Mathlib.Data.List.Perm.Basic
import Mathlib.Data.List.Nodup

namespace TianGong.Upsert

open List

variable {A K : Type} [DecidableEq K] (key : A → K)

/-- The first item of a key. -/
def lookup (k : K) (items : List A) : Option A := items.find? fun a => key a = k

/-- The last item of a key. -/
def last (k : K) (items : List A) : Option A := lookup key k items.reverse

/-- An item takes the place of the first of its key, or is appended. -/
def upsert (item : A) : List A → List A
  | [] => [item]
  | a :: rest => if key a = key item then item :: rest else a :: upsert item rest

/-- Items one after the other. -/
def upsertAll (copy items : List A) : List A := items.foldl (fun copy a => upsert key a copy) copy

/-- The items that differ from the last of their key. -/
def changes [DecidableEq A] (before items : List A) : List A :=
  items.filter fun a => last key (key a) before ≠ some a

variable {key} {k : K}

/-! ### One item -/

@[simp] theorem lookup_nil : lookup key k [] = none := rfl

theorem lookup_cons (a : A) (rest : List A) :
    lookup key k (a :: rest) = if key a = k then some a else lookup key k rest := by
  unfold lookup
  rw [List.find?_cons]
  by_cases same : key a = k
  · simp [same]
  · simp [same]

theorem lookup_append (items more : List A) :
    lookup key k (items ++ more) = (lookup key k items).or (lookup key k more) :=
  List.find?_append

variable {items : List A} {a : A}

theorem key_of_lookup (found : lookup key k items = some a) : key a = k := by
  simpa using List.find?_some found

theorem mem_of_lookup (found : lookup key k items = some a) :
    a ∈ items := List.mem_of_find?_eq_some found

theorem lookup_eq_none : lookup key k items = none ↔ k ∉ items.map key := by
  simp [lookup]

theorem lookup_isSome : (lookup key k items).isSome = true ↔ k ∈ items.map key := by
  simp [lookup]

theorem lookup_of_mem (nodup : (items.map key).Nodup) (member : a ∈ items) :
    lookup key (key a) items = some a := by
  induction items with
  | nil => cases member
  | cons b rest ih =>
    rw [map_cons, nodup_cons] at nodup
    rw [lookup_cons]
    rcases List.mem_cons.mp member with rfl | later
    · rw [if_pos rfl]
    · have other : key b ≠ key a := by
        intro same
        exact nodup.1 (same ▸ mem_map_of_mem later)
      rw [if_neg other]
      exact ih nodup.2 later

theorem last_eq_lookup (nodup : (items.map key).Nodup) : last key k items = lookup key k items := by
  have reversed : (items.reverse.map key).Nodup := by
    rw [map_reverse]
    exact List.nodup_reverse.mpr nodup
  cases found : lookup key k items with
  | none =>
    refine lookup_eq_none.mpr fun member => lookup_eq_none.mp found ?_
    rwa [map_reverse, mem_reverse] at member
  | some a =>
    obtain rfl := key_of_lookup found
    exact lookup_of_mem reversed (List.mem_reverse.mpr (mem_of_lookup found))

theorem mem_of_last (found : last key k items = some a) : a ∈ items :=
  List.mem_reverse.mp (mem_of_lookup found)

theorem key_of_last (found : last key k items = some a) : key a = k :=
  key_of_lookup found

theorem last_isSome : (last key k items).isSome = true ↔ k ∈ items.map key := by
  unfold last
  rw [lookup_isSome, map_reverse, mem_reverse]

/-! ### Upserts -/

theorem lookup_upsert (item : A) (copy : List A) :
    lookup key k (upsert key item copy) = if key item = k then some item else lookup key k copy := by
  induction copy with
  | nil => rw [upsert, lookup_cons]
  | cons a rest ih =>
    rw [upsert]
    split
    · rename_i same
      rw [lookup_cons, lookup_cons, same]
      split <;> rfl
    · rename_i other
      rw [lookup_cons, ih, lookup_cons]
      by_cases here : key a = k
      · have apart : key item ≠ k := fun is => other (here.trans is.symm)
        rw [if_pos here, if_neg apart, if_pos here]
      · rw [if_neg here, if_neg here]

/-- After all items, a key has the last item of it, or what the copy had. -/
theorem lookup_upsertAll (copy items : List A) :
    lookup key k (upsertAll key copy items) = (last key k items).or (lookup key k copy) := by
  induction items generalizing copy with
  | nil => rfl
  | cons a rest ih =>
    show lookup key k (upsertAll key (upsert key a copy) rest) = _
    rw [ih, lookup_upsert]
    unfold last
    rw [reverse_cons, lookup_append, lookup_cons, lookup_nil, Option.or_assoc]
    congr 1
    split <;> rfl

variable {copy : List A}

theorem mem_upsert {item : A} (member : a ∈ upsert key item copy) : a = item ∨ a ∈ copy := by
  induction copy with
  | nil => exact .inl (List.mem_singleton.mp member)
  | cons b rest ih =>
    rw [upsert] at member
    split at member
    · exact (List.mem_cons.mp member).imp_right (mem_cons_of_mem b)
    · rcases List.mem_cons.mp member with rfl | later
      · exact .inr mem_cons_self
      · exact (ih later).imp_right (mem_cons_of_mem b)

theorem mem_upsertAll (member : a ∈ upsertAll key copy items) : a ∈ items ∨ a ∈ copy := by
  induction items generalizing copy with
  | nil => exact .inr member
  | cons b rest ih =>
    rcases @ih (upsert key b copy) member with later | before
    · exact .inl (mem_cons_of_mem b later)
    · rcases mem_upsert before with rfl | before
      · exact .inl mem_cons_self
      · exact .inr before

theorem nodup_upsert {item : A} (nodup : (copy.map key).Nodup) :
    ((upsert key item copy).map key).Nodup := by
  induction copy with
  | nil => exact nodup_singleton _
  | cons a rest ih =>
    rw [map_cons, nodup_cons] at nodup
    rw [upsert]
    split
    · rename_i same
      rw [map_cons, nodup_cons, ← same]
      exact nodup
    · rename_i other
      rw [map_cons, nodup_cons]
      refine ⟨fun member => ?_, ih nodup.2⟩
      obtain ⟨b, inside, same⟩ := List.mem_map.mp member
      rcases mem_upsert inside with rfl | inside
      · exact other same.symm
      · exact nodup.1 (same ▸ mem_map_of_mem inside)

theorem nodup_upsertAll (nodup : (copy.map key).Nodup) (items : List A) :
    ((upsertAll key copy items).map key).Nodup := by
  induction items generalizing copy with
  | nil => exact nodup
  | cons a rest ih => exact ih (nodup_upsert nodup)

/-! ### Changes -/

section Changes

variable [DecidableEq A]

/-- **A copy that applies the changes holds what the list holds.** No key of the list before is
lost, and none occurs twice. -/
theorem lookup_changes {before : List A} (beforeNodup : (before.map key).Nodup)
    (nodup : (items.map key).Nodup) (kept : k ∈ before.map key → k ∈ items.map key)
    (same : lookup key k copy = lookup key k before) :
    lookup key k (upsertAll key copy (changes key before items)) = lookup key k items := by
  have changed : ((changes key before items).map key).Nodup :=
    nodup.sublist (List.Sublist.map key filter_sublist)
  rw [lookup_upsertAll, last_eq_lookup changed, same]
  cases found : lookup key k items with
  | none =>
    have absent : lookup key k before = none :=
      lookup_eq_none.mpr fun member => lookup_eq_none.mp found (kept member)
    have unchanged : lookup key k (changes key before items) = none := by
      refine lookup_eq_none.mpr fun member => lookup_eq_none.mp found ?_
      exact List.Sublist.subset (List.Sublist.map key filter_sublist) member
    rw [absent, unchanged]
    rfl
  | some a =>
    obtain rfl := key_of_lookup found
    have inside := mem_of_lookup found
    by_cases old : last key (key a) before = some a
    · have unchanged : lookup key (key a) (changes key before items) = none := by
        refine lookup_eq_none.mpr fun member => ?_
        obtain ⟨b, isChange, sameKey⟩ := List.mem_map.mp member
        obtain ⟨isItem, differs⟩ := List.mem_filter.mp isChange
        have isA : b = a := by
          have here := lookup_of_mem nodup isItem
          rw [sameKey, found] at here
          exact (Option.some.inj here).symm
        subst isA
        simp [old] at differs
      rw [unchanged, ← last_eq_lookup beforeNodup, old]
      rfl
    · have isChange : a ∈ changes key before items :=
        List.mem_filter.mpr ⟨inside, by simpa using old⟩
      rw [lookup_of_mem changed isChange]
      rfl

end Changes

/-- **Lists without a key twice that hold the same are the same up to their order.** -/
theorem perm_of_lookup (nodup : (items.map key).Nodup) (copyNodup : (copy.map key).Nodup)
    (same : ∀ k, lookup key k copy = lookup key k items) : copy.Perm items := by
  refine (perm_ext_iff_of_nodup copyNodup.of_map nodup.of_map).mpr fun a => ?_
  constructor
  · intro member
    have found := lookup_of_mem copyNodup member
    rw [same] at found
    exact mem_of_lookup found
  · intro member
    have found := lookup_of_mem nodup member
    rw [← same] at found
    exact mem_of_lookup found

end TianGong.Upsert
