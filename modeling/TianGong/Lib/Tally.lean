/-
**Totals under keys.**

A record of totals takes entries one after the other: the first value under a key is kept as it is,
a later one is added to what is there.

* `get_tally_flatten`: records that are entered into one give the totals of their totals.
-/

import TianGong.Lib.Assoc

namespace TianGong.Tally

open List
open Assoc

variable {K V : Type} [DecidableEq K] (add : V → V → V)

/-- One more value. -/
def plus (sum : Option V) (v : V) : Option V := some (sum.elim v fun t => add t v)

/-- The total of values, in order. -/
def total (values : List V) : Option V := values.foldl (plus add) none

/-- An entry is taken. -/
def enter (sums : List (K × V)) (e : K × V) : List (K × V) :=
  set e.1 ((get e.1 sums).elim e.2 fun t => add t e.2) sums

/-- Entries are taken in order. -/
def tally (sums entries : List (K × V)) : List (K × V) := entries.foldl (enter add) sums

/-- The values under a key. -/
def under (k : K) (entries : List (K × V)) : List V :=
  entries.filterMap fun e => if e.1 = k then some e.2 else none

omit [DecidableEq K] in
theorem total_concat (values : List V) (v : V) :
    total add (values ++ [v]) = plus add (total add values) v :=
  foldl_concat ..

variable (k : K) (entries : List (K × V))

theorem under_append (more : List (K × V)) :
    under k (entries ++ more) = under k entries ++ under k more :=
  filterMap_append

theorem under_cons (e : K × V) (entries : List (K × V)) :
    under k (e :: entries) = if e.1 = k then e.2 :: under k entries else under k entries := by
  unfold under
  rw [filterMap_cons]
  split_ifs <;> rfl

theorem get_enter (sums : List (K × V)) (e : K × V) :
    get k (enter add sums e) = if e.1 = k then plus add (get k sums) e.2 else get k sums := by
  unfold enter
  by_cases same : e.1 = k
  · rw [if_pos same, same, get_set_self]
    rfl
  · rw [if_neg same, get_set_ne same]

theorem nodup_enter {sums : List (K × V)} (nodup : (keys sums).Nodup) (e : K × V) :
    (keys (enter add sums e)).Nodup :=
  nodup_set _ nodup

/-- What is under a key after entries were taken. -/
theorem get_tally_from (sums entries : List (K × V)) :
    get k (tally add sums entries) = (under k entries).foldl (plus add) (get k sums) := by
  unfold tally
  induction entries generalizing sums with
  | nil => rfl
  | cons e entries ih =>
    rw [foldl_cons, ih, get_enter, under_cons]
    by_cases same : e.1 = k
    · rw [if_pos same, if_pos same, foldl_cons]
    · rw [if_neg same, if_neg same]

/-- **Under a key stands the total of its values.** -/
theorem get_tally : get k (tally add [] entries) = total add (under k entries) :=
  get_tally_from add k [] entries

theorem nodup_tally {sums : List (K × V)} (nodup : (keys sums).Nodup) (entries : List (K × V)) :
    (keys (tally add sums entries)).Nodup := by
  unfold tally
  induction entries generalizing sums with
  | nil => exact nodup
  | cons e entries ih => exact ih (nodup_enter add nodup e)

theorem nodup_tally_nil : (keys (tally add [] entries)).Nodup :=
  @nodup_tally _ _ _ add [] nodup_nil entries

/-- A record holds one value under a key. -/
theorem under_of_nodup {sums : List (K × V)} (nodup : (keys sums).Nodup) (k : K) :
    under k sums = (get k sums).toList := by
  induction sums with
  | nil => rfl
  | cons e rest ih =>
    obtain ⟨key, v⟩ := e
    obtain ⟨fresh, later⟩ := List.nodup_cons.mp nodup
    by_cases same : key = k
    · have none : get k rest = none := get_eq_none_iff.mpr (same ▸ fresh)
      rw [under_cons, if_pos same, ih later, none, same, get_cons_self]
      rfl
    · rw [under_cons, if_neg same, get_cons_ne same]
      exact ih later

/-- **Records that are entered into one** give the totals of what they hold. -/
theorem get_tally_flatten {records : List (List (K × V))}
    (nodup : ∀ sums ∈ records, (keys sums).Nodup) :
    get k (records.foldl (tally add) []) = total add (records.filterMap (get k)) := by
  have held : under k records.flatten = records.filterMap (get k) := by
    induction records with
    | nil => rfl
    | cons sums records ih =>
      rw [flatten_cons, under_append, under_of_nodup (nodup sums mem_cons_self),
        ih fun other member => nodup other (mem_cons_of_mem _ member), filterMap_cons]
      cases get k sums <;> rfl
  have flat : records.foldl (tally add) [] = tally add [] records.flatten := by
    unfold tally
    rw [foldl_flatten]
  rw [flat, get_tally, held]

end TianGong.Tally
