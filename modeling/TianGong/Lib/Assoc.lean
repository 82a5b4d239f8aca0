/-
**Association lists, read as the maps and objects of the source.**

A `Map`, a `Set` of keys and a plain object all iterate in insertion order and hold each key once.
`Assoc` is the list of their entries: `get` reads, `replace` overwrites in place, `set` overwrites or
appends, `erase` removes. Nothing here needs the keys to be distinct except where it is said; the
operations keep them distinct (`nodup_set`, `nodup_erase`).
-/

import Mathlib.Data.List.Nodup

namespace TianGong.Assoc

open List

variable {K V W : Type} [DecidableEq K]

/-- The entries' keys, in order. -/
abbrev keys (entries : List (K × V)) : List K := entries.map Prod.fst

/-- The value under a key. -/
def get (k : K) : List (K × V) → Option V
  | [] => none
  | (key, value) :: rest => if key = k then some value else get k rest

/-- Overwrite the value under a key that is there. -/
def replace (k : K) (v : V) : List (K × V) → List (K × V)
  | [] => []
  | (key, value) :: rest => if key = k then (key, v) :: rest else (key, value) :: replace k v rest

/-- Whether a key is there. -/
def has (k : K) (entries : List (K × V)) : Bool := (get k entries).isSome

/-- `Map.set`: overwrite in place, or append. -/
def set (k : K) (v : V) (entries : List (K × V)) : List (K × V) :=
  if has k entries then replace k v entries else entries ++ [(k, v)]

/-- `Map.delete`. -/
def erase (k : K) (entries : List (K × V)) : List (K × V) := entries.filter fun e => e.1 ≠ k

omit [DecidableEq K] in
theorem keys_cons (e : K × V) (rest : List (K × V)) : keys (e :: rest) = e.1 :: keys rest := rfl

variable (k : K) (v : V) (entries : List (K × V))

omit [DecidableEq K] in
theorem keys_append (more : List (K × V)) :
    keys (entries ++ more) = keys entries ++ keys more := map_append

@[simp] theorem get_nil : get k ([] : List (K × V)) = none := rfl

theorem get_cons_self (rest : List (K × V)) : get k ((k, v) :: rest) = some v :=
  if_pos rfl

theorem get_cons_ne {k key : K} (different : key ≠ k) (v : V) (rest : List (K × V)) :
    get k ((key, v) :: rest) = get k rest := if_neg different

theorem get_eq_none_iff {k : K} {entries : List (K × V)} :
    get k entries = none ↔ k ∉ keys entries := by
  induction entries with
  | nil => simp
  | cons e rest ih =>
    obtain ⟨key, value⟩ := e
    by_cases same : key = k
    · subst same
      simp [get_cons_self]
    · rw [get_cons_ne same, ih]
      simp [Ne.symm same]

theorem has_iff {k : K} {entries : List (K × V)} : has k entries = true ↔ k ∈ keys entries := by
  rw [has, Option.isSome_iff_ne_none, Ne, get_eq_none_iff, not_not]

theorem mem_of_get {k : K} {v : V} {entries : List (K × V)} (found : get k entries = some v) :
    (k, v) ∈ entries := by
  induction entries with
  | nil => cases found
  | cons e rest ih =>
    obtain ⟨key, value⟩ := e
    by_cases same : key = k
    · subst same
      rw [get_cons_self] at found
      cases found
      exact mem_cons_self
    · rw [get_cons_ne same] at found
      exact mem_cons_of_mem _ (ih found)

theorem get_of_mem {k : K} {v : V} {entries : List (K × V)} (nodup : (keys entries).Nodup)
    (member : (k, v) ∈ entries) : get k entries = some v := by
  induction entries with
  | nil => cases member
  | cons e rest ih =>
    obtain ⟨key, value⟩ := e
    simp only [map_cons, nodup_cons] at nodup
    rcases mem_cons.mp member with same | later
    · cases same
      exact get_cons_self k v rest
    · have inside : k ∈ keys rest := mem_map_of_mem (f := Prod.fst) later
      have different : key ≠ k := fun same => nodup.1 (by rw [same]; exact inside)
      rw [get_cons_ne different]
      exact ih nodup.2 later

/-! ### `replace` -/

theorem keys_replace : keys (replace k v entries) = keys entries := by
  induction entries with
  | nil => rfl
  | cons e rest ih =>
    obtain ⟨key, value⟩ := e
    unfold replace
    split
    · rfl
    · rw [keys_cons, keys_cons, ih]

theorem get_replace_self {k : K} {entries : List (K × V)} (inside : k ∈ keys entries) :
    get k (replace k v entries) = some v := by
  induction entries with
  | nil => cases inside
  | cons e rest ih =>
    obtain ⟨key, value⟩ := e
    unfold replace
    by_cases same : key = k
    · subst same
      rw [if_pos rfl, get_cons_self]
    · rw [if_neg same, get_cons_ne same]
      exact ih ((mem_cons.mp inside).resolve_left (fun equal => same equal.symm))

theorem get_replace_ne {k other : K} (different : k ≠ other) (v : V) (entries : List (K × V)) :
    get other (replace k v entries) = get other entries := by
  induction entries with
  | nil => rfl
  | cons e rest ih =>
    obtain ⟨key, value⟩ := e
    unfold replace
    by_cases same : key = k
    · subst same
      rw [if_pos rfl, get_cons_ne different, get_cons_ne different]
    · rw [if_neg same]
      by_cases there : key = other
      · subst there
        rw [get_cons_self, get_cons_self]
      · rw [get_cons_ne there, get_cons_ne there, ih]

/-- Overwriting a key replaces its entry and keeps the others. -/
theorem replace_of_get {k : K} {v : V} {entries : List (K × V)} (found : get k entries = some v)
    (new : V) : ∃ before after, entries = before ++ (k, v) :: after ∧
      replace k new entries = before ++ (k, new) :: after := by
  induction entries with
  | nil => cases found
  | cons e rest ih =>
    obtain ⟨key, value⟩ := e
    by_cases same : key = k
    · subst same
      rw [get_cons_self] at found
      cases found
      exact ⟨[], rest, rfl, if_pos rfl⟩
    · rw [get_cons_ne same] at found
      obtain ⟨before, after, rfl, replaced⟩ := ih found
      refine ⟨(key, value) :: before, after, rfl, ?_⟩
      rw [replace, if_neg same, replaced, cons_append]

/-! ### `set` -/

theorem get_append_of_notMem {k : K} {entries : List (K × V)} (absent : k ∉ keys entries)
    (more : List (K × V)) : get k (entries ++ more) = get k more := by
  induction entries with
  | nil => rfl
  | cons e rest ih =>
    obtain ⟨key, value⟩ := e
    simp only [map_cons, mem_cons, not_or] at absent
    rw [cons_append, get_cons_ne (Ne.symm absent.1)]
    exact ih absent.2

theorem get_append_of_mem {k : K} {entries : List (K × V)} (inside : k ∈ keys entries)
    (more : List (K × V)) : get k (entries ++ more) = get k entries := by
  induction entries with
  | nil => cases inside
  | cons e rest ih =>
    obtain ⟨key, value⟩ := e
    by_cases same : key = k
    · subst same
      rw [cons_append, get_cons_self, get_cons_self]
    · rw [cons_append, get_cons_ne same, get_cons_ne same]
      exact ih ((mem_cons.mp inside).resolve_left (fun equal => same equal.symm))

@[simp] theorem get_set_self : get k (set k v entries) = some v := by
  unfold set
  split
  · rename_i present
    exact get_replace_self v (has_iff.mp present)
  · rename_i absent
    rw [get_append_of_notMem (fun inside => absent (has_iff.mpr inside)), get_cons_self]

theorem get_set_ne {k other : K} (different : k ≠ other) (v : V) (entries : List (K × V)) :
    get other (set k v entries) = get other entries := by
  unfold set
  split
  · exact get_replace_ne different v entries
  · by_cases inside : other ∈ keys entries
    · exact get_append_of_mem inside _
    · rw [get_append_of_notMem inside, get_cons_ne different, get_nil, get_eq_none_iff.mpr inside]

theorem get_set (other : K) (v : V) (entries : List (K × V)) :
    get other (set k v entries) = if k = other then some v else get other entries := by
  split
  · rename_i same
    rw [← same, get_set_self]
  · rename_i different
    exact get_set_ne different v entries

theorem replace_self {k : K} {v : V} {entries : List (K × V)} (found : get k entries = some v) :
    replace k v entries = entries := by
  obtain ⟨before, after, rfl, replaced⟩ := replace_of_get found v
  exact replaced

/-- Setting what is there changes nothing. -/
theorem set_self {k : K} {v : V} {entries : List (K × V)} (found : get k entries = some v) :
    set k v entries = entries := by
  rw [set, if_pos (by rw [has, found, Option.isSome_some]), replace_self found]

theorem replace_replace (w : V) (entries : List (K × V)) :
    replace k w (replace k v entries) = replace k w entries := by
  induction entries with
  | nil => rfl
  | cons e rest ih =>
    obtain ⟨key, value⟩ := e
    by_cases same : key = k
    · simp [replace, same]
    · simp [replace, same, ih]

theorem replace_append_of_notMem {k : K} {entries : List (K × V)} (absent : k ∉ keys entries) (v : V)
    (more : List (K × V)) : replace k v (entries ++ more) = entries ++ replace k v more := by
  induction entries with
  | nil => rfl
  | cons e rest ih =>
    obtain ⟨key, value⟩ := e
    simp only [map_cons, mem_cons, not_or] at absent
    rw [cons_append, replace, if_neg (Ne.symm absent.1), ih absent.2, cons_append]

/-- A second `set` overwrites the first. -/
theorem set_set (w : V) (entries : List (K × V)) : set k w (set k v entries) = set k w entries := by
  have present : has k (set k v entries) = true := by
    rw [has, get_set_self, Option.isSome_some]
  rw [set, if_pos present, set, set]
  split
  · exact replace_replace k v w entries
  · rename_i absent
    rw [replace_append_of_notMem fun inside => absent (has_iff.mpr inside)]
    simp [replace]

theorem mem_set {k : K} {v : V} {entries : List (K × V)} {e : K × V}
    (member : e ∈ set k v entries) : e = (k, v) ∨ e ∈ entries := by
  unfold set at member
  split at member
  · rename_i present
    obtain ⟨w, found⟩ := Option.isSome_iff_exists.mp present
    obtain ⟨before, after, rfl, replaced⟩ := replace_of_get found v
    rw [replaced, mem_append, mem_cons] at member
    rw [mem_append, mem_cons]
    rcases member with first | same | last
    · exact .inr (.inl first)
    · exact .inl same
    · exact .inr (.inr (.inr last))
  · rcases List.mem_append.mp member with old | new
    · exact .inr old
    · exact .inl (List.mem_singleton.mp new)

theorem keys_set :
    keys (set k v entries) = if k ∈ keys entries then keys entries else keys entries ++ [k] := by
  unfold set
  by_cases inside : k ∈ keys entries
  · rw [if_pos (has_iff.mpr inside), if_pos inside, keys_replace]
  · rw [if_neg (mt has_iff.mp inside), if_neg inside, keys_append]
    rfl

theorem nodup_set {k : K} {entries : List (K × V)} (nodup : (keys entries).Nodup) :
    (keys (set k v entries)).Nodup := by
  unfold set
  split
  · rw [keys_replace]
    exact nodup
  · rename_i absent
    rw [keys_append]
    refine List.nodup_append.mpr ⟨nodup, nodup_singleton _, fun a inside b single => ?_⟩
    have same : b = k := List.mem_singleton.mp single
    rintro rfl
    exact absent (has_iff.mpr (same ▸ inside))

/-! ### `erase` -/

@[simp] theorem get_erase_self : get k (erase k entries) = none := by
  rw [get_eq_none_iff]
  intro inside
  obtain ⟨e, member, same⟩ := List.mem_map.mp inside
  have kept := (List.mem_filter.mp member).2
  simp only [ne_eq, decide_not, Bool.not_eq_true', decide_eq_false_iff_not] at kept
  exact kept same

theorem get_erase_ne {k other : K} (different : k ≠ other) (entries : List (K × V)) :
    get other (erase k entries) = get other entries := by
  induction entries with
  | nil => rfl
  | cons e rest ih =>
    obtain ⟨key, value⟩ := e
    unfold erase at ih ⊢
    by_cases same : key = k
    · subst same
      rw [filter_cons_of_neg (by simp), ih, get_cons_ne different]
    · rw [filter_cons_of_pos (by simpa using same)]
      by_cases there : key = other
      · subst there
        rw [get_cons_self, get_cons_self]
      · rw [get_cons_ne there, get_cons_ne there, ih]

theorem get_erase (other : K) (entries : List (K × V)) :
    get other (erase k entries) = if k = other then none else get other entries := by
  split
  · rename_i same
    rw [← same, get_erase_self]
  · rename_i different
    exact get_erase_ne different entries

theorem keys_erase : keys (erase k entries) = (keys entries).filter fun key => key ≠ k := by
  rw [erase, keys, keys, filter_map]
  rfl

theorem nodup_erase {entries : List (K × V)} (nodup : (keys entries).Nodup) :
    (keys (erase k entries)).Nodup :=
  nodup.sublist (List.Sublist.map Prod.fst filter_sublist)

/-- **Entries are their keys, in order, and what is under them.** -/
theorem ext {entries other : List (K × V)} (nodup : (keys entries).Nodup)
    (order : keys entries = keys other) (same : ∀ k, get k entries = get k other) :
    entries = other := by
  refine ext_getElem (by simpa using congrArg List.length order) fun i inside there => ?_
  have named : entries[i].1 = other[i].1 := by
    have at_ := getElem_of_eq order (i := i) (by simpa using inside)
    simpa using at_
  have first : get entries[i].1 entries = some entries[i].2 :=
    get_of_mem nodup (getElem_mem inside)
  have second : get other[i].1 other = some other[i].2 :=
    get_of_mem (order ▸ nodup) (getElem_mem there)
  rw [same, named, second] at first
  exact Prod.ext named (Option.some.inj first).symm

theorem ext_of_mem {entries other : List (K × V)} (nodup : (keys other).Nodup)
    (order : keys entries = keys other) (inside : ∀ e ∈ entries, e ∈ other) : entries = other := by
  refine ext (order ▸ nodup) order fun k => ?_
  cases found : get k entries with
  | none =>
    rw [get_eq_none_iff, order] at found
    exact (get_eq_none_iff.mpr found).symm
  | some v => exact (get_of_mem nodup (inside _ (mem_of_get found))).symm

/-- The order of entries does not matter for what is under a key. -/
theorem get_perm {entries other : List (K × V)} (nodup : (keys entries).Nodup)
    (perm : entries.Perm other) (k : K) : get k entries = get k other := by
  cases found : get k other with
  | none =>
    rw [get_eq_none_iff] at found ⊢
    exact fun inside => found ((perm.map Prod.fst).mem_iff.mp inside)
  | some v => exact get_of_mem nodup (perm.mem_iff.mpr (mem_of_get found))

/-! ### Mapping the values -/

variable (f : V → W)

theorem get_mapValues (k : K) (entries : List (K × V)) :
    get k (entries.map fun e => (e.1, f e.2)) = (get k entries).map f := by
  induction entries with
  | nil => rfl
  | cons e rest ih =>
    obtain ⟨key, value⟩ := e
    by_cases same : key = k
    · subst same
      rw [map_cons, get_cons_self, get_cons_self]
      rfl
    · rw [map_cons, get_cons_ne same, get_cons_ne same, ih]

theorem replace_mapValues (k : K) (v : V) (entries : List (K × V)) :
    (replace k v entries).map (fun e => (e.1, f e.2)) =
      replace k (f v) (entries.map fun e => (e.1, f e.2)) := by
  induction entries with
  | nil => rfl
  | cons e rest ih =>
    obtain ⟨key, value⟩ := e
    by_cases same : key = k
    · simp [replace, same]
    · simp [replace, same, ih]

theorem has_mapValues (k : K) (entries : List (K × V)) :
    has k (entries.map fun e => (e.1, f e.2)) = has k entries := by
  rw [has, get_mapValues, Option.isSome_map, has]

theorem set_mapValues (k : K) (v : V) (entries : List (K × V)) :
    (set k v entries).map (fun e => (e.1, f e.2)) =
      set k (f v) (entries.map fun e => (e.1, f e.2)) := by
  unfold set
  rw [has_mapValues]
  split
  · exact replace_mapValues f k v entries
  · rw [map_append, map_singleton]

theorem erase_mapValues (k : K) (entries : List (K × V)) :
    (erase k entries).map (fun e => (e.1, f e.2)) = erase k (entries.map fun e => (e.1, f e.2)) := by
  unfold erase
  rw [filter_map]
  rfl

/-! ### Renaming the keys -/

section Renaming

variable {L : Type} [DecidableEq L] {f : K → L} (injective : Function.Injective f)

include injective

theorem get_mapKeys (k : K) (entries : List (K × V)) :
    get (f k) (entries.map fun e => (f e.1, e.2)) = get k entries := by
  induction entries with
  | nil => rfl
  | cons e rest ih =>
    obtain ⟨key, value⟩ := e
    by_cases same : key = k
    · subst same
      rw [map_cons, get_cons_self, get_cons_self]
    · rw [map_cons, get_cons_ne same, get_cons_ne fun named => same (injective named), ih]

theorem replace_mapKeys (k : K) (v : V) (entries : List (K × V)) :
    (replace k v entries).map (fun e => (f e.1, e.2)) =
      replace (f k) v (entries.map fun e => (f e.1, e.2)) := by
  induction entries with
  | nil => rfl
  | cons e rest ih =>
    obtain ⟨key, value⟩ := e
    by_cases same : key = k
    · simp [replace, same]
    · simp [replace, same, ih, injective.eq_iff]

theorem set_mapKeys (k : K) (v : V) (entries : List (K × V)) :
    (set k v entries).map (fun e => (f e.1, e.2)) =
      set (f k) v (entries.map fun e => (f e.1, e.2)) := by
  unfold set
  rw [has, has, get_mapKeys injective]
  split
  · exact replace_mapKeys injective k v entries
  · rw [map_append, map_singleton]

theorem erase_mapKeys (k : K) (entries : List (K × V)) :
    (erase k entries).map (fun e => (f e.1, e.2)) =
      erase (f k) (entries.map fun e => (f e.1, e.2)) := by
  unfold erase
  rw [filter_map]
  refine congrArg (List.map _) (filter_congr fun e _ => ?_)
  exact decide_eq_decide.mpr (not_congr injective.eq_iff).symm

end Renaming

end TianGong.Assoc
