/-
**Deep equality of values, up to the order of object keys.**

`DeepEq` compares content only: arrays item by item, objects key by key. `equalJson` is the test of
the source, which stops at identical containers.

* `equalJson_sound`: what the test accepts is deeply equal, when both values sit in one heap and
  no object repeats a key (`Strict`).
-/

import TianGong.Chord.Appliers

namespace TianGong.Chord

open List
open TianGong.Json

variable {ι κ μ : Type}

/-! ### Deep equality -/

/-- Equal content, up to the order of object keys. -/
inductive DeepEq : Json ι → Json κ → Prop where
  | null : DeepEq .null .null
  | bool (b : Bool) : DeepEq (.bool b) (.bool b)
  | number (n : JsNumber) : DeepEq (.number n) (.number n)
  | string (s : Text) : DeepEq (.string s) (.string s)
  | array {a : ι} {b : κ} {xs : List (Json ι)} {ys : List (Json κ)} (length : xs.length = ys.length)
      (items : ∀ (i : Nat) (x : Json ι) (y : Json κ), xs[i]? = some x → ys[i]? = some y → DeepEq x y) :
      DeepEq (.array a xs) (.array b ys)
  | object {a : ι} {b : κ} {xs : List (Text × Json ι)} {ys : List (Text × Json κ)}
      (keys : ∀ k, k ∈ Assoc.keys xs ↔ k ∈ Assoc.keys ys)
      (values : ∀ k x y, Assoc.get k xs = some x → Assoc.get k ys = some y → DeepEq x y) :
      DeepEq (.object a xs) (.object b ys)

/-- Lists of values, item by item. -/
def DeepEqList (xs : List (Json ι)) (ys : List (Json κ)) : Prop :=
  xs.length = ys.length ∧
    ∀ (i : Nat) (x : Json ι) (y : Json κ), xs[i]? = some x → ys[i]? = some y → DeepEq x y

theorem DeepEq.refl (j : Json ι) : DeepEq j j := by
  induction j using Json.induction with
  | null => exact .null
  | bool b => exact .bool b
  | number n => exact .number n
  | string s => exact .string s
  | array a items ih =>
    refine .array rfl fun i x y found found' => ?_
    rw [found] at found'
    cases found'
    exact ih x (mem_of_getElem? found)
  | object a fields ih =>
    refine .object (fun _ => Iff.rfl) fun k x y found found' => ?_
    rw [found] at found'
    cases found'
    exact ih (k, x) (Assoc.mem_of_get found)

namespace DeepEqList

theorem nil : DeepEqList ([] : List (Json ι)) ([] : List (Json κ)) :=
  ⟨rfl, fun _ _ _ found => (by cases found)⟩

theorem refl (xs : List (Json ι)) : DeepEqList xs xs := by
  refine ⟨rfl, fun i x y found found' => ?_⟩
  rw [found] at found'
  cases found'
  exact .refl x

theorem cons {x : Json ι} {y : Json κ} {xs : List (Json ι)} {ys : List (Json κ)}
    (head : DeepEq x y) (tail : DeepEqList xs ys) : DeepEqList (x :: xs) (y :: ys) := by
  refine ⟨by rw [length_cons, length_cons, tail.1], fun i v w found found' => ?_⟩
  cases i with
  | zero =>
    cases found
    cases found'
    exact head
  | succ i => exact tail.2 i v w found found'

theorem append {xs xs' : List (Json ι)} {ys ys' : List (Json κ)} (front : DeepEqList xs ys)
    (back : DeepEqList xs' ys') : DeepEqList (xs ++ xs') (ys ++ ys') := by
  refine ⟨by rw [length_append, length_append, front.1, back.1], ?_⟩
  intro i x y found found'
  by_cases inside : i < xs.length
  · rw [List.getElem?_append_left inside] at found
    rw [List.getElem?_append_left (front.1 ▸ inside)] at found'
    exact front.2 i x y found found'
  · rw [List.getElem?_append_right (Nat.le_of_not_lt inside)] at found
    rw [List.getElem?_append_right (front.1 ▸ Nat.le_of_not_lt inside), ← front.1] at found'
    exact back.2 _ x y found found'

end DeepEqList

theorem DeepEq.of_items {a : ι} {b : κ} {xs : List (Json ι)} {ys : List (Json κ)}
    (items : DeepEqList xs ys) : DeepEq (.array a xs) (.array b ys) := .array items.1 items.2

variable {y : Json κ}

/-- Deep equality does not look at identities. -/
theorem DeepEq.relabel (f : ι → μ) {x : Json ι} (equal : DeepEq x y) :
    DeepEq (Json.relabel f x) y := by
  induction equal with
  | null => exact .null
  | bool b => exact .bool b
  | number n => exact .number n
  | string s => exact .string s
  | array length items ih =>
    rw [relabel_array]
    refine .array (by rw [length_map, length]) fun i x y found found' => ?_
    rw [List.getElem?_map] at found
    obtain ⟨x₀, found₀, rfl⟩ := Option.map_eq_some_iff.mp found
    exact ih i x₀ y found₀ found'
  | object keys values ih =>
    rw [relabel_object]
    refine .object (fun k => ?_) fun k x y found found' => ?_
    · rw [← keys, Assoc.keys, map_map]
      rfl
    · rw [Assoc.get_mapValues] at found
      obtain ⟨x₀, found₀, rfl⟩ := Option.map_eq_some_iff.mp found
      exact ih k x₀ y found₀ found'

theorem DeepEq.of_relabel (f : ι → μ) {x : Json ι} (equal : DeepEq (Json.relabel f x) y) :
    DeepEq x y := by
  induction x using Json.induction generalizing y with
  | null | bool | number | string =>
    cases equal
    constructor
  | array a items ih =>
    rw [relabel_array] at equal
    cases equal with
    | array length parts =>
      rw [length_map] at length
      refine .array length fun i x y found found' => ?_
      refine ih x (mem_of_getElem? found) (parts i _ y ?_ found')
      rw [List.getElem?_map, found]
      rfl
  | object a fields ih =>
    rw [relabel_object] at equal
    cases equal with
    | object keys values =>
      refine .object (fun k => ?_) fun k x y found found' => ?_
      · rw [← keys, Assoc.keys, Assoc.keys, map_map]
        rfl
      · refine ih (k, x) (Assoc.mem_of_get found) (values k _ y ?_ found')
        rw [Assoc.get_mapValues, found]
        rfl

/-- **Deep equality is a fact about contents.** -/
theorem DeepEq.of_erase {x x' : Json ι} (content : erase x' = erase x) (equal : DeepEq x y) :
    DeepEq x' y := by
  refine DeepEq.of_relabel (fun _ => ()) ?_
  rw [show Json.relabel (fun _ => ()) x' = Json.relabel (fun _ => ()) x from content]
  exact equal.relabel _

/-! ### Strict values -/

/-- No object repeats a key. -/
inductive Strict : Json ι → Prop where
  | null : Strict .null
  | bool (b : Bool) : Strict (.bool b)
  | number (n : JsNumber) : Strict (.number n)
  | string (s : Text) : Strict (.string s)
  | array {a : ι} {xs : List (Json ι)} (items : ∀ x ∈ xs, Strict x) : Strict (.array a xs)
  | object {a : ι} {xs : List (Text × Json ι)} (keys : (Assoc.keys xs).Nodup)
      (values : ∀ e ∈ xs, Strict e.2) : Strict (.object a xs)

/-! ### The test -/

/-- `left === right`: primitives by value, containers by identity. -/
def identical (left right : Json Addr) : Bool := left.val = right.val

mutual
def equalJson (left right : Json Addr) : Bool :=
  if identical left right then true
  else match left, right with
    | .array _ xs, .array _ ys => xs.length == ys.length && equalItems xs ys
    | .object _ xs, .object _ ys => xs.length == ys.length && equalFields xs ys
    | _, _ => false

/-- The loop over the items of two arrays of one length. -/
def equalItems : List (Json Addr) → List (Json Addr) → Bool
  | x :: xs, y :: ys => equalJson x y && equalItems xs ys
  | _, _ => true

/-- The loop over the keys of the left object. -/
def equalFields : List (Text × Json Addr) → List (Text × Json Addr) → Bool
  | [], _ => true
  | (k, x) :: xs, ys =>
    match Assoc.get k ys with
    | some y => equalJson x y && equalFields xs ys
    | none => false
end

/-- Two values in one heap. -/
structure InHeap (h : Heap) (x : Json Addr) : Prop where
  held : Held h x
  strict : Strict x

variable {h : Heap} {a : Addr} {xs : List (Text × Json Addr)} {x : Json Addr}

theorem InHeap.item {xs : List (Json Addr)} (inHeap : InHeap h (.array a xs)) (member : x ∈ xs) :
    InHeap h x := by
  refine ⟨(held_build (n := .array xs).mp inHeap.held).2 x member, ?_⟩
  cases inHeap.strict with
  | array items => exact items x member

theorem InHeap.field (inHeap : InHeap h (.object a xs)) {k : Text} (member : (k, x) ∈ xs) :
    InHeap h x := by
  refine ⟨(held_build (n := .object xs).mp inHeap.held).2 x (mem_map_of_mem member), ?_⟩
  cases inHeap.strict with
  | object _ values => exact values _ member

theorem InHeap.keys (inHeap : InHeap h (.object a xs)) : (Assoc.keys xs).Nodup := by
  cases inHeap.strict with
  | object keys _ => exact keys

/-- Identical values in one heap are one value. -/
theorem eq_of_identical {y : Json Addr} (inX : InHeap h x) (inY : InHeap h y)
    (same : identical x y = true) : x = y :=
  held_unique inX.held inY.held (of_decide_eq_true same)

theorem equalItems_sound {xs ys : List (Json Addr)} (length : xs.length = ys.length)
    (parts : ∀ x ∈ xs, ∀ y ∈ ys, equalJson x y = true → DeepEq x y)
    (equal : equalItems xs ys = true) : DeepEqList xs ys := by
  induction xs generalizing ys with
  | nil =>
    cases ys with
    | nil => exact .nil
    | cons y ys => cases length
  | cons x xs ih =>
    cases ys with
    | nil => cases length
    | cons y ys =>
      rw [equalItems, Bool.and_eq_true] at equal
      refine .cons (parts x mem_cons_self y mem_cons_self equal.1)
        (ih (Nat.succ.inj length) (fun v inX w inY => ?_) equal.2)
      exact parts v (mem_cons_of_mem _ inX) w (mem_cons_of_mem _ inY)

theorem equalFields_sound {ys : List (Text × Json Addr)} (equal : equalFields xs ys = true) :
    ∀ k x, (k, x) ∈ xs → ∃ y, Assoc.get k ys = some y ∧ equalJson x y = true := by
  induction xs with
  | nil => exact fun _ _ member => (by cases member)
  | cons e xs ih =>
    obtain ⟨key, value⟩ := e
    rw [equalFields] at equal
    cases found : Assoc.get key ys with
    | none =>
      rw [found] at equal
      cases equal
    | some y =>
      rw [found, Bool.and_eq_true] at equal
      intro k x member
      rcases List.mem_cons.mp member with same | later
      · cases same
        exact ⟨y, found, equal.1⟩
      · exact ih equal.2 k x later

/-- **What `equalJson` accepts is deeply equal.** -/
theorem equalJson_sound {y : Json Addr} (inX : InHeap h x) (inY : InHeap h y)
    (equal : equalJson x y = true) : DeepEq x y := by
  induction x using Json.induction generalizing y with
  | null | bool | number | string =>
    unfold equalJson at equal
    split at equal
    · rename_i same
      rw [eq_of_identical inX inY same]
      exact .refl y
    · cases equal
  | array a xs ih =>
    unfold equalJson at equal
    split at equal
    · rename_i same
      rw [eq_of_identical inX inY same]
      exact .refl y
    · cases y with
      | array b ys =>
        rw [Bool.and_eq_true, beq_iff_eq] at equal
        refine .of_items (equalItems_sound equal.1 (fun v left w right => ?_) equal.2)
        exact ih v left (inX.item left) (inY.item right)
      | null | bool | number | string | object => cases equal
  | object a xs ih =>
    unfold equalJson at equal
    split at equal
    · rename_i same
      rw [eq_of_identical inX inY same]
      exact .refl y
    · cases y with
      | object b ys =>
        rw [Bool.and_eq_true, beq_iff_eq] at equal
        have fields := equalFields_sound equal.2
        -- As many keys, each of the left among the right, and none twice: the same keys.
        have subset : Assoc.keys xs ⊆ Assoc.keys ys := by
          intro k member
          obtain ⟨e, inside, rfl⟩ := List.mem_map.mp member
          obtain ⟨w, found, _⟩ := fields e.1 e.2 inside
          have there : Prod.fst (e.1, w) ∈ Assoc.keys ys :=
            mem_map_of_mem (Assoc.mem_of_get found)
          exact there
        have perm := (subperm_of_subset inX.keys subset).perm_of_length_le
          (by simp [Assoc.keys, equal.1])
        refine .object (fun k => perm.mem_iff) fun k v w found found' => ?_
        obtain ⟨w', other, same⟩ := fields k v (Assoc.mem_of_get found)
        rw [found'] at other
        cases other
        exact ih (k, v) (Assoc.mem_of_get found) (inX.field (Assoc.mem_of_get found))
          (inY.field (Assoc.mem_of_get found')) same
      | null | bool | number | string | array => cases equal

end TianGong.Chord
