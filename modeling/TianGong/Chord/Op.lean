/-
**Delta operations: paths, verbs and their validation.**

`Op V` is a decoded operation with payloads of type `V` (a value tree, or a heap reference). The
verb letters are the source's. Sequence numbers, counts and indices are non-negative integers by
type; what is left for `assertValidOp` to reject is a reserved segment, an empty path under a verb
that cannot address the root, and an `m` whose list is not a permutation.

`assertPermutation_iff`: the permutation check accepts exactly the rearrangements of `0 … n - 1`.
-/

import TianGong.Text
import Mathlib.Data.List.Perm.Subperm
import Mathlib.Data.List.Range

namespace TianGong.Chord

open List

/-! ### Paths -/

/-- A path segment: a property key or an array index. -/
inductive Seg where
  | key (k : Text)
  | index (n : Nat)
  deriving DecidableEq

abbrev Path := List Seg

/-- The property key a segment addresses on an object: `String(segment)`. -/
def Seg.text : Seg → Text
  | .key k => k
  | .index n => decimal n

/-- `JSON.stringify` of a segment. -/
def Seg.json : Seg → Text
  | .key k => quote k
  | .index n => decimal n

/-- Segments that reach the prototype chain. -/
def reservedSegments : List Text := [text "__proto__", text "constructor", text "prototype"]

/-- The segment is a reserved key. -/
def Seg.reserved : Seg → Bool
  | .key k => reservedSegments.contains k
  | .index _ => false

/-! ### Errors -/

/-- What the delta code throws. -/
inductive DeltaError where
  /-- `TypeError`, with its message. -/
  | type (message : Text)
  /-- `UnsafePathError`. -/
  | unsafePath (segment : Seg)
  /-- `PathError` of a path. -/
  | path (path : Path)
  /-- `PathError` of a path id. -/
  | pathId (id : Nat)
  deriving DecidableEq

/-- `JSON.stringify` of a path. -/
def pathKey (path : Path) : Text := jsonArray (path.map Seg.json)

/-! ### Operations -/

/-- A decoded operation. -/
inductive Op (V : Type) where
  /-- Replace the whole value. -/
  | r (value : V)
  /-- Set a property or an array element. -/
  | s (path : Path) (value : V)
  /-- Delete a property or an array element. -/
  | d (path : Path)
  /-- Append to a string. -/
  | a (path : Path) (suffix : Text)
  /-- Drop a prefix of a string. -/
  | t (path : Path) (count : Nat)
  /-- Splice an array. -/
  | p (path : Path) (index remove : Nat) (items : List V)
  /-- Reorder an array in place: `new[i] = old[permutation[i]]`. -/
  | m (path : Path) (permutation : List Nat)
  deriving DecidableEq

namespace Op

variable {V W : Type}

/-- The operation with its payloads mapped. -/
def map (f : V → W) : Op V → Op W
  | .r value => .r (f value)
  | .s path value => .s path (f value)
  | .d path => .d path
  | .a path suffix => .a path suffix
  | .t path count => .t path count
  | .p path index remove items => .p path index remove (items.map f)
  | .m path permutation => .m path permutation

/-- The payloads of an operation. -/
def payload : Op V → List V
  | .r value => [value]
  | .s _ value => [value]
  | .p _ _ _ items => items
  | _ => []

/-- The path of an operation; an `r` has none. -/
def path : Op V → Path
  | .r _ => []
  | .s path _ | .d path | .a path _ | .t path _ | .p path _ _ _ | .m path _ => path

/-- Whether the verb may address the root: `p` and `m` may. -/
def mayTargetRoot : Op V → Bool
  | .p _ _ _ _ => true
  | .m _ _ => true
  | _ => false

/-- The operation replaces the whole value. -/
def isReplace : Op V → Bool
  | .r _ => true
  | _ => false

end Op

/-- A batch begins with a replacement. -/
def isBase {V : Type} : List (Op V) → Bool
  | .r _ :: _ => true
  | _ => false

/-! ### Validation -/

/-- No segment of the path is reserved. -/
def assertSafePath : Path → Except DeltaError Unit
  | [] => .ok ()
  | segment :: rest =>
    if segment.reserved then .error (.unsafePath segment) else assertSafePath rest

def assertPathArg (path : Path) (nonEmpty : Bool) : Except DeltaError Unit :=
  if nonEmpty && path.isEmpty then .error (.type (text "path is empty")) else assertSafePath path

/-- The loop of `assertPermutation`: each index is in range and not seen before. -/
def permutationLoop (length : Nat) : List Nat → List Nat → Bool
  | _, [] => true
  | seen, index :: rest =>
    if index ≥ length ∨ index ∈ seen then false else permutationLoop length (index :: seen) rest

def assertPermutation (permutation : List Nat) : Except DeltaError Unit :=
  if permutationLoop permutation.length [] permutation then .ok ()
  else .error (.type (text "m permutation is not a bijection"))

def assertValidOp {V : Type} : Op V → Except DeltaError Unit
  | .r _ => .ok ()
  | .s path _ => assertPathArg path true
  | .d path => assertPathArg path true
  | .a path _ => assertPathArg path true
  | .t path _ => assertPathArg path true
  | .p path _ _ _ => assertPathArg path false
  | .m path permutation => do
    assertPathArg path false
    assertPermutation permutation

/-- The operation passes `assertValidOp`. -/
def Op.Valid {V : Type} (op : Op V) : Prop := assertValidOp op = .ok ()

instance {V : Type} (op : Op V) : Decidable op.Valid :=
  match same : assertValidOp op with
  | .ok () => isTrue same
  | .error e => isFalse fun valid => by rw [Op.Valid, same] at valid; cases valid

/-- No segment is reserved. -/
def SafePath (path : Path) : Prop := ∀ segment ∈ path, segment.reserved = false

theorem assertSafePath_ok_iff {path : Path} : assertSafePath path = .ok () ↔ SafePath path := by
  induction path with
  | nil => exact ⟨fun _ segment member => (by cases member), fun _ => rfl⟩
  | cons segment rest ih =>
    unfold assertSafePath
    split
    · rename_i reserved
      refine ⟨fun equal => (nomatch equal), fun safe => ?_⟩
      rw [safe segment mem_cons_self] at reserved
      cases reserved
    · rename_i plain
      rw [ih]
      simp only [SafePath, mem_cons, forall_eq_or_imp]
      exact ⟨fun safe => ⟨by simpa using plain, safe⟩, fun safe => safe.2⟩

theorem assertPathArg_ok_iff {path : Path} {nonEmpty : Bool} :
    assertPathArg path nonEmpty = .ok () ↔ (nonEmpty = true → path ≠ []) ∧ SafePath path := by
  unfold assertPathArg
  split
  · rename_i empty
    simp only [Bool.and_eq_true, List.isEmpty_iff] at empty
    exact ⟨fun equal => (nomatch equal), fun safe => (safe.1 empty.1 empty.2).elim⟩
  · rename_i full
    simp only [Bool.and_eq_true, List.isEmpty_iff, not_and] at full
    rw [assertSafePath_ok_iff]
    exact ⟨fun safe => ⟨full, safe⟩, fun safe => safe.2⟩

/-- What `assertValidOp` grants: a safe path, which is not the root's unless the verb may
address the root, and a list under `m` that is a permutation. -/
theorem Op.Valid.parts {V : Type} {op : Op V} (valid : op.Valid) (base : op.isReplace = false) :
    SafePath op.path ∧ (op.mayTargetRoot = false → op.path ≠ []) ∧
      ∀ path permutation, op = .m path permutation → assertPermutation permutation = .ok () := by
  cases op with
  | r value => cases base
  | s path value =>
    obtain ⟨full, safe⟩ := assertPathArg_ok_iff.mp valid
    exact ⟨safe, fun _ => full rfl, fun _ _ same => nomatch same⟩
  | d path =>
    obtain ⟨full, safe⟩ := assertPathArg_ok_iff.mp valid
    exact ⟨safe, fun _ => full rfl, fun _ _ same => nomatch same⟩
  | a path suffix =>
    obtain ⟨full, safe⟩ := assertPathArg_ok_iff.mp valid
    exact ⟨safe, fun _ => full rfl, fun _ _ same => nomatch same⟩
  | t path count =>
    obtain ⟨full, safe⟩ := assertPathArg_ok_iff.mp valid
    exact ⟨safe, fun _ => full rfl, fun _ _ same => nomatch same⟩
  | p path index remove items =>
    obtain ⟨_, safe⟩ := assertPathArg_ok_iff.mp valid
    exact ⟨safe, fun target => (nomatch target), fun _ _ same => nomatch same⟩
  | m path permutation =>
    cases shape : assertPathArg path false with
    | error e => simp [Op.Valid, assertValidOp, shape, bind, Except.bind] at valid
    | ok _ =>
      obtain ⟨_, safe⟩ := assertPathArg_ok_iff.mp shape
      simp only [Op.Valid, assertValidOp, shape, bind, Except.bind] at valid
      refine ⟨safe, fun target => (nomatch target), fun _ _ same => ?_⟩
      cases same
      exact valid

theorem permutationLoop_iff {length : Nat} {seen rest : List Nat} (fresh : seen.Nodup) :
    permutationLoop length seen rest = true ↔ (∀ i ∈ rest, i < length) ∧ (rest ++ seen).Nodup := by
  induction rest generalizing seen with
  | nil => simp [permutationLoop, fresh]
  | cons index rest ih =>
    unfold permutationLoop
    split
    · rename_i bad
      simp only [Bool.false_eq_true, mem_cons, forall_eq_or_imp, cons_append,
        nodup_cons, mem_append, not_or, false_iff, not_and]
      intro inside distinct
      rcases bad with large | again
      · omega
      · exact absurd again distinct.2
    · rename_i good
      rw [not_or, not_le] at good
      rw [ih (List.nodup_cons.mpr ⟨good.2, fresh⟩)]
      have perm : (rest ++ index :: seen).Perm (index :: (rest ++ seen)) := perm_middle
      simp only [mem_cons, forall_eq_or_imp, cons_append, perm.nodup_iff]
      exact ⟨fun h => ⟨⟨good.1, h.1⟩, h.2⟩, fun h => ⟨h.1.2, h.2⟩⟩

/-- **The permutation check accepts exactly the rearrangements of `0 … n - 1`.** -/
theorem assertPermutation_iff {permutation : List Nat} :
    assertPermutation permutation = .ok () ↔ permutation.Perm (List.range permutation.length) := by
  have loop := @permutationLoop_iff permutation.length [] permutation nodup_nil
  rw [append_nil] at loop
  have accepted : assertPermutation permutation = .ok () ↔
      permutationLoop permutation.length [] permutation = true := by
    unfold assertPermutation
    split <;> simp_all
  rw [accepted, loop]
  constructor
  · rintro ⟨inside, distinct⟩
    refine (subperm_of_subset distinct fun i member => ?_).perm_of_length_le (by simp)
    exact List.mem_range.mpr (inside i member)
  · intro perm
    exact ⟨fun i member => List.mem_range.mp (perm.subset member),
      perm.nodup_iff.mpr nodup_range⟩

/-! ### Path keys -/

theorem segJson_item : ItemText Seg.json where
  starts segment := by
    cases segment with
    | key k => exact ⟨_, _, rfl, by decide⟩
    | index n =>
      obtain ⟨c, rest, shape⟩ := exists_cons_of_ne_nil (decimal_ne_nil n)
      refine ⟨c, rest, shape, ?_⟩
      have digit : isDigit c = true := decimal_isDigit (n := n) (by rw [shape]; simp)
      rintro rfl
      exact absurd digit (by decide)
  ends {a b rest other} endsRest endsOther same := by
    have noDigit : ∀ {t : Text}, EndsItem t → NoDigit t := by
      rintro t (comma | bracket) c member
      · rw [comma] at member
        cases member
        decide
      · rw [bracket] at member
        cases member
        decide
    have quoted : ∀ (k : Text) (n : Nat) (t u : Text), quote k ++ t ≠ decimal n ++ u := by
      intro k n t u equal
      obtain ⟨c, tail, shape⟩ := exists_cons_of_ne_nil (decimal_ne_nil n)
      have digit : isDigit c = true := decimal_isDigit (n := n) (by rw [shape]; simp)
      rw [shape, quote, cons_append, cons_append] at equal
      rw [← (List.cons.inj equal).1] at digit
      exact absurd digit (by decide)
    cases a with
    | key k =>
      cases b with
      | key l =>
        obtain ⟨rfl, rests⟩ := quote_append_inj same
        exact ⟨rfl, rests⟩
      | index n => exact (quoted k n _ _ same).elim
    | index n =>
      cases b with
      | key l => exact (quoted l n _ _ same.symm).elim
      | index o =>
        obtain ⟨rfl, rests⟩ := decimal_append_inj (noDigit endsRest) (noDigit endsOther) same
        exact ⟨rfl, rests⟩

/-- **Two paths with the same key are the same path.** -/
theorem pathKey_injective {first second : Path} (same : pathKey first = pathKey second) :
    first = second := segJson_item.jsonArray_inj same

end TianGong.Chord
