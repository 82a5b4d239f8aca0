/-
**What an operation does to a value.**

A container without its identity is a `Node`: the items of an array or the fields of an object, with
parts of any type (a subtree, or a heap reference). An operation is an edit of one node, the one at
its `site`; `transform` applies the edit there. This is the purpose the appliers are compared with:
it neither copies nor mutates.

* `transform_relabel`: hence a transformation does not look at identities.
* `Op.weight_edit`: an edit keeps parts or takes them from its payload, and duplicates none.
-/

import TianGong.Chord.Json
import TianGong.Chord.Op
import TianGong.Lib.Splice

namespace TianGong.Chord

open TianGong.Lib
open List Option

/-! ### Nodes -/

/-- A container's parts. -/
inductive Node (V : Type) where
  | array (items : List V)
  | object (fields : List (Text × V))
  deriving DecidableEq

/-- Parts that may be strings. -/
class HasString (V : Type) where
  string : Text → V
  asString : V → Option Text
  asString_string : ∀ s, asString (string s) = some s

namespace Node

variable {V W : Type}

def map (f : V → W) : Node V → Node W
  | .array items => .array (items.map f)
  | .object fields => .object (fields.map fun e => (e.1, f e.2))

/-- The parts, in order. -/
def parts : Node V → List V
  | .array items => items
  | .object fields => fields.map Prod.snd

/-- `Array.isArray`. -/
def isArray : Node V → Bool
  | .array _ => true
  | .object _ => false

/-- The own property under a segment. A key addresses no element of an array. -/
def own : Node V → Seg → Option V
  | .array items, .index n => items[n]?
  | .array _, .key _ => none
  | .object fields, segment => Assoc.get segment.text fields

/-- Define a data property; on an array, at an index that is there or one past the end. -/
def write (segment : Seg) (v : V) : Node V → Option (Node V)
  | .array items =>
    match segment with
    | .key _ => none
    | .index n =>
      if n < items.length then some (.array (items.set n v))
      else if n = items.length then some (.array (items ++ [v]))
      else none
  | .object fields => some (.object (Assoc.set segment.text v fields))

/-- Delete a property; on an array, an element, and the elements after it move down. -/
def delete (segment : Seg) : Node V → Option (Node V)
  | .array items =>
    match segment with
    | .key _ => none
    | .index n => if n < items.length then some (.array (splice n 1 [] items)) else none
  | .object fields => some (.object (Assoc.erase segment.text fields))

variable (f : V → W)

theorem own_map (n : Node V) (segment : Seg) : (n.map f).own segment = (n.own segment).map f := by
  cases n with
  | array items =>
    cases segment with
    | key k => rfl
    | index i => exact List.getElem?_map
  | object fields => exact Assoc.get_mapValues f _ fields

theorem write_map (segment : Seg) (v : V) (n : Node V) :
    (n.map f).write segment (f v) = (n.write segment v).map (map f) := by
  cases n with
  | array items =>
    cases segment with
    | key k => rfl
    | index i =>
      simp only [map, write, length_map]
      split_ifs <;> simp [map]
  | object fields => simp only [map, write, map_some, Assoc.set_mapValues]

theorem delete_map (segment : Seg) (n : Node V) :
    (n.map f).delete segment = (n.delete segment).map (map f) := by
  cases n with
  | array items =>
    cases segment with
    | key k => rfl
    | index i =>
      simp only [map, delete, length_map]
      split_ifs
      · simp only [map_some, map, map_splice, map_nil]
      · rfl
  | object fields => simp only [map, delete, map_some, Assoc.erase_mapValues]

end Node

/-! ### One part of a node -/

variable {V W : Type}

variable {segment : Seg} {n : Node V}

/-- An own property is one part, and writing it replaces that part. -/
theorem Node.write_own {c : V} (own : n.own segment = some c) (c' : V) :
    ∃ before after n', n.parts = before ++ c :: after ∧ n.write segment c' = some n' ∧
      n'.parts = before ++ c' :: after ∧
      ∀ {W : Type} (f : V → W), f c' = f c → n'.map f = n.map f := by
  cases n with
  | array items =>
    cases segment with
    | key k => cases own
    | index i =>
      obtain ⟨inside, here⟩ := List.getElem?_eq_some_iff.mp own
      refine ⟨items.take i, items.drop (i + 1), .array (items.set i c'), ?_, ?_, ?_, ?_⟩
      · rw [← here, Node.parts]
        simp
      · simp [Node.write, inside]
      · simp [Node.parts, set_eq_take_append_cons_drop, inside]
      · intro W f same
        have kept : (items.map f).set i (f items[i]) = items.map f := by
          rw [← getElem_map f (h := by simpa using inside), set_getElem_self]
        simp only [Node.map, map_set, same, ← here, kept]
  | object fields =>
    obtain ⟨before, after, rfl, new⟩ := Assoc.replace_of_get own c'
    refine ⟨before.map Prod.snd, after.map Prod.snd, _, ?_, rfl, ?_, ?_⟩
    · simp [Node.parts]
    · have present : Assoc.has segment.text (before ++ (segment.text, c) :: after) = true := by
        rw [Assoc.has, show Assoc.get segment.text (before ++ (segment.text, c) :: after) = some c
          from own, isSome_some]
      simp [Node.parts, Assoc.set, present, new]
    · intro W f same
      have present : Assoc.has segment.text (before ++ (segment.text, c) :: after) = true := by
        rw [Assoc.has, show Assoc.get segment.text (before ++ (segment.text, c) :: after) = some c
          from own, isSome_some]
      simp [Node.map, Assoc.set, present, new, same]

/-- Writing what is there changes nothing. -/
theorem Node.write_own_self {c : V} (own : n.own segment = some c) :
    n.write segment c = some n := by
  cases n with
  | array items =>
    cases segment with
    | key k => cases own
    | index i =>
      obtain ⟨inside, here⟩ := List.getElem?_eq_some_iff.mp own
      rw [Node.write, if_pos inside, ← here, set_getElem_self]
  | object fields =>
    have found : Assoc.get segment.text fields = some c := own
    rw [Node.write, Assoc.set_self found]

theorem Node.own_write_self {n' : Node V} {v : V} (written : n.write segment v = some n') :
    n'.own segment = some v := by
  cases n with
  | array items =>
    cases segment with
    | key k => cases written
    | index i =>
      simp only [Node.write] at written
      split_ifs at written with inside last
      · cases written
        simp [Node.own, inside]
      · cases written
        simp [Node.own, last]
  | object fields =>
    cases written
    exact Assoc.get_set_self _ v fields

/-- A second write overwrites the first. -/
theorem Node.write_write {n' : Node V} {v : V} (written : n.write segment v = some n') (w : V) :
    n'.write segment w = n.write segment w := by
  cases n with
  | array items =>
    cases segment with
    | key k => cases written
    | index i =>
      simp only [Node.write] at written
      split_ifs at written with inside last
      · cases written
        simp [Node.write, inside]
      · cases written
        simp [Node.write, last]
  | object fields =>
    cases written
    simp only [Node.write, Assoc.set_set]

/-- Rewrite the string under a segment. -/
def Node.editString {V : Type} [HasString V] (segment : Seg) (f : Text → Text) (n : Node V) :
    Option (Node V) :=
  n.own segment >>= fun v => HasString.asString v >>= fun current =>
    n.write segment (HasString.string (f current))

/-! ### The edit of an operation -/

/-- The container an operation edits: its own target for `p` and `m`, else its target's parent. -/
def Op.site {V : Type} : Op V → Path
  | .r _ => []
  | .s path _ | .d path | .a path _ | .t path _ => path.dropLast
  | .p path _ _ _ | .m path _ => path

/-- `new[i] = old[permutation[i]]`. -/
def permute {V : Type} : List Nat → List V → Option (List V)
  | [], _ => some []
  | i :: rest, items => items[i]? >>= fun v => (permute rest items).map (v :: ·)

/-- What an operation does to the node at its site. -/
def Op.edit {V : Type} [HasString V] : Op V → Node V → Option (Node V)
  | .r _, _ => none
  | .s path value, n => path.getLast? >>= fun k => n.write k value
  | .d path, n => path.getLast? >>= fun k => n.delete k
  | .a path suffix, n => path.getLast? >>= fun k => n.editString k (· ++ suffix)
  | .t path count, n => path.getLast? >>= fun k => n.editString k (·.drop count)
  | .p _ index remove items, .array old => some (.array (splice index remove items old))
  | .p _ _ _ _, .object _ => none
  | .m _ permutation, .array old =>
    if old.length = permutation.length then (permute permutation old).map .array else none
  | .m _ _, .object _ => none

/-- A map of parts that keeps strings. -/
structure KeepsString {V W : Type} [HasString V] [HasString W] (f : V → W) : Prop where
  string : ∀ s, f (HasString.string s) = HasString.string s
  asString : ∀ v, HasString.asString (f v) = HasString.asString v

variable (f : V → W) (op : Op V)

theorem permute_map (permutation : List Nat) (items : List V) :
    permute permutation (items.map f) = (permute permutation items).map (List.map f) := by
  induction permutation with
  | nil => rfl
  | cons i rest ih =>
    simp only [permute, ih, List.getElem?_map]
    cases items[i]? with
    | none => rfl
    | some v => cases permute rest items <;> rfl

theorem Op.site_map : (op.map f).site = op.site := by
  cases op <;> rfl

theorem Op.assertValidOp_map : assertValidOp (op.map f) = assertValidOp op := by
  cases op <;> rfl

theorem Op.valid_map : (op.map f).Valid ↔ op.Valid := by
  rw [Op.Valid, Op.assertValidOp_map, Op.Valid]

theorem Node.editString_map [HasString V] [HasString W] {f : V → W} (keeps : KeepsString f)
    (segment : Seg) (g : Text → Text) (n : Node V) :
    (n.map f).editString segment g = (n.editString segment g).map (Node.map f) := by
  simp only [Node.editString, bind_eq_bind, Node.own_map]
  cases n.own segment with
  | none => rfl
  | some v =>
    simp only [map_some, bind_some, keeps.asString]
    cases HasString.asString v with
    | none => rfl
    | some current =>
      rw [bind_some, bind_some, ← keeps.string]
      exact Node.write_map f segment _ n

/-- **An edit looks at its parts only where it reads a string.** -/
theorem Op.edit_map [HasString V] [HasString W] {f : V → W} (keeps : KeepsString f) (op : Op V)
    (n : Node V) : (op.map f).edit (n.map f) = (op.edit n).map (Node.map f) := by
  cases op with
  | r value => rfl
  | s path value =>
    simp only [Op.map, Op.edit]
    cases path.getLast? with
    | none => rfl
    | some k => exact Node.write_map f k value n
  | d path =>
    simp only [Op.map, Op.edit]
    cases path.getLast? with
    | none => rfl
    | some k => exact Node.delete_map f k n
  | a path suffix | t path count =>
    simp only [Op.map, Op.edit]
    cases path.getLast? with
    | none => rfl
    | some k => exact Node.editString_map keeps k _ n
  | p path index remove items =>
    cases n with
    | array old => simp only [Op.map, Node.map, Op.edit, map_some, map_splice]
    | object fields => rfl
  | m path permutation =>
    cases n with
    | array old =>
      simp only [Op.map, Node.map, Op.edit, length_map, permute_map]
      split_ifs
      · cases permute permutation old <;> rfl
      · rfl
    | object fields => rfl

/-! ### Where the parts of an edited node come from -/

theorem permute_perm {permutation : List Nat} {items result : List V}
    (found : permute permutation items = some result) :
    result.map some = permutation.map fun i => items[i]? := by
  induction permutation generalizing result with
  | nil =>
    cases found
    rfl
  | cons i rest ih =>
    obtain ⟨v, here, more⟩ := bind_eq_some_iff.mp found
    obtain ⟨tail, later, rfl⟩ := Option.map_eq_some_iff.mp more
    rw [map_cons, map_cons, ih later, here]

/-- Reordering by a permutation keeps every item once. -/
theorem permute_items_perm {permutation : List Nat} {items result : List V}
    (bijection : permutation.Perm (List.range permutation.length))
    (length : items.length = permutation.length)
    (found : permute permutation items = some result) : result.Perm items := by
  have whole : (List.range permutation.length).map (fun i => items[i]?) = items.map some := by
    rw [← length]
    apply ext_getElem?
    intro i
    by_cases inside : i < items.length
    · simp [inside]
    · simp [inside]
  have options : (result.map some).Perm (items.map some) := by
    rw [permute_perm found, ← whole]
    exact bijection.map _
  have back := options.filterMap id
  simpa [filterMap_map] using back

theorem sum_map_replace_le (weight : V → Nat) (k : Text) (v : V) (fields : List (Text × V)) :
    ((Assoc.replace k v fields).map fun e => weight e.2).sum ≤
      (fields.map fun e => weight e.2).sum + weight v := by
  induction fields with
  | nil => simp [Assoc.replace]
  | cons e rest ih =>
    obtain ⟨key, value⟩ := e
    unfold Assoc.replace
    split
    · simp only [map_cons, sum_cons]
      omega
    · simp only [map_cons, sum_cons]
      omega

theorem sum_map_erase_le (weight : V → Nat) (k : Text) (fields : List (Text × V)) :
    ((Assoc.erase k fields).map fun e => weight e.2).sum ≤ (fields.map fun e => weight e.2).sum := by
  induction fields with
  | nil => exact Nat.le_refl _
  | cons e rest ih =>
    unfold Assoc.erase at ih ⊢
    by_cases same : e.1 = k
    · rw [filter_cons_of_neg (by simpa using same), map_cons, sum_cons]
      omega
    · rw [filter_cons_of_pos (by simpa using same), map_cons, sum_cons, map_cons, sum_cons]
      omega

theorem sum_map_set_le (weight : V → Nat) (n : Nat) (v : V) (items : List V) :
    ((items.set n v).map weight).sum ≤ (items.map weight).sum + weight v := by
  induction items generalizing n with
  | nil => simp
  | cons x xs ih =>
    cases n with
    | zero =>
      simp only [set_cons_zero, map_cons, sum_cons]
      omega
    | succ n =>
      have rest := ih n
      simp only [set_cons_succ, map_cons, sum_cons]
      omega

/-- The total weight of a node's parts. -/
def Node.weight (weight : V → Nat) (n : Node V) : Nat := (n.parts.map weight).sum

theorem Node.weight_write {weight : V → Nat} {segment : Seg} {v : V} {n n' : Node V}
    (written : n.write segment v = some n') : n'.weight weight ≤ n.weight weight + weight v := by
  cases n with
  | array items =>
    cases segment with
    | key k => cases written
    | index i =>
      simp only [Node.write] at written
      split_ifs at written
      · cases written
        exact sum_map_set_le weight i v items
      · cases written
        simp [Node.weight, Node.parts]
  | object fields =>
    cases written
    simp only [Node.weight, Node.parts, List.map_map, Function.comp_def, Assoc.set]
    split
    · exact sum_map_replace_le weight _ v fields
    · simp

theorem Node.weight_delete {weight : V → Nat} {segment : Seg} {n n' : Node V}
    (deleted : n.delete segment = some n') : n'.weight weight ≤ n.weight weight := by
  cases n with
  | array items =>
    cases segment with
    | key k => cases deleted
    | index i =>
      simp only [Node.delete] at deleted
      split_ifs at deleted
      cases deleted
      exact sum_map_splice_le weight i 1 [] items
  | object fields =>
    cases deleted
    simp only [Node.weight, Node.parts, List.map_map, Function.comp_def]
    exact sum_map_erase_le weight _ fields

theorem Node.weight_editString [HasString V] {weight : V → Nat}
    (light : ∀ s, weight (HasString.string s) = 0) {f : Text → Text} {n' : Node V}
    (edited : n.editString segment f = some n') : n'.weight weight ≤ n.weight weight := by
  obtain ⟨v, _, found⟩ := bind_eq_some_iff.mp edited
  obtain ⟨current, _, written⟩ := bind_eq_some_iff.mp found
  simpa [light] using @Node.weight_write _ weight _ _ _ _ written

/-- **No part is duplicated.** The parts of an edited node weigh no more than its old parts and the
payload, whatever weight is given to parts other than new strings. -/
theorem Op.weight_edit [HasString V] {weight : V → Nat}
    (light : ∀ s, weight (HasString.string s) = 0) {op : Op V} (valid : op.Valid) {n n' : Node V}
    (edited : op.edit n = some n') :
    n'.weight weight ≤ n.weight weight + (op.payload.map weight).sum := by
  cases op with
  | r value => cases edited
  | s path value =>
    obtain ⟨k, _, written⟩ := bind_eq_some_iff.mp edited
    simpa [Op.payload] using @Node.weight_write _ weight _ _ _ _ written
  | d path =>
    obtain ⟨k, _, deleted⟩ := bind_eq_some_iff.mp edited
    simpa [Op.payload] using @Node.weight_delete _ weight _ _ _ deleted
  | a path suffix | t path count =>
    obtain ⟨k, _, rewritten⟩ := bind_eq_some_iff.mp edited
    simpa [Op.payload] using Node.weight_editString light rewritten
  | p path index remove items =>
    cases n with
    | array old =>
      cases edited
      exact sum_map_splice_le weight index remove items old
    | object fields => cases edited
  | m path permutation =>
    cases n with
    | array old =>
      simp only [Op.edit] at edited
      split_ifs at edited with length
      obtain ⟨result, found, rfl⟩ := Option.map_eq_some_iff.mp edited
      have bijection := assertPermutation_iff.mp ((valid.parts rfl).2.2 path permutation rfl)
      have perm := (permute_items_perm bijection length found).map weight
      simp only [Node.weight, Node.parts, perm.sum_nat, Op.payload, map_nil, sum_nil,
        Nat.add_zero, Nat.le_refl]
    | object fields => cases edited

end TianGong.Chord
