/-
**Values as trees: reading, replacing and transforming below a path.**

`getAt` walks own properties and `replaceAt` puts another value where the walk ended. `transform` is
the effect of one operation: the edit of `Op.edit`, at the operation's site. `transformAll` is the
effect of a list of them.

`transform_relabel`, `transformAll_erase`: the effect does not depend on identities, so it is a
function of the content.
-/

import TianGong.Chord.Node

namespace TianGong

open Option
open Chord

variable {path : Path}

namespace Json

variable {ι κ : Type}

instance : HasString (Json ι) where
  string := .string
  asString
    | .string s => some s
    | _ => none
  asString_string _ := rfl

/-- The parts of a container. -/
def node : Json ι → Option (Node (Json ι))
  | .array _ items => some (.array items)
  | .object _ fields => some (.object fields)
  | _ => none

/-- The container with these parts. -/
def build (id : ι) : Node (Json ι) → Json ι
  | .array items => .array id items
  | .object fields => .object id fields

/-- Edit a container; it keeps its identity. -/
def editWith (f : Node (Json ι) → Option (Node (Json ι))) (j : Json ι) : Option (Json ι) :=
  j.label >>= fun id => j.node >>= fun n => (f n).map (build id)

/-- The own property under a segment. -/
def child (j : Json ι) (segment : Seg) : Option (Json ι) := j.node >>= fun n => n.own segment

/-- Overwrite an own property. -/
def setChild (segment : Seg) (x : Json ι) (j : Json ι) : Json ι :=
  (j.editWith fun n => n.write segment x).getD j

/-- The value at the end of a path of own properties. -/
def getAt : Json ι → Path → Option (Json ι)
  | j, [] => some j
  | j, segment :: rest => child j segment >>= fun c => getAt c rest

/-- The value with the end of a path replaced. -/
def replaceAt : Json ι → Path → Json ι → Json ι
  | _, [], x => x
  | j, segment :: rest, x =>
    match child j segment with
    | none => j
    | some c => setChild segment (replaceAt c rest x) j

variable (id : ι) (n : Node (Json ι))

@[simp] theorem node_build : (build id n).node = some n := by
  cases n <;> rfl

@[simp] theorem label_build : (build id n).label = some id := by
  cases n <;> rfl

theorem build_of_node {j : Json ι} {n : Node (Json ι)} (parts : j.node = some n) :
    ∃ id, j = build id n := by
  cases j with
  | array id items | object id fields =>
    cases parts
    exact ⟨id, rfl⟩
  | null | bool | number | string => cases parts

theorem editWith_build (f : Node (Json ι) → Option (Node (Json ι))) (id : ι)
    (n : Node (Json ι)) : (build id n).editWith f = (f n).map (build id) := by
  rw [editWith, label_build, node_build]
  rfl

theorem child_build (segment : Seg) : (build id n).child segment = n.own segment := by
  rw [child, node_build]
  rfl

/-! ### Identities do not matter -/

variable (f : ι → κ) (j : Json ι)

theorem keepsString_relabel : KeepsString (relabel f) where
  string _ := rfl
  asString j := by cases j <;> rfl

theorem node_relabel : (relabel f j).node = j.node.map (Node.map (relabel f)) := by
  cases j <;> simp [node, Node.map]

theorem relabel_build (id : ι) (n : Node (Json ι)) :
    relabel f (build id n) = build (f id) (n.map (relabel f)) := by
  cases n <;> simp [build, Node.map]

theorem editWith_relabel {g : Node (Json ι) → Option (Node (Json ι))}
    {h : Node (Json κ) → Option (Node (Json κ))}
    (natural : ∀ n, h (n.map (relabel f)) = (g n).map (Node.map (relabel f))) (j : Json ι) :
    (relabel f j).editWith h = (j.editWith g).map (relabel f) := by
  cases parts : j.node with
  | none =>
    have none' : (relabel f j).node = none := by rw [node_relabel, parts, map_none]
    cases j <;> simp_all [editWith, node]
  | some n =>
    obtain ⟨id, rfl⟩ := build_of_node parts
    rw [relabel_build, editWith_build, editWith_build, natural]
    simp only [map_map]
    congr 1
    funext n
    exact (relabel_build f id n).symm

theorem child_relabel (segment : Seg) :
    (relabel f j).child segment = (j.child segment).map (relabel f) := by
  rw [child, node_relabel, child]
  cases j.node with
  | none => rfl
  | some n => exact Node.own_map _ n segment

theorem setChild_relabel (segment : Seg) (x j : Json ι) :
    setChild segment (relabel f x) (relabel f j) = relabel f (setChild segment x j) := by
  rw [setChild, editWith_relabel f (fun n => Node.write_map (relabel f) segment x n), setChild]
  cases j.editWith fun n => n.write segment x <;> rfl

theorem getAt_relabel (path : Path) :
    (relabel f j).getAt path = (j.getAt path).map (relabel f) := by
  induction path generalizing j with
  | nil => rfl
  | cons segment rest ih =>
    rw [getAt, child_relabel, getAt]
    cases j.child segment with
    | none => rfl
    | some c => exact ih c

theorem replaceAt_relabel (path : Path) (x : Json ι) :
    (relabel f j).replaceAt path (relabel f x) = relabel f (j.replaceAt path x) := by
  induction path generalizing j with
  | nil => rfl
  | cons segment rest ih =>
    rw [replaceAt, child_relabel, replaceAt]
    cases j.child segment with
    | none => rfl
    | some c => simp only [map_some, ih, setChild_relabel]

theorem setChild_build {n : Node (Json ι)} {segment : Seg} {c : Json ι}
    (own : n.own segment = some c) (c' : Json ι) :
    ∃ before after n', n.parts = before ++ c :: after ∧ n.write segment c' = some n' ∧
      n'.parts = before ++ c' :: after ∧ (∀ {W : Type} (f : Json ι → W), f c' = f c → n'.map f = n.map f) ∧
      ∀ id, setChild segment c' (build id n) = build id n' := by
  obtain ⟨before, after, n', old, written, new, same⟩ := Node.write_own own c'
  refine ⟨before, after, n', old, written, new, same, fun id => ?_⟩
  rw [setChild, editWith_build, written]
  rfl

theorem child_eq_some {j c : Json ι} {segment : Seg} (found : j.child segment = some c) :
    ∃ id n, j = build id n ∧ n.own segment = some c := by
  obtain ⟨n, parts, own⟩ := Option.bind_eq_some_iff.mp found
  obtain ⟨id, rfl⟩ := build_of_node parts
  exact ⟨id, n, rfl, own⟩

/-! ### Replacing below a path -/

/-- One step of a walk: the container, its parts around the child, and the container with another
child in its place. -/
theorem getAt_cons {j x : Json ι} {segment : Seg} {rest : Path}
    (found : j.getAt (segment :: rest) = some x) (x' : Json ι) :
    ∃ id n c before after n', j = build id n ∧ n.own segment = some c ∧ c.getAt rest = some x ∧
      n.parts = before ++ c :: after ∧ n'.parts = before ++ c.replaceAt rest x' :: after ∧
      (∀ {W : Type} (f : Json ι → W), f (c.replaceAt rest x') = f c → n'.map f = n.map f) ∧
      j.replaceAt (segment :: rest) x' = build id n' := by
  obtain ⟨c, child, below⟩ := Option.bind_eq_some_iff.mp found
  obtain ⟨id, n, rfl, own⟩ := child_eq_some child
  obtain ⟨before, after, n', old, _, new, same, set⟩ := setChild_build own (c.replaceAt rest x')
  refine ⟨id, n, c, before, after, n', rfl, own, below, old, new, same, ?_⟩
  rw [replaceAt, child]
  exact set id

theorem getAt_append (path rest : Path) :
    j.getAt (path ++ rest) = j.getAt path >>= fun x => x.getAt rest := by
  induction path generalizing j with
  | nil => rfl
  | cons segment path ih =>
    rw [List.cons_append, getAt, getAt]
    cases j.child segment with
    | none => rfl
    | some c => exact ih c

/-- What is below a replaced value is what is below the new one. -/
theorem getAt_replaceAt {j x : Json ι} (found : j.getAt path = some x) (x' : Json ι) :
    (j.replaceAt path x').getAt path = some x' := by
  induction path generalizing j with
  | nil => rfl
  | cons segment rest ih =>
    obtain ⟨c, child, below⟩ := Option.bind_eq_some_iff.mp found
    obtain ⟨id, n, rfl, own⟩ := child_eq_some child
    obtain ⟨_, _, n', _, written, _, _, set⟩ := setChild_build own (c.replaceAt rest x')
    rw [replaceAt, child]
    simp only [set, getAt, child_build, Node.own_write_self written]
    exact ih below

theorem replaceAt_self {j x : Json ι} (found : j.getAt path = some x) : j.replaceAt path x = j := by
  induction path generalizing j with
  | nil =>
    cases found
    rfl
  | cons segment rest ih =>
    obtain ⟨c, child, below⟩ := Option.bind_eq_some_iff.mp found
    obtain ⟨id, n, rfl, own⟩ := child_eq_some child
    rw [replaceAt, child]
    simp only [ih below, setChild, editWith_build, Node.write_own_self own, map_some,
      getD_some]

theorem replaceAt_append {j x : Json ι} (found : j.getAt path = some x) (rest : Path) (y : Json ι) :
    j.replaceAt (path ++ rest) y = j.replaceAt path (x.replaceAt rest y) := by
  induction path generalizing j with
  | nil =>
    cases found
    rfl
  | cons segment path ih =>
    obtain ⟨c, child, below⟩ := Option.bind_eq_some_iff.mp found
    rw [List.cons_append, replaceAt, replaceAt, child]
    simp only [ih below]

/-- Replacing a value by one of the same content keeps the content. -/
theorem erase_replaceAt {j x x' : Json ι} (found : j.getAt path = some x)
    (same : erase x' = erase x) : erase (j.replaceAt path x') = erase j := by
  have kept : (erase j).getAt path = some (erase x) := by
    rw [erase, getAt_relabel, found]
    rfl
  rw [erase, ← replaceAt_relabel]
  exact (congrArg _ same).trans (replaceAt_self kept)

end Json

namespace Chord

variable {ι κ : Type}

/-! ### The effect of an operation -/

/-- The effect of one operation on a value, if it has one. -/
def transform (op : Op (Json ι)) (j : Json ι) : Option (Json ι) :=
  if op.Valid then
    match op with
    | .r value => some value
    | op => j.getAt op.site >>= fun x => (x.editWith op.edit).map (j.replaceAt op.site)
  else none

/-- The effect of a list of operations. -/
def transformAll : List (Op (Json ι)) → Json ι → Option (Json ι)
  | [], j => some j
  | op :: ops, j => transform op j >>= transformAll ops

/-- An operation other than a replacement edits its site. -/
theorem transform_of_not_replace {op : Op (Json ι)} (valid : op.Valid)
    (base : op.isReplace = false) (j : Json ι) :
    transform op j =
      j.getAt op.site >>= fun x => (x.editWith op.edit).map (j.replaceAt op.site) := by
  cases op with
  | r value => cases base
  | s | d | a | t | p | m => exact if_pos valid

theorem transform_invalid {op : Op (Json ι)} (invalid : ¬ op.Valid) (j : Json ι) :
    transform op j = none := if_neg invalid

theorem transformAll_append (first second : List (Op (Json ι))) (j : Json ι) :
    transformAll (first ++ second) j = transformAll first j >>= transformAll second := by
  induction first generalizing j with
  | nil => rfl
  | cons op ops ih =>
    rw [List.cons_append, transformAll, transformAll]
    cases transform op j with
    | none => rfl
    | some k => exact ih k

theorem Op.isReplace_map {V W : Type} (f : V → W) (op : Op V) :
    (op.map f).isReplace = op.isReplace := by
  cases op <;> rfl

/-- **The effect of an operation does not depend on identities.** -/
theorem transform_relabel (f : ι → κ) (op : Op (Json ι)) (j : Json ι) :
    transform (op.map (Json.relabel f)) (Json.relabel f j) =
      (transform op j).map (Json.relabel f) := by
  by_cases valid : op.Valid
  · cases base : op.isReplace with
    | true =>
      cases op with
      | r value => rfl
      | s | d | a | t | p | m => cases base
    | false =>
      rw [transform_of_not_replace ((Op.valid_map _ op).mpr valid)
          (by rw [Op.isReplace_map, base]), transform_of_not_replace valid base, Op.site_map,
        Json.getAt_relabel]
      cases j.getAt op.site with
      | none => rfl
      | some x =>
        simp only [map_some, bind_eq_bind, bind_some]
        rw [Json.editWith_relabel f (Op.edit_map (Json.keepsString_relabel f) op) x]
        simp only [map_map]
        congr 1
        funext y
        exact Json.replaceAt_relabel f j op.site y
  · rw [transform_invalid valid, transform_invalid (mt (Op.valid_map _ op).mp valid)]
    rfl

theorem transformAll_relabel (f : ι → κ) (ops : List (Op (Json ι))) (j : Json ι) :
    transformAll (ops.map (Op.map (Json.relabel f))) (Json.relabel f j) =
      (transformAll ops j).map (Json.relabel f) := by
  induction ops generalizing j with
  | nil => rfl
  | cons op ops ih =>
    rw [List.map_cons, transformAll, transform_relabel, transformAll]
    cases transform op j with
    | none => rfl
    | some k => exact ih k

/-- **The effect of operations is a function of the content.** -/
theorem transformAll_erase (ops : List (Op (Json ι))) (j : Json ι) :
    transformAll (ops.map (Op.map Json.erase)) (Json.erase j) =
      (transformAll ops j).map Json.erase :=
  transformAll_relabel _ ops j

end Chord

end TianGong
