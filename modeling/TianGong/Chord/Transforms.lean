/-
**Deltas below a path.**

`Transforms path δ x x'` says what a run of operations does wherever the value `x` stands at the end
of `path`: it puts `x'` there. Deltas compose one after another (`Transforms.trans`) and a delta of a
child is one of its container (`Transforms.child`); the rest of the module is one such fact for each
operation.
-/

import TianGong.Chord.Equal

namespace TianGong.Chord

open TianGong.Lib TianGong.Json

variable {ι : Type}

/-- **The operations turn `x` at the end of the path into `x'`**, whatever surrounds it. -/
def Transforms (path : Path) (ops : List (Op (Json ι))) (x x' : Json ι) : Prop :=
  ∀ t : Json ι, t.getAt path = some x → transformAll ops t = some (t.replaceAt path x')

theorem Transforms.nil (path : Path) (x : Json ι) : Transforms path [] x x := fun t found => by
  rw [replaceAt_self found]
  rfl

variable {path : Path}

theorem replaceAt_replaceAt {t x : Json ι} (found : t.getAt path = some x) (y z : Json ι) :
    (t.replaceAt path y).replaceAt path z = t.replaceAt path z := by
  induction path generalizing t with
  | nil => rfl
  | cons segment rest ih =>
    obtain ⟨c, child, below⟩ := Option.bind_eq_some_iff.mp found
    obtain ⟨id, n, rfl, own⟩ := child_eq_some child
    obtain ⟨_, _, n', _, written, _, _, set⟩ := setChild_build own (c.replaceAt rest y)
    have own' := Node.own_write_self written
    simp only [replaceAt, child_build, own, set, own', ih below]
    obtain ⟨_, _, n₁, _, written₁, _⟩ := Node.write_own own (c.replaceAt rest z)
    simp only [setChild, editWith_build, Node.write_write written, written₁, Option.map_some,
      Option.getD_some]

theorem Transforms.trans {ops more : List (Op (Json ι))} {x y z : Json ι}
    (first : Transforms path ops x y) (second : Transforms path more y z) :
    Transforms path (ops ++ more) x z := fun t found => by
  rw [transformAll_append, first t found]
  show transformAll more _ = _
  rw [second _ (getAt_replaceAt found y), replaceAt_replaceAt found]

theorem Transforms.child {segment : Seg} {ops : List (Op (Json ι))} {x c c' : Json ι}
    (child : x.child segment = some c) (below : Transforms (path ++ [segment]) ops c c') :
    Transforms path ops x (setChild segment c' x) := fun t found => by
  have deep : t.getAt (path ++ [segment]) = some c := by
    rw [getAt_append, found]
    show x.child segment >>= _ = _
    rw [child]
    rfl
  rw [below t deep, replaceAt_append found, replaceAt, child]
  simp only [replaceAt]

/-! ### One operation -/

/-- An operation that edits the value at the end of the path. -/
theorem Transforms.site {op : Op (Json ι)} {x x' : Json ι} (valid : op.Valid)
    (base : op.isReplace = false) (site : op.site = path) (edited : x.editWith op.edit = some x') :
    Transforms path [op] x x' := fun t found => by
  rw [transformAll, transform_of_not_replace valid base, site, found]
  simp only [Option.bind_eq_bind, Option.bind_some, edited, Option.map_some, transformAll]

/-- An operation that overwrites the value at the end of the path, in its container. -/
theorem Transforms.last {path : Path} {key : Seg} {op : Op (Json ι)} {x y : Json ι}
    (valid : op.Valid) (base : op.isReplace = false) (site : op.site = path.dropLast)
    (last : path.getLast? = some key)
    (edit : ∀ n, n.own key = some x → op.edit n = n.write key y) : Transforms path [op] x y :=
  fun t found => by
  obtain ⟨id, n, parent, own, shape⟩ := getAt_dropLast found last
  obtain ⟨_, _, n', _, written, _⟩ := Node.write_own own y
  have edited : (build id n).editWith op.edit = some (build id n') := by
    rw [editWith_build, edit n own, written]
    rfl
  have effect := Transforms.site valid base site edited t parent
  rw [effect]
  conv_rhs => rw [shape]
  rw [replaceAt_append parent, replaceAt, child_build, own]
  simp only [replaceAt, setChild, editWith_build, written, Option.map_some, Option.getD_some]

theorem SafePath.last {path : Path} (full : path ≠ []) : ∃ key, path.getLast? = some key :=
  ⟨path.getLast full, List.getLast?_eq_some_getLast full⟩

theorem transforms_s (safe : SafePath path) (full : path ≠ []) (x y : Json ι) :
    Transforms path [.s path y] x y := by
  obtain ⟨key, last⟩ := SafePath.last full
  refine .last (assertPathArg_ok_iff.mpr ⟨fun _ => full, safe⟩) rfl rfl last fun n _ => ?_
  rw [Op.edit, last]
  rfl

theorem editString_of_own {n : Node (Json ι)} {key : Seg} {s : Text}
    (own : n.own key = some (.string s)) (f : Text → Text) :
    n.editString key f = n.write key (.string (f s)) := by
  rw [Node.editString, own]
  rfl

theorem transforms_a (safe : SafePath path) (full : path ≠ []) (s suffix : Text) :
    Transforms path [.a path suffix] (.string s : Json ι) (.string (s ++ suffix)) := by
  obtain ⟨key, last⟩ := SafePath.last full
  refine .last (assertPathArg_ok_iff.mpr ⟨fun _ => full, safe⟩) rfl rfl last fun n own => ?_
  rw [Op.edit, last]
  exact editString_of_own own _

theorem transforms_t (safe : SafePath path) (full : path ≠ []) (s : Text) (count : Nat) :
    Transforms path [.t path count] (.string s : Json ι) (.string (s.drop count)) := by
  obtain ⟨key, last⟩ := SafePath.last full
  refine .last (assertPathArg_ok_iff.mpr ⟨fun _ => full, safe⟩) rfl rfl last fun n own => ?_
  rw [Op.edit, last]
  exact editString_of_own own _

theorem transforms_p (safe : SafePath path) (id : ι) (index remove : Nat)
    (items xs : List (Json ι)) :
    Transforms path [.p path index remove items] (.array id xs)
      (.array id (splice index remove items xs)) :=
  .site (assertPathArg_ok_iff.mpr ⟨fun target => (nomatch target), safe⟩) rfl rfl rfl

theorem transforms_m (safe : SafePath path) (id : ι) {permutation : List Nat}
    {xs ys : List (Json ι)} (bijection : permutation.Perm (List.range permutation.length))
    (length : xs.length = permutation.length) (permuted : permute permutation xs = some ys) :
    Transforms path [.m path permutation] (.array id xs) (.array id ys) := by
  have accepted : assertPathArg path false = .ok () :=
    assertPathArg_ok_iff.mpr ⟨fun target => (nomatch target), safe⟩
  refine .site ?_ rfl rfl ?_
  · simp only [Op.Valid, assertValidOp, accepted, bind, Except.bind]
    exact assertPermutation_iff.mpr bijection
  · rw [show (.array id xs : Json ι) = build id (.array xs) from rfl, editWith_build, Op.edit,
      if_pos length, permuted]
    rfl

/-- Setting a key of an object. -/
theorem transforms_set {path : Path} {key : Text} (safe : SafePath (path ++ [.key key])) (id : ι)
    (fields : List (Text × Json ι)) (y : Json ι) :
    Transforms path [.s (path ++ [.key key]) y] (.object id fields)
      (.object id (Assoc.set key y fields)) := by
  refine .site (assertPathArg_ok_iff.mpr ⟨fun _ => by simp, safe⟩) rfl ?_ ?_
  · rw [Op.site, List.dropLast_concat]
  · rw [show (.object id fields : Json ι) = build id (.object fields) from rfl, editWith_build,
      Op.edit, List.getLast?_concat]
    rfl

/-- Deleting a key of an object. -/
theorem transforms_d {path : Path} {key : Text} (safe : SafePath (path ++ [.key key])) (id : ι)
    (fields : List (Text × Json ι)) :
    Transforms path [.d (path ++ [.key key])] (.object id fields)
      (.object id (Assoc.erase key fields)) := by
  refine .site (assertPathArg_ok_iff.mpr ⟨fun _ => by simp, safe⟩) rfl ?_ ?_
  · rw [Op.site, List.dropLast_concat]
  · rw [show (.object id fields : Json ι) = build id (.object fields) from rfl, editWith_build,
      Op.edit, List.getLast?_concat]
    rfl

end TianGong.Chord
