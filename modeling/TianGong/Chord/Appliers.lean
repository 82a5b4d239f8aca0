/-
**The three appliers agree.**

A value and its batches are read from text, as `JSON.parse` reads them: every container is a new one
(`load`). From there `applyImmutableBatches` and, on the same private value, `apply` run separately.

* `applyTrusted_run`: where `apply` succeeds and every splice and array delete is in range, the
  trusted replay succeeds with the same content.
* `appliers_agree`: both appliers throw, or both succeed with the same content.
-/

import TianGong.Chord.ApplyTrusted

namespace TianGong.Chord

open TianGong.Lib TianGong.Json
open List

/-! ### Reading values into the heap -/

mutual
/-- `JSON.parse`: new containers for a value, parts first. -/
def load (h : Heap) : Json Unit → Heap × Json Addr
  | .null => (h, .null)
  | .bool b => (h, .bool b)
  | .number n => (h, .number n)
  | .string s => (h, .string s)
  | .array _ items =>
    let parts := loadItems h items
    (parts.1 ++ [.array (parts.2.map val)], .array parts.1.length parts.2)
  | .object _ fields =>
    let parts := loadFields h fields
    (parts.1 ++ [.object (parts.2.map fun e => (e.1, val e.2))], .object parts.1.length parts.2)

def loadItems (h : Heap) : List (Json Unit) → Heap × List (Json Addr)
  | [] => (h, [])
  | x :: xs =>
    let first := load h x
    let rest := loadItems first.1 xs
    (rest.1, first.2 :: rest.2)

def loadFields (h : Heap) : List (Text × Json Unit) → Heap × List (Text × Json Addr)
  | [] => (h, [])
  | (k, x) :: xs =>
    let first := load h x
    let rest := loadFields first.1 xs
    (rest.1, (k, first.2) :: rest.2)
end

/-- The payload of an operation, read into the heap. -/
def loadOp (h : Heap) : Op (Json Unit) → Heap × Op (Json Addr)
  | .r value => ((load h value).1, .r (load h value).2)
  | .s path value => ((load h value).1, .s path (load h value).2)
  | .d path => (h, .d path)
  | .a path suffix => (h, .a path suffix)
  | .t path count => (h, .t path count)
  | .p path index remove items => ((loadItems h items).1, .p path index remove (loadItems h items).2)
  | .m path permutation => (h, .m path permutation)

def loadOps (h : Heap) : List (Op (Json Unit)) → Heap × List (Op (Json Addr))
  | [] => (h, [])
  | op :: ops =>
    let first := loadOp h op
    let rest := loadOps first.1 ops
    (rest.1, first.2 :: rest.2)

def loadBatches (h : Heap) : List (List (Op (Json Unit))) → Heap × List (List (Op (Json Addr)))
  | [] => (h, [])
  | ops :: batches =>
    let first := loadOps h ops
    let rest := loadBatches first.1 batches
    (rest.1, first.2 :: rest.2)

/-! ### What was read is owned -/

/-- All containers of the live trees are distinct. -/
abbrev Apart (h : Heap) (live : List (Json Addr)) : Prop := Owns (fun _ => True) h live

variable {live : List (Json Addr)} {h : Heap} {j : Json Addr}

theorem Apart.perm {other : List (Json Addr)} (apart : Apart h live) (perm : live.Perm other) :
    Apart h other where
  held x member := apart.held x (perm.mem_iff.mpr member)
  once a own := by
    rw [← (perm.map (occ a)).sum_nat]
    exact apart.once a own

theorem Apart.leaf (apart : Apart h live) (none : cells j = []) : Apart h (j :: live) where
  held x member := by
    rcases List.mem_cons.mp member with rfl | later
    · intro c inside
      rw [none] at inside
      cases inside
    · exact apart.held x later
  once a own := by
    rw [map_cons, sum_cons, occ, none]
    simpa using apart.once a own

/-- A new container over parts that are apart is apart. -/
theorem Apart.build {n : Node (Json Addr)} (apart : Apart h (n.parts ++ live)) :
    Apart (h ++ [n.map val]) (build h.length n :: live) where
  held x member := by
    rcases List.mem_cons.mp member with rfl | later
    · refine held_build.mpr ⟨by simp, fun y part => ?_⟩
      exact (apart.held y (mem_append_left live part)).append _
    · exact (apart.held x (mem_append_right n.parts later)).append _
  once a own := by
    rw [map_cons, sum_cons, occ_build, Node.weight]
    have total := apart.once a own
    rw [map_append, sum_append] at total
    split_ifs with fresh
    · subst fresh
      have absent := apart.sum_occ_fresh
      rw [map_append, sum_append] at absent
      omega
    · omega

mutual
theorem load_apart {live : List (Json Addr)} : ∀ (j : Json Unit) {h : Heap}, Apart h live →
    Apart (load h j).1 ((load h j).2 :: live)
  | .null, _, apart => by rw [load]; exact apart.leaf rfl
  | .bool _, _, apart => by rw [load]; exact apart.leaf rfl
  | .number _, _, apart => by rw [load]; exact apart.leaf rfl
  | .string _, _, apart => by rw [load]; exact apart.leaf rfl
  | .array _ items, h, apart => by
    rw [load]
    exact Apart.build (n := .array (loadItems h items).2) (loadItems_apart items apart)
  | .object _ fields, h, apart => by
    rw [load]
    exact Apart.build (n := .object (loadFields h fields).2) (loadFields_apart fields apart)

theorem loadItems_apart {live : List (Json Addr)} : ∀ (items : List (Json Unit)) {h : Heap},
    Apart h live → Apart (loadItems h items).1 ((loadItems h items).2 ++ live)
  | [], _, apart => by rw [loadItems]; exact apart
  | x :: xs, h, apart => by
    rw [loadItems]
    have first := load_apart x apart
    have rest := loadItems_apart xs first
    exact rest.perm perm_middle

theorem loadFields_apart {live : List (Json Addr)} : ∀ (fields : List (Text × Json Unit))
    {h : Heap}, Apart h live →
    Apart (loadFields h fields).1 ((loadFields h fields).2.map Prod.snd ++ live)
  | [], _, apart => by rw [loadFields]; exact apart
  | (_, x) :: xs, h, apart => by
    rw [loadFields]
    have first := load_apart x apart
    have rest := loadFields_apart xs first
    exact rest.perm perm_middle
end

mutual
theorem erase_load : ∀ (j : Json Unit) (h : Heap), erase (load h j).2 = j
  | .null, _ => by rw [load]; rfl
  | .bool _, _ => by rw [load]; rfl
  | .number _, _ => by rw [load]; rfl
  | .string _, _ => by rw [load]; rfl
  | .array _ items, h => by
    rw [load, erase, relabel_array]
    exact congrArg (Json.array ()) (erase_loadItems items h)
  | .object _ fields, h => by
    rw [load, erase, relabel_object]
    exact congrArg (Json.object ()) (erase_loadFields fields h)

theorem erase_loadItems : ∀ (items : List (Json Unit)) (h : Heap),
    (loadItems h items).2.map erase = items
  | [], _ => by rw [loadItems]; rfl
  | x :: xs, h => by rw [loadItems, map_cons, erase_load, erase_loadItems]

theorem erase_loadFields : ∀ (fields : List (Text × Json Unit)) (h : Heap),
    ((loadFields h fields).2.map fun e => (e.1, erase e.2)) = fields
  | [], _ => by rw [loadFields]; rfl
  | (k, x) :: xs, h => by rw [loadFields, map_cons, erase_load, erase_loadFields]
end

theorem loadOp_apart (op : Op (Json Unit)) (apart : Apart h live) :
    Apart (loadOp h op).1 ((loadOp h op).2.payload ++ live) := by
  cases op with
  | r value | s path value => exact load_apart value apart
  | d | a | t | m => exact apart
  | p path index remove items => exact loadItems_apart items apart

theorem erase_loadOp (op : Op (Json Unit)) (h : Heap) : (loadOp h op).2.map erase = op := by
  cases op with
  | r value | s path value => simp only [loadOp, Op.map, erase_load]
  | d | a | t | m => rfl
  | p path index remove items => simp only [loadOp, Op.map, erase_loadItems]

theorem loadOps_apart (ops : List (Op (Json Unit))) (apart : Apart h live) :
    Apart (loadOps h ops).1 ((loadOps h ops).2.flatMap Op.payload ++ live) := by
  induction ops generalizing h live with
  | nil => exact apart
  | cons op ops ih =>
    have rest := ih (loadOp_apart op apart)
    refine rest.perm ?_
    rw [loadOps, flatMap_cons, append_assoc, ← append_assoc, ← append_assoc]
    exact List.perm_append_comm.append_right live

theorem erase_loadOps (ops : List (Op (Json Unit))) (h : Heap) :
    (loadOps h ops).2.map (Op.map erase) = ops := by
  induction ops generalizing h with
  | nil => rfl
  | cons op ops ih => rw [loadOps, map_cons, erase_loadOp, ih]

theorem loadBatches_apart (batches : List (List (Op (Json Unit)))) (apart : Apart h live) :
    Apart (loadBatches h batches).1
      ((loadBatches h batches).2.flatten.flatMap Op.payload ++ live) := by
  induction batches generalizing h live with
  | nil => exact apart
  | cons ops batches ih =>
    have rest := ih (loadOps_apart ops apart)
    refine rest.perm ?_
    rw [loadBatches, flatten_cons, flatMap_append, append_assoc,
      ← append_assoc, ← append_assoc]
    exact List.perm_append_comm.append_right live

theorem erase_loadBatches (batches : List (List (Op (Json Unit)))) (h : Heap) :
    (loadBatches h batches).2.map (List.map (Op.map erase)) = batches := by
  induction batches generalizing h with
  | nil => rfl
  | cons ops batches ih => rw [loadBatches, map_cons, erase_loadOps, ih]

/-! ### The appliers -/

/-- The heap with a value and its batches in it. -/
structure Loaded where
  heap : Heap
  value : Val
  batches : List (List (Op Val))

/-- A value and its batches, read into an empty heap. -/
def loadAll (value : Json Unit) (batches : List (List (Op (Json Unit)))) : Loaded :=
  let root := load [] value
  let ops := loadBatches root.1 batches
  ⟨ops.1, root.2.val, ops.2.map (List.map (Op.map val))⟩

/-- A result shows a content. -/
def Reads (result : Heap × Val) (content : Json Unit) : Prop :=
  ∃ j, result.2 = j.val ∧ erase j = content ∧ Held result.1 j

/-- A heap holds one tree at a value. -/
theorem held_unique : ∀ {j' : Json Addr}, Held h j → Held h j' → j.val = j'.val → j = j' := by
  have parts : ∀ {xs ys : List (Json Addr)}, (∀ x ∈ xs, ∀ {y}, Held h x → Held h y →
      x.val = y.val → x = y) → (∀ x ∈ xs, Held h x) → (∀ y ∈ ys, Held h y) →
      xs.map val = ys.map val → xs = ys := by
    intro xs
    induction xs with
    | nil => exact fun _ _ _ same => (List.map_eq_nil_iff.mp same.symm).symm
    | cons x xs ih =>
      intro ys unique heldX heldY same
      cases ys with
      | nil => cases same
      | cons y ys =>
        simp only [map_cons, List.cons.injEq] at same
        simp only [mem_cons, forall_eq_or_imp] at unique heldX heldY
        rw [unique.1 heldX.1 heldY.1 same.1, ih unique.2 heldX.2 heldY.2 same.2]
  induction j using Json.induction with
  | null | bool | number | string =>
    intro j' _ _ same
    cases j' <;> cases same
    all_goals rfl
  | array a items ih =>
    intro j' held held' same
    have here := held_build (n := .array items).mp held
    cases j' with
    | null | bool | number | string => cases same
    | object b fields =>
      cases same
      have there := held_build (n := .object fields).mp held'
      have cells := here.1.symm.trans there.1
      cases cells
    | array b others =>
      cases same
      have there := held_build (n := .array others).mp held'
      have cells := Node.array.inj (Option.some.inj (here.1.symm.trans there.1))
      exact congrArg _ (parts (fun x member _ => ih x member) here.2 there.2 cells)
  | object a fields ih =>
    intro j' held held' same
    have here := held_build (n := .object fields).mp held
    cases j' with
    | null | bool | number | string => cases same
    | array b items =>
      cases same
      have there := held_build (n := .array items).mp held'
      have cells := here.1.symm.trans there.1
      cases cells
    | object b others =>
      cases same
      have there := held_build (n := .object others).mp held'
      have cells := Node.object.inj (Option.some.inj (here.1.symm.trans there.1))
      have keys : fields.map Prod.fst = others.map Prod.fst := by
        simpa [Function.comp_def] using congrArg (List.map Prod.fst) cells
      have values : (fields.map Prod.snd).map val = (others.map Prod.snd).map val := by
        simpa [Function.comp_def] using congrArg (List.map Prod.snd) cells
      have same : fields.map Prod.snd = others.map Prod.snd := parts (fun x member => by
        obtain ⟨e, inside, rfl⟩ := List.mem_map.mp member
        exact ih e inside) here.2 there.2 values
      rw [← zip_unzip fields, ← zip_unzip others, unzip_eq_map, unzip_eq_map,
        keys, same]

/-- What is read from a heap is one content. -/
theorem Reads.unique {result : Heap × Val} {content other : Json Unit}
    (first : Reads result content) (second : Reads result other) : content = other := by
  obtain ⟨j, root, rfl, held⟩ := first
  obtain ⟨j', root', rfl, held'⟩ := second
  rw [held_unique held held' (root.symm.trans root')]

/-- Two results show the same content. -/
def SameContent (first second : Heap × Val) : Prop :=
  ∃ content, Reads first content ∧ Reads second content

/-- What `load` leaves: the value and all payloads, apart from each other. -/
theorem loadAll_apart (value : Json Unit) (batches : List (List (Op (Json Unit)))) :
    ∃ (j : Json Addr) (ops : List (List (Op (Json Addr)))), (loadAll value batches).value = j.val ∧
      (loadAll value batches).batches = ops.map (List.map (Op.map val)) ∧ erase j = value ∧
      ops.map (List.map (Op.map erase)) = batches ∧
      Apart (loadAll value batches).heap (j :: ops.flatten.flatMap Op.payload) := by
  refine ⟨_, _, rfl, rfl, erase_load value [], erase_loadBatches batches _, ?_⟩
  have empty : Apart [] [] :=
    ⟨fun x member => (by cases member), fun a _ => Nat.zero_le 1⟩
  have root := load_apart value empty
  exact (loadBatches_apart batches root).perm perm_append_comm

theorem Apart.left {h : Heap} {live more : List (Json Addr)} (apart : Apart h (live ++ more)) :
    Apart h live where
  held x member := apart.held x (mem_append_left more member)
  once a own := by
    have total := apart.once a own
    rw [map_append, sum_append] at total
    omega

/-- `apply`, on the loaded value, is the effect of the operations. -/
theorem apply_agrees {ops : List (Op (Json Addr))} (apart : Apart h (j :: ops.flatMap Op.payload)) :
    Agrees Reads (applyOps h j.val (ops.map (Op.map val)))
      (transformAll (ops.map (Op.map erase)) (erase j)) := by
  rw [transformAll_erase]
  refine (applyOps_agrees apart).map ?_
  rintro result j' ⟨root, held⟩
  exact ⟨j', root, rfl, held⟩

/-! ### The trusted run -/

theorem inRange_of_erase {op : Op (Json Addr)} (inRange : InRange (op.map erase) (erase j)) :
    InRange op j := by
  cases op with
  | r | s | a | t | m => trivial
  | p path index remove items =>
    intro id old found
    have image : (erase j).getAt path = some (.array () (old.map erase)) := by
      rw [erase, getAt_relabel, found]
      simp [erase, relabel]
    have bound := inRange () (old.map erase) image
    rwa [length_map] at bound
  | d path =>
    intro id old i found last
    have image : (erase j).getAt path.dropLast = some (.array () (old.map erase)) := by
      rw [erase, getAt_relabel, found]
      simp [erase, relabel]
    have bound := inRange () (old.map erase) i image last
    rwa [length_map] at bound

/-- **A trusted run** over operations that have an effect and are in range where they apply. -/
theorem applyTrusted_run {ops : List (Op (Json Addr))} {replay : Replay} {content final : Json Unit}
    {rest : List (Json Addr)} (shows : Shows (ops.flatMap Op.payload ++ rest) replay content)
    (effect : transformAll (ops.map (Op.map erase)) content = some final)
    (inRange : ∀ i op before, (ops.map (Op.map erase))[i]? = some op →
      transformAll ((ops.map (Op.map erase)).take i) content = some before → InRange op before) :
    ∃ replay', (ops.map (Op.map val)).foldlM applyTrustedOp replay = .ok replay' ∧
      Shows rest replay' final := by
  induction ops generalizing replay content with
  | nil =>
    cases effect
    exact ⟨replay, rfl, shows⟩
  | cons op ops ih =>
    obtain ⟨j, root, same, owns⟩ := shows
    rw [flatMap_cons, append_assoc] at owns
    have here := inRange 0 (op.map erase) content rfl rfl
    rw [map_cons, transformAll] at effect
    obtain ⟨next, one, more⟩ := Option.bind_eq_some_iff.mp effect
    have tree := one
    rw [transform_of_erase same] at tree
    obtain ⟨j', moved, rfl⟩ := Option.map_eq_some_iff.mp tree
    obtain ⟨replay', done, shows'⟩ :=
      applyTrustedOp_shows root owns moved (inRange_of_erase (same.symm ▸ here))
    obtain ⟨replay'', run, final_shows⟩ := ih shows' more (fun i o before found reached =>
      inRange (i + 1) o before found (by
        rw [map_cons, take_succ_cons, transformAll, one]
        exact reached))
    refine ⟨replay'', ?_, final_shows⟩
    rw [map_cons, foldlM_cons, done]
    exact run

/-! ### Agreement -/

/-- Every splice and array delete of the batches is in range where `apply` performs it. -/
def RunInRange (value : Json Unit) (batches : List (List (Op (Json Unit)))) : Prop :=
  ∀ i op before content, batches.flatten[i]? = some op →
    applyOps (loadAll value batches).heap (loadAll value batches).value
      ((loadAll value batches).batches.flatten.take i) = .ok before →
    Reads before content → InRange op content

/-- **The three appliers agree.** The copy-on-write replay of the batches and the mutable `apply` of
the same operations throw together or succeed with the same content; and where `apply` succeeds and
every splice and array delete is in range, so does the trusted replay, with that content. -/
theorem appliers_agree (value : Json Unit) (batches : List (List (Op (Json Unit)))) :
    BothOrNeither SameContent
        (applyImmutableBatches (loadAll value batches).heap (loadAll value batches).value
          (loadAll value batches).batches)
        (applyOps (loadAll value batches).heap (loadAll value batches).value
          (loadAll value batches).batches.flatten) ∧
      ∀ result, applyOps (loadAll value batches).heap (loadAll value batches).value
          (loadAll value batches).batches.flatten = .ok result →
        RunInRange value batches →
        ∃ trusted, applyImmutableTrusted (loadAll value batches).heap (loadAll value batches).value
          (loadAll value batches).batches.flatten = .ok trusted ∧ SameContent trusted result := by
  obtain ⟨j, ops, root, code, rfl, rfl, apart⟩ := loadAll_apart value batches
  have immutable := applyImmutableBatches_agrees apart.held
  have mutable := apply_agrees apart
  rw [RunInRange, root, code, ← map_flatten, ← map_flatten]
  refine ⟨immutable.both mutable, fun result done inRange => ?_⟩
  rw [done] at mutable
  obtain ⟨final, effect, reads⟩ := mutable.of_ok
  have shows : Shows (ops.flatten.flatMap Op.payload ++ [])
      ⟨(loadAll (erase j) (ops.map (List.map (Op.map erase)))).heap, j.val, []⟩ (erase j) := by
    rw [append_nil]
    exact ⟨j, rfl, rfl, apart.held, fun e own => (by cases own)⟩
  obtain ⟨replay, run, j', root', content, owns⟩ := applyTrusted_run shows effect
    (fun i op before found reached => by
      -- The content before the operation is what `apply` reaches there.
      rw [← map_take] at reached
      have whole : (ops.flatten.take i).flatMap Op.payload ++
          (ops.flatten.drop i).flatMap Op.payload = ops.flatten.flatMap Op.payload := by
        rw [← flatMap_append, take_append_drop]
      have run := apply_agrees (@Apart.left _ (j :: (ops.flatten.take i).flatMap Op.payload) _
        (by rw [cons_append, whole]; exact apart))
      rw [reached] at run
      obtain ⟨middle, ran, reads'⟩ := run.of_some
      rw [map_take] at ran
      exact inRange i op middle before found ran reads')
  refine ⟨(replay.heap, replay.root), ?_, final, ?_, reads⟩
  · rw [applyImmutableTrusted, run]
    rfl
  · exact ⟨j', root', content, owns.held j' mem_cons_self⟩

/-- A splice of a one-element array, by all three. -/
theorem appliers_agree_splice :
    ∃ trusted, applyImmutableTrusted (loadAll (.array () [.null]) [[.p [] 0 1 [.bool true]]]).heap
        (loadAll (.array () [.null]) [[.p [] 0 1 [.bool true]]]).value
        (loadAll (.array () [.null]) [[.p [] 0 1 [.bool true]]]).batches.flatten = .ok trusted ∧
      SameContent trusted ([.array [.bool true]], .ref 0) := by
  refine (appliers_agree (.array () [.null]) [[.p [] 0 1 [.bool true]]]).2 _ rfl ?_
  intro i op before content found ran reads
  cases i with
  | succ i => cases found
  | zero =>
    cases found
    cases ran
    have start : Reads ([.array [.null]], .ref 0) (.array () [.null]) :=
      ⟨.array 0 [.null], rfl, rfl, fun c member => by
        rw [List.mem_singleton.mp member]
        rfl⟩
    obtain rfl := start.unique reads
    intro id items found
    cases found
    decide

end TianGong.Chord
