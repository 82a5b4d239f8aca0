/-
**`applyImmutable`: operations on an immutable value, by copy on write.**

A replay copies each container it touches once, remembers its copies (`owned`) and mutates only
those. An append to an array not copied yet is built as one copy with the items (`appendCopy`).

* `applyImmutableOp_agrees`, `applyImmutableBatches_agrees`: every operation, and every sequence of
  batches, throws exactly when it has no effect on the content, and else yields that effect.
-/

import TianGong.Chord.Apply

namespace TianGong.Chord

open TianGong.Lib TianGong.Json
open List Option

/-! ### Copying -/

/-- `Object.hasOwn`. An array's own keys are its indices and `length`. -/
def hasOwn (n : Node Val) (segment : Seg) : Bool :=
  match n, segment with
  | .array items, .index i => i < items.length
  | .array items, .key k =>
    k == text "length" || (List.range items.length).any fun i => decimal i == k
  | .object fields, segment => Assoc.has segment.text fields

/-- The heap, the root and the containers copied so far. -/
structure Replay where
  heap : Heap
  root : Val
  owned : List Addr

/-- The checks of one turn of `copyContainers`: the child container under a segment. -/
def childContainer (n : Node Val) (path : Path) (segment : Seg) : Except DeltaError Addr :=
  if !hasOwn n segment then .error (.path path)
  else match n.isArray, segment with
    | true, .key k => .error (.unsafePath (.key k))
    | _, segment => match n.own segment with
      | some (.ref child) => .ok child
      -- A primitive is no container to copy.
      | _ => .error (.path path)

/-- The loop of `copyContainers`, from an owned container downward: the heap, the owned containers
and the last destination. -/
def copyLoop (h : Heap) (path : Path) (owned : List Addr) (destination : Addr) :
    Path → Except DeltaError (Heap × List Addr × Addr)
  | [] => .ok (h, owned, destination)
  | segment :: rest =>
    match h[destination]? with
    | none => .error (.path path)
    | some n => do
      let child ← childContainer n path segment
      if child ∈ owned then copyLoop h path owned child rest
      else match h[child]? with
        | none => throw (.path path)
        | some part =>
          let copied := h.length
          copyLoop ((h ++ [part]).set destination (defineProperty n segment (.ref copied)))
            path (copied :: owned) copied rest

/-- The body of `copyContainers`: the copied replay, and the last destination. -/
def copyTo (replay : Replay) (path : Path) : Except DeltaError (Replay × Addr) :=
  match replay.root with
  | .ref a => do
    if a ∈ replay.owned then
      let (heap, owned, destination) ← copyLoop replay.heap path replay.owned a path
      return (⟨heap, .ref a, owned⟩, destination)
    else match replay.heap[a]? with
      | none => throw (.path path)
      | some n =>
        let copied := replay.heap.length
        let (heap, owned, destination) ← copyLoop (replay.heap ++ [n]) path
          (copied :: replay.owned) copied path
        return (⟨heap, .ref copied, owned⟩, destination)
  | _ => throw (.path path)

/-- `copyContainers`: copy the containers on a path, unless this replay owns them already. -/
def copyContainers (replay : Replay) (path : Path) : Except DeltaError Replay := do
  let (copied, _) ← copyTo replay path
  return copied

/-! ### Appending by copy -/

/-- The walk of `appendCopy`: own properties, keys on objects and indices on arrays. -/
def appendWalk (h : Heap) : Val → Path → Option Val
  | target, [] => some target
  | target, segment :: rest =>
    match h.node target, segment with
    | some (.object fields), .key k =>
      if Seg.reserved (.key k) then none
      else Assoc.get k fields >>= fun child => appendWalk h child rest
    | some (.array items), .index i => items[i]? >>= fun child => appendWalk h child rest
    | _, _ => none

/-- `appendCopy`: `none` where the general path has to be taken. -/
def appendCopy (replay : Replay) (path : Path) (index remove : Nat) (items : List Val) :
    Except DeltaError (Option Replay) :=
  if remove ≠ 0 then .ok none
  else match appendWalk replay.heap replay.root path with
    | some (.ref target) =>
      match replay.heap[target]? with
      | some (.array old) =>
        if target ∈ replay.owned ∨ index ≠ old.length then .ok none
        else
          let appended := replay.heap.length
          let heap := replay.heap ++ [.array (old ++ items)]
          let owned := appended :: replay.owned
          match path.getLast? with
          | none => .ok (some ⟨heap, .ref appended, owned⟩)
          | some key => do
            let copied ← copyContainers ⟨heap, replay.root, owned⟩ path.dropLast
            let (a, n) ← resolve copied.heap copied.root path.dropLast
            return some { copied with
              heap := copied.heap.set a (defineProperty n key (.ref appended)) }
      | _ => .ok none
    | _ => .ok none

/-! ### Replaying -/

/-- The general path: copy the containers on the way, then mutate the copies. -/
def copyAndApply (replay : Replay) (op : Op Val) : Except DeltaError Replay := do
  let copied ← copyContainers replay op.site
  let (heap, root) ← applyOps copied.heap copied.root [op]
  return ⟨heap, root, copied.owned⟩

/-- One turn of the inner loop of `applyImmutableBatches`. -/
def applyImmutableOp (replay : Replay) (op : Op Val) : Except DeltaError Replay := do
  assertValidOp op
  match op with
  | .r value => return { replay with root := value }
  | .p path index remove items =>
    match ← appendCopy replay path index remove items with
    | some appended => return appended
    | none => copyAndApply replay (.p path index remove items)
  | op => copyAndApply replay op

def applyImmutableLoop (replay : Replay) : List (Op Val) → Except DeltaError Replay
  | [] => .ok replay
  | op :: ops => do
    let replay' ← applyImmutableOp replay op
    applyImmutableLoop replay' ops

/-- `applyImmutableBatches`: what was copied for an earlier batch stays owned in a later one. -/
def applyImmutableBatches (h : Heap) (target : Val) (batches : List (List (Op Val))) :
    Except DeltaError (Heap × Val) := do
  let replay ← batches.foldlM applyImmutableLoop ⟨h, target, []⟩
  return (replay.heap, replay.root)

/-- `applyImmutable`: one batch. -/
def applyImmutable (h : Heap) (target : Val) (ops : List (Op Val)) :
    Except DeltaError (Heap × Val) := applyImmutableBatches h target [ops]

/-! ### A copied path -/

/-- What a copy keeps: the content, and the parts of the container at the end of the path. The copy
owns that container, and writes nothing outside the tree. -/
structure CopyOf (h : Heap) (j : Json Addr) (path : Path) (rest : List (Json Addr))
    (n : Node (Json Addr)) (a : Addr) (copied : Replay) (j' : Json Addr) : Prop where
  root : copied.root = j'.val
  content : erase j' = erase j
  owns : Owns (· ∈ copied.owned) copied.heap (j' :: rest)
  site : j'.getAt path = some (build a n)
  owned : a ∈ copied.owned
  fewer : ∀ e, e < h.length → occ e j' ≤ occ e j
  frame : ∀ e, e < h.length → occ e j = 0 → copied.heap[e]? = h[e]?
  longer : h.length ≤ copied.heap.length

variable {h : Heap} {replay : Replay} {j : Json Addr} {live rest : List (Json Addr)} {path : Path}
  {owned : List Addr} (a : Addr) (n : Node (Json Addr)) (segment : Seg)

theorem containerAt_build_cons (rest : Path) :
    containerAt (build a n) (segment :: rest) = n.own segment >>= fun c => containerAt c rest := by
  rw [containerAt, getAt, child_build]
  cases n.own segment <;> rfl

theorem containerAt_of_node_none {c : Json Addr} (primitive : c.node = none) (path : Path) :
    containerAt c path = none := by
  cases path with
  | nil | cons segment rest => cases c <;> first | rfl | cases primitive

/-- A walk to a container passes through containers only. -/
theorem containerAt_step (rest : Path) :
    containerAt (build a n) (segment :: rest) = containerAt (build a n) [segment] >>= fun focus =>
        containerAt (build focus.1 focus.2) rest := by
  rw [containerAt_build_cons, containerAt_build_cons]
  cases n.own segment with
  | none => rfl
  | some c =>
    simp only [bind_eq_bind, bind_some]
    cases parts : c.node with
    | none => rw [containerAt_of_node_none parts, containerAt_of_node_none parts, bind_none]
    | some m =>
      obtain ⟨b, rfl⟩ := build_of_node parts
      rw [containerAt_eq_some.mpr (show (build b m).getAt [] = some (build b m) from rfl),
        bind_some]

/-- The parts of the container at the end of a path. -/
def nodeAt (j : Json Addr) (path : Path) : Option (Node (Json Addr)) :=
  (containerAt j path).map Prod.snd

theorem nodeAt_build_nil : nodeAt (build a n) [] = some n := by
  rw [nodeAt, containerAt_eq_some.mpr (show (build a n).getAt [] = some (build a n) from rfl)]
  rfl

theorem nodeAt_step (rest : Path) :
    nodeAt (build a n) (segment :: rest) =
      containerAt (build a n) [segment] >>= fun focus => nodeAt (build focus.1 focus.2) rest := by
  rw [nodeAt, containerAt_step]
  cases containerAt (build a n) [segment] <;> rfl

/-- The parts do not depend on the root's address. -/
theorem nodeAt_build (b : Addr) (n : Node (Json Addr)) (path : Path) :
    nodeAt (build a n) path = nodeAt (build b n) path := by
  cases path with
  | nil => rw [nodeAt_build_nil, nodeAt_build_nil]
  | cons segment rest => rw [nodeAt, containerAt_build_cons, nodeAt, containerAt_build_cons]

/-- Where the segment is no key on an array, the checks read an own property. -/
theorem childContainer_plain {n : Node Val} {segment : Seg}
    (plain : n.isArray = false ∨ ∃ i, segment = .index i) (path : Path) :
    childContainer n path segment =
      match n.own segment with
      | some (.ref child) => .ok child
      | _ => .error (.path path) := by
  cases n with
  | object fields =>
    have absent : Assoc.has segment.text fields = (Assoc.get segment.text fields).isSome := rfl
    cases segment <;>
      (simp only [childContainer, hasOwn, absent, Node.isArray, Node.own]
       cases Assoc.get _ fields <;> rfl)
  | array items =>
    rcases plain with object | ⟨i, rfl⟩
    · cases object
    · simp only [childContainer, hasOwn, Node.isArray, Node.own]
      by_cases inside : i < items.length
      · simp [inside]
      · simp [inside]

/-- The checks find the child container of the tree, or throw where there is none. -/
theorem childContainer_agrees (path : Path) (a : Addr) (segment : Seg) :
    Agrees (fun child focus => child = focus.1 ∧ n.own segment = some (build focus.1 focus.2))
      (childContainer (n.map val) path segment) (containerAt (build a n) [segment]) := by
  rw [containerAt_build_cons]
  by_cases plain : (n.map val).isArray = false ∨ ∃ i, segment = .index i
  · rw [childContainer_plain plain, Node.own_map]
    cases child : n.own segment with
    | none => exact Agrees.error _
    | some c =>
      cases parts : c.node with
      | none => cases c <;> first | exact Agrees.error _ | cases parts
      | some m =>
        obtain ⟨b, rfl⟩ := build_of_node parts
        rw [bind_eq_bind, bind_some, map_some, val_build,
          containerAt_eq_some.mpr (show (build b m).getAt [] = some (build b m) from rfl)]
        exact Agrees.ok ⟨rfl, rfl⟩
  -- A key on an array: no element of the tree, and refused by one check or the other.
  · rw [not_or, not_exists] at plain
    cases segment with
    | index i => exact absurd rfl (plain.2 i)
    | key k =>
      cases n with
      | object fields => exact absurd rfl plain.1
      | array items =>
        have refused : ∃ e, childContainer ((Node.array items).map val) path (.key k) = .error e := by
          unfold childContainer
          split_ifs
          · exact ⟨_, rfl⟩
          · exact ⟨_, rfl⟩
        obtain ⟨e, failed⟩ := refused
        rw [failed]
        exact Agrees.error e

/-- A copy of a tree that is itself a step on from another one. -/
theorem CopyOf.after {h₁ : Heap} {j₁ j' : Json Addr} {n : Node (Json Addr)} {a : Addr}
    {copied : Replay} (copy : CopyOf h₁ j₁ path rest n a copied j') (content : erase j₁ = erase j)
    (fewer : ∀ e, e < h.length → occ e j₁ ≤ occ e j)
    (frame : ∀ e, e < h.length → occ e j = 0 → h₁[e]? = h[e]?) (longer : h.length ≤ h₁.length) :
    CopyOf h j path rest n a copied j' where
  root := copy.root
  content := copy.content.trans content
  owns := copy.owns
  site := copy.site
  owned := copy.owned
  fewer e inside := (copy.fewer e (by omega)).trans (fewer e inside)
  frame e inside absent := by
    have none := fewer e inside
    rw [copy.frame e (by omega) (by omega), frame e inside absent]
  longer := longer.trans copy.longer

/-- One copied child, seen from the tree: the step of the loop. -/
theorem Owns.copyStep {pre : Path} {dest b : Addr} {n m : Node (Json Addr)} {segment : Seg}
    (owns : Owns (· ∈ owned) h (j :: live)) (found : j.getAt pre = some (build dest n))
    (own : dest ∈ owned) (child : n.own segment = some (build b m)) :
    ∃ j₁, j₁.val = j.val ∧ erase j₁ = erase j ∧
      (let h₁ := (h ++ [m.map val]).set dest (defineProperty (n.map val) segment (.ref h.length))
      Owns (· ∈ h.length :: owned) h₁ (j₁ :: live) ∧
      j₁.getAt (pre ++ [segment]) = some (build h.length m) ∧
      (∀ e, e < h.length → occ e j₁ ≤ occ e j) ∧
      (∀ e, e < h.length → occ e j = 0 → h₁[e]? = h[e]?) ∧ h.length ≤ h₁.length) := by
  obtain ⟨before, after, n', old, written, new, _⟩ := Node.write_own child (build h.length m)
  have defined : defineProperty (n.map val) segment (.ref h.length) = n'.map val := by
    have image := Node.write_map val segment (build h.length m) n
    rw [val_build, written] at image
    rw [defineProperty, image]
    rfl
  have whole := held_build.mp (held_getAt (owns.held j mem_cons_self) found)
  refine ⟨j.replaceAt pre (build dest n'), val_replaceAt found (by rw [val_build, val_build]), ?_,
    ?_, ?_, ?_, ?_, ?_⟩
  · refine erase_replaceAt found ?_
    rw [erase, relabel_build, erase, relabel_build]
    have image := Node.write_map erase segment (build h.length m) n
    have same : erase (build h.length m) = erase (build b m) := by
      rw [erase, relabel_build, erase, relabel_build]
    have kept : (n.map erase).write segment (erase (build b m)) = some (n.map erase) :=
      Node.write_own_self (by rw [Node.own_map, child]; rfl)
    rw [same, written, kept] at image
    exact congrArg _ (Option.some.inj image).symm
  · rw [defined]
    have copied := owns.copyChild found own child written
    exact ⟨copied.held, fun e member => copied.once e (mem_cons.mp member)⟩
  · rw [getAt_append, getAt_replaceAt found]
    simp only [bind_eq_bind, bind_some, getAt, child_build, Node.own_write_self written]
  · intro e inside
    have change := occ_replaceAt e found (build dest n')
    simp only [occ_build, Node.weight, old, new, map_append, map_cons, sum_append,
      sum_cons, if_neg inside.ne'] at change
    omega
  · intro e inside absent
    have deep := occ_le_of_getAt e found
    rw [occ_build] at deep
    have other : dest ≠ e := by
      rintro rfl
      rw [if_pos rfl] at deep
      omega
    rw [List.getElem?_set_ne other, List.getElem?_append_left inside]
  · simp

/-- **The loop of `copyContainers`**: it fails exactly where the path leads to no container. -/
theorem copyLoop_agrees (full : Path) {rest : Path} {h : Heap} {j : Json Addr}
    {live : List (Json Addr)} {owned : List Addr} {pre : Path} {dest : Addr} {n : Node (Json Addr)}
    (owns : Owns (· ∈ owned) h (j :: live)) (found : j.getAt pre = some (build dest n))
    (own : dest ∈ owned) :
    Agrees (fun result m => ∃ j', CopyOf h j (pre ++ rest) live m result.2.2
        ⟨result.1, j.val, result.2.1⟩ j')
      (copyLoop h full owned dest rest) (nodeAt (build dest n) rest) := by
  induction rest generalizing h j owned pre dest n with
  | nil =>
    rw [nodeAt_build_nil]
    refine Agrees.ok ⟨j, rfl, rfl, owns, ?_, own, fun _ _ => Nat.le_refl _, fun _ _ _ => rfl,
      Nat.le_refl _⟩
    rw [append_nil]
    exact found
  | cons segment rest ih =>
    have whole := held_build.mp (held_getAt (owns.held j mem_cons_self) found)
    rw [copyLoop, whole.1, nodeAt_step]
    refine Agrees.bind (childContainer_agrees n full dest segment) ?_
    rintro child ⟨b, m⟩ ⟨same, inner⟩
    obtain rfl : b = child := same.symm
    dsimp only
    have below : j.getAt (pre ++ [segment]) = some (build b m) := by
      rw [getAt_append, found, bind_eq_bind, bind_some, getAt, child_build, inner]
      rfl
    have path_eq : pre ++ segment :: rest = (pre ++ [segment]) ++ rest := by simp
    rw [path_eq]
    split
    · rename_i owned_child
      exact ih owns below owned_child
    · have part := (held_build.mp (held_getAt (owns.held j mem_cons_self) below)).1
      rw [part]
      obtain ⟨j₁, same, content, owns₁, below₁, fewer, frame, longer⟩ :=
        owns.copyStep found own inner
      rw [nodeAt_build b h.length]
      refine (ih owns₁ below₁ mem_cons_self).imp ?_
      rintro result m' ⟨j', copy⟩
      rw [same] at copy
      exact ⟨j', copy.after content fewer frame longer⟩

/-- Copying fails exactly where the path leads to no container, and else leaves a copy that owns the
path. -/
theorem copyTo_agrees (root : replay.root = j.val)
    (owns : Owns (· ∈ replay.owned) replay.heap (j :: live)) (path : Path) :
    Agrees (fun result n => ∃ j', CopyOf replay.heap j path live n result.2 result.1 j')
      (copyTo replay path) (nodeAt j path) := by
  cases parts : j.node with
  | none =>
    have primitive : ∃ e, copyTo replay path = .error e := by
      rw [copyTo, root]
      cases j <;> first | exact ⟨_, rfl⟩ | cases parts
    obtain ⟨e, failed⟩ := primitive
    rw [failed, nodeAt, containerAt_of_node_none parts]
    exact Agrees.error e
  | some n =>
    obtain ⟨a, rfl⟩ := build_of_node parts
    rw [val_build] at root
    simp only [copyTo, root]
    split
    · rename_i own
      have loop := @copyLoop_agrees path path _ _ _ _ [] _ _ owns rfl own
      refine loop.andThen ?_
      rintro ⟨heap, owned, destination⟩ m ⟨j', copy⟩
      rw [val_build] at copy
      exact ⟨_, rfl, j', copy⟩
    · have here := (held_build.mp (owns.held _ mem_cons_self)).1
      rw [here]
      have copied := owns.copyRoot
      have owns₁ : Owns (· ∈ replay.heap.length :: replay.owned) (replay.heap ++ [n.map val])
          (build replay.heap.length n :: live) :=
        ⟨copied.held, fun e member => copied.once e (mem_cons.mp member)⟩
      have loop := @copyLoop_agrees path path _ _ _ _ [] _ _ owns₁ rfl mem_cons_self
      rw [nodeAt_build a replay.heap.length]
      refine loop.andThen ?_
      rintro ⟨heap, owned, destination⟩ m ⟨j', copy⟩
      rw [val_build] at copy
      refine ⟨_, rfl, j', copy.after ?_ (fun e inside => ?_) (fun e inside _ => ?_) (by simp)⟩
      · rw [erase, relabel_build, erase, relabel_build]
      · rw [occ_build, occ_build, if_neg inside.ne']
        omega
      · exact List.getElem?_append_left inside

/-- **`copyContainers`** fails exactly where the path leads to no container, and else leaves a copy
that owns the path. -/
theorem copyContainers_agrees {replay : Replay} {j : Json Addr} {live : List (Json Addr)}
    (root : replay.root = j.val) (owns : Owns (· ∈ replay.owned) replay.heap (j :: live))
    (path : Path) :
    Agrees (fun copied n => ∃ a j', CopyOf replay.heap j path live n a copied j')
      (copyContainers replay path) (nodeAt j path) := by
  refine (copyTo_agrees root owns path).andThen ?_
  rintro ⟨copied, a⟩ n ⟨j', copy⟩
  exact ⟨copied, rfl, a, j', copy⟩

/-! ### One operation -/

/-- The replay holds a tree of the content, and owns its copies. -/
def Shows (rest : List (Json Addr)) (replay : Replay) (content : Json Unit) : Prop :=
  ∃ j, replay.root = j.val ∧ erase j = content ∧ Owns (· ∈ replay.owned) replay.heap (j :: rest)

/-- The effect of an operation on a copy of a tree. -/
theorem transform_copy {op : Op (Json Addr)} {j j' : Json Addr} (content : erase j' = erase j) :
    (transform op j').map erase = (transform op j).map erase := by
  rw [erase, erase] at content
  show (transform op j').map (relabel _) = (transform op j).map (relabel _)
  rw [← transform_relabel, content, transform_relabel]

variable {op : Op (Json Addr)}

theorem transform_of_nodeAt_none (base : op.isReplace = false) (missing : nodeAt j op.site = none) :
    transform op j = none := by
  by_cases valid : op.Valid
  · rw [transform_of_not_replace valid base]
    cases found : j.getAt op.site with
    | none => rfl
    | some x =>
      cases parts : x.node with
      | none => cases x <;> first | rfl | cases parts
      | some n =>
        obtain ⟨a, rfl⟩ := build_of_node parts
        rw [nodeAt, containerAt_eq_some.mpr found] at missing
        cases missing
  · exact transform_invalid valid j

/-- **Copy, then mutate the copy.** -/
theorem copyAndApply_agrees (base : op.isReplace = false) (root : replay.root = j.val)
    (owns : Owns (· ∈ replay.owned) replay.heap (j :: (op.payload ++ rest))) :
    Agrees (Shows rest) (copyAndApply replay (op.map val)) ((transform op j).map erase) := by
  have copy := copyContainers_agrees root owns op.site
  rw [copyAndApply, Op.site_map]
  cases focus : nodeAt j op.site with
  | none =>
    rw [focus] at copy
    obtain ⟨e, failed⟩ := copy.of_none
    rw [failed, transform_of_nodeAt_none base focus]
    exact Agrees.error e
  | some n =>
    rw [focus] at copy
    obtain ⟨copied, done, b, j', isCopy⟩ := copy.of_some
    have site : ∀ a m, j'.getAt op.site = some (build a m) → a ∈ copied.owned := by
      intro a m found
      rw [isCopy.site] at found
      have same : b = a := by
        have labels := congrArg (fun x => x >>= label) found
        simpa using labels
      rw [← same]
      exact isCopy.owned
    have one := applyOp_agrees isCopy.owns site
    rw [done, ← transform_copy isCopy.content]
    simp only [bind, Except.bind, applyOps, isCopy.root]
    cases effect : transform op j' with
    | none =>
      rw [effect] at one
      obtain ⟨e, failed⟩ := one.of_none
      rw [failed]
      exact Agrees.error e
    | some j'' =>
      rw [effect] at one
      obtain ⟨result, applied, same, owns'⟩ := one.of_some
      rw [applied]
      exact Agrees.ok ⟨j'', same, rfl, owns'⟩

/-! ### An append by copy -/

theorem appendWalk_getAt (held : Held h j) {v : Val} (walked : appendWalk h j.val path = some v) :
    ∃ x, j.getAt path = some x ∧ x.val = v := by
  induction path generalizing j with
  | nil =>
    cases walked
    exact ⟨j, rfl, rfl⟩
  | cons segment rest ih =>
    unfold appendWalk at walked
    rw [node_of_held held] at walked
    cases parts : j.node with
    | none =>
      rw [parts] at walked
      cases walked
    | some n =>
      obtain ⟨a, rfl⟩ := build_of_node parts
      have below := (held_build.mp held).2
      rw [node_build] at walked
      rw [getAt, child_build]
      cases n with
      | array items =>
        cases segment with
        | key k => cases walked
        | index i =>
          simp only [map_some, Node.map, List.getElem?_map, Node.own] at walked ⊢
          cases found : items[i]? with
          | none =>
            rw [found] at walked
            cases walked
          | some c =>
            rw [found] at walked
            exact ih (below c (mem_of_getElem? found)) walked
      | object fields =>
        cases segment with
        | index i => cases walked
        | key k =>
          simp only [map_some, Node.map, Assoc.get_mapValues, Node.own, Seg.text] at walked ⊢
          split at walked
          · cases walked
          · cases found : Assoc.get k fields with
            | none =>
              rw [found] at walked
              cases walked
            | some c =>
              rw [found] at walked
              exact ih (below c (List.mem_map_of_mem (Assoc.mem_of_get found))) walked

/-- Where `appendCopy` applies: an array of the tree that is not owned, appended to at its end. -/
structure Appends (replay : Replay) (j : Json Addr) (path : Path) (index remove : Nat)
    (target : Addr) (old : List (Json Addr)) : Prop where
  found : j.getAt path = some (build target (.array old))
  last : index = old.length
  none : remove = 0

/-- What `appendCopy` does there. -/
def appendAt (replay : Replay) (path : Path) (cell : Node Val) : Except DeltaError Replay :=
  let appended := replay.heap.length
  let heap := replay.heap ++ [cell]
  let owned := appended :: replay.owned
  match path.getLast? with
  | .none => .ok ⟨heap, .ref appended, owned⟩
  | some key => do
    let copied ← copyContainers ⟨heap, replay.root, owned⟩ path.dropLast
    let (a, n) ← resolve copied.heap copied.root path.dropLast
    return { copied with heap := copied.heap.set a (defineProperty n key (.ref appended)) }

theorem appendCopy_cases (root : replay.root = j.val) (held : Held replay.heap j) (path : Path)
    (index remove : Nat) (items : List (Json Addr)) :
    appendCopy replay path index remove (items.map val) = .ok none ∨
      ∃ target old, Appends replay j path index remove target old ∧
        appendCopy replay path index remove (items.map val) =
          (appendAt replay path (.array ((old ++ items).map val))).map some := by
  unfold appendCopy
  split_ifs with removes
  · exact .inl rfl
  · cases walked : appendWalk replay.heap replay.root path with
    | none => exact .inl rfl
    | some v =>
      cases v with
      | null | bool | number | string => exact .inl rfl
      | ref target =>
        rw [root] at walked
        obtain ⟨x, found, same⟩ := appendWalk_getAt held walked
        have node := node_of_held (held_getAt held found)
        rw [same] at node
        have cell : replay.heap[target]? = x.node.map (Node.map val) := node
        simp only [cell]
        cases parts : x.node with
        | none => exact .inl rfl
        | some n =>
          obtain ⟨b, rfl⟩ := build_of_node parts
          rw [val_build] at same
          cases same
          cases n with
          | object fields => exact .inl rfl
          | array old =>
            simp only [map_some, Node.map, length_map]
            split_ifs with general
            · exact .inl rfl
            · rw [not_or, not_not] at general
              refine .inr ⟨target, old, ⟨found, general.2, not_not.mp removes⟩, ?_⟩
              simp only [appendAt, map_append]
              cases path.getLast? with
              | none => rfl
              | some key =>
                simp only [bind, Except.bind, Except.map, pure, Except.pure]
                cases copyContainers ⟨replay.heap ++ [.array (old.map val ++ items.map val)],
                    replay.root, replay.heap.length :: replay.owned⟩ path.dropLast with
                | error e => rfl
                | ok copied =>
                  dsimp only
                  cases resolve copied.heap copied.root path.dropLast <;> rfl

variable {old items : List (Json Addr)}

/-- The tree an append leaves, up to the identity of the array. -/
theorem transform_append {index remove target : Nat}
    (appends : Appends replay j path index remove target old)
    (valid : (Op.p path index remove items).Valid) :
    transform (.p path index remove items) j =
      some (j.replaceAt path (build target (.array (old ++ items)))) := by
  rw [transform_of_not_replace valid rfl, Op.site, appends.found]
  simp only [bind_eq_bind, bind_some, editWith_build, Op.edit, appends.none,
    appends.last, splice, take_length, Nat.add_zero, drop_length, append_nil,
    map_some]

/-- The last step of a path. -/
theorem getAt_dropLast {ι : Type} {j x : Json ι} {key : Seg} (found : j.getAt path = some x)
    (last : path.getLast? = some key) :
    ∃ id n, j.getAt path.dropLast = some (build id n) ∧ n.own key = some x ∧
      path = path.dropLast ++ [key] := by
  obtain ⟨init, rfl⟩ := List.getLast?_eq_some_iff.mp last
  rw [getAt_append] at found
  obtain ⟨y, before, child⟩ := Option.bind_eq_some_iff.mp found
  obtain ⟨c, own, same⟩ := Option.bind_eq_some_iff.mp child
  cases same
  obtain ⟨id, n, rfl, _⟩ := child_eq_some own
  rw [child_build] at own
  rw [dropLast_concat]
  exact ⟨id, n, before, own, rfl⟩

/-- The appended array, with the next address, before it is linked. -/
theorem Owns.appended {target : Addr} (owns : Owns (· ∈ owned) h (j :: live))
    (found : j.getAt path = some (build target (.array old))) (held : ∀ x ∈ items, Held h x) :
    Owns (· ∈ h.length :: owned) (h ++ [.array ((old ++ items).map val)]) (j :: live) ∧
      Held (h ++ [.array ((old ++ items).map val)]) (build h.length (.array (old ++ items))) := by
  have below := (held_build.mp (held_getAt (owns.held j mem_cons_self) found)).2
  refine ⟨⟨fun x member => (owns.held x member).append _, fun e member => ?_⟩, ?_⟩
  · have absent := owns.sum_occ_fresh
    rcases mem_cons.mp member with rfl | old'
    · rw [absent]
      exact Nat.zero_le 1
    · exact owns.once e old'
  · refine held_build.mpr ⟨by simp [Node.map], fun x member => ?_⟩
    rcases List.mem_append.mp member with front | back
    · exact (below x front).append _
    · exact (held x back).append _

/-- Linking the appended array in the place of the array it extends. -/
theorem Owns.link {a target fresh : Addr} {n n' : Node (Json Addr)} {key : Seg}
    (owns : Owns (· ∈ owned) h (j :: (items ++ rest))) (site : j.getAt path = some (build a n))
    (own : a ∈ owned) (child : n.own key = some (build target (.array old)))
    (written : n.write key (build fresh (.array (old ++ items))) = some n')
    (held : Held h (build fresh (.array (old ++ items))))
    (absent : ((j :: (items ++ rest)).map (occ fresh)).sum = 0) :
    Owns (· ∈ owned) (h.set a (n'.map val)) (j.replaceAt path (build a n') :: rest) := by
  obtain ⟨before, after, _, oldParts, written', newParts, _⟩ :=
    Node.write_own child (build fresh (.array (old ++ items)))
  rw [written] at written'
  cases written'
  have below := (held_build.mp (held_getAt (owns.held j mem_cons_self) site)).2
  have total := owns.once a own
  have deep := occ_le_of_getAt a site
  rw [occ_build, if_pos rfl] at deep
  rw [map_cons, sum_cons, map_append, sum_append] at total absent
  have apart : ∀ x ∈ n.parts, occ a x = 0 := fun x => weight_part (by omega)
  have other : fresh ≠ a := by
    rintro rfl
    omega
  refine owns.write site own (subset_append_right items rest) (fun x member => ?_)
    fun e member => ?_
  · rw [newParts] at member
    rcases List.mem_append.mp member with front | more
    · have part : x ∈ n.parts := by
        rw [oldParts]
        exact mem_append_left _ front
      exact ⟨below x part, apart x part⟩
    · rcases mem_cons.mp more with rfl | back
      · have replaced := apart (build target (.array old)) (by
          rw [oldParts]
          exact mem_append_right _ mem_cons_self)
        refine ⟨held, ?_⟩
        simp only [occ_build, Node.weight, Node.parts] at replaced
        simp only [occ_build, Node.weight, Node.parts, if_neg other, map_append, sum_append]
        omega
      · have part : x ∈ n.parts := by
          rw [oldParts]
          exact mem_append_right _ (mem_cons_of_mem _ back)
        exact ⟨below x part, apart x part⟩
  · have change := occ_replaceAt e site (build a n')
    have most := owns.once e member
    simp only [map_cons, sum_cons, map_append, sum_append] at most
    rw [occ_build, occ_build, Node.weight, Node.weight, oldParts, newParts] at change
    simp only [occ_build, Node.weight, Node.parts, map_append, map_cons, sum_append,
      sum_cons] at change
    by_cases same : fresh = e
    · subst same
      rw [if_pos rfl] at change
      omega
    · rw [if_neg same] at change
      omega

/-- **`appendCopy`** leaves the effect of the operation it stands for. -/
theorem appendAt_shows {index remove target : Nat} (root : replay.root = j.val)
    (owns : Owns (· ∈ replay.owned) replay.heap (j :: (items ++ rest)))
    (appends : Appends replay j path index remove target old) :
    ∃ result, appendAt replay path (.array ((old ++ items).map val)) = .ok result ∧
      Shows rest result (erase (j.replaceAt path (build target (.array (old ++ items))))) := by
  have content : erase (build replay.heap.length (.array (old ++ items))) =
      erase (build target (.array (old ++ items))) := by
    rw [erase, relabel_build, erase, relabel_build]
  have itemsHeld : ∀ x ∈ items, Held replay.heap x := fun x member =>
    owns.held x (mem_cons_of_mem _ (mem_append_left rest member))
  obtain ⟨owns₁, held₁⟩ := owns.appended appends.found itemsHeld
  have absent := owns.sum_occ_fresh
  rw [map_cons, sum_cons, map_append, sum_append] at absent
  cases last : path.getLast? with
  | none =>
    obtain rfl := List.getLast?_eq_none_iff.mp last
    have found := appends.found
    rw [getAt] at found
    cases found
    refine ⟨_, rfl, build replay.heap.length (.array (old ++ items)), rfl, content, ?_, ?_⟩
    · intro x member
      rcases mem_cons.mp member with rfl | later
      · exact held₁
      · exact owns₁.held x (mem_cons_of_mem _ (mem_append_right items later))
    · intro e member
      simp only [occ_build, Node.weight, Node.parts] at absent
      simp only [map_cons, sum_cons, occ_build, Node.weight, Node.parts, map_append, sum_append]
      rcases mem_cons.mp member with rfl | own
      · rw [if_pos rfl]
        omega
      · have total := owns.once e own
        simp only [map_cons, sum_cons, occ_build, Node.weight, Node.parts,
          map_append, sum_append] at total
        by_cases fresh : replay.heap.length = e
        · subst fresh
          rw [if_pos rfl]
          omega
        · rw [if_neg fresh]
          omega
  | some key =>
    obtain ⟨id, n, parent, own, shape⟩ := getAt_dropLast appends.found last
    have copy := @copyContainers_agrees
      ⟨replay.heap ++ [.array ((old ++ items).map val)], replay.root,
        replay.heap.length :: replay.owned⟩ _ _ root owns₁ path.dropLast
    rw [nodeAt, containerAt_eq_some.mpr parent] at copy
    obtain ⟨copied, done, a, j', isCopy⟩ := copy.of_some
    have site := isCopy.site
    have resolved := resolve_agrees (isCopy.owns.held j' mem_cons_self) path.dropLast
    rw [containerAt_eq_some.mpr site, ← isCopy.root] at resolved
    obtain ⟨found, reached, rfl, _⟩ := resolved.of_some
    obtain ⟨before, after, n', oldParts, written, newParts, _⟩ :=
      Node.write_own own (build replay.heap.length (.array (old ++ items)))
    have defined : defineProperty (n.map val) key (.ref replay.heap.length) = n'.map val := by
      have image := Node.write_map val key (build replay.heap.length (.array (old ++ items))) n
      rw [val_build, written] at image
      rw [defineProperty, image]
      rfl
    refine ⟨⟨copied.heap.set a (n'.map val), copied.root, copied.owned⟩, ?_,
      j'.replaceAt path.dropLast (build a n'), ?_, ?_, ?_⟩
    · simp only [appendAt, last, done, bind, Except.bind, reached, defined]
      rfl
    · rw [isCopy.root, val_replaceAt site (by rw [val_build, val_build])]
    · have linked : j'.replaceAt path.dropLast (build a n') =
          j'.replaceAt path (build replay.heap.length (.array (old ++ items))) := by
        conv_rhs => rw [shape]
        rw [replaceAt_append site, replaceAt, child_build, own]
        simp only [replaceAt, setChild, editWith_build, written, map_some, getD_some]
      rw [linked, erase, ← replaceAt_relabel, erase, ← replaceAt_relabel]
      exact congrArg₂ (fun whole part => replaceAt whole path part) isCopy.content content
    · have fewer := isCopy.fewer replay.heap.length (by simp)
      refine isCopy.owns.link site isCopy.owned own written (held_build.mpr ⟨?_, fun x member => ?_⟩) ?_
      · rw [isCopy.frame _ (by simp) (by omega)]
        simp [Node.map]
      · rcases List.mem_append.mp member with front | back
        · have whole := held_build.mp (held_getAt (isCopy.owns.held j' mem_cons_self) site)
          have kept := whole.2 (build target (.array old)) (by
            rw [oldParts]
            exact mem_append_right _ mem_cons_self)
          exact (held_build.mp kept).2 x front
        · exact isCopy.owns.held x (mem_cons_of_mem _ (mem_append_left rest back))
      · rw [map_cons, sum_cons, map_append, sum_append]
        omega

/-! ### A replay -/

/-- **One operation of a replay**: it throws exactly when the operation has no effect on the
content, and else yields the effect. -/
theorem applyImmutableOp_agrees (root : replay.root = j.val)
    (owns : Owns (· ∈ replay.owned) replay.heap (j :: (op.payload ++ rest))) :
    Agrees (Shows rest) (applyImmutableOp replay (op.map val)) ((transform op j).map erase) := by
  by_cases valid : op.Valid
  · have accepted : assertValidOp (op.map val) = .ok () := (Op.valid_map val op).mpr valid
    cases op with
    | r value =>
      refine Agrees.ok ⟨value, rfl, rfl, fun x member => ?_, fun e own => ?_⟩
      · exact owns.held x (mem_cons_of_mem _ (by simpa [Op.payload] using member))
      · have total := owns.once e own
        rw [map_cons, sum_cons] at total
        simpa [Op.payload] using Nat.le_of_add_left_le total
    | s | d | a | t | m =>
      simp only [applyImmutableOp, accepted, bind, Except.bind]
      exact copyAndApply_agrees rfl root owns
    | p path index remove items =>
      simp only [Op.map] at accepted ⊢
      simp only [applyImmutableOp, accepted, bind, Except.bind]
      rcases appendCopy_cases root (owns.held j mem_cons_self) path index remove items with
        general | ⟨target, old, appends, appended⟩
      · simp only [general]
        exact copyAndApply_agrees rfl root owns
      · have owns' : Owns (· ∈ replay.owned) replay.heap (j :: (items ++ rest)) := owns
        obtain ⟨result, done, shows⟩ := appendAt_shows root owns' appends
        simp only [appended, done, Except.map]
        rw [transform_append appends valid]
        exact Agrees.ok shows
  · rw [transform_invalid valid]
    cases refused : assertValidOp (op.map val) with
    | ok _ => exact absurd ((Op.valid_map val op).mp refused) valid
    | error e =>
      simp only [applyImmutableOp, refused, bind, Except.bind]
      exact Agrees.error e

theorem transform_of_erase {content : Json Unit} (same : erase j = content) :
    transform (op.map erase) content = (transform op j).map erase := by
  rw [← same]
  exact transform_relabel _ op j

theorem applyImmutableLoop_agrees {ops : List (Op (Json Addr))} {content : Json Unit}
    (shows : Shows (ops.flatMap Op.payload ++ rest) replay content) :
    Agrees (Shows rest) (applyImmutableLoop replay (ops.map (Op.map val)))
      (transformAll (ops.map (Op.map erase)) content) := by
  induction ops generalizing replay content with
  | nil => exact Agrees.ok shows
  | cons op ops ih =>
    obtain ⟨j, root, same, owns⟩ := shows
    rw [map_cons, applyImmutableLoop, map_cons, transformAll, transform_of_erase same]
    rw [flatMap_cons, append_assoc] at owns
    exact Agrees.bind (applyImmutableOp_agrees root owns) fun _ _ => ih

/-- **A replay of batches** is a replay of their operations, one after another. -/
theorem applyImmutableBatches_agrees {h : Heap} {j : Json Addr}
    {batches : List (List (Op (Json Addr)))}
    (held : ∀ x ∈ j :: batches.flatten.flatMap Op.payload, Held h x) :
    Agrees (fun result content => ∃ j', result.2 = j'.val ∧ erase j' = content ∧ Held result.1 j')
      (applyImmutableBatches h j.val (batches.map (List.map (Op.map val))))
      (transformAll (batches.flatten.map (Op.map erase)) (erase j)) := by
  have run : ∀ {replay : Replay} {content : Json Unit},
      Shows (batches.flatten.flatMap Op.payload) replay content →
      Agrees (Shows []) ((batches.map (List.map (Op.map val))).foldlM applyImmutableLoop replay)
        (transformAll (batches.flatten.map (Op.map erase)) content) := by
    clear held
    induction batches with
    | nil => exact fun shows => Agrees.ok shows
    | cons ops batches ih =>
      intro replay content shows
      rw [flatten_cons, flatMap_append] at shows
      rw [map_cons, foldlM_cons, flatten_cons, map_append, transformAll_append]
      exact Agrees.bind (applyImmutableLoop_agrees shows) fun _ _ => ih
  have start : Shows (batches.flatten.flatMap Op.payload) ⟨h, j.val, []⟩ (erase j) :=
    ⟨j, rfl, rfl, held, fun e own => (by cases own)⟩
  rw [applyImmutableBatches]
  refine (run start).andThen ?_
  rintro replay content ⟨j', root, same, owns⟩
  exact ⟨_, rfl, j', root, same, owns.held j' mem_cons_self⟩

end TianGong.Chord
