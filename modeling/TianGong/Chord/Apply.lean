/-
**`apply`: operations on a mutable value.**

`applyOps` mutates the containers of the heap in place, as the source does, with its checks and
errors in order. `applyOp_agrees`: on a tree whose site the heap owns, one operation throws exactly
when the operation has no effect on the tree (`transform`), and otherwise leaves the heap holding
that effect. `applyOps_agrees` is the run.
-/

import TianGong.Chord.Heap
import TianGong.Lib.Outcome

namespace TianGong.Chord

open TianGong.Lib TianGong.Json
open List Option

/-! ### Walking -/

/-- The loop of `resolveValue`: own properties only, and no key on an array. -/
def resolveLoop (h : Heap) (path : Path) : Val → Path → Except DeltaError Val
  | node, [] => .ok node
  | node, segment :: rest =>
    match h.node node with
    | none => .error (.path path)
    | some n =>
      match n.isArray, segment with
      | true, .key k => .error (.unsafePath (.key k))
      | _, segment =>
        match n.own segment with
        | none => .error (.path path)
        | some child => resolveLoop h path child rest

def resolveValue (h : Heap) (root : Val) (path : Path) : Except DeltaError Val :=
  resolveLoop h path root path

/-- `resolve`: the container at the end of a path, with its address. -/
def resolve (h : Heap) (root : Val) (path : Path) : Except DeltaError (Addr × Node Val) := do
  match ← resolveValue h root path with
  | .ref a => match h[a]? with
    | some n => return (a, n)
    | none => throw (.path path)
  | _ => throw (.path path)

/-! ### One operation -/

/-- `path.length === 0 ? root : resolve(root, path)`, which must be an array. -/
def arrayTarget (h : Heap) (root : Val) (path : Path) : Except DeltaError (Addr × List Val) := do
  match path with
  | [] => match root with
    | .ref a => match h[a]? with
      | some (.array items) => return (a, items)
      | _ => throw (.path path)
    | _ => throw (.path path)
  | path => match ← resolve h root path with
    | (a, .array items) => return (a, items)
    | (_, .object _) => throw (.path path)

/-- `assertIndexInRange`, with the check that an array is addressed by index. -/
def assertKey (parent : Node Val) (key : Seg) : Except DeltaError Unit :=
  match parent with
  | .object _ => .ok ()
  | .array items => match key with
    | .key k => .error (.unsafePath (.key k))
    | .index n => if n > items.length then .error (.unsafePath (.index n)) else .ok ()

/-- The parent of a path's end and the key under it, checked. -/
def parentOf (h : Heap) (root : Val) (path : Path) :
    Except DeltaError (Addr × Node Val × Seg) := do
  let parent ← resolve h root path.dropLast
  match path.getLast? with
  | none => throw (.path path)
  | some key =>
    assertKey parent.2 key
    return (parent.1, parent.2, key)

/-- `Object.defineProperty(parent, key, { value, … })`, at an asserted key. -/
def defineProperty (n : Node Val) (key : Seg) (value : Val) : Node Val :=
  (n.write key value).getD n

/-- Rewrite the string under a key, `a` and `t`. -/
def rewriteString (h : Heap) (root : Val) (path : Path) (f : Text → Text) :
    Except DeltaError (Heap × Val) := do
  let (a, n, key) ← parentOf h root path
  match n.own key with
  | some (.string current) => return (h.set a (defineProperty n key (.string (f current))), root)
  | _ => throw (.path path)

/-- The size of the chunks `apply` inserts. -/
def chunkSize : Nat := 10000

/-- One turn of the loop of `applyOps`. -/
def applyOp (h : Heap) (root : Val) (op : Op Val) : Except DeltaError (Heap × Val) := do
  assertValidOp op
  match op with
  | .r value => return (h, value)
  | .p path index remove items =>
    assertSafePath path
    let (a, old) ← arrayTarget h root path
    let spliced := insertChunks chunkSize items.length index items (splice index remove [] old)
    return (h.set a (.array spliced), root)
  | .m path permutation =>
    assertSafePath path
    let (a, previous) ← arrayTarget h root path
    if previous.length ≠ permutation.length then throw (.path path)
    match permute permutation previous with
    | some items => return (h.set a (.array items), root)
    | none => throw (.path path)
  | .s path value =>
    assertSafePath path
    let (a, n, key) ← parentOf h root path
    return (h.set a (defineProperty n key value), root)
  | .d path =>
    assertSafePath path
    let (a, n, key) ← parentOf h root path
    match n.delete key with
    | some n' => return (h.set a n', root)
    | none => throw (.path path)
  | .a path suffix =>
    assertSafePath path
    rewriteString h root path (· ++ suffix)
  | .t path count =>
    assertSafePath path
    rewriteString h root path (·.drop count)

/-- `applyOps`, which is `apply`: the heap after the operations, and the root. -/
def applyOps (h : Heap) (root : Val) : List (Op Val) → Except DeltaError (Heap × Val)
  | [] => .ok (h, root)
  | op :: ops => do
    let (h', root') ← applyOp h root op
    applyOps h' root' ops

/-! ### Walking agrees -/

variable {h : Heap} {j : Json Addr}

theorem resolveLoop_agrees (full : Path) (held : Held h j) (path : Path) :
    Agrees (fun v x => v = val x) (resolveLoop h full j.val path) (j.getAt path) := by
  induction path generalizing j with
  | nil => exact Agrees.ok rfl
  | cons segment rest ih =>
    rw [resolveLoop, node_of_held held, getAt, child]
    cases parts : j.node with
    | none => exact Agrees.error _
    | some n =>
      obtain ⟨a, rfl⟩ := build_of_node parts
      have below := (held_build.mp held).2
      cases n with
      | array items =>
        cases segment with
        | key k => exact Agrees.error _
        | index i =>
          simp only [map_some, Node.map, Node.isArray, Node.own, List.getElem?_map,
            bind_eq_bind, bind_some]
          cases found : items[i]? with
          | none => exact Agrees.error _
          | some c => exact ih (below c (mem_of_getElem? found))
      | object fields =>
        simp only [map_some, Node.map, Node.isArray, Node.own, Assoc.get_mapValues,
          bind_eq_bind, bind_some]
        cases found : Assoc.get segment.text fields with
        | none => exact Agrees.error _
        | some c => exact ih (below c (List.mem_map_of_mem (Assoc.mem_of_get found)))

/-- The container at the end of a path of the tree, with its address. -/
def containerAt (j : Json Addr) (path : Path) : Option (Addr × Node (Json Addr)) :=
  j.getAt path >>= fun x => x.label >>= fun a => x.node.map fun n => (a, n)

theorem containerAt_eq_some {path : Path} {a : Addr} {n : Node (Json Addr)} :
    containerAt j path = some (a, n) ↔ j.getAt path = some (build a n) := by
  constructor
  · intro found
    obtain ⟨x, here, parts⟩ := Option.bind_eq_some_iff.mp found
    obtain ⟨b, label, parts⟩ := Option.bind_eq_some_iff.mp parts
    obtain ⟨m, node, same⟩ := Option.map_eq_some_iff.mp parts
    cases same
    obtain ⟨c, rfl⟩ := build_of_node node
    rw [label_build] at label
    cases label
    exact here
  · intro found
    rw [containerAt, found]
    simp

/-- **`resolve` finds the container of the tree**, or throws where there is none. -/
theorem resolve_agrees (held : Held h j) (path : Path) :
    Agrees (fun found focus => found = (focus.1, focus.2.map val) ∧
        j.getAt path = some (build focus.1 focus.2))
      (resolve h j.val path) (containerAt j path) := by
  have walk := resolveLoop_agrees path held path
  rw [resolve, resolveValue, containerAt]
  cases found : j.getAt path with
  | none =>
    rw [found] at walk
    obtain ⟨e, failed⟩ := walk.of_none
    rw [failed]
    exact Agrees.error e
  | some x =>
    rw [found] at walk
    obtain ⟨v, reached, rfl⟩ := walk.of_some
    rw [reached]
    have below := held_getAt held found
    cases parts : x.node with
    | none => cases x <;> first | exact Agrees.error _ | cases parts
    | some n =>
      obtain ⟨a, rfl⟩ := build_of_node parts
      have here := (held_build.mp below).1
      simp only [bind, Except.bind, val_build, here, label_build, node_build, bind_some,
        map_some, pure, Except.pure]
      exact Agrees.ok ⟨rfl, rfl⟩

/-! ### One operation edits its site -/

theorem arrayTarget_eq (h : Heap) (root : Val) (path : Path) :
    arrayTarget h root path = (do
      let (a, n) ← resolve h root path
      match n with
      | .array items => return (a, items)
      | .object _ => throw (.path path)) := by
  cases path with
  | nil =>
    cases root with
    | ref a =>
      simp only [arrayTarget, resolve, resolveValue, resolveLoop, bind, Except.bind]
      cases h[a]? with
      | none => rfl
      | some n => cases n <;> rfl
    | null | bool | number | string => rfl
  | cons segment rest =>
    simp only [arrayTarget, bind, Except.bind]
    cases resolve h root (segment :: rest) with
    | error e => rfl
    | ok found =>
      obtain ⟨a, n⟩ := found
      cases n <;> rfl

/-- An asserted key can be written; at any other key there is nothing to write, delete or read. -/
theorem assertKey_cases (n : Node Val) (key : Seg) :
    (assertKey n key = .ok () ∧ ∀ v, n.write key v = some (defineProperty n key v)) ∨
      (∃ e, assertKey n key = .error e) ∧ n.own key = none ∧ n.delete key = none ∧
        ∀ v, n.write key v = none := by
  cases n with
  | object fields => exact .inl ⟨rfl, fun v => rfl⟩
  | array items =>
    cases key with
    | key k => exact .inr ⟨⟨_, rfl⟩, rfl, rfl, fun v => rfl⟩
    | index i =>
      by_cases inside : i ≤ items.length
      · refine .inl ⟨if_neg (Nat.not_lt.mpr inside), fun v => ?_⟩
        rcases Nat.lt_or_eq_of_le inside with less | last
        · simp [defineProperty, Node.write, less]
        · simp [defineProperty, Node.write, last]
      · have beyond : items.length < i := Nat.lt_of_not_le inside
        refine .inr ⟨⟨_, if_pos beyond⟩, ?_, ?_, fun v => ?_⟩
        · exact List.getElem?_eq_none (Nat.le_of_lt beyond)
        · exact if_neg (by omega)
        · simp only [Node.write]
          rw [if_neg (by omega), if_neg (by omega)]

theorem rewriteString_eq {root : Val} {path : Path} {key : Seg} (last : path.getLast? = some key)
    (f : Text → Text) :
    Agrees Eq (rewriteString h root path f) ((resolve h root path.dropLast).toOption >>= fun found =>
      (found.2.editString key f).map fun n' => (h.set found.1 n', root)) := by
  rw [rewriteString, parentOf]
  cases resolve h root path.dropLast with
  | error e => exact Agrees.error e
  | ok found =>
    obtain ⟨a, n⟩ := found
    simp only [bind, Except.bind, last, Except.toOption, bind_some, Node.editString, pure,
      Except.pure]
    rcases assertKey_cases n key with ⟨accepted, written⟩ | ⟨⟨e, refused⟩, own, _, _⟩
    · rw [accepted]
      dsimp only
      cases n.own key with
      | none => exact Agrees.error _
      | some v =>
        cases v with
        | string s =>
          simp only [bind_some, HasString.asString, HasString.string, written, map_some]
          exact Agrees.ok rfl
        | null | bool | number | ref => exact Agrees.error _
    · rw [refused, own]
      exact Agrees.error e

/-- **A valid operation other than a replacement edits the container at its site.** -/
theorem applyOp_eq {op : Op Val} (valid : op.Valid) (base : op.isReplace = false) (h : Heap)
    (root : Val) :
    Agrees Eq (applyOp h root op) ((resolve h root op.site).toOption >>= fun found =>
      (op.edit found.2).map fun n' => (h.set found.1 n', root)) := by
  obtain ⟨safe, target, _⟩ := valid.parts base
  have accepted : assertValidOp op = .ok () := valid
  have walkable : assertSafePath op.path = .ok () := assertSafePath_ok_iff.mpr safe
  cases op with
  | r value => cases base
  | s path value =>
    obtain ⟨key, last⟩ := Option.ne_none_iff_exists'.mp
      (mt List.getLast?_eq_none_iff.mp (target rfl))
    simp only [applyOp, accepted, bind, Except.bind, parentOf, Op.site, Op.edit]
    simp only [Op.path] at walkable last
    simp only [walkable, last]
    cases resolve h root path.dropLast with
    | error e => exact Agrees.error e
    | ok found =>
      obtain ⟨a, n⟩ := found
      simp only [Except.toOption, bind_some]
      rcases assertKey_cases n key with ⟨ok, written⟩ | ⟨⟨e, refused⟩, _, _, missing⟩
      · rw [ok, written]
        exact rfl
      · rw [refused, missing]
        exact Agrees.error e
  | d path =>
    obtain ⟨key, last⟩ := Option.ne_none_iff_exists'.mp
      (mt List.getLast?_eq_none_iff.mp (target rfl))
    simp only [applyOp, accepted, bind, Except.bind, parentOf, Op.site, Op.edit]
    simp only [Op.path] at walkable last
    simp only [walkable, last]
    cases resolve h root path.dropLast with
    | error e => exact Agrees.error e
    | ok found =>
      obtain ⟨a, n⟩ := found
      simp only [Except.toOption, bind_some, pure, Except.pure]
      rcases assertKey_cases n key with ⟨ok, _⟩ | ⟨⟨e, refused⟩, _, missing, _⟩
      · rw [ok]
        dsimp only
        cases n.delete key with
        | none => exact Agrees.error _
        | some n' => exact rfl
      · rw [refused, missing]
        exact Agrees.error e
  | a path suffix | t path count =>
    obtain ⟨key, last⟩ := Option.ne_none_iff_exists'.mp
      (mt List.getLast?_eq_none_iff.mp (target rfl))
    simp only [Op.path] at walkable last
    simp only [applyOp, accepted, bind, Except.bind, walkable, Op.site, Op.edit, last]
    exact rewriteString_eq last _
  | p path index remove items =>
    simp only [Op.path] at walkable
    simp only [applyOp, accepted, bind, Except.bind, walkable, Op.site, arrayTarget_eq]
    cases resolve h root path with
    | error e => exact Agrees.error e
    | ok found =>
      obtain ⟨a, n⟩ := found
      cases n with
      | object fields => exact Agrees.error _
      | array old =>
        simp only [insertChunks_eq (show 0 < chunkSize by decide)]
        exact rfl
  | m path permutation =>
    simp only [Op.path] at walkable
    simp only [applyOp, accepted, bind, Except.bind, walkable, Op.site, arrayTarget_eq]
    cases resolve h root path with
    | error e => exact Agrees.error e
    | ok found =>
      obtain ⟨a, n⟩ := found
      cases n with
      | object fields => exact Agrees.error _
      | array old =>
        simp only [pure, Except.pure, Except.toOption, bind_some, Op.edit, ne_eq, ite_not]
        split
        · cases permute permutation old with
          | none => exact Agrees.error _
          | some new => exact rfl
        · exact Agrees.error _

/-! ### One operation on a tree -/

/-- A property of all parts and payloads, and of strings, holds of the parts of the edited node. -/
theorem parts_edit {V : Type} [HasString V] {P : V → Prop} (string : ∀ s, P (HasString.string s))
    {op : Op V} (valid : op.Valid) {n n' : Node V} (edited : op.edit n = some n')
    (old : ∀ x ∈ n.parts, P x) (payload : ∀ x ∈ op.payload, P x) : ∀ x ∈ n'.parts, P x := by
  classical
  have zero : ∀ xs : List V, (∀ x ∈ xs, P x) → (xs.map fun x => if P x then 0 else 1).sum = 0 := by
    intro xs all
    rw [List.sum_eq_zero_iff_forall_eq_nat]
    rintro _ member
    obtain ⟨x, inside, rfl⟩ := List.mem_map.mp member
    exact if_pos (all x inside)
  have bound := @Op.weight_edit _ _ (fun x => if P x then 0 else 1)
    (fun s => if_pos (string s)) _ valid _ _ edited
  rw [Node.weight, Node.weight, zero _ old, zero _ payload] at bound
  intro x member
  by_contra bad
  have none := weight_eq_zero (Nat.le_zero.mp bound) member
  rw [if_neg bad] at none
  cases none

/-- Editing the owned site of a valid operation. -/
theorem Owns.editSite {E : Addr → Prop} {rest : List (Json Addr)} {op : Op (Json Addr)}
    (owns : Owns E h (j :: (op.payload ++ rest))) (valid : op.Valid) {a : Addr}
    {n n' : Node (Json Addr)} (found : j.getAt op.site = some (build a n)) (own : E a)
    (edited : op.edit n = some n') :
    Owns E (h.set a (n'.map val)) (j.replaceAt op.site (build a n') :: rest) := by
  refine owns.edit found own ?_ fun e _ => Op.weight_edit (occ_string e) valid edited
  refine parts_edit (held_string h) valid edited ?_ fun x member => ?_
  · exact (held_build.mp (held_getAt (owns.held j mem_cons_self) found)).2
  · exact owns.held x (mem_cons_of_mem _ (mem_append_left rest member))

/-- **One operation.** Where the heap owns the site, `applyOp` throws exactly when the operation has
no effect on the tree, and else the heap holds the effect. -/
theorem applyOp_agrees {E : Addr → Prop} {rest : List (Json Addr)} {op : Op (Json Addr)}
    (owns : Owns E h (j :: (op.payload ++ rest)))
    (site : ∀ a n, j.getAt op.site = some (build a n) → E a) :
    Agrees (fun result j' => result.2 = j'.val ∧ Owns E result.1 (j' :: rest))
      (applyOp h j.val (op.map val)) (transform op j) := by
  by_cases valid : op.Valid
  · cases base : op.isReplace with
    | true =>
      cases op with
      | r value =>
        refine Agrees.ok ⟨rfl, fun x member => ?_, fun e own => ?_⟩
        · exact owns.held x (mem_cons_of_mem _ (by simpa [Op.payload] using member))
        · have total := owns.once e own
          rw [map_cons, sum_cons] at total
          simpa [Op.payload] using Nat.le_of_add_left_le total
      | s | d | a | t | p | m => cases base
    | false =>
      have code := applyOp_eq ((Op.valid_map val op).mpr valid) (by rw [Op.isReplace_map, base]) h
        j.val
      have walk := resolve_agrees (owns.held j mem_cons_self) op.site
      rw [transform_of_not_replace valid base]
      rw [Op.site_map] at code
      cases focus : containerAt j op.site with
      | none =>
        rw [focus] at walk
        obtain ⟨e, failed⟩ := walk.of_none
        rw [failed] at code
        obtain ⟨e', refused⟩ := code.of_none
        have nothing : (j.getAt op.site >>= fun x =>
            (x.editWith op.edit).map (j.replaceAt op.site)) = none := by
          cases found : j.getAt op.site with
          | none => rfl
          | some x =>
            cases parts : x.node with
            | none => cases x <;> first | rfl | cases parts
            | some n =>
              obtain ⟨a, rfl⟩ := build_of_node parts
              rw [containerAt_eq_some.mpr found] at focus
              cases focus
        rw [refused, nothing]
        exact Agrees.error e'
      | some pair =>
        obtain ⟨a, n⟩ := pair
        have found := containerAt_eq_some.mp focus
        rw [focus] at walk
        obtain ⟨reached, here, rfl, _⟩ := walk.of_some
        rw [here] at code
        simp only [Except.toOption, bind_eq_bind, bind_some, Op.edit_map keepsString_val] at code
        rw [found]
        simp only [bind_eq_bind, bind_some, editWith_build]
        cases edited : op.edit n with
        | none =>
          rw [edited] at code
          obtain ⟨e, refused⟩ := code.of_none
          rw [refused]
          exact Agrees.error e
        | some n' =>
          rw [edited] at code
          obtain ⟨result, done, rfl⟩ := code.of_some
          rw [done]
          refine Agrees.ok ⟨?_, owns.editSite valid found (site a n found) edited⟩
          exact (val_replaceAt found (by rw [val_build, val_build])).symm
  · rw [transform_invalid valid]
    cases refused : assertValidOp (op.map val) with
    | ok _ => exact absurd ((Op.valid_map val op).mp refused) valid
    | error e =>
      simp only [applyOp, refused, bind, Except.bind]
      exact Agrees.error e

/-- **A run of `apply`** on a value the heap owns altogether. -/
theorem applyOps_agrees {ops : List (Op (Json Addr))}
    (owns : Owns (fun _ => True) h (j :: ops.flatMap Op.payload)) :
    Agrees (fun result j' => result.2 = j'.val ∧ Held result.1 j')
      (applyOps h j.val (ops.map (Op.map val))) (transformAll ops j) := by
  induction ops generalizing h j with
  | nil => exact Agrees.ok ⟨rfl, owns.held j mem_cons_self⟩
  | cons op ops ih =>
    rw [flatMap_cons] at owns
    rw [map_cons, applyOps, transformAll]
    refine Agrees.bind (applyOp_agrees owns fun _ _ _ => trivial) ?_
    rintro ⟨h', root'⟩ j' ⟨rfl, owns'⟩
    exact ih owns'

end TianGong.Chord
