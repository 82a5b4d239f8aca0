/-
**Who mirrors a stream.**

A mirror decodes the frames of a stream and applies them to its own value. A derived value is published
by diffs of its values, and the mirror's may have its keys in another order. Operations do not look at
that order.

* `replica_converges`: two mirrors of one stream show one content.
* `mirror_follows`: a mirror of a derived value shows it, up to the order of keys.
-/

import TianGong.Chord.Appliers
import TianGong.Chord.Codec
import TianGong.Chord.DiffSound

namespace TianGong.Chord

open TianGong.Lib TianGong.Json
open List

variable {ι : Type}

/-! ### Nodes -/

theorem DeepEq.trans {x y z : Json ι} (first : DeepEq x y) (second : DeepEq y z) : DeepEq x z := by
  induction x using Json.induction generalizing y z with
  | null | bool | number | string =>
    cases first
    exact second
  | array a items ih =>
    cases first with
    | @array _ _ _ ys length parts =>
      cases second with
      | array length' parts' =>
        refine .array (length.trans length') fun i x z found found' => ?_
        obtain ⟨y, there⟩ : ∃ y, ys[i]? = some y :=
          ⟨_, getElem?_eq_getElem (length ▸ (List.getElem?_eq_some_iff.mp found).1)⟩
        exact ih x (mem_of_getElem? found) (parts i x y found there) (parts' i y z there found')
  | object a fields ih =>
    cases first with
    | @object _ _ _ ys keys values =>
      cases second with
      | object keys' values' =>
        refine .object (fun k => (keys k).trans (keys' k)) fun k x z found found' => ?_
        obtain ⟨y, there⟩ : ∃ y, Assoc.get k ys = some y :=
          Option.isSome_iff_exists.mp (Assoc.has_iff.mpr ((keys k).mp (Assoc.has_iff.mp (by
            rw [Assoc.has, found]; rfl))))
        exact ih (k, x) (Assoc.mem_of_get found) (values k x y found there) (values' k y z there found')

theorem DeepEqList.splice {xs ys : List (Json ι)} (same : DeepEqList xs ys) (index remove : Nat)
    (items : List (Json ι)) :
    DeepEqList (splice index remove items xs) (splice index remove items ys) := by
  refine ((DeepEqList.append ⟨?_, fun i x y found found' => ?_⟩ (.refl items)).append
    ⟨?_, fun i x y found found' => ?_⟩)
  · rw [length_take, length_take, same.1]
  · rw [getElem?_take] at found found'
    split_ifs at found found' with inside
    exact same.2 i x y found found'
  · rw [length_drop, length_drop, same.1]
  · rw [getElem?_drop] at found found'
    exact same.2 _ x y found found'

/-- The same container, with deeply equal parts. -/
inductive Node.Alike : Node (Json ι) → Node (Json ι) → Prop where
  | array {xs ys : List (Json ι)} (items : DeepEqList xs ys) : Alike (.array xs) (.array ys)
  | object {xs ys : List (Text × Json ι)}
      (fields : ∀ k, Option.Rel DeepEq (Assoc.get k xs) (Assoc.get k ys)) :
      Alike (.object xs) (.object ys)

namespace Node.Alike

variable {n m : Node (Json ι)} {x y : Json ι}

theorem deepEq_build (alike : n.Alike m) (a b : ι) : DeepEq (build a n) (build b m) := by
  cases alike with
  | array items => exact .of_items items
  | @object xs ys fields =>
    refine .object (fun k => not_iff_not.mp ?_) fun k x y found found' => ?_
    · rw [← Assoc.get_eq_none_iff, ← Assoc.get_eq_none_iff]
      have same := fields k
      generalize Assoc.get k xs = o at same
      generalize Assoc.get k ys = p at same
      cases same <;> simp
    · have same := fields k
      rw [found, found'] at same
      cases same
      assumption

theorem of_deepEq (equal : DeepEq x y) : Option.Rel Alike x.node y.node := by
  cases equal with
  | null | bool | number | string => exact .none
  | array length items => exact .some (.array ⟨length, items⟩)
  | @object _ _ xs ys keys values =>
    refine .some (.object fun k => ?_)
    cases found : Assoc.get k xs with
    | none =>
      rw [Assoc.get_eq_none_iff, keys, ← Assoc.get_eq_none_iff] at found
      rw [found]
      exact .none
    | some v =>
      cases found' : Assoc.get k ys with
      | none =>
        rw [Assoc.get_eq_none_iff, ← keys, ← Assoc.get_eq_none_iff, found] at found'
        cases found'
      | some w => exact .some (values k v w found found')

theorem own (alike : n.Alike m) (segment : Seg) :
    Option.Rel DeepEq (n.own segment) (m.own segment) := by
  cases alike with
  | @array xs ys items =>
    cases segment with
    | key k => exact .none
    | index i =>
      show Option.Rel DeepEq xs[i]? ys[i]?
      by_cases inside : i < xs.length
      · rw [getElem?_eq_getElem inside, getElem?_eq_getElem (items.1 ▸ inside)]
        exact .some (items.2 i _ _ (getElem?_eq_getElem inside) (getElem?_eq_getElem _))
      · rw [getElem?_eq_none (not_lt.mp inside), getElem?_eq_none (items.1 ▸ not_lt.mp inside)]
        exact .none
  | object fields => exact fields segment.text

theorem write (alike : n.Alike m) (segment : Seg) (equal : DeepEq x y) :
    Option.Rel Alike (n.write segment x) (m.write segment y) := by
  cases alike with
  | array items =>
    cases segment with
    | key k => exact .none
    | index i =>
      simp only [Node.write, ← items.1]
      split_ifs with inside last
      · refine .some (.array ⟨by rw [length_set, length_set, items.1], fun j v w found found' => ?_⟩)
        rw [getElem?_set] at found found'
        split_ifs at found found'
        · cases found
          cases found'
          exact equal
        · exact items.2 j v w found found'
      · exact .some (.array (items.append (.cons equal .nil)))
      · exact .none
  | object fields =>
    refine .some (.object fun k => ?_)
    rw [Assoc.get_set, Assoc.get_set]
    split_ifs
    · exact .some equal
    · exact fields k

theorem delete (alike : n.Alike m) (segment : Seg) :
    Option.Rel Alike (n.delete segment) (m.delete segment) := by
  cases alike with
  | array items =>
    cases segment with
    | key k => exact .none
    | index i =>
      simp only [Node.delete, ← items.1]
      split_ifs
      · exact .some (.array (items.splice i 1 []))
      · exact .none
  | object fields =>
    refine .some (.object fun k => ?_)
    rw [Assoc.get_erase, Assoc.get_erase]
    split_ifs
    · exact .none
    · exact fields k

theorem editString (alike : n.Alike m) (segment : Seg) (f : Text → Text) :
    Option.Rel Alike (n.editString segment f) (m.editString segment f) := by
  refine rel_bind (alike.own segment) fun v w equal => ?_
  cases equal with
  | string s => exact alike.write segment (.refl _)
  | null | bool | number | array | object => exact .none

theorem rel_permute {xs ys : List (Json ι)} (items : DeepEqList xs ys) (permutation : List Nat) :
    Option.Rel DeepEqList (permute permutation xs) (permute permutation ys) := by
  induction permutation with
  | nil => exact .some .nil
  | cons i rest ih =>
    exact rel_bind ((array items).own (.index i)) fun v w equal =>
      rel_map ih fun _ _ tail => .cons equal tail

theorem edit (alike : n.Alike m) (op : Op (Json ι)) : Option.Rel Alike (op.edit n) (op.edit m) := by
  have last : ∀ {path : Path} {f : Seg → Node (Json ι) → Option (Node (Json ι))},
      (∀ k, Option.Rel Alike (f k n) (f k m)) →
        Option.Rel Alike (path.getLast? >>= (f · n)) (path.getLast? >>= (f · m)) := fun {path f} keeps => by
    cases path.getLast? with
    | none => exact .none
    | some k => exact keeps k
  cases op with
  | r => exact .none
  | s _ value => exact last fun k => alike.write k (.refl value)
  | d => exact last alike.delete
  | a | t => exact last fun k => alike.editString k _
  | p _ index remove items =>
    cases alike with
    | array olds => exact .some (.array (olds.splice index remove items))
    | object => exact .none
  | m _ permutation =>
    cases alike with
    | array items =>
      simp only [Op.edit, items.1]
      split_ifs
      · exact rel_map (rel_permute items permutation) fun _ _ => .array
      · exact .none
    | object => exact .none

end Node.Alike

/-! ### Operations -/

variable {x y v w : Json ι}

theorem DeepEq.child (equal : DeepEq x y) (segment : Seg) :
    Option.Rel DeepEq (x.child segment) (y.child segment) :=
  rel_bind (Node.Alike.of_deepEq equal) fun _ _ alike => alike.own segment

theorem DeepEq.editWith (equal : DeepEq x y) {f g : Node (Json ι) → Option (Node (Json ι))}
    (edit : ∀ n m, n.Alike m → Option.Rel Node.Alike (f n) (g m)) :
    Option.Rel DeepEq (x.editWith f) (y.editWith g) := by
  have parts := Node.Alike.of_deepEq equal
  cases equal with
  | null | bool | number | string => exact .none
  | array | object =>
    cases parts with
    | some alike => exact rel_map (edit _ _ alike) fun _ _ alike => alike.deepEq_build _ _

theorem DeepEq.setChild (equal : DeepEq x y) (segment : Seg) (parts : DeepEq v w) :
    DeepEq (setChild segment v x) (setChild segment w y) := by
  have edited := equal.editWith fun _ _ alike => alike.write segment parts
  unfold Json.setChild
  generalize x.editWith _ = o at edited
  generalize y.editWith _ = p at edited
  cases edited with
  | none => exact equal
  | some whole => exact whole

theorem DeepEq.getAt (equal : DeepEq x y) (path : Path) :
    Option.Rel DeepEq (x.getAt path) (y.getAt path) := by
  induction path generalizing x y with
  | nil => exact .some equal
  | cons segment rest ih => exact rel_bind (equal.child segment) fun _ _ => ih

theorem DeepEq.replaceAt (equal : DeepEq x y) (path : Path) (parts : DeepEq v w) :
    DeepEq (x.replaceAt path v) (y.replaceAt path w) := by
  induction path generalizing x y with
  | nil => exact parts
  | cons segment rest ih =>
    have child := equal.child segment
    unfold Json.replaceAt
    generalize x.child segment = o at child
    generalize y.child segment = p at child
    cases child with
    | none => exact equal
    | some inner => exact equal.setChild segment (ih inner)

/-- **Operations do not look at the order of keys.** -/
theorem DeepEq.transform (equal : DeepEq x y) (op : Op (Json ι)) :
    Option.Rel DeepEq (transform op x) (transform op y) := by
  by_cases valid : op.Valid
  · cases base : op.isReplace with
    | true =>
      cases op with
      | r value => exact .some (.refl value)
      | s | d | a | t | p | m => cases base
    | false =>
      rw [transform_of_not_replace valid base, transform_of_not_replace valid base]
      exact rel_bind (equal.getAt op.site) fun _ _ site =>
        rel_map (site.editWith fun _ _ alike => alike.edit op) fun _ _ => equal.replaceAt op.site
  · rw [transform_invalid valid, transform_invalid valid]
    exact .none

theorem DeepEq.transformAll (equal : DeepEq x y) (ops : List (Op (Json ι))) :
    Option.Rel DeepEq (transformAll ops x) (transformAll ops y) := by
  induction ops generalizing x y with
  | nil => exact .some equal
  | cons op ops ih => exact rel_bind (equal.transform op) fun _ _ => ih

/-! ### The mirror -/

mutual
theorem load_extends : ∀ (j : Json Unit) (h : Heap), h <+: (load h j).1
  | .null, h | .bool _, h | .number _, h | .string _, h => by simp only [load, prefix_rfl]
  | .array _ items, h => by
    rw [load]
    exact (loadItems_extends items h).trans (prefix_append _ _)
  | .object _ fields, h => by
    rw [load]
    exact (loadFields_extends fields h).trans (prefix_append _ _)

theorem loadItems_extends : ∀ (items : List (Json Unit)) (h : Heap), h <+: (loadItems h items).1
  | [], h => by simp only [loadItems, prefix_rfl]
  | x :: xs, h => by
    rw [loadItems]
    exact (load_extends x h).trans (loadItems_extends xs _)

theorem loadFields_extends : ∀ (fields : List (Text × Json Unit)) (h : Heap),
    h <+: (loadFields h fields).1
  | [], h => by simp only [loadFields, prefix_rfl]
  | (_, x) :: xs, h => by
    rw [loadFields]
    exact (load_extends x h).trans (loadFields_extends xs _)
end

theorem loadOps_extends (ops : List (Op (Json Unit))) (h : Heap) : h <+: (loadOps h ops).1 := by
  induction ops generalizing h with
  | nil => exact prefix_rfl
  | cons op ops ih =>
    refine IsPrefix.trans ?_ (ih _)
    cases op with
    | r value | s _ value => exact load_extends value h
    | d | a | t | m => exact prefix_rfl
    | p _ _ _ items => exact loadItems_extends items h

theorem apart_nil (h : Heap) : Apart h [] :=
  ⟨fun _ none => absurd none not_mem_nil, fun _ _ => Nat.zero_le 1⟩

/-- `RemoteBinding.state`: the operations of each frame, read and applied. -/
def mirror (state : Heap × Val) : List (List (Op (Json Unit))) → Except DeltaError (Heap × Val)
  | [] => .ok state
  | ops :: frames => do
    let loaded := loadOps state.1 ops
    let next ← applyImmutable loaded.1 state.2 (loaded.2.map (Op.map val))
    mirror next frames

theorem mirror_agrees {state : Heap × Val} {content : Json Unit} (reads : Reads state content)
    (frames : List (List (Op (Json Unit)))) :
    Agrees Reads (mirror state frames) (transformAll frames.flatten content) := by
  induction frames generalizing state content with
  | nil => exact .ok reads
  | cons ops frames ih =>
    obtain ⟨j, root, rfl, held⟩ := reads
    rw [flatten_cons, transformAll_append]
    refine .bind ?_ fun _ _ => ih
    have apart := loadOps_apart ops (apart_nil state.1)
    have held : ∀ x ∈ j :: (loadOps state.1 ops).2.flatMap Op.payload, Held (loadOps state.1 ops).1 x := by
      refine forall_mem_cons.mpr ⟨?_, fun x member => apart.held x (mem_append_left [] member)⟩
      obtain ⟨more, longer⟩ := loadOps_extends ops state.1
      rw [← longer]
      exact held.append more
    have agrees := @applyImmutableBatches_agrees _ _ [(loadOps state.1 ops).2] (by simpa using held)
    rw [flatten_singleton, erase_loadOps] at agrees
    rw [root]
    exact agrees

/-- A value that was read. -/
def snapshot (value : Json Unit) : Heap × Val := ((load [] value).1, (load [] value).2.val)

theorem mirror_snapshot (value : Json Unit) (frames : List (List (Op (Json Unit)))) :
    Agrees Reads (mirror (snapshot value) frames) (transformAll frames.flatten value) :=
  mirror_agrees ⟨_, rfl, erase_load value [],
    (load_apart value (apart_nil [])).held _ mem_cons_self⟩ frames

/-! ### Streams -/

theorem valid_of_effect {ops : List (Op (Json Unit))} {value content : Json Unit}
    (effect : transformAll ops value = some content) : ∀ op ∈ ops, op.Valid := by
  induction ops generalizing value with
  | nil => exact fun _ member => absurd member not_mem_nil
  | cons op ops ih =>
    obtain ⟨middle, first, rest⟩ := Option.bind_eq_some_iff.mp effect
    refine forall_mem_cons.mpr ⟨by_contra fun invalid => ?_, ih rest⟩
    rw [transform_invalid invalid] at first
    cases first

theorem flatten_coalesce {α : Type} (sizes : List Nat) (batches : List (List α)) :
    (coalesce sizes batches).flatten = batches.flatten := by
  induction sizes generalizing batches with
  | nil => rfl
  | cons size sizes ih => rw [coalesce, flatten_cons, ih, ← flatten_append, take_append_drop]

/-- **Mirrors converge.** Where one that is there from the beginning takes every batch, so does one that
starts at the beginning with the same value, or at a batch that starts with an `r` with any value,
however runs of its frames are concatenated; and both show the same content. -/
theorem replica_converges (earlier batches : List (List (Op (Json Unit)))) (sizes : List Nat)
    (base value : Json Unit) {mine : Heap × Val}
    (done : mirror (snapshot base) (earlier ++ batches) = .ok mine)
    (joins : earlier = [] ∧ value = base ∨ ∃ ops rest, batches = ops :: rest ∧ isBase ops = true) :
    ∃ received theirs, decodeStream [] (coalesce sizes
        ((encodeStream encoder (earlier ++ batches)).drop earlier.length)) = .ok received ∧
      mirror (snapshot value) received = .ok theirs ∧ SameContent theirs mine := by
  have agrees := mirror_snapshot base (earlier ++ batches)
  rw [done, flatten_append, transformAll_append] at agrees
  obtain ⟨content, effect, reads⟩ := agrees.of_ok
  obtain ⟨middle, before, effect⟩ := Option.bind_eq_some_iff.mp effect
  have valid := valid_of_effect effect
  have shown : transformAll batches.flatten value = some content := by
    rcases joins with ⟨rfl, rfl⟩ | ⟨ops, rest, rfl, isBase_⟩
    · cases before
      exact effect
    · cases ops with
      | nil => cases isBase_
      | cons op ops => cases op <;> first | exact effect | cases isBase_
  have theirs := mirror_snapshot value (coalesce sizes batches)
  rw [flatten_coalesce, shown] at theirs
  obtain ⟨result, ran, shows⟩ := theirs.of_some
  refine ⟨coalesce sizes batches, result, ?_, ran, content, shows, reads⟩
  rw [encodeStream_append, drop_left' (length_encodeStream _ _)]
  refine decodeStream_coalesce (fun ops member op inside =>
    valid op (mem_flatten.mpr ⟨ops, member, inside⟩)) sizes ?_
  rcases joins with ⟨rfl, -⟩ | base
  · exact .inl InStep.fresh
  · exact .inr base

/-- It joins with another value. -/
theorem replica_converges_joined : ∃ mine received theirs, decodeStream [] (coalesce [2]
      ((encodeStream encoder ([[Op.s [.key (text "a")] .null]] ++
        [[.r (.array () [])], [.p [] 0 0 [.null]]])).drop 1)) = .ok received ∧
    mirror (snapshot (.bool true)) received = .ok theirs ∧ SameContent theirs mine :=
  ⟨_, replica_converges [[.s [.key (text "a")] .null]] _ [2] (.object () []) (.bool true) rfl
    (.inr ⟨_, _, rfl, rfl⟩)⟩

/-! ### Derived values -/

/-- `Derived.install` for each next value: the batches it publishes. An empty diff is not published. -/
def installs (before : Json Addr) : List (Json Addr) → List (List (Op (Json Addr)))
  | [] => []
  | next :: rest =>
    if diffRevisions before next = [] then installs next rest
    else diffRevisions before next :: installs next rest

/-- The batches lead from one value to the last. -/
theorem installs_lead {h : Heap} {before : Json Addr} {revisions : List (Json Addr)}
    (inHeap : ∀ v ∈ before :: revisions, InHeap h v) {shown : Json Addr} (equal : DeepEq shown before) :
    ∃ content, transformAll (installs before revisions).flatten shown = some content ∧
      DeepEq content ((before :: revisions).getLast (cons_ne_nil _ _)) := by
  induction revisions generalizing before shown with
  | nil => exact ⟨shown, rfl, equal⟩
  | cons next rest ih =>
    have inBefore := inHeap before mem_cons_self
    have inNext := inHeap next (mem_cons_of_mem _ mem_cons_self)
    have one : ∃ x, transformAll (diffRevisions before next) before = some x ∧ DeepEq x next := by
      rcases diffRevisions_diffs inBefore inNext with ⟨-, x, same, effect⟩ | ⟨-, sole⟩
      · exact ⟨x, effect before rfl, same⟩
      · rw [sole]
        exact ⟨next, rfl, .refl next⟩
    obtain ⟨x, effect, same⟩ := one
    have replica := equal.transformAll (diffRevisions before next)
    rw [effect] at replica
    generalize moved : transformAll (diffRevisions before next) shown = o at replica
    cases replica with
    | @some y _ close =>
      obtain ⟨content, rest_, shows⟩ := ih (fun v member => inHeap v (mem_cons_of_mem _ member))
        (close.trans same)
      refine ⟨content, ?_, shows⟩
      unfold installs
      split_ifs with empty
      · rw [empty] at moved
        cases moved
        exact rest_
      · rw [flatten_cons, transformAll_append, moved]
        exact rest_

/-- **A mirror shows the derived value** after any publications, however runs of its frames are
concatenated. -/
theorem mirror_follows {h : Heap} {before : Json Addr} {revisions : List (Json Addr)}
    (inHeap : ∀ v ∈ before :: revisions, InHeap h v) (sizes : List Nat) :
    ∃ frames result content, decodeStream [] (coalesce sizes (encodeStream encoder
        ((installs before revisions).map (List.map (Op.map erase))))) = .ok frames ∧
      mirror (snapshot (erase before)) frames = .ok result ∧ Reads result content ∧
      DeepEq content ((before :: revisions).getLast (cons_ne_nil _ _)) := by
  obtain ⟨content, effect, shows⟩ := installs_lead inHeap (.refl before)
  have sent := transformAll_erase (installs before revisions).flatten before
  rw [effect, map_flatten] at sent
  have valid := valid_of_effect sent
  have decoded := decodeStream_coalesce (fun ops member op inside =>
    valid op (mem_flatten.mpr ⟨ops, member, inside⟩)) sizes (.inl InStep.fresh)
  have agrees := mirror_snapshot (erase before)
    (coalesce sizes ((installs before revisions).map (List.map (Op.map erase))))
  rw [flatten_coalesce, sent] at agrees
  obtain ⟨result, done, reads⟩ := agrees.of_some
  exact ⟨_, result, _, decoded, done, reads, shows.relabel _⟩

/-- An array that comes back. -/
theorem mirror_follows_again : ∃ frames result content, decodeStream [] (coalesce [2]
      (encodeStream encoder ((installs (.array 0 []) [.null, .array 0 []]).map
        (List.map (Op.map erase))))) = .ok frames ∧
    mirror (snapshot (.array () [])) frames = .ok result ∧ Reads result content ∧
    DeepEq content (.array 0 [] : Json Addr) := by
  refine @mirror_follows [.array []] (.array 0 []) _ ?_ [2]
  have there : InHeap [.array []] (.array 0 []) :=
    ⟨fun c member => by rw [mem_singleton.mp member]; rfl, .array fun x member => by cases member⟩
  have null : InHeap [.array []] .null := ⟨fun c member => (by cases member), .null⟩
  simp [there, null]

end TianGong.Chord
