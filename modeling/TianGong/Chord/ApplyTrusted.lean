/-
**`applyImmutableTrusted`: the same replay, without validation.**

It trusts its operations: nothing is checked but what the next step needs, and arrays are spliced by
moving their tail with `copyWithin`. Outside what a valid run does it may leave strict JSON (a hole,
a property of an array); `TrustedError.notJson` stands for that, and is not followed further.

* `applyTrustedOp_shows`: where an operation has an effect and is in range, the trusted replay
  yields that effect.
-/

import TianGong.Chord.ApplyImmutable
import TianGong.Lib.Returns

namespace TianGong.Chord

open List
open TianGong.Lib TianGong.Json TianGong.Returns

/-- What the trusted replay throws. -/
inductive TrustedError where
  | type (message : Text)
  /-- An array length below zero. -/
  | range
  /-- Nothing is thrown, but the value is no longer strict JSON. -/
  | notJson
  deriving DecidableEq

/-! ### Containers -/

/-- `read`. What is inherited from a prototype is no part of the value. -/
def trustedRead (n : Node Val) (key : Seg) : Option Val :=
  match n, key with
  | .array items, .key k =>
    if k = text "length" then some (.number (.ofNat items.length))
    else (List.range items.length).find? (fun i => decimal i == k) >>= fun i => items[i]?
  | n, key => n.own key

def defineData (n : Node Val) (key : Seg) (value : Val) : Except TrustedError (Node Val) :=
  match n.write key value with
  | some n' => .ok n'
  | none => .error .notJson

/-- `spliceTrusted`: make room or close the gap with `copyWithin`, then write the items. -/
def spliceTrusted {V : Type} (start remove : Nat) (items target : List V) :
    Except TrustedError (List V) :=
  let oldLength := target.length
  let moved : Except TrustedError (Sparse V) :=
    if remove < items.length then
      .ok (copyWithin (start + items.length) (start + remove) oldLength
        (setLength (oldLength + (items.length - remove)) (target.map some)))
    else if items.length < remove then
      if oldLength < remove - items.length then .error .range
      else .ok (setLength (oldLength - (remove - items.length))
        (copyWithin (start + items.length) (start + remove) oldLength (target.map some)))
    else .ok (target.map some)
  moved >>= fun room =>
    match dense (defineFrom start items room) with
    | some result => .ok result
    | none => .error .notJson

def permuteTrusted {V : Type} (permutation : List Nat) (target : List V) :
    Except TrustedError (List V) :=
  if target.length ≠ permutation.length then
    .error (.type (text "Trusted permutation length mismatch"))
  else match permute permutation target with
    | some result => .ok result
    | none => .error .notJson

/-! ### Copying a path -/

/-- The loop of `copyPath`. -/
def copyPathLoop (h : Heap) (owned : List Addr) (destination : Addr) :
    Path → Except TrustedError (Heap × List Addr × Addr)
  | [] => .ok (h, owned, destination)
  | segment :: rest =>
    match h[destination]? with
    | none => .error .notJson
    | some n =>
      match trustedRead n segment with
      | some (.ref child) =>
        if child ∈ owned then copyPathLoop h owned child rest
        else match h[child]? with
          | none => .error .notJson
          | some part => do
            let copy := h.length
            let linked ← defineData n segment (.ref copy)
            copyPathLoop ((h ++ [part]).set destination linked) (copy :: owned) copy rest
      | _ => .error (.type (text "Trusted operation path is not a container"))

/-- `copyPath`: the replay with the path copied, and the container at its end. -/
def copyPath (replay : Replay) (path : Path) : Except TrustedError (Replay × Addr) :=
  match replay.root with
  | .ref a => do
    if a ∈ replay.owned then
      let (heap, owned, target) ← copyPathLoop replay.heap replay.owned a path
      return (⟨heap, .ref a, owned⟩, target)
    else match replay.heap[a]? with
      | none => throw .notJson
      | some n =>
        let copied := replay.heap.length
        let (heap, owned, target) ← copyPathLoop (replay.heap ++ [n]) (copied :: replay.owned) copied
          path
        return (⟨heap, .ref copied, owned⟩, target)
  | _ => .error (.type (text "Trusted operation root is not a container"))

/-! ### Operations -/

/-- The edit of the copied container. -/
def trustedEdit (n : Node Val) (op : Op Val) : Except TrustedError (Node Val) :=
  match op with
  | .r _ => .ok n
  | .p _ index remove items => match n with
    | .array old => (spliceTrusted index remove items old).map .array
    | .object _ => .error (.type (text "Trusted array operation target is not an array"))
  | .m _ permutation => match n with
    | .array old => (permuteTrusted permutation old).map .array
    | .object _ => .error (.type (text "Trusted array operation target is not an array"))
  | .s path value => match path.getLast? with
    | some key => defineData n key value
    | none => .error .notJson
  | .d path => match path.getLast?, n with
    | some (.index i), .array old => (spliceTrusted i 1 [] old).map .array
    | some key, .object fields => .ok (.object (Assoc.erase key.text fields))
    | _, _ => .error (.type (text "Trusted array deletion key is not numeric"))
  | .a path suffix => match path.getLast? with
    | some key => match trustedRead n key with
      | some (.string current) => defineData n key (.string (current ++ suffix))
      | _ => .error (.type (text "Trusted append target is not a string"))
    | none => .error .notJson
  | .t path count => match path.getLast? with
    | some key => match trustedRead n key with
      | some (.string current) => defineData n key (.string (current.drop count))
      | _ => .error (.type (text "Trusted truncate target is not a string"))
    | none => .error .notJson

/-- One turn of the loop of `applyImmutableTrusted`. -/
def applyTrustedOp (replay : Replay) (op : Op Val) : Except TrustedError Replay :=
  match op with
  | .r value => .ok { replay with root := value }
  | op => do
    let (copied, target) ← copyPath replay op.site
    match copied.heap[target]? with
    | none => throw .notJson
    | some n =>
      let edited ← trustedEdit n op
      return { copied with heap := copied.heap.set target edited }

def applyImmutableTrusted (h : Heap) (target : Val) (operations : List (Op Val)) :
    Except TrustedError (Heap × Val) := do
  let replay ← operations.foldlM applyTrustedOp ⟨h, target, []⟩
  return (replay.heap, replay.root)

/-! ### Splicing in place -/

theorem setLength_shorter {V : Type} {length : Nat} {xs : Sparse V} (shorter : length ≤ xs.length) :
    setLength length xs = xs.take length := by
  rw [setLength, Nat.sub_eq_zero_of_le shorter, replicate_zero, append_nil]

/-- The front of an array and the gap behind it. -/
theorem take_front {V : Type} {front rest : Sparse V} {n : Nat} (room : n ≤ rest.length) :
    ∃ gap, (front ++ rest).take (front.length + n) = front ++ gap ∧ gap.length = n := by
  refine ⟨rest.take n, ?_, length_take_of_le room⟩
  rw [take_add, take_left, drop_left]

/-- **In range, moving the tail is a splice.** -/
theorem spliceTrusted_eq {V : Type} {start remove : Nat} {items target : List V}
    (inRange : start + remove ≤ target.length) :
    spliceTrusted start remove items target = .ok (splice start remove items target) := by
  -- The array is a front, a gap to be replaced, and a tail.
  obtain ⟨front, gap, back, rfl, frontLength, gapLength⟩ :
      ∃ front gap back, target = front ++ (gap ++ back) ∧ front.length = start ∧
        gap.length = remove :=
    ⟨target.take start, (target.drop start).take remove, target.drop (start + remove),
      by rw [← drop_drop, take_append_drop, take_append_drop],
      by rw [length_take]; omega, by rw [length_take, length_drop]; omega⟩
  subst frontLength gapLength
  have tail : (front ++ (gap ++ back)).drop (front.length + gap.length) = back := by
    rw [← drop_drop, drop_left, drop_left]
  have spliced : splice front.length gap.length items (front ++ (gap ++ back)) =
      front ++ items ++ back := by
    rw [splice, tail, take_left]
  -- Whatever is done to make room, the front and the tail end up around a gap of the right length.
  suffices room : ∀ moved : Sparse V,
      (∃ hole : Sparse V, moved = front.map some ++ hole ++ back.map some ∧
        hole.length = items.length) →
      dense (defineFrom front.length items moved) = some (front ++ items ++ back) by
    have oldTail : ((front ++ (gap ++ back)).map some).drop (front.length + gap.length) =
        back.map some := by rw [← map_drop, tail]
    have oldLength : ((front ++ (gap ++ back)).map some).length =
        front.length + gap.length + back.length := by simp [Nat.add_assoc]
    rw [spliced, spliceTrusted]
    simp only [length_append] at inRange ⊢
    split_ifs with grows shrinks negative
    · have grown : setLength (front.length + (gap.length + back.length)
            + (items.length - gap.length)) ((front ++ (gap ++ back)).map some) =
          (front ++ (gap ++ back)).map some ++ List.replicate (items.length - gap.length) none := by
        rw [setLength, oldLength, take_of_length_le (by omega)]
        congr 2
        omega
      obtain ⟨hole, front_hole, holeLength⟩ := @take_front _ (front.map some)
        ((gap ++ back).map some ++ List.replicate (items.length - gap.length) none) items.length
        (by simp; omega)
      rw [grown, @copyWithin_tail _ _ _ _ _ (back.map some)]
      · simp only [bind, Except.bind]
        rw [room _ ⟨hole, ?_, holeLength⟩]
        rw [← append_assoc, length_map] at front_hole
        rw [map_append, front_hole, drop_eq_nil_of_le (by simp; omega), append_nil]
      · rw [take_left' (by rw [oldLength, Nat.add_assoc]), oldTail]
      · simp only [length_append, length_map, length_replicate]
        omega
    · omega
    · obtain ⟨hole, front_hole, holeLength⟩ := @take_front _ (front.map some)
        ((gap ++ back).map some) items.length (by simp; omega)
      rw [@copyWithin_tail _ _ _ _ _ (back.map some)]
      · simp only [bind, Except.bind]
        rw [room _ ⟨hole, ?_, holeLength⟩]
        rw [length_map] at front_hole
        rw [map_append, front_hole, setLength_shorter (by simp; omega),
          take_left' (by simp; omega)]
      · rw [take_of_length_le (by rw [oldLength]; omega), oldTail]
      · rw [length_map, oldLength]
        omega
    · have same : gap.length = items.length := by omega
      simp only [bind, Except.bind]
      rw [room _ ⟨gap.map some, by simp, by simpa using same⟩]
  rintro _ ⟨hole, rfl, holeLength⟩
  have filled := @defineFrom_gap _ _ (front.map some) hole (back.map some) holeLength
  rw [length_map] at filled
  rw [filled, ← map_append, ← map_append, dense_map_some]

/-! ### Copying a path -/

variable {n : Node Val} {segment : Seg}

/-- An own property is what the trusted read sees. -/
theorem trustedRead_own {v : Val} (own : n.own segment = some v) :
    trustedRead n segment = some v := by
  cases n with
  | object fields => cases segment <;> exact own
  | array items =>
    cases segment with
    | index i => exact own
    | key k => cases own

theorem defineData_own {v : Val} (own : n.own segment = some v) (value : Val) :
    defineData n segment value = .ok (defineProperty n segment value) := by
  obtain ⟨_, _, n', _, written, _⟩ := Node.write_own own value
  rw [defineData, defineProperty, written]
  rfl

theorem childContainer_own {path : Path} {child : Addr}
    (found : childContainer n path segment = .ok child) : n.own segment = some (.ref child) := by
  by_cases plain : n.isArray = false ∨ ∃ i, segment = .index i
  · rw [childContainer_plain plain] at found
    split at found
    · rename_i own
      cases found
      exact own
    · cases found
  · rw [not_or, not_exists] at plain
    cases segment with
    | index i => exact absurd rfl (plain.2 i)
    | key k =>
      cases n with
      | object fields => exact absurd rfl plain.1
      | array items =>
        unfold childContainer at found
        split_ifs at found
        cases found

/-- Where the checked copy succeeds, the unchecked one does the same. -/
theorem copyPathLoop_eq {full rest : Path} {h : Heap} {owned : List Addr} {destination : Addr}
    {result : Heap × List Addr × Addr}
    (done : copyLoop h full owned destination rest = .ok result) :
    copyPathLoop h owned destination rest = .ok result := by
  induction rest generalizing h owned destination with
  | nil => exact congrArg Except.ok (Except.ok.inj done)
  | cons segment rest ih =>
    rw [copyLoop] at done
    rw [copyPathLoop]
    cases here : h[destination]? with
    | none =>
      rw [here] at done
      cases done
    | some n =>
      rw [here] at done
      obtain ⟨child, checked, done⟩ := bind_eq_ok.mp done
      have own := childContainer_own checked
      simp only [trustedRead_own own]
      split_ifs at done ⊢ with owned_child
      · exact ih done
      · cases part : h[child]? with
        | none =>
          rw [part] at done
          cases done
        | some m =>
          rw [part] at done
          simp only [defineData_own own, bind, Except.bind]
          exact ih done

theorem copyPath_eq {replay : Replay} {path : Path} {result : Replay × Addr}
    (done : copyTo replay path = .ok result) : copyPath replay path = .ok result := by
  rw [copyTo] at done
  rw [copyPath]
  cases root : replay.root with
  | null | bool | number | string =>
    rw [root] at done
    cases done
  | ref a =>
    rw [root] at done
    dsimp only at done ⊢
    split_ifs at done ⊢ with own
    · obtain ⟨triple, loop, is⟩ := bind_eq_ok.mp done
      cases is
      exact bind_eq_ok.mpr ⟨triple, copyPathLoop_eq loop, rfl⟩
    · cases here : replay.heap[a]? with
      | none =>
        rw [here] at done
        cases done
      | some n =>
        rw [here] at done
        dsimp only at done ⊢
        obtain ⟨triple, loop, is⟩ := bind_eq_ok.mp done
        cases is
        exact bind_eq_ok.mpr ⟨triple, copyPathLoop_eq loop, rfl⟩

/-! ### One operation -/

/-- Every splice and every array delete of the operation is in range. -/
def InRange {ι : Type} (op : Op (Json ι)) (j : Json ι) : Prop :=
  match op with
  | .p path index remove _ => ∀ id items, j.getAt path = some (.array id items) →
    index + remove ≤ items.length
  | .d path => ∀ id items i, j.getAt path.dropLast = some (.array id items) →
    path.getLast? = some (.index i) → i < items.length
  | _ => True

/-- **The unchecked edit** is the edit, where there is one and it is in range. -/
theorem trustedEdit_eq {op : Op Val} (base : op.isReplace = false) {n' : Node Val}
    (edited : op.edit n = some n')
    (inRange : ∀ path index remove items old, op = .p path index remove items → n = .array old →
      index + remove ≤ old.length) :
    trustedEdit n op = .ok n' := by
  cases op with
  | r value => cases base
  | s path value =>
    obtain ⟨key, last, written⟩ := Option.bind_eq_some_iff.mp edited
    simp only [trustedEdit, last, defineData, written]
  | d path =>
    obtain ⟨key, last, deleted⟩ := Option.bind_eq_some_iff.mp edited
    cases n with
    | object fields =>
      cases deleted
      cases key <;> simp only [trustedEdit, last]
    | array old =>
      cases key with
      | key k => cases deleted
      | index i =>
        simp only [Node.delete] at deleted
        split_ifs at deleted with inside
        cases deleted
        simp only [trustedEdit, last, spliceTrusted_eq (show i + 1 ≤ old.length by omega)]
        rfl
  | a path suffix =>
    obtain ⟨key, last, rewritten⟩ := Option.bind_eq_some_iff.mp edited
    obtain ⟨v, own, rewritten⟩ := Option.bind_eq_some_iff.mp rewritten
    obtain ⟨current, isString, written⟩ := Option.bind_eq_some_iff.mp rewritten
    cases v with
    | string s =>
      cases isString
      simp only [trustedEdit, last, trustedRead_own own, defineData]
      have written' : n.write key (.string (current ++ suffix)) = some n' := written
      rw [written']
    | null | bool | number | ref => cases isString
  | t path count =>
    obtain ⟨key, last, rewritten⟩ := Option.bind_eq_some_iff.mp edited
    obtain ⟨v, own, rewritten⟩ := Option.bind_eq_some_iff.mp rewritten
    obtain ⟨current, isString, written⟩ := Option.bind_eq_some_iff.mp rewritten
    cases v with
    | string s =>
      cases isString
      simp only [trustedEdit, last, trustedRead_own own, defineData]
      have written' : n.write key (.string (current.drop count)) = some n' := written
      rw [written']
    | null | bool | number | ref => cases isString
  | p path index remove items =>
    cases n with
    | object fields => cases edited
    | array old =>
      cases edited
      simp only [trustedEdit, spliceTrusted_eq (inRange path index remove items old rfl rfl)]
      rfl
  | m path permutation =>
    cases n with
    | object fields => cases edited
    | array old =>
      simp only [Op.edit] at edited
      split_ifs at edited with length
      obtain ⟨result, found, rfl⟩ := Option.map_eq_some_iff.mp edited
      simp only [trustedEdit, permuteTrusted, length, ne_eq, not_true_eq_false, if_false, found]
      rfl

/-- **One operation of a trusted replay**: where it has an effect and is in range, it yields that
effect. -/
theorem applyTrustedOp_shows {replay : Replay} {j j' : Json Addr} {rest : List (Json Addr)}
    {op : Op (Json Addr)} (root : replay.root = j.val)
    (owns : Owns (· ∈ replay.owned) replay.heap (j :: (op.payload ++ rest)))
    (effect : transform op j = some j') (inRange : InRange op j) :
    ∃ replay', applyTrustedOp replay (op.map val) = .ok replay' ∧ Shows rest replay' (erase j') := by
  have valid : op.Valid := by
    by_contra invalid
    rw [transform_invalid invalid] at effect
    cases effect
  cases base : op.isReplace with
  | true =>
    cases op with
    | r value =>
      cases effect
      refine ⟨_, rfl, j', rfl, rfl, fun x member => ?_, fun e own => ?_⟩
      · exact owns.held x (mem_cons_of_mem _ (by simpa [Op.payload] using member))
      · have total := owns.once e own
        rw [map_cons, sum_cons] at total
        simpa [Op.payload] using Nat.le_of_add_left_le total
    | s | d | a | t | p | m => cases base
  | false =>
    have trusted : applyTrustedOp replay (op.map val) = (do
        let (copied, target) ← copyPath replay op.site
        match copied.heap[target]? with
        | none => throw .notJson
        | some n =>
          let edited ← trustedEdit n (op.map val)
          return { copied with heap := copied.heap.set target edited }) := by
      rw [← Op.site_map val]
      cases op with
      | r value => cases base
      | s | d | a | t | p | m => rfl
    have copy := copyTo_agrees root owns op.site
    cases focus : nodeAt j op.site with
    | none =>
      rw [transform_of_nodeAt_none base focus] at effect
      cases effect
    | some n =>
      rw [focus] at copy
      obtain ⟨⟨copied, target⟩, done, j₁, isCopy⟩ := copy.of_some
      have copied_effect := @transform_copy op _ _ isCopy.content
      rw [effect, transform_of_not_replace valid base, isCopy.site] at copied_effect
      simp only [Option.bind_eq_bind, Option.bind_some, editWith_build, Option.map_map,
        Option.map_some] at copied_effect
      obtain ⟨n', edited, content⟩ := Option.map_eq_some_iff.mp copied_effect
      have here := (held_build.mp
        (held_getAt (isCopy.owns.held j₁ mem_cons_self) isCopy.site)).1
      have image : (op.map val).edit (n.map val) = some (n'.map val) := by
        rw [Op.edit_map keepsString_val, edited]
        rfl
      have parts := trustedEdit_eq (by rw [Op.isReplace_map, base]) image (by
        intro path index remove items old shape array
        cases op with
        | r | s | d | a | t | m => cases shape
        | p path' index' remove' items' =>
          cases shape
          cases n with
          | object fields => cases array
          | array items =>
            cases array
            obtain ⟨⟨b, m⟩, at_site, same⟩ := Option.map_eq_some_iff.mp focus
            cases same
            rw [length_map]
            exact inRange b items (containerAt_eq_some.mp at_site))
      refine ⟨⟨copied.heap.set target (n'.map val), copied.root, copied.owned⟩, ?_,
        j₁.replaceAt op.site (build target n'), ?_, content, ?_⟩
      · rw [trusted, copyPath_eq done]
        simp only [bind, Except.bind, here, parts]
        rfl
      · rw [isCopy.root, val_replaceAt isCopy.site (by rw [val_build, val_build])]
      · exact isCopy.owns.editSite valid isCopy.site isCopy.owned edited

end TianGong.Chord
