/-
**Diff soundness: the batch of two revisions takes the first to the second.**

Along the recursion of `diffRevisions`, each function emits operations with the property of its
level (`Reaches`, `Rewrites`, `Puts`). The parts of it, from the leaves up:

* `overlap_spec`, `emits_emitString`: the shared middle of two strings.
* `rewrites_region`: a region of two arrays, by induction on its size.
* `emits_diffArray`, `emits_diffObject`: the fold of reserved keys, and key by key otherwise.
* `applyImmutable_diffRevisions`: the batch applies to the first value, and gives the second.
-/

import TianGong.Chord.Codec
import TianGong.Chord.Emits

namespace TianGong.Chord

open TianGong.Lib TianGong.Json
open List

variable {h : Heap} {path : Path}

/-! ### Strings -/

theorem indexOf_le {s head : Text} {position k : Nat} (found : indexOf s head position = some k) :
    k ≤ s.length := by
  have member := List.mem_of_find?_eq_some found
  exact Nat.lt_succ_iff.mp (List.mem_range.mp (mem_of_mem_drop member))

theorem overlapLoop_spec {tail b head : Text} {tries position n : Nat}
    (found : overlapLoop tail b head tries position = some n) :
    n ≤ tail.length ∧ n ≤ b.length ∧ tail.drop (tail.length - n) = b.take n := by
  induction tries generalizing position with
  | zero => cases found
  | succ tries ih =>
    unfold overlapLoop at found
    cases at_ : indexOf tail head position with
    | none =>
      rw [at_] at found
      cases found
    | some k =>
      rw [at_] at found
      dsimp only at found
      split_ifs at found with same
      · cases found
        have inside := indexOf_le at_
        exact ⟨Nat.sub_le _ _, same.1, by rw [Nat.sub_sub_self inside, same.2]⟩
      · exact ih found

/-- **The overlap is a suffix of the one text and a prefix of the other.** -/
theorem overlap_spec (a b : Text) (scan probe maxCandidates : Nat) :
    overlap a b scan probe maxCandidates ≤ a.length ∧
      overlap a b scan probe maxCandidates ≤ b.length ∧
      a.drop (a.length - overlap a b scan probe maxCandidates) =
        b.take (overlap a b scan probe maxCandidates) := by
  have zero : (0 : Nat) ≤ a.length ∧ 0 ≤ b.length ∧ a.drop (a.length - 0) = b.take 0 := by simp
  -- What the loop finds at the end of the scanned tail is at the end of the text.
  have whole : ∀ {tail front : Text} {n : Nat}, a = front ++ tail →
      n ≤ tail.length ∧ n ≤ b.length ∧ tail.drop (tail.length - n) = b.take n →
      n ≤ a.length ∧ n ≤ b.length ∧ a.drop (a.length - n) = b.take n := by
    rintro tail front n rfl ⟨inside, short, same⟩
    refine ⟨by rw [length_append]; omega, short, ?_⟩
    rw [length_append, Nat.add_sub_assoc inside, drop_length_add_append]
    exact same
  have scanned : ∃ front, a = front ++ (if a.length > scan then a.drop (a.length - scan) else a) := by
    split_ifs
    · exact ⟨a.take (a.length - scan), (take_append_drop _ a).symm⟩
    · exact ⟨[], rfl⟩
  obtain ⟨front, shape⟩ := scanned
  unfold overlap
  by_cases empty : a.length = 0 ∨ b.length = 0 ∨ scan = 0
  · rw [if_pos empty]
    exact zero
  · rw [if_neg empty]
    dsimp only
    generalize (if a.length > scan then a.drop (a.length - scan) else a) = tail at shape ⊢
    cases long : overlapLoop tail b (b.take (min probe b.length)) maxCandidates 0 with
    | some n => exact whole shape (overlapLoop_spec long)
    | none =>
      dsimp only
      split_ifs
      · exact zero
      · cases short : overlapLoop tail b (b.take 1) maxCandidates 0 with
        | none => exact zero
        | some n => exact whole shape (overlapLoop_spec short)

theorem emits_emitString (before after : Text) (safe : SafePath path) (full : path ≠ []) :
    Emits (emitString before after path) (Reaches h path (.string before) (.string after)) := by
  have exact_ : ∀ {δ : List (Op (Json Addr))}, Clean h δ →
      Transforms path δ (.string before) (.string after) →
      Reaches h path (.string before) (.string after) δ :=
    fun clean effect => ⟨clean, .string after, .refl _, effect⟩
  have noPayload : ∀ v ∈ ([] : List (Json Addr)), Held h v := fun _ member => (by cases member)
  obtain ⟨_, short, same⟩ := overlap_spec before after DEFAULT_OVERLAP_SCAN 64 8
  unfold emitString
  dsimp only
  split_ifs with equal longer none rest
  · subst equal
    exact .skip (.nil (.refl _))
  · refine .operation (exact_ (.single rfl noPayload) ?_)
    have effect := transforms_a (ι := Addr) safe full before (after.drop before.length)
    have joined := take_append_drop before.length after
    rw [longer.2] at joined
    rwa [joined] at effect
  · refine .operation (.of_s safe full ?_ _)
    exact fun c member => (by cases member)
  · refine Emits.andThen (f := (emitOperation · (.t path (before.length -
      overlap before after DEFAULT_OVERLAP_SCAN 64 8)))) (.operation rfl) (.operation rfl)
      (P := (· = [_])) (R := (· = [_])) ?_
    rintro _ _ rfl rfl
    refine exact_ (Clean.append (.single rfl noPayload) (.single rfl noPayload)) ?_
    have cut := transforms_t (ι := Addr) safe full before
      (before.length - overlap before after DEFAULT_OVERLAP_SCAN 64 8)
    have grow := transforms_a (ι := Addr) safe full
      (after.take (overlap before after DEFAULT_OVERLAP_SCAN 64 8))
      (after.drop (overlap before after DEFAULT_OVERLAP_SCAN 64 8))
    rw [same] at cut
    rw [take_append_drop] at grow
    exact cut.trans grow
  · refine .operation (exact_ (.single rfl noPayload) ?_)
    have cut := transforms_t (ι := Addr) safe full before
      (before.length - overlap before after DEFAULT_OVERLAP_SCAN 64 8)
    rw [same, take_of_length_le (by omega)] at cut
    exact cut

/-! ### Slices of two arrays -/

theorem slice_self (items : List (Json Addr)) (start : Nat) : slice items start start = [] := by
  rw [slice, drop_eq_nil_of_le (by rw [length_take]; omega)]

variable {items : List (Json Addr)} {start : Nat} {x : Json Addr}

theorem length_slice {stop : Nat} (inside : stop ≤ items.length) :
    (slice items start stop).length = stop - start := by
  rw [slice, length_drop, length_take, Nat.min_eq_left inside]

theorem slice_append (items : List (Json Addr)) {middle stop : Nat} (first : start ≤ middle)
    (second : middle ≤ stop) :
    slice items start middle ++ slice items middle stop = slice items start stop := by
  have whole : items.take stop = items.take middle ++ (items.take stop).drop middle := by
    conv_lhs => rw [← take_append_drop middle (items.take stop)]
    rw [take_take, Nat.min_eq_left second]
  rw [slice, slice, slice]
  conv_rhs => rw [whole]
  by_cases inside : start ≤ (items.take middle).length
  · rw [drop_append_of_le_length inside]
  · rw [length_take] at inside
    have short : items.length ≤ middle := by omega
    have none : (items.take stop).drop middle = [] :=
      drop_eq_nil_of_le (by rw [length_take]; omega)
    rw [none, append_nil, append_nil]

theorem slice_succ (inside : start < items.length) :
    slice items start (start + 1) = [item items start] := by
  rw [slice, take_add_one, List.getElem?_eq_getElem inside,
    drop_append_of_le_length (by rw [length_take]; omega), item, getD_eq_getElem?_getD,
    List.getElem?_eq_getElem inside, drop_eq_nil_of_le (by rw [length_take]; omega)]
  rfl

theorem mem_of_mem_slice {stop : Nat} (member : x ∈ slice items start stop) : x ∈ items :=
  mem_of_mem_take (mem_of_mem_drop member)

theorem item_mem {index : Nat} (inside : index < items.length) : item items index ∈ items := by
  rw [item, getD_eq_getElem?_getD, List.getElem?_eq_getElem inside]
  exact getElem_mem inside

/-- What `sameValue` accepts is deeply equal. -/
theorem sameValue_sound {y : Json Addr} (inX : InHeap h x) (inY : InHeap h y)
    (same : sameValue x y = true) : DeepEq x y := by
  rcases Bool.or_eq_true_iff.mp same with identical | equal
  · rw [eq_of_identical inX inY identical]
    exact .refl y
  · exact equalJson_sound inX inY equal

theorem SafePath.concat (safe : SafePath path) {segment : Seg} (plain : segment.reserved = false) :
    SafePath (path ++ [segment]) := fun s member => by
  rcases List.mem_append.mp member with front | last
  · exact safe s front
  · rwa [mem_singleton.mp last]

theorem SafePath.index (safe : SafePath path) (n : Nat) : SafePath (path ++ [.index n]) :=
  safe.concat rfl

/-! ### Regions of two arrays -/

/-- The region lies in the two arrays. -/
structure Region.Inside (before after : List (Json Addr)) (r : Region) : Prop where
  beforeOrder : r.beforeStart ≤ r.beforeEnd
  beforeEnd : r.beforeEnd ≤ before.length
  afterOrder : r.afterStart ≤ r.afterEnd
  afterEnd : r.afterEnd ≤ after.length

def Region.size (r : Region) : Nat := r.beforeEnd - r.beforeStart + (r.afterEnd - r.afterStart)

/-- The recursive call on a value before is sound. -/
def ChildSound (h : Heap) (child : Child) (x : Json Addr) : Prop :=
  ∀ y path, InHeap h y → SafePath path → path ≠ [] → Emits (child x y path) (Reaches h path x y)

/-- The call on regions up to a size is sound. -/
def RegionSound (h : Heap) (path : Path) (before after : List (Json Addr))
    (region : Region → Batch → Batch) (size : Nat) : Prop :=
  ∀ r, r.Inside before after → r.size ≤ size → Emits (region r) (Rewrites h path r.outputStart
    (slice before r.beforeStart r.beforeEnd) (slice after r.afterStart r.afterEnd))

variable {child : Child} {r : Region}

section Regions

variable {before after : List (Json Addr)} (inBefore : ∀ x ∈ before, InHeap h x)
  (inAfter : ∀ y ∈ after, InHeap h y)

include inBefore inAfter

theorem item_sound {b a : Nat} (insideB : b < before.length) (insideA : a < after.length)
    (same : sameValue (item before b) (item after a) = true) :
    DeepEqList (slice before b (b + 1)) (slice after a (a + 1)) := by
  rw [slice_succ insideB, slice_succ insideA]
  exact .cons (sameValue_sound (inBefore _ (item_mem insideB)) (inAfter _ (item_mem insideA)) same)
    .nil

theorem trimStart_spec (fuel : Nat) (inside : r.Inside before after) :
    ∃ k, trimStart before after fuel r = { r with
        beforeStart := r.beforeStart + k
        afterStart := r.afterStart + k
        outputStart := r.outputStart + k } ∧
      r.beforeStart + k ≤ r.beforeEnd ∧ r.afterStart + k ≤ r.afterEnd ∧
      DeepEqList (slice before r.beforeStart (r.beforeStart + k))
        (slice after r.afterStart (r.afterStart + k)) := by
  have stop : ∀ r : Region, DeepEqList (slice before r.beforeStart (r.beforeStart + 0))
      (slice after r.afterStart (r.afterStart + 0)) := fun r => by
    rw [Nat.add_zero, slice_self, Nat.add_zero, slice_self]
    exact .nil
  induction fuel generalizing r with
  | zero => exact ⟨0, rfl, inside.beforeOrder, inside.afterOrder, stop r⟩
  | succ fuel ih =>
    unfold trimStart
    split_ifs with front
    · obtain ⟨b, a, same⟩ := front
      obtain ⟨k, trimmed, insideB, insideA, equal⟩ := ih (r := { r with
        beforeStart := r.beforeStart + 1
        afterStart := r.afterStart + 1
        outputStart := r.outputStart + 1 }) ⟨b, inside.beforeEnd, a, inside.afterEnd⟩
      dsimp only at trimmed insideB insideA equal
      have first := item_sound inBefore inAfter (b.trans_le inside.beforeEnd)
        (a.trans_le inside.afterEnd) same
      have joined := first.append equal
      rw [slice_append _ (Nat.le_add_right _ 1) (Nat.le_add_right _ _),
        slice_append _ (Nat.le_add_right _ 1) (Nat.le_add_right _ _)] at joined
      refine ⟨k + 1, ?_, by omega, by omega, ?_⟩
      · rw [trimmed]
        simp only [Nat.add_assoc, Nat.add_comm 1 k]
      · simpa only [Nat.add_assoc, Nat.add_comm 1 k] using joined
    · exact ⟨0, rfl, inside.beforeOrder, inside.afterOrder, stop r⟩

theorem trimEnd_spec (fuel : Nat) (inside : r.Inside before after) :
    ∃ k, trimEnd before after fuel r = { r with
        beforeEnd := r.beforeEnd - k
        afterEnd := r.afterEnd - k } ∧
      r.beforeStart + k ≤ r.beforeEnd ∧ r.afterStart + k ≤ r.afterEnd ∧
      DeepEqList (slice before (r.beforeEnd - k) r.beforeEnd)
        (slice after (r.afterEnd - k) r.afterEnd) := by
  have stop : ∀ r : Region, DeepEqList (slice before (r.beforeEnd - 0) r.beforeEnd)
      (slice after (r.afterEnd - 0) r.afterEnd) := fun r => by
    rw [Nat.sub_zero, slice_self, Nat.sub_zero, slice_self]
    exact .nil
  induction fuel generalizing r with
  | zero => exact ⟨0, rfl, inside.beforeOrder, inside.afterOrder, stop r⟩
  | succ fuel ih =>
    unfold trimEnd
    split_ifs with back
    · obtain ⟨b, a, same⟩ := back
      have boundB := inside.beforeEnd
      have boundA := inside.afterEnd
      obtain ⟨k, trimmed, insideB, insideA, equal⟩ := ih (r := { r with
        beforeEnd := r.beforeEnd - 1
        afterEnd := r.afterEnd - 1 }) ⟨by dsimp only; omega, by dsimp only; omega, by dsimp only; omega,
          by dsimp only; omega⟩
      dsimp only at trimmed insideB insideA equal
      have last := item_sound inBefore inAfter (b := r.beforeEnd - 1) (a := r.afterEnd - 1)
        (by omega) (by omega) same
      rw [Nat.sub_add_cancel (by omega), Nat.sub_add_cancel (by omega)] at last
      have joined := equal.append last
      rw [slice_append _ (Nat.sub_le _ _) (Nat.sub_le _ _),
        slice_append _ (Nat.sub_le _ _) (Nat.sub_le _ _)] at joined
      refine ⟨k + 1, ?_, by omega, by omega, ?_⟩
      · rw [trimmed]
        simp only [Nat.sub_sub, Nat.add_comm 1 k]
      · simpa only [Nat.sub_sub, Nat.add_comm 1 k] using joined
    · exact ⟨0, rfl, inside.beforeOrder, inside.afterOrder, stop r⟩

/-- **The regions between ascending matches, and the matches, make up the region.** The regions are
smaller than the whole when there is a match. -/
theorem rewrites_processArrayMatches {region : Region → Batch → Batch} {size : Nat}
    (sound : RegionSound h path before after region size)
    (children : ∀ x ∈ before, ChildSound h child x) (safe : SafePath path) {ms : List ArrayMatch}
    {b be a ae out : Nat} (inside : (Region.mk b be a ae out).Inside before after)
    (ascends : Ascends b be a ae ms)
    (small : be - b + (ae - a) ≤ size ∨ (ms ≠ [] ∧ be - b + (ae - a) ≤ size + 2)) :
    Emits (processArrayMatches region child before after path be ae ms b a out)
      (Rewrites h path out (slice before b be) (slice after a ae)) := by
  induction ms generalizing b a out with
  | nil =>
    have fits := small.resolve_right fun some => some.1 rfl
    exact Emits.guarded (sound ⟨b, be, a, ae, out⟩ inside fits)
  | cons m rest ih =>
    obtain ⟨mb, ma⟩ := m
    obtain ⟨b₁, b₂, a₁, a₂, more⟩ := ascends
    have lastB := inside.beforeEnd
    have lastA := inside.afterEnd
    dsimp only at lastB lastA
    have first := sound ⟨b, mb, a, ma, out⟩ ⟨b₁, by dsimp only; omega, a₁, by dsimp only; omega⟩
      (by simp only [Region.size]; omega)
    have matched : Emits (fun batch => if sameValue (item before mb) (item after ma) then batch
        else child (item before mb) (item after ma) (path ++ [.index (out + (ma - a))]) batch)
        (Rewrites h path (out + (ma - a)) (slice before mb (mb + 1)) (slice after ma (ma + 1))) := by
      split_ifs with same
      · exact .skip (.nil (item_sound inBefore inAfter (by omega) (by omega) same))
      · rw [slice_succ (by omega), slice_succ (by omega)]
        exact (children _ (item_mem (by omega)) _ _ (inAfter _ (item_mem (by omega)))
          (safe.index _) (by simp)).imp fun δ reaches => .of_item reaches
    have tail := @ih (mb + 1) (ma + 1) (out + (ma - a) + 1)
      ⟨b₂, inside.beforeEnd, a₂, inside.afterEnd⟩ more (.inl (by omega))
    have count : (slice after a ma).length = ma - a := length_slice (by omega)
    have one : (slice after ma (ma + 1)).length = 1 := by rw [length_slice (by omega)]; omega
    have joined := Emits.guarded ((first.andThen matched (Q := Rewrites h path out
      (slice before b (mb + 1)) (slice after a (ma + 1))) fun δ ε left right => by
        rw [← slice_append before b₁ (Nat.le_succ mb), ← slice_append after a₁ (Nat.le_succ ma)]
        exact left.append (by rwa [count])).andThen tail (Q := Rewrites h path out
      (slice before b be) (slice after a ae)) fun δ ε left right => by
        rw [← slice_append before (b₁.trans (Nat.le_succ mb)) b₂,
          ← slice_append after (a₁.trans (Nat.le_succ ma)) a₂]
        refine left.append ?_
        rw [length_slice (by omega)]
        rwa [show out + (ma + 1 - a) = out + (ma - a) + 1 by omega])
    exact joined

omit inBefore inAfter in
/-- **Whichever strategy finds the matches, they ascend in the region.** -/
theorem ascends_alignment (inside : r.Inside before after) :
    Ascends r.beforeStart r.beforeEnd r.afterStart r.afterEnd (alignment before after r) := by
  have whole : ∀ {items : List (Json Addr)} {start stop : Nat}, start ≤ stop →
      stop ≤ items.length → start + (slice items start stop).length = stop := fun order bound => by
    rw [length_slice bound, Nat.add_sub_cancel' order]
  have positional : Ascends r.beforeStart r.beforeEnd r.afterStart r.afterEnd
      (if r.beforeEnd - r.beforeStart = r.afterEnd - r.afterStart then
        positionalLoop before after (r.beforeEnd - r.beforeStart) r.beforeStart r.afterStart
      else []) := by
    split_ifs with same
    · have ascends := ascends_positional before after (r.beforeEnd - r.beforeStart) r.beforeStart
        r.afterStart
      conv at ascends => arg 4; rw [same]
      rwa [Nat.add_sub_cancel' inside.beforeOrder, Nat.add_sub_cancel' inside.afterOrder] at ascends
    · trivial
  have subsequence : Ascends r.beforeStart r.beforeEnd r.afterStart r.afterEnd
      ((identitySubsequence before r.beforeStart r.beforeEnd after r.afterStart
        r.afterEnd).getD []) := by
    cases found : identitySubsequence before r.beforeStart r.beforeEnd after r.afterStart
        r.afterEnd with
    | none => trivial
    | some ms => exact ascends_identitySubsequence inside.beforeOrder inside.afterOrder found
  have semantic : Ascends r.beforeStart r.beforeEnd r.afterStart r.afterEnd
      (((lcsMatches (slice before r.beforeStart r.beforeEnd) (slice after r.afterStart r.afterEnd)
        semanticallyAligned MAX_SEMANTIC_CELLS).getD []).map
          fun m => (r.beforeStart + m.1, r.afterStart + m.2)) := by
    cases found : lcsMatches (slice before r.beforeStart r.beforeEnd)
        (slice after r.afterStart r.afterEnd) semanticallyAligned MAX_SEMANTIC_CELLS with
    | none => trivial
    | some ms =>
      have ascends := (ascends_lcsMatches found).shift r.beforeStart r.afterStart
      rwa [length_slice inside.beforeEnd, length_slice inside.afterEnd,
        Nat.add_sub_cancel' inside.beforeOrder, Nat.add_sub_cancel' inside.afterOrder] at ascends
  have identity := ascends_identityAnchors before after inside.beforeOrder inside.afterOrder
  unfold alignment
  refine iteInduction (motive := Ascends r.beforeStart r.beforeEnd r.afterStart r.afterEnd)
    (fun _ => positional) fun _ => ?_
  refine iteInduction (motive := Ascends r.beforeStart r.beforeEnd r.afterStart r.afterEnd)
    (fun _ => subsequence) fun _ => ?_
  exact iteInduction (motive := Ascends r.beforeStart r.beforeEnd r.afterStart r.afterEnd)
    (fun _ => identity) fun _ => semantic

/-- **A region is rewritten**: equal ends leave it, and the rest is a splice, one item, or the
regions between matches. -/
theorem rewrites_region (children : ∀ x ∈ before, ChildSound h child x) (safe : SafePath path)
    (fuel : Nat) :
    ∀ size < fuel, RegionSound h path before after (diffArrayRegion child before after path fuel)
      size := by
  induction fuel with
  | zero => exact fun _ small => (nomatch small)
  | succ fuel ih =>
    intro size small r inside fits
    obtain ⟨k, trimmedStart, startB, startA, equalStart⟩ := trimStart_spec inBefore inAfter
      (r.beforeEnd - r.beforeStart) inside
    have boundB := inside.beforeEnd
    have boundA := inside.afterEnd
    obtain ⟨l, trimmedEnd, endB, endA, equalEnd⟩ := trimEnd_spec inBefore inAfter
      (r.beforeEnd - (r.beforeStart + k)) (r := { r with
        beforeStart := r.beforeStart + k
        afterStart := r.afterStart + k
        outputStart := r.outputStart + k }) ⟨startB, boundB, startA, boundA⟩
    dsimp only at trimmedEnd endB endA equalEnd
    show Emits (fun batch => diffArrayRegion child before after path (fuel + 1) r batch) _
    unfold diffArrayRegion
    refine Emits.guarded ?_
    simp only [trimmedStart, trimmedEnd]
    refine Emits.imp (P := Rewrites h path (r.outputStart + k)
      (slice before (r.beforeStart + k) (r.beforeEnd - l))
      (slice after (r.afterStart + k) (r.afterEnd - l))) ?_ fun δ middle => ?_
    · have within : (Region.mk (r.beforeStart + k) (r.beforeEnd - l) (r.afterStart + k)
          (r.afterEnd - l) (r.outputStart + k)).Inside before after :=
        ⟨by dsimp only; omega, by dsimp only; omega, by dsimp only; omega, by dsimp only; omega⟩
      have spliced : Rewrites h path (r.outputStart + k)
          (slice before (r.beforeStart + k) (r.beforeEnd - l))
          (slice after (r.afterStart + k) (r.afterEnd - l))
          [.p path (r.outputStart + k) (r.beforeEnd - l - (r.beforeStart + k))
            (slice after (r.afterStart + k) (r.afterEnd - l))] := by
        have cut := @Rewrites.of_p h path (r.outputStart + k)
          (slice before (r.beforeStart + k) (r.beforeEnd - l))
          (slice after (r.afterStart + k) (r.afterEnd - l)) safe
          fun v member => (inAfter v (mem_of_mem_slice member)).held
        rwa [length_slice within.beforeEnd] at cut
      refine .choose (fun none => ?_) fun some => .choose (fun empty => ?_) fun full => ?_
      · refine .skip (.nil ?_)
        rw [show r.beforeEnd - l = r.beforeStart + k by omega,
          show r.afterEnd - l = r.afterStart + k by omega, slice_self, slice_self]
        exact .nil
      · exact .operation spliced
      · cases aligned : alignment before after ⟨r.beforeStart + k, r.beforeEnd - l, r.afterStart + k,
            r.afterEnd - l, r.outputStart + k⟩ with
        | nil =>
          refine .choose (fun single => ?_) fun _ => .operation spliced
          · rw [show r.beforeEnd - l = r.beforeStart + k + 1 by omega,
              show r.afterEnd - l = r.afterStart + k + 1 by omega, slice_succ (by omega),
              slice_succ (by omega)]
            exact (children _ (item_mem (by omega)) _ _ (inAfter _ (item_mem (by omega)))
              (safe.index _) (by simp)).imp fun δ reaches => .of_item reaches
        | cons m ms =>
          have ascends := ascends_alignment within
          rw [aligned] at ascends
          have matches_ := ascends
          obtain ⟨_, _, _, _, _⟩ := matches_
          simp only [Region.size] at fits
          exact rewrites_processArrayMatches inBefore inAfter (ih (fuel - 1) (by omega)) children safe
            within ascends (.inr ⟨cons_ne_nil m ms, by omega⟩)
    · have joined := (@Rewrites.nil h path r.outputStart _ _ equalStart).append
        (Rewrites.append (by rwa [length_slice (by omega), Nat.add_sub_cancel_left])
          (.nil (h := h) equalEnd))
      rw [slice_append _ (by omega) (by omega), slice_append _ (by omega) (by omega),
        slice_append _ (by omega) (by omega), slice_append _ (by omega) (by omega), nil_append,
        append_nil] at joined
      exact joined

end Regions

/-! ### Arrays -/

theorem permute_items {order : List Nat} (inside : ∀ i ∈ order, i < items.length) :
    permute order items = some (order.map (item items)) := by
  induction order with
  | nil => rfl
  | cons i rest ih =>
    have here : items[i]? = some (item items i) := by
      rw [item, getD_eq_getElem?_getD,
        List.getElem?_eq_getElem (inside i mem_cons_self), Option.getD_some]
    rw [permute, here, ih fun j member => inside j (mem_cons_of_mem i member)]
    rfl

/-- Values of one heap with the same references are the same. -/
theorem eq_of_map_val {xs ys : List (Json Addr)} (inX : ∀ x ∈ xs, InHeap h x)
    (inY : ∀ y ∈ ys, InHeap h y) (same : xs.map val = ys.map val) : xs = ys := by
  induction xs generalizing ys with
  | nil =>
    cases ys with
    | nil => rfl
    | cons y ys => cases same
  | cons x xs ih =>
    cases ys with
    | nil => cases same
    | cons y ys =>
      obtain ⟨head, tail⟩ := List.cons.inj same
      rw [held_unique (inX x mem_cons_self).held (inY y mem_cons_self).held head,
        ih (fun v member => inX v (mem_cons_of_mem _ member))
          (fun v member => inY v (mem_cons_of_mem _ member)) tail]

variable {a : Addr}

/-- **A reordering found is the whole difference.** -/
theorem reaches_m {b : Addr} {before after : List (Json Addr)} {order : List Nat}
    (inBefore : ∀ x ∈ before, InHeap h x) (inAfter : ∀ y ∈ after, InHeap h y)
    (safe : SafePath path) (found : permutation before after = some order) :
    Reaches h path (.array a before) (.array b after) [.m path order] := by
  obtain ⟨perm, _, lengths⟩ := permutation_perm found
  obtain ⟨inside, same⟩ := permutation_items found
  have items : order.map (item before) = after := by
    refine eq_of_map_val (fun x member => ?_) inAfter (by rw [map_map]; exact same)
    obtain ⟨i, listed, rfl⟩ := List.mem_map.mp member
    exact inBefore _ (item_mem (inside i listed))
  have length : before.length = order.length := by rw [lengths, ← items, length_map]
  refine ⟨.single rfl fun _ member => (by cases member), .array a after, .of_items (.refl after),
    transforms_m safe a perm length ?_⟩
  rw [permute_items inside, items]

theorem emits_diffArray {b : Addr} {before after : List (Json Addr)}
    (inBefore : InHeap h (.array a before)) (inAfter : InHeap h (.array b after))
    (children : ∀ x ∈ before, ChildSound h child x) (safe : SafePath path) :
    Emits (diffArray child (.array a before) (.array b after) before after path)
      (Reaches h path (.array a before) (.array b after)) := by
  have itemsBefore : ∀ x ∈ before, InHeap h x := fun x member => inBefore.item member
  have itemsAfter : ∀ y ∈ after, InHeap h y := fun y member => inAfter.item member
  refine .choose (fun same => .skip (.nil (sameValue_sound inBefore inAfter same))) fun _ => ?_
  dsimp only
  cases found : (if before.length = after.length ∧ before.length > 1 ∧
      ¬ sameValue (item before 0) (item after 0) = true ∧
      ¬ sameValue (item before (before.length - 1)) (item after (after.length - 1)) = true then
      permutation before after else none) with
  | some order =>
    split_ifs at found
    exact .operation (reaches_m itemsBefore itemsAfter safe found)
  | none =>
    have region := rewrites_region itemsBefore itemsAfter children safe
      (before.length + after.length + 1) (before.length + after.length) (Nat.lt_succ_self _)
      ⟨0, before.length, 0, after.length, 0⟩
      ⟨Nat.zero_le _, Nat.le_refl _, Nat.zero_le _, Nat.le_refl _⟩ (by simp [Region.size])
    have whole : ∀ items : List (Json Addr), slice items 0 items.length = items := fun items => by
      rw [slice, take_length, drop_zero]
    rw [whole, whole] at region
    refine region.imp fun δ rewrites => ?_
    obtain ⟨clean, items, equal, effect⟩ := rewrites
    have here := effect a [] [] rfl
    simp only [nil_append, append_nil] at here
    exact ⟨clean, .array a items, .of_items equal, here⟩

/-! ### Objects -/

/-- What the loop over `afterKeys` does to an object that still has the old values under them. -/
def PutsAll (h : Heap) (path : Path) (before rest : List (Text × Json Addr))
    (δ : List (Op (Json Addr))) : Prop :=
  Clean h δ ∧ ∀ id fields, (∀ k ∈ Assoc.keys rest, Assoc.get k fields = Assoc.get k before) →
    ∃ fields', Transforms path δ (.object id fields) (.object id fields') ∧
      (∀ k v, (k, v) ∈ rest → ∃ v', Assoc.get k fields' = some v' ∧ DeepEq v' v) ∧
      ∀ k, k ∉ Assoc.keys rest → Assoc.get k fields' = Assoc.get k fields

theorem emits_diffKeys {child : Child} {before rest : List (Text × Json Addr)}
    (inRest : ∀ k v, (k, v) ∈ rest → InHeap h v) (nodup : (Assoc.keys rest).Nodup)
    (children : ∀ k x, (k, x) ∈ before → ChildSound h child x)
    (safe : ∀ k ∈ Assoc.keys rest, SafePath (path ++ [.key k])) :
    Emits (diffKeys child before path rest) (PutsAll h path before rest) := by
  induction rest with
  | nil =>
    exact .skip ⟨.nil, fun id fields _ => ⟨fields, .nil path _, fun k v member => (by cases member),
      fun k _ => rfl⟩⟩
  | cons e rest ih =>
    obtain ⟨key, value⟩ := e
    rw [Assoc.keys_cons, nodup_cons] at nodup
    have inValue := inRest key value mem_cons_self
    have safeKey := safe key mem_cons_self
    have full : path ++ [Seg.key key] ≠ [] := by simp
    have tail := ih (fun k v member => inRest k v (mem_cons_of_mem _ member)) nodup.2
      fun k member => safe k (mem_cons_of_mem _ member)
    refine Emits.guarded (Emits.andThen (?first : Emits _ (Puts h path key (Assoc.get key before) value))
      tail fun δ ε puts more => ?_)
    case first =>
      cases found : Assoc.get key before with
      | some old =>
        exact (children key old (Assoc.mem_of_get found) value _ inValue safeKey full).imp
          fun δ reaches => .of_reaches reaches
      | none =>
        have same : emitSet (path ++ [.key key]) value =
            (emitOperation · (.s (path ++ [.key key]) value)) := by
          funext b
          rw [emitSet, if_neg full]
        simp only [same]
        exact .operation (.of_s safeKey inValue.held)
    obtain ⟨clean, value', equal, put⟩ := puts
    obtain ⟨clean', putAll⟩ := more
    refine ⟨clean.append clean', fun id fields olds => ?_⟩
    obtain ⟨fields', effect, there, frame⟩ := putAll id (Assoc.set key value' fields)
      fun k member => by
        have other : key ≠ k := fun same => nodup.1 (same ▸ member)
        rw [Assoc.get_set_ne other]
        exact olds k (mem_cons_of_mem _ member)
    refine ⟨fields', (put id fields (olds key mem_cons_self)).trans effect, fun k v member => ?_,
      fun k absent => ?_⟩
    · rcases mem_cons.mp member with same | later
      · cases same
        exact ⟨value', by rw [frame key nodup.1, Assoc.get_set_self], equal⟩
      · exact there k v later
    · rw [Assoc.keys_cons, mem_cons, not_or] at absent
      rw [frame k absent.2, Assoc.get_set_ne (Ne.symm absent.1)]

/-- What the loop over `beforeKeys` does to an object. -/
def Drops (h : Heap) (path : Path) (after rest : List (Text × Json Addr))
    (δ : List (Op (Json Addr))) : Prop :=
  Clean h δ ∧ ∀ id fields, ∃ fields',
    Transforms path δ (.object id fields) (.object id fields') ∧
      ∀ k, Assoc.get k fields' =
        if Assoc.has k rest = true ∧ Assoc.has k after = false then none else Assoc.get k fields

theorem emits_deleteKeys {after rest : List (Text × Json Addr)}
    (safe : ∀ k ∈ Assoc.keys rest, SafePath (path ++ [.key k])) :
    Emits (deleteKeys after path rest) (Drops h path after rest) := by
  induction rest with
  | nil =>
    exact .skip ⟨.nil, fun id fields => ⟨fields, .nil path _, fun k => by simp [Assoc.has_iff]⟩⟩
  | cons e rest ih =>
    obtain ⟨key, value⟩ := e
    have tail := ih fun k member => safe k (mem_cons_of_mem _ member)
    have first : Emits (fun batch => if Assoc.has key after then batch
        else emitOperation batch (.d (path ++ [.key key])))
        (fun δ => Clean h δ ∧ ∀ id (fields : List (Text × Json Addr)), Transforms path δ
          (.object id fields)
          (.object id (if Assoc.has key after then fields else Assoc.erase key fields))) := by
      refine .choose (fun kept => .skip ⟨.nil, fun id fields => ?_⟩) fun gone =>
        .operation ⟨.single rfl fun _ member => (by cases member), fun id fields => ?_⟩
      · rw [if_pos kept]
        exact .nil path _
      · rw [if_neg gone]
        exact transforms_d (safe key mem_cons_self) id fields
    refine Emits.guarded (first.andThen tail fun δ ε drop more => ?_)
    refine ⟨drop.1.append more.1, fun id fields => ?_⟩
    obtain ⟨fields', effect, rest'⟩ := more.2 id
      (if Assoc.has key after then fields else Assoc.erase key fields)
    refine ⟨fields', (drop.2 id fields).trans effect, fun k => ?_⟩
    rw [rest']
    have inRest : Assoc.has k ((key, value) :: rest) = true ↔ k = key ∨ Assoc.has k rest = true := by
      rw [Assoc.has_iff, Assoc.has_iff, Assoc.keys_cons, mem_cons]
    simp only [inRest]
    by_cases same : key = k
    · subst same
      cases kept : Assoc.has key after <;> simp
    · have other : Assoc.get k (if Assoc.has key after then fields else Assoc.erase key fields) =
          Assoc.get k fields := by
        split_ifs
        · rfl
        · exact Assoc.get_erase_ne same fields
      simp only [other, Ne.symm same, false_or]

theorem emits_diffObject {b : Addr} {before after : List (Text × Json Addr)}
    (inBefore : InHeap h (.object a before)) (inAfter : InHeap h (.object b after))
    (children : ∀ k x, (k, x) ∈ before → ChildSound h child x) (safe : SafePath path) :
    Emits (diffObject child (.object a before) (.object b after) before after path)
      (Diffs h path (.object a before) (.object b after)) := by
  refine .choose (fun _ => .choose (fun equal => ?_) fun _ => ?_) fun plain => ?_
  · exact .skip (.inl (.nil (equalJson_sound inBefore inAfter equal)))
  · exact emits_emitSet safe inAfter.held _
  · have unreserved : ∀ k, k ∈ Assoc.keys before ∨ k ∈ Assoc.keys after →
        SafePath (path ++ [.key k]) := fun k member => by
      refine safe.concat ?_
      have none := plain
      simp only [any_eq_true, not_exists, not_and, Bool.not_eq_true] at none
      exact none k (List.mem_append.mpr member)
    have puts := @emits_diffKeys _ path _ _ _ (fun k v member => inAfter.field member) inAfter.keys
      children fun k member => unreserved k (.inr member)
    have drops := @emits_deleteKeys h path after before fun k member => unreserved k (.inl member)
    refine puts.andThen drops fun δ ε put drop => .inl ⟨put.1.append drop.1, ?_⟩
    obtain ⟨fields, effect, there, frame⟩ := put.2 a before fun k _ => rfl
    obtain ⟨fields', effect', rest⟩ := drop.2 a fields
    have got : ∀ k, Assoc.get k fields' = if Assoc.has k after then Assoc.get k fields else none := by
      intro k
      rw [rest k]
      cases kept : Assoc.has k after with
      | true => simp
      | false =>
        by_cases old : k ∈ Assoc.keys before
        · simp [Assoc.has_iff, old]
        · have absent : k ∉ Assoc.keys after := fun inside => by
            rw [Assoc.has_iff.mpr inside] at kept
            cases kept
          simp [Assoc.has_iff, old, frame k absent, Assoc.get_eq_none_iff.mpr old]
    refine ⟨.object a fields', .object (fun k => ?_) fun k v w found found' => ?_, effect.trans effect'⟩
    · rw [← Assoc.has_iff, ← Assoc.has_iff, Assoc.has, got k]
      cases kept : Assoc.has k after with
      | false => simp
      | true =>
        obtain ⟨v, found⟩ := Option.isSome_iff_exists.mp (show (Assoc.get k after).isSome from kept)
        obtain ⟨v', here, _⟩ := there k v (Assoc.mem_of_get found)
        simp [here]
    · obtain ⟨v', here, equal⟩ := there k w (Assoc.mem_of_get found')
      have kept : Assoc.has k after = true := by rw [Assoc.has, found', Option.isSome_some]
      rw [got k, if_pos kept, here] at found
      cases found
      exact equal

/-! ### Values -/

theorem depth_item (member : x ∈ items) : depth x < depth (.array a items) := by
  have deepest : ∀ {items : List (Json Addr)}, x ∈ items → depth x ≤ depthItems items := by
    intro items member
    induction items with
    | nil => cases member
    | cons y ys ih =>
      rw [depthItems]
      rcases mem_cons.mp member with rfl | later
      · exact Nat.le_max_left _ _
      · exact (ih later).trans (Nat.le_max_right _ _)
  rw [depth]
  exact Nat.lt_succ_of_le (deepest member)

theorem depth_field {fields : List (Text × Json Addr)} {k : Text} (member : (k, x) ∈ fields) :
    depth x < depth (.object a fields) := by
  have deepest : ∀ {fields : List (Text × Json Addr)}, (k, x) ∈ fields →
      depth x ≤ depthFields fields := by
    intro fields member
    induction fields with
    | nil => cases member
    | cons e es ih =>
      obtain ⟨key, y⟩ := e
      rw [depthFields]
      rcases mem_cons.mp member with same | later
      · cases same
        exact Nat.le_max_left _ _
      · exact (ih later).trans (Nat.le_max_right _ _)
  rw [depth]
  exact Nat.lt_succ_of_le (deepest member)

/-- **The diff of two values**, by induction on the depth of the value before. -/
theorem emits_diffValue (fuel : Nat) : ∀ {x y : Json Addr} {path : Path}, depth x < fuel →
    InHeap h x → InHeap h y → SafePath path → Emits (diffValue fuel x y path) (Diffs h path x y) := by
  induction fuel with
  | zero => exact fun deep => (nomatch deep)
  | succ fuel ih =>
    intro x y path deep inX inY safe
    have children : ∀ z, depth z < depth x → InHeap h z → ChildSound h (diffValue fuel) z :=
      fun z below inZ y path inY safe full =>
        (ih (by omega) inZ inY safe).imp fun δ diffs => diffs.reaches full
    have replace : Emits (emitSet path y) (Diffs h path x y) := emits_emitSet safe inY.held x
    -- An overflowed batch stays overflowed, so only identical values stop the step.
    have step : ∀ {f : Batch → Batch}, Emits f (Diffs h path x y) →
        Emits (fun b => if (identical x y || b.overflowed) = true then b else f b)
          (Diffs h path x y) := by
      intro f emits b open_
      dsimp only at open_ ⊢
      split_ifs at open_ ⊢ with stop
      · refine ⟨open_, [], (append_nil _).symm, .inl (.nil ?_)⟩
        rw [open_, Bool.or_false] at stop
        rw [eq_of_identical inX inY stop]
        exact .refl y
      · exact emits b open_
    show Emits (fun b => diffValue (fuel + 1) x y path b) _
    unfold diffValue
    refine step ?_
    cases x with
    | null | bool | number => exact replace
    | string old =>
      cases y with
      | string new =>
        refine .choose (fun below => ?_) fun _ => replace
        exact (emits_emitString old new safe (List.length_pos_iff.mp below)).imp fun _ => .inl
      | null | bool | number | array | object => exact replace
    | array a old =>
      cases y with
      | array b new =>
        exact (emits_diffArray inX inY (fun z member => children z (depth_item member)
          (inX.item member)) safe).imp fun _ => .inl
      | null | bool | number | string | object => exact replace
    | object a old =>
      cases y with
      | object b new =>
        exact emits_diffObject inX inY (fun k z member => children z (depth_field member)
          (inX.field member)) safe
      | null | bool | number | string | array => exact replace

/-! ### Revisions -/

theorem diffRevisions_diffs {before after : Json Addr} (inBefore : InHeap h before)
    (inAfter : InHeap h after) : Diffs h [] before after (diffRevisions before after) := by
  have emits := @emits_diffValue _ (depth before + 1) _ _ [] (Nat.lt_succ_self _) inBefore inAfter
    (fun _ member => (by cases member)) ⟨[], false⟩
  have snapshot : Diffs h [] before after [.r after] := .inr ⟨rfl, rfl⟩
  unfold diffRevisions
  dsimp only
  cases beyond : (diffValue (depth before + 1) before after [] ⟨[], false⟩).overflowed with
  | true => exact snapshot
  | false =>
    obtain ⟨_, δ, added, diffs⟩ := emits beyond
    rw [nil_append] at added
    rw [added, if_neg Bool.false_ne_true]
    split_ifs
    · exact diffs
    · exact diffs
    · exact snapshot
    · exact diffs

/-- **Diff soundness.** The batch of two values applies to the first, the result is deeply equal to
the second, and a replacement is the whole batch. -/
theorem applyImmutable_diffRevisions {before after : Json Addr} (inBefore : InHeap h before)
    (inAfter : InHeap h after) :
    (∃ result j, applyImmutable h before.val ((diffRevisions before after).map (Op.map val)) =
        .ok result ∧ result.2 = j.val ∧ Held result.1 j ∧ DeepEq j after) ∧
      ∀ op ∈ diffRevisions before after, op.isReplace = true →
        diffRevisions before after = [op] := by
  have applied : ∀ {δ : List (Op (Json Addr))} {x' : Json Addr},
      (∀ v ∈ δ.flatMap Op.payload, Held h v) → transformAll δ before = some x' → DeepEq x' after →
      ∃ result j, applyImmutable h before.val (δ.map (Op.map val)) = .ok result ∧
        result.2 = j.val ∧ Held result.1 j ∧ DeepEq j after := by
    intro δ x' held effect equal
    have agrees := @applyImmutableBatches_agrees h before [δ] fun v member => by
      rw [flatten_singleton] at member
      rcases mem_cons.mp member with rfl | payload
      · exact inBefore.held
      · exact held v payload
    rw [flatten_singleton, transformAll_erase, effect] at agrees
    obtain ⟨result, done, j, root, content, heldJ⟩ := agrees.of_some
    exact ⟨result, j, done, root, heldJ, equal.of_erase content⟩
  rcases diffRevisions_diffs inBefore inAfter with ⟨clean, x', equal, effect⟩ | ⟨_, sole⟩
  · refine ⟨applied (fun v member => ?_) (effect before rfl) equal, fun op member replace => ?_⟩
    · obtain ⟨op, listed, payload⟩ := List.mem_flatMap.mp member
      exact (clean op listed).2 v payload
    · rw [(clean op member).1] at replace
      cases replace
  · rw [sole]
    refine ⟨applied (fun v member => ?_) rfl (.refl after), fun op member _ => ?_⟩
    · rw [flatMap_singleton] at member
      rw [mem_singleton.mp member]
      exact inAfter.held
    · rw [mem_singleton.mp member]

/-- Two arrays of one heap. -/
theorem applyImmutable_diffRevisions_arrays :
    ∃ result j, applyImmutable [.array [.null], .array [.bool true, .null]] (.ref 0)
        ((diffRevisions (.array 0 [.null]) (.array 1 [.bool true, .null])).map (Op.map val)) =
        .ok result ∧ result.2 = j.val ∧ Held result.1 j ∧
      DeepEq j (.array 1 [.bool true, .null] : Json Addr) := by
  refine (@applyImmutable_diffRevisions [.array [.null], .array [.bool true, .null]]
    (.array 0 [.null]) (.array 1 [.bool true, .null]) ⟨?_, ?_⟩ ⟨?_, ?_⟩).1
  · intro c member
    rw [mem_singleton.mp member]
    rfl
  · refine .array fun x member => ?_
    rw [mem_singleton.mp member]
    exact .null
  · intro c member
    rw [mem_singleton.mp member]
    rfl
  · refine .array fun x member => ?_
    rcases mem_cons.mp member with rfl | last
    · exact .bool true
    · rw [mem_singleton.mp last]
      exact .null

end TianGong.Chord
