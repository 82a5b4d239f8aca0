/-
**The plan of an edited array.**

A draft keeps an edited array as pieces, which are runs of the base array and of inserted items.
`buildArrayPlan` makes removals, a reordering and insertions of them. The plan is computed from the
pieces alone, so the overlay that caches it is left out.

* `orderedArrayPlan_builds`, `elementArrayPlan_builds`: either plan gives the pieces.
* `buildArrayPlan_builds`: so does the plan that is taken, and the two agree.
-/

import TianGong.Chord.Node

namespace TianGong.Chord

open TianGong.Lib
open List Option

/-- `1 | -1` -/
inductive Step where
  | forward
  | backward
  deriving DecidableEq

/-- `start + step * offset` -/
def Step.index (step : Step) (start offset : Nat) : Nat :=
  match step with
  | .forward => start + offset
  | .backward => start - offset

/-- A run of base elements or of the items of a source. -/
inductive Piece (S : Type) where
  | base (start length : Nat) (step : Step)
  | insert (source : S) (start length : Nat) (step : Step)

/-- Removals as start and length, `new[i] = old[permutation[i]]`, and insertions as logical index,
first piece and end piece. -/
structure ArrayPlan where
  removeRuns : List (Nat × Nat)
  permutation : Option (List Nat)
  insertRuns : List (Nat × Nat × Nat)

variable {S V : Type}

namespace Piece

def length : Piece S → Nat
  | .base _ length _ | .insert _ _ length _ => length

def isInsert : Piece S → Bool
  | .base .. => false
  | .insert .. => true

/-- The base elements of a piece. -/
def baseIndices : Piece S → List Nat
  | .base start length step => (List.range length).map (step.index start)
  | .insert .. => []

/-- The items of a piece. `valueAt` is `entryValueAt` of inserted pieces. -/
def values (valueAt : S → Nat → V) (base : List V) : Piece S → List V
  | .base start length step =>
    ((List.range length).map (step.index start)).filterMap fun index => base[index]?
  | .insert source start length step =>
    ((List.range length).map (step.index start)).map (valueAt source)

end Piece

/-! ### Plans -/

/-- `rangeLength`, of the pieces themselves. -/
def rangeLength (pieces : List (Piece S)) : Nat := (pieces.map Piece.length).sum

/-- Runs of consecutive insert pieces. The loop stands at a logical index and a piece index. -/
def insertRunsOf : List (Piece S) → Nat → Nat → List (Nat × Nat × Nat)
  | [], _, _ => []
  | .base _ length _ :: rest, logicalIndex, pieceIndex =>
    insertRunsOf rest (logicalIndex + length) (pieceIndex + 1)
  | .insert source start length step :: rest, logicalIndex, startPiece =>
    let run := Piece.insert source start length step :: rest.takeWhile Piece.isInsert
    let after := logicalIndex + rangeLength run
    (after - rangeLength run, startPiece, startPiece + run.length) ::
      insertRunsOf (rest.dropWhile Piece.isInsert) after (startPiece + run.length)
termination_by pieces => pieces.length
decreasing_by
  · simp
  · simpa using Nat.lt_succ_of_le (length_dropWhile_le _ rest)

/-- Retained base ranges as first and last, the last range first. -/
def orderedRanges : List (Piece S) → List (Nat × Nat) → Option (List (Nat × Nat))
  | [], ranges => some ranges
  | .insert .. :: pieces, ranges => orderedRanges pieces ranges
  | .base start length step :: pieces, ranges =>
    if length = 0 then orderedRanges pieces ranges
    else if step ≠ .forward ∧ 1 < length then none
    else if ranges.head?.any fun range => start ≤ range.2 then none
    else orderedRanges pieces ((start, start + length - 1) :: ranges)

/-- Unretained runs from the end backwards: after the last range, between ranges, before the first. -/
def gapsBefore : List (Nat × Nat) → Nat → List (Nat × Nat)
  | [], stop => if 0 < stop then [(0, stop - 0)] else []
  | (first, last) :: earlier, stop =>
    (if last + 1 < stop then [(last + 1, stop - (last + 1))] else []) ++ gapsBefore earlier first

/-- The plan when the retained base elements keep their order. -/
def orderedArrayPlan (baseLength : Nat) (pieces : List (Piece S)) : Option ArrayPlan :=
  (orderedRanges pieces []).map fun ranges =>
    ⟨gapsBefore ranges baseLength, none, insertRunsOf pieces 0 0⟩

/-- The start of the unretained run that ends before `start`. -/
def runStart (retained : Nat → Bool) : Nat → Nat
  | 0 => 0
  | start + 1 => if retained start then start + 1 else runStart retained start

theorem runStart_le (retained : Nat → Bool) (start : Nat) : runStart retained start ≤ start := by
  induction start with
  | zero => exact Nat.le_refl _
  | succ start ih =>
    rw [runStart]
    split
    · exact Nat.le_refl _
    · exact Nat.le_succ_of_le ih

/-- Unretained runs below `end`, the last one first. -/
def unretainedRuns (retained : Nat → Bool) : Nat → List (Nat × Nat)
  | 0 => []
  | last + 1 =>
    if retained last then unretainedRuns retained last
    else
      (runStart retained last, last + 1 - runStart retained last) ::
        unretainedRuns retained (runStart retained last)
termination_by stop => stop
decreasing_by
  · exact Nat.lt_succ_self _
  · exact Nat.lt_succ_of_le (runStart_le retained last)

/-- The base elements of the pieces. -/
def targetBase (pieces : List (Piece S)) : List Nat := pieces.flatMap Piece.baseIndices

/-- The plan from a walk over every base element. -/
def elementArrayPlan (baseLength : Nat) (pieces : List (Piece S)) : ArrayPlan :=
  let retained := (targetBase pieces).contains
  let retainedBase := (List.range baseLength).filter retained
  let moved := (targetBase pieces).zipIdx.any fun entry => retainedBase[entry.2]? ≠ some entry.1
  ⟨unretainedRuns retained baseLength,
    if moved then some ((targetBase pieces).map (retainedBase.idxOf ·)) else none,
    insertRunsOf pieces 0 0⟩

def buildArrayPlan (baseLength : Nat) (pieces : List (Piece S)) : ArrayPlan :=
  (orderedArrayPlan baseLength pieces).getD (elementArrayPlan baseLength pieces)

/-! ### Applying a plan -/

/-- An operation `p` in range. -/
def spliceAt (start remove : Nat) (items xs : List V) : Option (List V) :=
  if start + remove ≤ xs.length then some (splice start remove items xs) else none

def removeAll (runs : List (Nat × Nat)) (xs : List V) : Option (List V) :=
  runs.foldlM (fun xs run => spliceAt run.1 run.2 [] xs) xs

/-- The items that `emitArrayOperations` inserts for a run. -/
def runItems (valueAt : S → Nat → V) (base : List V) (pieces : List (Piece S)) (first stop : Nat) :
    List V :=
  ((pieces.take stop).drop first).flatMap (Piece.values valueAt base)

/-- What the operations of a plan make of the base array. -/
def ArrayPlan.apply (plan : ArrayPlan) (valueAt : S → Nat → V) (pieces : List (Piece S))
    (base : List V) : Option (List V) := do
  let kept ← removeAll plan.removeRuns base
  let moved ← match plan.permutation with
    | none => some kept
    | some permutation =>
      if kept.length = permutation.length then permute permutation kept else none
  plan.insertRuns.foldlM
    (fun xs run => spliceAt run.1 0 (runItems valueAt base pieces run.2.1 run.2.2) xs) moved

/-! ### Removals -/

variable {stop : Nat} {kept : List Nat} {runs : List (Nat × Nat)}

/-- The runs leave the items at `kept` of what is before `stop`. -/
structure Keeps (V : Type) (stop : Nat) (kept : List Nat) (runs : List (Nat × Nat)) : Prop where
  below : ∀ index ∈ kept, index < stop
  removes : ∀ xs : List V, stop ≤ xs.length →
    removeAll runs xs = some ((kept.filterMap fun index => xs[index]?) ++ xs.drop stop)

theorem keeps_zero : Keeps V 0 [] [] := ⟨fun _ member => (by cases member), fun _ _ => rfl⟩

/-- One more item is kept. -/
theorem Keeps.keep (keeps : Keeps V stop kept runs) : Keeps V (stop + 1) (kept ++ [stop]) runs where
  below index member := by
    rcases List.mem_append.mp member with before | last
    · exact Nat.lt_succ_of_lt (keeps.below index before)
    · rw [List.mem_singleton.mp last]
      exact Nat.lt_succ_self _
  removes xs bound := by
    rw [keeps.removes xs (Nat.le_of_succ_le bound), drop_eq_getElem_cons bound,
      filterMap_append, append_assoc]
    simp only [filterMap_cons, List.getElem?_eq_getElem bound, filterMap_nil,
      singleton_append]

/-- What stands before `stop` is removed, from `start` on. -/
theorem Keeps.remove {start : Nat} (keeps : Keeps V start kept runs) (within : start ≤ stop) :
    Keeps V stop kept ((start, stop - start) :: runs) where
  below index member := Nat.lt_of_lt_of_le (keeps.below index member) within
  removes xs bound := by
    have spliced : spliceAt start (stop - start) [] xs = some (xs.take start ++ xs.drop stop) := by
      rw [spliceAt, if_pos (by omega), splice, append_nil, Nat.add_sub_cancel' within]
    have length : (xs.take start).length = start := by
      rw [length_take, Nat.min_eq_left (within.trans bound)]
    have same : ∀ index ∈ kept, (xs.take start ++ xs.drop stop)[index]? = xs[index]? := by
      intro index member
      have before := keeps.below index member
      rw [List.getElem?_append_left (by rw [length]; exact before), List.getElem?_take_of_lt before]
    rw [removeAll, foldlM_cons, spliced]
    refine (keeps.removes _ (by rw [length_append, length]; omega)).trans ?_
    rw [filterMap_congr same, drop_left' length]

/-- A run of items is kept. -/
theorem Keeps.keepRange (keeps : Keeps V stop kept runs) (length : Nat) :
    Keeps V (stop + length) (kept ++ List.range' stop length) runs := by
  induction length with
  | zero => simpa using keeps
  | succ length ih =>
    rw [List.range'_concat, ← append_assoc, Nat.one_mul]
    exact ih.keep

theorem filter_runStart (retained : Nat → Bool) (start : Nat) :
    (List.range (runStart retained start)).filter retained =
      (List.range start).filter retained := by
  induction start with
  | zero => rfl
  | succ start ih =>
    rw [runStart]
    split
    · rfl
    · rename_i gone
      rw [ih, range_succ, filter_append, filter_cons_of_neg gone, filter_nil,
        append_nil]

theorem keeps_unretained (retained : Nat → Bool) (stop : Nat) :
    Keeps V stop ((List.range stop).filter retained) (unretainedRuns retained stop) := by
  fun_induction unretainedRuns retained stop with
  | case1 => exact keeps_zero
  | case2 last here ih =>
    rw [range_succ, filter_append, filter_cons_of_pos here]
    exact ih.keep
  | case3 last gone ih =>
    rw [range_succ, filter_append, filter_cons_of_neg gone, filter_nil,
      append_nil, ← filter_runStart]
    exact ih.remove (Nat.le_succ_of_le (runStart_le retained last))

/-- The indices of ranges, of which the last one comes first. -/
def rangeIndices (ranges : List (Nat × Nat)) : List Nat :=
  ranges.reverse.flatMap fun range => List.range' range.1 (range.2 + 1 - range.1)

theorem rangeIndices_cons (first last : Nat) (earlier : List (Nat × Nat)) :
    rangeIndices ((first, last) :: earlier) =
      rangeIndices earlier ++ List.range' first (last + 1 - first) := by
  simp [rangeIndices]

/-- Ranges that ascend, the last one first. -/
structure RangesAscend (ranges : List (Nat × Nat)) : Prop where
  ordered : ∀ range ∈ ranges, range.1 ≤ range.2
  apart : ranges.Pairwise fun later earlier => earlier.2 < later.1

theorem keeps_gaps {ranges : List (Nat × Nat)} (ascending : RangesAscend ranges)
    (within : ∀ range ∈ ranges, range.2 < stop) :
    Keeps V stop (rangeIndices ranges) (gapsBefore ranges stop) := by
  induction ranges generalizing stop with
  | nil =>
    rw [gapsBefore]
    split
    · exact keeps_zero.remove (Nat.zero_le _)
    · rename_i empty
      rw [Nat.eq_zero_of_not_pos empty]
      exact keeps_zero
  | cons range earlier ih =>
    obtain ⟨first, last⟩ := range
    obtain ⟨before, apart⟩ := List.pairwise_cons.mp ascending.apart
    have ordered : first ≤ last := ascending.ordered _ mem_cons_self
    have bound : last < stop := within _ mem_cons_self
    have keeps := (ih ⟨fun range member => ascending.ordered range (mem_cons_of_mem _ member),
      apart⟩ before).keepRange (last + 1 - first)
    rw [Nat.add_sub_cancel' (Nat.le_succ_of_le ordered)] at keeps
    rw [rangeIndices_cons, gapsBefore]
    split
    · exact keeps.remove bound
    · obtain rfl : stop = last + 1 := by omega
      exact keeps

/-! ### Insertions -/

variable {valueAt : S → Nat → V} {base : List V} {pieces : List (Piece S)}

/-- The items that are left of the base array where they go. -/
def baseItems (base : List V) (pieces : List (Piece S)) : List V :=
  (targetBase pieces).filterMap fun index => base[index]?

theorem baseItems_append (first second : List (Piece S)) :
    baseItems base (first ++ second) = baseItems base first ++ baseItems base second := by
  rw [baseItems, targetBase, flatMap_append, filterMap_append]
  rfl

theorem length_filterMap {indices : List Nat} (within : ∀ index ∈ indices, index < base.length) :
    (indices.filterMap fun index => base[index]?).length = indices.length := by
  induction indices with
  | nil => rfl
  | cons index rest ih =>
    obtain ⟨here, later⟩ := List.forall_mem_cons.mp within
    rw [filterMap_cons_some (List.getElem?_eq_getElem here), length_cons, ih later,
      length_cons]

theorem length_values {piece : Piece S} (within : ∀ index ∈ piece.baseIndices, index < base.length) :
    (piece.values valueAt base).length = piece.length := by
  cases piece with
  | base start length step =>
    refine (length_filterMap within).trans ?_
    rw [Piece.baseIndices, length_map, length_range, Piece.length]
  | insert source start length step =>
    rw [Piece.values, length_map, length_map, length_range, Piece.length]

theorem baseItems_inserts {run : List (Piece S)} (inserts : ∀ piece ∈ run, piece.isInsert = true) :
    baseItems base run = [] := by
  refine List.filterMap_eq_nil_iff.mpr fun index member => ?_
  obtain ⟨piece, inside, member⟩ := mem_flatMap.mp member
  cases piece with
  | base => cases inserts _ inside
  | insert => cases member

theorem length_items {run : List (Piece S)} (within : ∀ index ∈ targetBase run, index < base.length) :
    (run.flatMap (Piece.values valueAt base)).length = rangeLength run := by
  induction run with
  | nil => rfl
  | cons piece rest ih =>
    rw [flatMap_cons, length_append, rangeLength, map_cons, sum_cons,
      length_values fun index member => within index (mem_flatMap.mpr ⟨_, mem_cons_self, member⟩),
      ih fun index member => within index (by
        obtain ⟨other, inside, member⟩ := mem_flatMap.mp member
        exact mem_flatMap.mpr ⟨other, mem_cons_of_mem _ inside, member⟩)]
    rfl

/-- **The insertions** fill in what stands between the base elements. `before` are the pieces behind
the loop, whose items stand already. -/
theorem insertRuns_fill {rest : List (Piece S)} {logicalIndex pieceIndex : Nat} :
    ∀ {before : List (Piece S)}, before.length = pieceIndex → rangeLength before = logicalIndex →
    (∀ index ∈ targetBase (before ++ rest), index < base.length) →
    (insertRunsOf rest logicalIndex pieceIndex).foldlM
        (fun xs run => spliceAt run.1 0 (runItems valueAt base (before ++ rest) run.2.1 run.2.2) xs)
        (before.flatMap (Piece.values valueAt base) ++ baseItems base rest) =
      some ((before ++ rest).flatMap (Piece.values valueAt base)) := by
  fun_induction insertRunsOf rest logicalIndex pieceIndex with
  | case1 =>
    intro before _ _ _
    simp [baseItems, targetBase]
  | case2 start length step rest logicalIndex pieceIndex ih =>
    intro before index logical within
    have moved : before ++ Piece.base start length step :: rest =
        before ++ [Piece.base start length step] ++ rest := by rw [append_assoc]; rfl
    have items : baseItems base (Piece.base start length step :: rest) =
        Piece.values valueAt base (Piece.base start length step) ++ baseItems base rest :=
      (baseItems_append [Piece.base start length step] rest).trans
        (congrArg (· ++ baseItems base rest) (by simp [baseItems, targetBase, Piece.values,
          Piece.baseIndices]))
    rw [moved] at within
    rw [items, moved, ← append_assoc]
    refine Eq.trans ?_ (ih ?_ ?_ within)
    · rw [flatMap_append, flatMap_singleton]
    · rw [length_append, index, length_singleton]
    · rw [← logical, rangeLength, rangeLength, map_append, sum_append]
      rfl
  | case3 source start length step rest logicalIndex startPiece run after =>
    rename_i ih
    intro before index logical within
    have parts : Piece.insert source start length step :: rest =
        run ++ rest.dropWhile Piece.isInsert := by
      rw [cons_append, takeWhile_append_dropWhile]
    have inserts : ∀ piece ∈ run, piece.isInsert = true := by
      intro piece member
      rcases mem_cons.mp member with rfl | later
      · rfl
      · exact mem_takeWhile_imp later
    have length : (before.flatMap (Piece.values valueAt base)).length = logicalIndex := by
      rw [← logical]
      refine length_items fun index member => within index ?_
      rw [targetBase, flatMap_append]
      exact mem_append_left _ member
    rw [parts, ← append_assoc] at within ⊢
    have items : runItems valueAt base (before ++ run ++ rest.dropWhile Piece.isInsert) startPiece
        (startPiece + run.length) = run.flatMap (Piece.values valueAt base) := by
      rw [runItems, ← index, ← length_append, take_left, drop_left]
    rw [foldlM_cons, items, Nat.add_sub_cancel, baseItems_append, baseItems_inserts inserts,
      nil_append, spliceAt, if_pos (by rw [length_append, length]; omega), splice,
      Nat.add_zero, take_left' length, drop_left' length]
    refine Eq.trans ?_ (ih ?_ ?_ within)
    · rw [flatMap_append]
      rfl
    · rw [length_append, index]
    · show rangeLength (before ++ run) = logicalIndex + rangeLength run
      rw [← logical, rangeLength, rangeLength, rangeLength, map_append, sum_append]

theorem insertRuns_all (within : ∀ index ∈ targetBase pieces, index < base.length) :
    (insertRunsOf pieces 0 0).foldlM
        (fun xs run => spliceAt run.1 0 (runItems valueAt base pieces run.2.1 run.2.2) xs)
        (baseItems base pieces) = some (pieces.flatMap (Piece.values valueAt base)) :=
  @insertRuns_fill S V valueAt base pieces 0 0 [] rfl rfl within

/-! ### The plans -/

theorem indices_forward (start length : Nat) :
    (List.range length).map (Step.forward.index start) = List.range' start length :=
  (List.range'_eq_map_range ..).symm

/-- The ranges hold the base elements of the pieces, and ascend. -/
theorem orderedRanges_spec {ranges all : List (Nat × Nat)} (ascending : RangesAscend ranges)
    (found : orderedRanges pieces ranges = some all) :
    RangesAscend all ∧ rangeIndices all = rangeIndices ranges ++ targetBase pieces := by
  fun_induction orderedRanges pieces ranges with
  | case1 ranges =>
    cases found
    exact ⟨ascending, (append_nil _).symm⟩
  | case2 source start length step pieces ranges ih => exact ih ascending found
  | case3 start step pieces ranges ih => exact ih ascending found
  | case4 => cases found
  | case5 => cases found
  | case6 start length step pieces ranges some_ inOrder after ih =>
    have later : ∀ range ∈ ranges, range.2 < start := by
      intro range member
      cases ranges with
      | nil => cases member
      | cons last earlier =>
        have here : last.2 < start := by simpa using after
        rcases mem_cons.mp member with rfl | before
        · exact here
        · have apart := rel_of_pairwise_cons ascending.apart before
          have ordered := ascending.ordered last mem_cons_self
          omega
    have grown : RangesAscend ((start, start + length - 1) :: ranges) := by
      refine ⟨fun range member => ?_, List.pairwise_cons.mpr ⟨later, ascending.apart⟩⟩
      rcases mem_cons.mp member with rfl | before
      · show start ≤ start + length - 1
        omega
      · exact ascending.ordered range before
    obtain ⟨ascending', same⟩ := ih grown found
    refine ⟨ascending', ?_⟩
    have indices : (List.range length).map (step.index start) =
        List.range' start (start + length - 1 + 1 - start) := by
      have count : start + length - 1 + 1 - start = length := by omega
      rw [count]
      cases step with
      | forward => exact indices_forward start length
      | backward =>
        obtain rfl : length = 1 := by
          have short : ¬1 < length := fun long => inOrder ⟨by decide, long⟩
          omega
        rfl
    rw [same, rangeIndices_cons, ← indices, append_assoc]
    rfl

/-- **The plan of pieces in order** gives the pieces. -/
theorem orderedArrayPlan_builds {plan : ArrayPlan}
    (within : ∀ index ∈ targetBase pieces, index < base.length)
    (found : orderedArrayPlan base.length pieces = some plan) :
    plan.apply valueAt pieces base = some (pieces.flatMap (Piece.values valueAt base)) := by
  obtain ⟨ranges, ranged, rfl⟩ := Option.map_eq_some_iff.mp found
  obtain ⟨ascending, same⟩ := orderedRanges_spec ⟨fun _ member => (by cases member), .nil⟩ ranged
  change rangeIndices ranges = targetBase pieces at same
  have bound : ∀ range ∈ ranges, range.2 < base.length := by
    intro range member
    refine within _ (same ▸ mem_flatMap.mpr ⟨range, List.mem_reverse.mpr member, ?_⟩)
    have ordered := ascending.ordered range member
    exact List.mem_range'_1.mpr ⟨ordered, by omega⟩
  have kept := (keeps_gaps ascending bound).removes base (Nat.le_refl _)
  rw [drop_length, append_nil, same] at kept
  simp only [ArrayPlan.apply, kept, bind_eq_bind, bind_some]
  exact insertRuns_all within

/-- What is left of the base array is moved to where the pieces have it. -/
theorem permute_kept {order kept : List Nat} (inside : ∀ index ∈ order, index ∈ kept)
    (within : ∀ index ∈ kept, index < base.length) :
    permute (order.map (kept.idxOf ·)) (kept.filterMap fun index => base[index]?) =
      some (order.filterMap fun index => base[index]?) := by
  have items : ∀ index ∈ kept,
      (kept.filterMap fun index => base[index]?)[kept.idxOf index]? = base[index]? := by
    clear inside
    induction kept with
    | nil => exact fun _ member => (by cases member)
    | cons first rest ih =>
      intro index member
      obtain ⟨here, later⟩ := List.forall_mem_cons.mp within
      rw [filterMap_cons_some (List.getElem?_eq_getElem here)]
      rcases eq_or_ne first index with rfl | other
      · rw [idxOf_cons_self, List.getElem?_cons_zero, List.getElem?_eq_getElem here]
      · rw [idxOf_cons_ne _ other, List.getElem?_cons_succ]
        exact ih later index ((mem_cons.mp member).resolve_left other.symm)
  induction order with
  | nil => rfl
  | cons index order ih =>
    obtain ⟨here, later⟩ := List.forall_mem_cons.mp inside
    have found := List.getElem?_eq_getElem (within index here)
    rw [map_cons, permute, items index here, found, ih later, filterMap_cons_some found]
    rfl

/-- **The plan from a walk over the base** gives the pieces. -/
theorem elementArrayPlan_builds (once : (targetBase pieces).Nodup)
    (within : ∀ index ∈ targetBase pieces, index < base.length) :
    (elementArrayPlan base.length pieces).apply valueAt pieces base =
      some (pieces.flatMap (Piece.values valueAt base)) := by
  have kept := (keeps_unretained (targetBase pieces).contains base.length).removes base
    (Nat.le_refl _)
  rw [drop_length, append_nil] at kept
  have same : (targetBase pieces).Perm
      ((List.range base.length).filter (targetBase pieces).contains) := by
    refine (perm_ext_iff_of_nodup once (List.nodup_range.filter _)).mpr fun index => ?_
    rw [mem_filter, mem_range, contains_iff_mem]
    exact ⟨fun member => ⟨within index member, member⟩, And.right⟩
  simp only [elementArrayPlan, ArrayPlan.apply, kept, bind_eq_bind, bind_some]
  generalize (List.range base.length).filter (targetBase pieces).contains = retainedBase at same
  have bound : ∀ index ∈ retainedBase, index < base.length :=
    fun index member => within index (same.mem_iff.mpr member)
  split_ifs with moved
  · have length : (retainedBase.filterMap fun index => base[index]?).length =
        ((targetBase pieces).map (retainedBase.idxOf ·)).length := by
      rw [length_filterMap bound, length_map, same.length_eq]
    simp only [length, if_true, permute_kept (fun _ => same.mem_iff.mp) bound, bind_some]
    exact insertRuns_all within
  · have unmoved : targetBase pieces = retainedBase := by
      refine ext_getElem same.length_eq fun i here there => ?_
      by_contra differs
      refine moved (List.any_eq_true.mpr ⟨((targetBase pieces)[i], i), ?_, ?_⟩)
      · exact List.mk_mem_zipIdx_iff_getElem?.mpr (List.getElem?_eq_getElem here)
      · simpa [List.getElem?_eq_getElem there] using Ne.symm differs
    rw [← unmoved]
    exact insertRuns_all within

/-- **The plan gives the pieces**, one after another, and where there is a plan of pieces in order
it does what the walk over the base does. -/
theorem buildArrayPlan_builds (once : (targetBase pieces).Nodup)
    (within : ∀ index ∈ targetBase pieces, index < base.length) :
    (buildArrayPlan base.length pieces).apply valueAt pieces base =
        some (pieces.flatMap (Piece.values valueAt base)) ∧
      ∀ plan, orderedArrayPlan base.length pieces = some plan →
        ∀ base' : List V, base'.length = base.length →
          plan.apply valueAt pieces base' =
            (elementArrayPlan base.length pieces).apply valueAt pieces base' := by
  refine ⟨?_, fun plan found base' same => ?_⟩
  · cases ordered : orderedArrayPlan base.length pieces with
    | none =>
      rw [buildArrayPlan, ordered]
      exact elementArrayPlan_builds once within
    | some plan =>
      rw [buildArrayPlan, ordered]
      exact orderedArrayPlan_builds within ordered
  · rw [← same] at within found ⊢
    rw [orderedArrayPlan_builds within found, elementArrayPlan_builds once within]

/-- An element goes, the others run backward from the end, and two items stand between. -/
theorem buildArrayPlan_moves :
    let base := [0, 1, 2, 3, 4]
    let pieces : List (Piece Unit) :=
      [.base 1 1 .forward, .insert () 0 2 .forward, .base 4 2 .backward]
    (buildArrayPlan base.length pieces).apply (fun _ index => 10 + index) pieces base =
        some [1, 10, 11, 4, 3] ∧
      ∀ plan, orderedArrayPlan base.length pieces = some plan →
        ∀ base' : List Nat, base'.length = base.length →
          plan.apply (fun _ index => 10 + index) pieces base' =
            (elementArrayPlan base.length pieces).apply (fun _ index => 10 + index) pieces base' :=
  buildArrayPlan_builds (by decide) (by decide)

end TianGong.Chord
