/-
**What the walks along a chain of forks yield.**

All walks go through the same segments: a conversation of the chain and the bound its entries are visible
up to. `visibleIds` lists the ids of a whole walk, newest segment first.

* `visibleEntries_eq`, `visibleEntriesAscending_eq`: the walks between two bounds yield the ids of the
  whole walk between these bounds, in one order and in the other.
* `findLatestHeadMarker_eq`: the search yields the first of them that selects a context.
* `mem_visibleIds`, `visibleIds_nodup`: where the parents form a forest, the whole walk yields exactly
  the visible entries, each once.
-/

import Mathlib.Order.WellFounded
import TianGong.Storage.EntryReads

namespace TianGong.Storage

open List
open TianGong.Lib

namespace State

variable (state : State)

/-- The visible ids of a segment within a lower bound, oldest first. -/
def idsIn (min : Option Int) (segment : ConversationId × Option Int) : List EntryId :=
  chosen min segment.2 (idsOf state.entryIds segment.1)

/-- The ids of a walk through some segments, newest segment first. -/
def walk (min : Option Int) (segments : List (ConversationId × Option Int)) : List EntryId :=
  segments.flatMap fun segment => (state.idsIn min segment).reverse

/-- The ids of the whole walk from a conversation. -/
def visibleIds (conversation : ConversationId) : List EntryId :=
  state.walk none (state.segmentsLoop none (state.conversations.length + 1) conversation none)

/-- An entry that selects a context. -/
def isHead (id : EntryId) : Bool := (Assoc.get id state.entries).any fun entry => entry.head.isSome

end State

variable {state : State}

/-! ### One walk for all of them -/

theorem entriesOf_append (ids more : List EntryId) :
    state.entriesOf (ids ++ more) = state.entriesOf ids ++ state.entriesOf more :=
  filterMap_append

theorem walk_cons (min : Option Int) (segment : ConversationId × Option Int)
    (rest : List (ConversationId × Option Int)) :
    state.walk min (segment :: rest) = (state.idsIn min segment).reverse ++ state.walk min rest :=
  flatMap_cons

theorem visibleLoop_eq (indexed : EntriesIndexed state) (min : Option Int) (fuel : Nat)
    (current : ConversationId) (upper : Option Int) :
    state.visibleLoop min fuel current upper =
      state.entriesOf (state.walk min (state.segmentsLoop min fuel current upper)) := by
  induction fuel generalizing current upper with
  | zero => rfl
  | succ fuel ih =>
    rw [State.visibleLoop, State.segmentsLoop, walk_cons, entriesOf_append]
    dsimp only
    rw [segment_descending (indexed.sorted current)]
    refine congrArg₂ List.append rfl ?_
    cases state.parentOf current with
    | none => rfl
    | some parent =>
      dsimp only
      split
      · rfl
      · exact ih _ _

theorem ascending_segments (indexed : EntriesIndexed state) (min : Option Int)
    (segments : List (ConversationId × Option Int)) :
    (segments.reverse.flatMap fun segment =>
        let ids := idsOf state.entryIds segment.1
        state.entriesOf ((ids.drop (lowerIndex ids min)).takeWhile (within segment.2))) =
      (state.entriesOf (state.walk min segments)).reverse := by
  induction segments with
  | nil => rfl
  | cons segment rest ih =>
    rw [reverse_cons, flatMap_append, ih, walk_cons, entriesOf_append, reverse_append,
      flatMap_singleton]
    refine congrArg₂ List.append rfl ?_
    dsimp only
    rw [segment_ascending (indexed.sorted segment.1), State.entriesOf, State.entriesOf,
      ← filterMap_reverse, reverse_reverse]
    rfl

/-! ### Bounds along the chain -/

/-- The bounds of a chain do not grow. -/
theorem segments_bounded {fuel : Nat} {current : ConversationId} {upper : Int}
    {segment : ConversationId × Option Int}
    (member : segment ∈ state.segmentsLoop none fuel current (some upper)) :
    ∃ bound, segment.2 = some bound ∧ bound ≤ upper := by
  induction fuel generalizing current upper with
  | zero => exact absurd member not_mem_nil
  | succ fuel ih =>
    rw [State.segmentsLoop] at member
    rcases List.mem_cons.mp member with rfl | later
    · exact ⟨upper, rfl, Int.le_refl _⟩
    · cases parent : state.parentOf current with
      | none => rw [parent] at later; exact absurd later not_mem_nil
      | some source =>
        rw [parent] at later
        obtain ⟨bound, here, less⟩ := ih later
        exact ⟨bound, here, Int.le_trans less (Int.min_le_left _ _)⟩

/-- Nothing is visible between crossed bounds. -/
theorem idsIn_crossed {min : Option Int} {upper bound : Int} (cross : crossed upper min = true)
    (less : bound ≤ upper) (conversation : ConversationId) :
    state.idsIn min (conversation, some bound) = [] := by
  refine List.filter_eq_nil_iff.mpr fun id _ both => ?_
  rw [Bool.and_eq_true] at both
  obtain ⟨low, high⟩ := both
  cases min with
  | none => cases cross
  | some min =>
    have cross := of_decide_eq_true cross
    have low := of_decide_eq_true low
    have high := of_decide_eq_true high
    omega

/-- A walk may stop where the bounds cross. -/
theorem walk_uncut (min : Option Int) (fuel : Nat) (current : ConversationId) (upper : Option Int) :
    state.walk min (state.segmentsLoop min fuel current upper) =
      state.walk min (state.segmentsLoop none fuel current upper) := by
  induction fuel generalizing current upper with
  | zero => rfl
  | succ fuel ih =>
    rw [State.segmentsLoop, State.segmentsLoop, walk_cons, walk_cons]
    refine congrArg₂ List.append rfl ?_
    cases state.parentOf current with
    | none => rfl
    | some parent =>
      dsimp only
      have open_ : crossed (narrowed upper parent.at_) none = false := rfl
      rw [open_]
      split
      · rename_i cross
        refine (List.flatMap_eq_nil_iff.mpr fun segment member => ?_).symm
        obtain ⟨bound, here, less⟩ := segments_bounded member
        obtain ⟨conversation, own⟩ := segment
        cases here
        rw [idsIn_crossed cross less, reverse_nil]
      · exact ih _ _

/-- The smaller one of two bounds. -/
def meet (max bound : Option Int) : Option Int :=
  match max with
  | none => bound
  | some max =>
    match bound with
    | none => some max
    | some bound => some (min max bound)

theorem within_meet (max bound : Option Int) (id : EntryId) :
    within (meet max bound) id = (within max id && within bound id) := by
  cases max with
  | none => rfl
  | some max =>
    cases bound with
    | none => exact (Bool.and_true _).symm
    | some bound =>
      simp only [meet, within, Option.all_some]
      rw [← Bool.decide_and, decide_eq_decide]
      exact Int.le_min

theorem narrowed_meet (max bound : Option Int) (at_ : EntryId) :
    some (narrowed (meet max bound) at_) = meet max (some (narrowed bound at_)) := by
  cases max with
  | none => rfl
  | some max =>
    cases bound with
    | none => rfl
    | some bound => exact congrArg some (Int.min_assoc _ _ _)

/-- **A walk between bounds yields the ids of the whole walk between them.** -/
theorem walk_filter (state : State) (min max : Option Int) (fuel : Nat) (current : ConversationId)
    (bound : Option Int) :
    state.walk min (state.segmentsLoop none fuel current (meet max bound)) =
      (state.walk none (state.segmentsLoop none fuel current bound)).filter fun id =>
        reaches min id && within max id := by
  induction fuel generalizing current bound with
  | zero => rfl
  | succ fuel ih =>
    rw [State.segmentsLoop, State.segmentsLoop, walk_cons, walk_cons, filter_append]
    have own : state.idsIn min (current, meet max bound) =
        (state.idsIn none (current, bound)).filter fun id => reaches min id && within max id := by
      rw [State.idsIn, State.idsIn, chosen, chosen, filter_filter]
      refine filter_congr fun id _ => ?_
      rw [within_meet, ← Bool.and_assoc]
      exact congrArg _ (Bool.true_and _).symm
    rw [own, ← filter_reverse]
    refine congrArg₂ List.append rfl ?_
    cases state.parentOf current with
    | none => rfl
    | some parent =>
      dsimp only
      rw [narrowed_meet]
      exact ih parent.conversationId (some (narrowed bound parent.at_))

section Reads

variable (indexed : EntriesIndexed state) {conversation : ConversationId}
  (known : Assoc.has conversation state.conversations = true)

include indexed known

theorem visibleEntries_eq (min max : Option Int) :
    state.visibleEntries conversation min max =
      .ok (state.entriesOf ((state.visibleIds conversation).filter fun id =>
        reaches min id && within max id)) := by
  have all := walk_filter state min max (state.conversations.length + 1) conversation none
  have same : meet max none = max := by cases max <;> rfl
  rw [same] at all
  rw [State.visibleEntries, if_pos known, visibleLoop_eq indexed, walk_uncut, all]
  rfl

theorem visibleEntriesAscending_eq (min max : Option Int) :
    state.visibleEntriesAscending conversation min max =
      .ok (state.entriesOf ((state.visibleIds conversation).filter fun id =>
        reaches min id && within max id)).reverse := by
  have all := walk_filter state min max (state.conversations.length + 1) conversation none
  have same : meet max none = max := by cases max <;> rfl
  rw [same] at all
  rw [State.visibleEntriesAscending, if_pos known, ascending_segments indexed, walk_uncut, all]
  rfl

end Reads

/-! ### Heads -/

/-- The heads of a conversation are those of its entries that select a context. -/
theorem headEntryIds_eq (indexed : EntriesIndexed state) (conversation : ConversationId) :
    idsOf state.headEntryIds conversation =
      (idsOf state.entryIds conversation).filter state.isHead := by
  refine ascending_ext (indexed.headsSorted _) ((indexed.sorted _).filter _) fun id => ?_
  rw [mem_filter, indexed.listed, indexed.headsListed]
  constructor
  · rintro ⟨entry, found, inside, head⟩
    refine ⟨⟨entry, found, inside⟩, ?_⟩
    rw [State.isHead, found]
    exact head
  · rintro ⟨⟨entry, found, inside⟩, head⟩
    rw [State.isHead, found] at head
    exact ⟨entry, found, inside, head⟩

theorem upperIndex_le {ids : List Nat} (sorted : ids.Pairwise (· < ·)) (upper : Option Int) :
    upperIndex ids upper ≤ ids.length := by
  cases upper with
  | none => exact Nat.le_refl _
  | some upper =>
    rw [upperIndex]
    split
    · exact Nat.zero_le _
    · exact (lowerBound_spec (Ascending.of_pairwise sorted) _).1

theorem headLoop_eq (indexed : EntriesIndexed state) (fuel : Nat) (current : ConversationId)
    (upper : Option Int) :
    state.headLoop fuel current upper =
      ((state.walk none (state.segmentsLoop none fuel current upper)).filter state.isHead).head?.bind
        fun id => Assoc.get id state.entries := by
  induction fuel generalizing current upper with
  | zero => rfl
  | succ fuel ih =>
    have sorted := indexed.headsSorted current
    have segment : (state.idsIn none (current, upper)).filter state.isHead =
        (idsOf state.headEntryIds current).filter (within upper) := by
      rw [headEntryIds_eq indexed, State.idsIn, chosen, filter_filter, filter_filter]
      refine filter_congr fun id _ => ?_
      exact (Bool.and_comm _ _).trans (congrArg (· && _) (Bool.true_and _))
    rw [State.headLoop, State.segmentsLoop, walk_cons, filter_append, filter_reverse, segment, ← take_upperIndex sorted]
    have bound := upperIndex_le sorted upper
    dsimp only
    split
    · rename_i index here
      -- The last id that is not above the bound.
      have inside : index < (idsOf state.headEntryIds current).length := by omega
      have last : ((idsOf state.headEntryIds current).take (index + 1)).reverse.head? =
          some (idsOf state.headEntryIds current)[index] := by
        rw [List.head?_reverse, List.getLast?_take, if_neg (Nat.succ_ne_zero index),
          Nat.add_sub_cancel, List.getElem?_eq_getElem inside, Option.some_or]
      rw [here, List.head?_append, last, List.getElem?_eq_getElem inside]
      rfl
    · rename_i here
      rw [here, take_zero, reverse_nil, nil_append]
      cases state.parentOf current with
      | none => rfl
      | some parent => exact ih _ _

variable {conversation : ConversationId}

theorem findLatestHeadMarker_eq (indexed : EntriesIndexed state)
    (known : Assoc.has conversation state.conversations = true) (atOrBefore : Option EntryId) :
    state.findLatestHeadMarker conversation atOrBefore =
      .ok (((state.visibleIds conversation).filter fun id =>
        within (boundOf atOrBefore) id && state.isHead id).head?.bind
          fun id => Assoc.get id state.entries) := by
  rw [State.findLatestHeadMarker, if_pos known, headLoop_eq indexed]
  generalize boundOf atOrBefore = max
  have all := walk_filter state none max (state.conversations.length + 1) conversation none
  have same : meet max none = max := by cases max <;> rfl
  have chosen : (state.visibleIds conversation).filter (fun id => within max id && state.isHead id) =
      ((state.visibleIds conversation).filter fun id => reaches none id && within max id).filter
        state.isHead := by
    rw [filter_filter]
    refine filter_congr fun id _ => ?_
    exact (Bool.and_comm _ _).trans (congrArg (_ && ·) (Bool.true_and _).symm)
  rw [same] at all
  rw [chosen, State.visibleIds, ← all]

/-! ### Forests -/

/-- The entries of a conversation lie on the chain of another one, visible up to a bound. -/
inductive OnChain (state : State) : ConversationId → Option Int → ConversationId → Option Int → Prop
  | here (conversation : ConversationId) (bound : Option Int) :
    OnChain state conversation bound conversation bound
  | up {conversation ancestor : ConversationId} {bound last : Option Int} {parent : Parent}
      (fork : state.parentOf conversation = some parent)
      (chain : OnChain state parent.conversationId (some (narrowed bound parent.at_)) ancestor last) :
    OnChain state conversation bound ancestor last

/-- **An entry is visible in a conversation**: it lies in a conversation of the chain, and no fork point on
the way there is below it. -/
def Visible (state : State) (conversation : ConversationId) (entry : EntryRecord) : Prop :=
  Assoc.get entry.id state.entries = some entry ∧
    ∃ bound, OnChain state conversation none entry.conversationId bound ∧ within bound entry.id = true

/-- A conversation was forked from another one. -/
def IsParent (state : State) (source fork : ConversationId) : Prop :=
  ∃ parent, state.parentOf fork = some parent ∧ parent.conversationId = source

/-- No conversation is a fork of its own forks. -/
def Forest (state : State) : Prop := WellFounded (IsParent state)

/-- The conversations of a chain. -/
inductive Path (state : State) : ConversationId → List ConversationId → Prop
  | last {conversation : ConversationId} (none_ : state.parentOf conversation = none) :
    Path state conversation [conversation]
  | step {conversation : ConversationId} {parent : Parent} {rest : List ConversationId}
      (fork : state.parentOf conversation = some parent)
      (path : Path state parent.conversationId rest) : Path state conversation (conversation :: rest)

theorem exists_path (forest : Forest state) (conversation : ConversationId) :
    ∃ path, Path state conversation path := by
  induction conversation using forest.induction with
  | _ conversation ih =>
    cases parent : state.parentOf conversation with
    | none => exact ⟨_, .last parent⟩
    | some source =>
      obtain ⟨path, rest⟩ := ih source.conversationId ⟨source, parent, rfl⟩
      exact ⟨_, .step parent rest⟩

variable {path : List ConversationId}

theorem Path.ancestors (chain : Path state conversation path) :
    ∃ rest, path = conversation :: rest ∧
      ∀ ancestor ∈ rest, Relation.TransGen (IsParent state) ancestor conversation := by
  induction chain with
  | last _ => exact ⟨[], rfl, fun _ member => absurd member not_mem_nil⟩
  | @step conversation parent rest fork _ ih =>
    obtain ⟨tail, rfl, older⟩ := ih
    refine ⟨_, rfl, fun ancestor member => ?_⟩
    have edge : IsParent state parent.conversationId conversation := ⟨parent, fork, rfl⟩
    rcases List.mem_cons.mp member with rfl | later
    · exact .single edge
    · exact (older ancestor later).tail edge

theorem Path.nodup (forest : Forest state) (chain : Path state conversation path) : path.Nodup := by
  induction chain with
  | last _ => exact nodup_singleton _
  | @step conversation parent rest fork tail ih =>
    obtain ⟨older, _, ancestors⟩ := (Path.step fork tail).ancestors
    refine List.nodup_cons.mpr ⟨fun member => ?_, ih⟩
    have cycle := ancestors conversation ((List.cons.inj ‹_›).2 ▸ member)
    exact forest.transGen.irrefl.irrefl _ cycle

/-- All but the last conversation of a chain are stored. -/
theorem Path.stored (chain : Path state conversation path) :
    ∃ front last, path = front ++ [last] ∧ ∀ c ∈ front, c ∈ Assoc.keys state.conversations := by
  induction chain with
  | last _ => exact ⟨[], _, rfl, fun _ member => absurd member not_mem_nil⟩
  | @step conversation parent rest fork _ ih =>
    obtain ⟨front, last, rfl, stored⟩ := ih
    refine ⟨conversation :: front, last, rfl, fun c member => ?_⟩
    rcases List.mem_cons.mp member with rfl | later
    · obtain ⟨record, found, _⟩ := Option.bind_eq_some_iff.mp fork
      rw [← Assoc.has_iff, Assoc.has, found]
      rfl
    · exact stored c later

/-- A chain has no more conversations than there are, and one that is missing. -/
theorem Path.length_le (forest : Forest state) (chain : Path state conversation path) :
    path.length ≤ state.conversations.length + 1 := by
  have nodup := chain.nodup forest
  obtain ⟨front, last, rfl, stored⟩ := chain.stored
  have inside := (subperm_of_subset (List.nodup_append.mp nodup).1 stored).length_le
  rw [length_map] at inside
  rw [length_append, length_singleton]
  omega

theorem Path.segments (chain : Path state conversation path) {fuel : Nat}
    (enough : path.length ≤ fuel) (bound : Option Int) :
    (state.segmentsLoop none fuel conversation bound).map Prod.fst = path ∧
      ∀ segment, segment ∈ state.segmentsLoop none fuel conversation bound ↔
        OnChain state conversation bound segment.1 segment.2 := by
  induction chain generalizing fuel bound with
  | @last conversation none_ =>
    obtain ⟨fuel, rfl⟩ := Nat.exists_eq_succ_of_ne_zero (Nat.ne_of_gt enough)
    rw [State.segmentsLoop, none_]
    refine ⟨rfl, fun segment => ?_⟩
    rw [mem_singleton]
    constructor
    · rintro rfl
      exact .here conversation bound
    · intro member
      obtain ⟨ancestor, last⟩ := segment
      cases member with
      | here => rfl
      | up fork _ => rw [none_] at fork; cases fork
  | @step conversation parent rest fork _ ih =>
    obtain ⟨fuel, rfl⟩ := Nat.exists_eq_succ_of_ne_zero (Nat.ne_of_gt (Nat.zero_lt_of_lt enough))
    obtain ⟨names, members⟩ := ih (Nat.le_of_succ_le_succ enough) (some (narrowed bound parent.at_))
    have shape : state.segmentsLoop none (fuel + 1) conversation bound = (conversation, bound) ::
        state.segmentsLoop none fuel parent.conversationId (some (narrowed bound parent.at_)) := by
      rw [State.segmentsLoop, fork]
      rfl
    rw [Nat.succ_eq_add_one, shape]
    refine ⟨by rw [map_cons, names], fun segment => ?_⟩
    rw [mem_cons, members]
    constructor
    · rintro (rfl | older)
      · exact .here conversation bound
      · exact .up fork older
    · intro member
      obtain ⟨ancestor, last⟩ := segment
      cases member with
      | here => exact .inl rfl
      | up other older =>
        rw [fork] at other
        cases other
        exact .inr older

section Visible

variable (indexed : EntriesIndexed state) (forest : Forest state) (conversation : ConversationId)

include indexed

/-- A segment lists the ids of its conversation's entries that are not above its bound. -/
theorem mem_idsIn {segment : ConversationId × Option Int} {id : EntryId} :
    id ∈ state.idsIn none segment ↔
      (∃ entry, Assoc.get id state.entries = some entry ∧ entry.conversationId = segment.1) ∧
        within segment.2 id = true := by
  rw [State.idsIn, chosen, mem_filter, indexed.listed]
  exact and_congr_right fun _ => by rw [Bool.and_eq_true]; exact and_iff_right rfl

include forest

/-- **The whole walk yields exactly the visible entries.** -/
theorem mem_visibleIds {id : EntryId} :
    id ∈ state.visibleIds conversation ↔
      ∃ entry, Assoc.get id state.entries = some entry ∧ Visible state conversation entry := by
  obtain ⟨path, chain⟩ := exists_path forest conversation
  have members := (chain.segments (chain.length_le forest) none).2
  rw [State.visibleIds, State.walk, mem_flatMap]
  constructor
  · rintro ⟨segment, member, inside⟩
    rw [mem_reverse, mem_idsIn indexed] at inside
    obtain ⟨⟨entry, found, own⟩, low⟩ := inside
    have named := (indexed.stored id entry found).1
    refine ⟨entry, found, ?_, segment.2, ?_, ?_⟩
    · rw [named]
      exact found
    · rw [own]
      exact (members segment).mp member
    · rw [named]
      exact low
  · rintro ⟨entry, found, _, bound, onChain, low⟩
    have named := (indexed.stored id entry found).1
    refine ⟨(entry.conversationId, bound), (members _).mpr onChain, ?_⟩
    rw [mem_reverse, mem_idsIn indexed]
    exact ⟨⟨entry, found, rfl⟩, named ▸ low⟩

/-- **The whole walk yields each entry once.** -/
theorem visibleIds_nodup : (state.visibleIds conversation).Nodup := by
  obtain ⟨path, chain⟩ := exists_path forest conversation
  have names := (chain.segments (chain.length_le forest) none).1
  have distinct := chain.nodup forest
  rw [← names] at distinct
  refine List.nodup_flatMap.mpr ⟨fun segment _ => ?_, ?_⟩
  · refine List.nodup_reverse.mpr (List.Pairwise.filter _ ?_)
    exact (indexed.sorted segment.1).imp fun less => Nat.ne_of_lt less
  · refine (List.pairwise_map.mp distinct).imp fun {first second} apart id inside other => ?_
    rw [mem_reverse, mem_idsIn indexed] at inside other
    obtain ⟨⟨entry, found, own⟩, _⟩ := inside
    obtain ⟨⟨entry', found', own'⟩, _⟩ := other
    rw [found] at found'
    rw [← Option.some.inj found'] at own'
    exact apart (own.symm.trans own')

end Visible

end TianGong.Storage
