/-
**Where a compaction cuts.**

`compaction.ts`: a summary takes the place of the entries before a cut; its `head` is the first
  entry
that is kept. Of a message's size only the sum matters, so the estimate of a message is a parameter.

* `candidate_apart`: no call before a candidate has its result behind it.
* `selectCut_keeps`: the context behind the summary is what the cut has kept.
-/

import Mathlib.Algebra.Order.Ring.Unbundled.Rat
import TianGong.Gibraltar.ToolResults

namespace TianGong.Gibraltar

open List Option Bool

/-! ### The cut -/

/-- `findLast` of an assistant message. -/
def lastAssistant (messages : List Sent) : Option Sent := messages.reverse.find? Sent.isAssistant

/-- The identifiers of a message's calls. -/
def callIds (m : Sent) : List Text :=
  match m.message with
  | .assistant content _ _ => (toolCalls content).map ToolCall.id
  | _ => []

/-- The calls of the newest assistant message before an entry. -/
def callsBefore (contributions : List (List Sent)) (index : Nat) : List Text :=
  ((contributions.take index).reverse.findSome? lastAssistant).elim [] callIds

/-- Whether no result of the calls comes before the next assistant message. -/
def noResultOf (calls : List Text) : List Sent → Bool
  | [] => true
  | m :: later =>
    if m.isAssistant then true
    else if calls.any fun id => answers ⟨id, []⟩ m then false
    else noResultOf calls later

def isCandidate (contributions : List (List Sent)) (index : Nat) : Bool :=
  match contributions[index]?.bind List.head? with
  | none => false
  | some first =>
    if first.isAssistant then true
    else if !first.isUser then false
    else if (callsBefore contributions index).isEmpty then true
    -- The entry's first message is a user's, so neither test concerns it.
    else noResultOf (callsBefore contributions index) (contributions.drop index).flatten

/-- The entries from `start` on that can be cut at. -/
def candidates (start : Nat) (contributions : List (List Sent)) : List Nat :=
  (List.range' start (contributions.length - start)).filter (isCandidate contributions)

section Select

variable (estimateMessageTokens : Sent → Nat) (keepRecentTokens : ℚ)

/-- The walk back from the tail, until enough is kept: the entry below `index` is next. -/
def keptFrom (start : Nat) (contributions : List (List Sent)) : Nat → Nat → Option Nat
  | 0, _ => none
  | index + 1, kept =>
    if index < start then none
    else
      let kept := kept + ((contributions[index]?.getD []).map estimateMessageTokens).sum
      if (kept : ℚ) < keepRecentTokens then keptFrom start contributions index kept else some index

/-- Where a view starts behind its marker. -/
def ContextView.start (view : ContextView) : Nat := if view.head.isNone then 0 else 1

def selectCut (view : ContextView) : Option Nat :=
  let start := view.start
  let candidates := candidates start view.contributions
  let cut := (keptFrom estimateMessageTokens keepRecentTokens start view.contributions
    view.contributions.length 0).bind fun index =>
      (candidates.find? fun candidate => decide (index ≤ candidate)).or candidates.getLast?
  cut.bind fun cut =>
    if (List.range' start (cut - start)).any fun index =>
        !(view.contributions[index]?.getD []).isEmpty then some cut
    else none

def summarizedMessages (view : ContextView) (cut : Nat) : List Sent :=
  orderToolResults (view.contributions.take cut).flatten

variable {estimateMessageTokens keepRecentTokens} {view : ContextView} {cut : Nat}

/-- **What a cut is**: an entry behind the marker that can be cut at, with a contribution before it. -/
theorem selectCut_some (selected : selectCut estimateMessageTokens keepRecentTokens view = some cut)
    :
    view.start ≤ cut ∧ isCandidate view.contributions cut = true ∧
      ∃ index messages, view.start ≤ index ∧ index < cut ∧
        view.contributions[index]? = some messages ∧ messages ≠ [] := by
  obtain ⟨chosen, found, there⟩ := Option.bind_eq_some_iff.mp selected
  obtain ⟨from_, -, choice⟩ := Option.bind_eq_some_iff.mp found
  split_ifs at there with contributes
  obtain rfl := Option.some.inj there
  have member : chosen ∈ candidates view.start view.contributions := by
    rcases Option.or_eq_some_iff.mp choice with first | ⟨-, last⟩
    · exact List.mem_of_find?_eq_some first
    · exact mem_of_getLast? last
  obtain ⟨inside, candidate⟩ := mem_filter.mp member
  obtain ⟨index, range, nonempty⟩ := List.any_eq_true.mp contributes
  refine ⟨(List.mem_range'_1.mp inside).1, candidate, index, ?_⟩
  obtain ⟨low, high⟩ := List.mem_range'_1.mp range
  rcases messages : view.contributions[index]? with _ | messages
  · rw [messages] at nonempty
    cases nonempty
  · rw [messages] at nonempty
    refine ⟨_, low, by omega, rfl, ?_⟩
    rintro rfl
    cases nonempty

end Select

/-! ### Candidates -/

theorem findSome_lastAssistant (contributions : List (List Sent)) :
    contributions.reverse.findSome? lastAssistant = lastAssistant contributions.flatten := by
  unfold lastAssistant
  rw [reverse_flatten, List.find?_flatten, ← map_reverse, List.findSome?_map]
  rfl

/-- The newest assistant message is the one with none behind it. -/
theorem lastAssistant_append (before : List Sent) {m : Sent} {later : List Sent}
    (assistant : m.isAssistant = true) (none : ∀ r ∈ later, r.isAssistant = false) :
    lastAssistant (before ++ m :: later) = some m := by
  unfold lastAssistant
  rw [reverse_append, reverse_cons, append_assoc, List.find?_append,
    List.find?_eq_none.mpr fun r member => by simp [none r (List.mem_reverse.mp member)],
    none_or, cons_append, nil_append, List.find?_cons_of_pos assistant]

theorem answers_of_id (call : ToolCall) : answers ⟨call.id, []⟩ = answers call := answers_congr rfl

theorem noResultOf_unanswered {calls : List Text} {more : List Sent}
    (none : noResultOf calls more = true) {call : ToolCall} (member : call.id ∈ calls) :
    Unanswered more call := by
  induction more with
  | nil => exact fun m inside => absurd inside not_mem_nil
  | cons first later ih =>
    rw [noResultOf] at none
    unfold Unanswered untilAssistant
    split_ifs at none with assistant answered
    · rw [takeWhile_cons_of_neg (by simp [assistant])]
      exact fun m inside => absurd inside not_mem_nil
    · rw [takeWhile_cons_of_pos (by simp [assistant])]
      intro m inside
      rcases List.mem_cons.mp inside with rfl | rest
      · rw [← answers_of_id]
        simpa using fun yes => answered (List.any_eq_true.mpr ⟨_, member, yes⟩)
      · exact ih none m rest

theorem callIds_assistant {m : Sent} {content : List Content} {stopReason : StopReason}
    {timestamp : JsNumber} (same : m.message = .assistant content stopReason timestamp) :
    callIds m = (toolCalls content).map ToolCall.id := by
  unfold callIds
  rw [same]

/-- **No call before a candidate has its result behind it.** -/
theorem candidate_apart {contributions : List (List Sent)} {cut : Nat}
    (candidate : isCandidate contributions cut = true) :
    Apart (contributions.take cut).flatten (contributions.drop cut).flatten := by
  intro before m later content stopReason timestamp split same none call member
  have assistant : m.isAssistant = true := by
    unfold Sent.isAssistant
    rw [same]
    rfl
  have calls : callsBefore contributions cut = (toolCalls content).map ToolCall.id := by
    unfold callsBefore
    rw [findSome_lastAssistant, split, lastAssistant_append before assistant none,
      elim_some, callIds_assistant same]
  unfold isCandidate at candidate
  split at candidate
  · cases candidate
  · rename_i first found
    obtain ⟨messages, there, head⟩ := Option.bind_eq_some_iff.mp found
    obtain ⟨bound, at_⟩ := List.getElem?_eq_some_iff.mp there
    obtain ⟨rest, rfl⟩ : ∃ rest, messages = first :: rest := by
      cases messages with
      | nil => cases head
      | cons other rest => exact ⟨rest, by rw [Option.some.inj head]⟩
    split_ifs at candidate with assistant user empty
    · -- The next assistant message comes first.
      unfold Unanswered untilAssistant
      rw [drop_eq_getElem_cons bound, at_, flatten_cons, cons_append,
        takeWhile_cons_of_neg (by simp [assistant])]
      exact fun r inside => absurd inside not_mem_nil
    · rw [calls] at empty
      rw [List.map_eq_nil_iff.mp (List.isEmpty_iff.mp empty)] at member
      exact absurd member not_mem_nil
    · exact noResultOf_unanswered candidate (calls ▸ List.mem_map_of_mem member)

/-! ### Edits -/

/-- Whether an entry edits another. -/
def EntryRecord.Edits (e : EntryRecord) (target : EntryId) : Prop :=
  ∃ edit ∈ e.edits.getD [], edit.target = target

variable {e : EntryRecord}

theorem foundEdits_target {found : EntryId × FoundEdit} (member : found ∈ e.foundEdits) :
    e.Edits found.1 := by
  obtain ⟨index, bound, rfl⟩ := List.mem_mapIdx.mp member
  exact ⟨_, getElem_mem bound, rfl⟩

/-- The last of several writes is read. -/
theorem get_foldl_set {K V : Type} [DecidableEq K] (key : K) (writes : List (K × V)) :
    ∀ entries : List (K × V),
      Assoc.get key (writes.foldl (fun entries w => Assoc.set w.1 w.2 entries) entries) =
        ((writes.reverse.find? fun w => decide (w.1 = key)).map Prod.snd).or
          (Assoc.get key entries) := by
  induction writes with
  | nil =>
    intro entries
    rfl
  | cons w rest ih =>
    intro entries
    rw [foldl_cons, ih, Assoc.get_set, reverse_cons, List.find?_append]
    cases rest.reverse.find? fun w => decide (w.1 = key) with
    | some found => rfl
    | none =>
      by_cases same : w.1 = key
      · simp [same]
      · simp [same]

/-- **The newest edit of an entry.** -/
theorem get_editsOf (target : EntryId) (entries : List EntryRecord) :
    Assoc.get target (editsOf entries) =
      ((entries.flatMap EntryRecord.foundEdits).reverse.find? fun e =>
        decide (e.1 = target)).map Prod.snd := by
  unfold editsOf
  rw [get_foldl_set]
  exact or_none

theorem find_foundEdits_none {target : EntryId} {entries : List EntryRecord}
    (none : ∀ e ∈ entries, ¬e.Edits target) :
    (entries.flatMap EntryRecord.foundEdits).reverse.find? (fun e => decide (e.1 = target)) =
      Option.none := by
  refine List.find?_eq_none.mpr fun found member same => ?_
  obtain ⟨e, there, inside⟩ := List.mem_flatMap.mp (List.mem_reverse.mp member)
  have edits := foundEdits_target inside
  rw [of_decide_eq_true same] at edits
  exact none e there edits

/-- Entries that do not edit another do not count for it, before the others or behind them. -/
theorem get_editsOf_append (target : EntryId) {first more : List EntryRecord} :
    ((∀ e ∈ first, ¬e.Edits target) →
      Assoc.get target (editsOf (first ++ more)) = Assoc.get target (editsOf more)) ∧
    ((∀ e ∈ more, ¬e.Edits target) →
      Assoc.get target (editsOf (first ++ more)) = Assoc.get target (editsOf first)) := by
  rw [get_editsOf, get_editsOf, get_editsOf, flatMap_append, reverse_append,
    List.find?_append]
  refine ⟨fun none => ?_, fun none => ?_⟩
  · rw [find_foundEdits_none none, or_none]
  · rw [find_foundEdits_none none, none_or]

/-! ### Sorted entries -/

/-- Behind an entry of a sorted list are those of larger identifiers. -/
theorem drop_eq_filter {entries : List EntryRecord} (ascending : Ascending entries) {index : Nat}
    {kept : EntryRecord} (there : entries[index]? = some kept) :
    entries.drop index = entries.filter fun e => decide (kept.id ≤ e.id) := by
  obtain ⟨bound, at_⟩ := List.getElem?_eq_some_iff.mp there
  have split : entries = entries.take index ++ kept :: entries.drop (index + 1) := by
    rw [← at_, ← drop_eq_getElem_cons bound, take_append_drop]
  rw [split] at ascending
  obtain ⟨-, behind, before⟩ := List.pairwise_append.mp ascending
  obtain ⟨above, -⟩ := List.pairwise_cons.mp behind
  have first : (entries.take index).filter (fun e => decide (kept.id ≤ e.id)) = [] := by
    refine List.filter_eq_nil_iff.mpr fun e member => ?_
    simpa using before e member kept mem_cons_self
  have rest : (entries.drop (index + 1)).filter (fun e => decide (kept.id ≤ e.id)) =
      entries.drop (index + 1) :=
    List.filter_eq_self.mpr fun e member => decide_eq_true (Nat.le_of_lt (above e member))
  conv_rhs => rw [split]
  rw [filter_append, first, filter_cons_of_pos (by simp), rest, nil_append,
    drop_eq_getElem_cons bound, at_]

namespace History

variable {h : History}

/-- The visible entries up to the next one. -/
theorem filter_next {p : EntryRecord → Bool} {previous : EntryId} (visible : e ∈ h.visible)
    (after : previous < e.id) (next : ∀ f ∈ h.visible, f.id < e.id → f.id ≤ previous)
    (holds : p e = true) :
    (h.visible.filter fun f => p f && decide (f.id ≤ e.id)) =
      (h.visible.filter fun f => p f && decide (f.id ≤ previous)) ++ [e] := by
  rw [filter_split h.ascending _ previous]
  congr 1
  · refine filter_congr fun f member => ?_
    rw [Bool.eq_iff_iff]
    simp only [and_eq_true, decide_eq_true_eq]
    constructor
    · rintro ⟨⟨inside, -⟩, low⟩
      exact ⟨inside, low⟩
    · rintro ⟨inside, low⟩
      exact ⟨⟨inside, Nat.le_trans low (Nat.le_of_lt after)⟩, low⟩
  · have only : ∀ f ∈ h.visible, ((p f && decide (f.id ≤ e.id)) && decide (previous + 1 ≤ f.id)) =
        decide (f.id = e.id) := by
      intro f member
      rw [Bool.eq_iff_iff]
      simp only [and_eq_true, decide_eq_true_eq]
      constructor
      · rintro ⟨⟨-, low⟩, high⟩
        refine Nat.le_antisymm low (Nat.not_lt.mp fun below => ?_)
        exact Nat.not_lt.mpr (next f member below) high
      · intro same
        obtain rfl := h.eq_of_id member visible same
        exact ⟨⟨holds, Nat.le_refl _⟩, after⟩
    rw [filter_congr only]
    obtain ⟨before, behind, split⟩ := append_of_mem visible
    have sorted := h.ascending
    rw [split] at sorted ⊢
    obtain ⟨-, later, earlier⟩ := List.pairwise_append.mp sorted
    obtain ⟨above, -⟩ := List.pairwise_cons.mp later
    rw [filter_append, List.filter_eq_nil_iff.mpr fun f member => by
        simpa using Nat.ne_of_lt (earlier f member e mem_cons_self),
      filter_cons_of_pos (by simp), List.filter_eq_nil_iff.mpr fun f member => by
        simpa using Nat.ne_of_gt (above f member), nil_append]

/-- The visible entry right before another. -/
theorem exists_previous {f : EntryRecord} (visible : e ∈ h.visible) (there : f ∈ h.visible)
    (before : e.id < f.id) : ∃ previous ∈ h.visible, previous.id < f.id ∧ e.id ≤ previous.id ∧
      ∀ other ∈ h.visible, other.id < f.id → other.id ≤ previous.id := by
  obtain ⟨first, behind, split⟩ := append_of_mem there
  have sorted := h.ascending
  rw [split] at sorted
  obtain ⟨own, later, earlier⟩ := List.pairwise_append.mp sorted
  obtain ⟨above, -⟩ := List.pairwise_cons.mp later
  have inside : ∀ other ∈ h.visible, other.id < f.id → other ∈ first := by
    intro other member below
    rw [split] at member
    rcases List.mem_append.mp member with old | new
    · exact old
    · rcases List.mem_cons.mp new with rfl | new
      · exact absurd below (Nat.lt_irrefl _)
      · exact absurd below (Nat.lt_asymm (above other new))
  rcases eq_nil_or_concat first with rfl | ⟨init, previous, rfl⟩
  · exact absurd (inside e visible before) not_mem_nil
  · have largest : ∀ other ∈ h.visible, other.id < f.id → other.id ≤ previous.id := by
      intro other member below
      rcases List.mem_append.mp (concat_eq_append ▸ inside other member below) with old | new
      · rw [concat_eq_append] at own
        exact Nat.le_of_lt ((List.pairwise_append.mp own).2.2 other old previous
          (mem_singleton_self _))
      · rw [List.mem_singleton.mp new]
    have last : previous ∈ init.concat previous := by
      rw [concat_eq_append]
      exact mem_append_right _ (mem_singleton_self _)
    exact ⟨previous, split ▸ mem_append_left _ last,
      earlier previous last f mem_cons_self, largest e visible before, largest⟩

end History

/-! ### Markers and reads -/

theorem newestMarker_eq (upper : EntryId) (entries : List EntryRecord) :
    newestMarker (some upper) entries =
      ((entries.filter fun e => true && decide (e.id ≤ upper)).filterMap
        EntryRecord.marker).getLast? :=
  rfl

variable {h : History}

/-- Entries without a head do not change the newest marker. -/
theorem newestMarker_between {tail upper : EntryId} (longer : tail ≤ upper)
    (plain : ∀ e ∈ h.visible, tail < e.id → e.id ≤ upper → e.head = none) :
    newestMarker (some upper) h.visible = newestMarker (some tail) h.visible := by
  rw [newestMarker_eq, newestMarker_eq, filter_split h.ascending _ tail, filterMap_append]
  have none : (h.visible.filter fun e => (true && decide (e.id ≤ upper)) &&
      decide (tail + 1 ≤ e.id)).filterMap EntryRecord.marker = [] := by
    refine List.filterMap_eq_nil_iff.mpr fun e member => ?_
    obtain ⟨visible, inside⟩ := List.mem_filter.mp member
    simp only [and_eq_true, decide_eq_true_eq, Bool.true_and] at inside
    have unmarked := marker_isSome e
    rw [plain e visible inside.2 inside.1] at unmarked
    simpa using unmarked
  rw [none, append_nil]
  congr 2
  refine filter_congr fun e _ => ?_
  rw [Bool.eq_iff_iff]
  simp only [and_eq_true, decide_eq_true_eq, Bool.true_and]
  exact ⟨fun inside => inside.2, fun low => ⟨Nat.le_trans low longer, low⟩⟩

/-- An entry that carries a head is the newest marker at itself. -/
theorem newestMarker_self {previous : EntryId} (marker : HeadMarker)
    (visible : marker.entry ∈ h.visible) (after : previous < marker.entry.id)
    (next : ∀ e ∈ h.visible, e.id < marker.entry.id → e.id ≤ previous) :
    newestMarker (some marker.entry.id) h.visible = some marker := by
  have found : marker.entry.marker = some marker := by
    unfold EntryRecord.marker
    split
    · rename_i head marks
      obtain ⟨entry, head', marks'⟩ := marker
      obtain rfl := Option.some.inj (marks.symm.trans marks')
      rfl
    · rename_i none
      rw [marker.marks] at none
      cases none
  rw [newestMarker_eq, History.filter_next visible after next rfl, filterMap_append,
    filterMap_cons_some found, filterMap_nil, List.getLast?_concat]

/-- A read at a visible entry. -/
theorem readContext_at (visible : e ∈ h.visible) :
    readContext h (some e.id) =
      .ok (deriveRange ⟨newestMarker (some e.id) h.visible, e.id⟩
        (scanBounds h ⟨newestMarker (some e.id) h.visible, e.id⟩)).view := by
  obtain ⟨found, there⟩ := Option.isSome_iff_exists.mp ((h.entry_isSome e.id).mpr ⟨e, visible, rfl⟩)
  unfold readContext captureContextBounds
  dsimp only
  rw [there, findLatestHeadMarker_eq]
  rfl

/-- The entries of a view: the marker, and those without a head. -/
theorem selectActive_eq {head : Option HeadMarker} {range : List EntryRecord}
    (plain : head = none → ∀ e ∈ range, e.head = none) :
    selectActive head range = (head.map HeadMarker.entry).toList ++
      range.filter fun e => e.head.isNone := by
  cases head with
  | none =>
    rw [List.filter_eq_self.mpr fun e member => by rw [plain rfl e member]; rfl]
    rfl
  | some marker => rfl

/-! ### The context behind a summary -/

def COMPACTION_ENTRY : Text := text "tg.compaction"

/-- The entry that `placeSummary` appends. -/
def summaryEntry (id firstKept : EntryId) (content : Json Unit) : EntryRecord where
  id := id
  kind := COMPACTION_ENTRY
  model := some [.user content]
  head := some firstKept
  edits := none

/-- The entries of a context that carry no head. -/
def plainRange (h : History) (lower : Option EntryId) (upper : EntryId) : List EntryRecord :=
  (h.visible.filter fun e => within lower (some upper) e.id).filter fun e => e.head.isNone

/-- The marker that a view starts with. -/
def leading (head : Option HeadMarker) : List EntryRecord := (head.map HeadMarker.entry).toList

/-- The entries of a view. -/
theorem derived_entries {bounds : ContextBounds} (captured : Captured h bounds) :
    (deriveRange bounds (scanBounds h bounds)).view.entries = leading bounds.head ++
      plainRange h (bounds.head.map HeadMarker.head) bounds.tail := by
  have entries : (deriveRange bounds (scanBounds h bounds)).view.entries =
      selectActive bounds.head (scanBounds h bounds) := rfl
  rw [entries, selectActive_eq, scanBounds_eq]
  · rfl
  · intro none e member
    rw [scanBounds_eq] at member
    obtain ⟨visible, inside⟩ := mem_filter.mp member
    simp only [within, and_eq_true, all_some, decide_eq_true_eq] at inside
    refine head_none_of_newest visible inside.2 fun marker found => ?_
    rw [← captured.head, none] at found
    cases found

/-- No entry up to a tail edits the tail. -/
theorem not_edited (earlier : ∀ e ∈ h.visible, ∀ target, e.Edits target → target < e.id)
    (lower : Option EntryId) (tail : EntryId) :
    Assoc.get tail (editsOf (h.visible.filter fun f => within lower (some tail) f.id)) = none := by
  rw [get_editsOf, find_foundEdits_none]
  · rfl
  · intro e member edits
    obtain ⟨visible, inside⟩ := mem_filter.mp member
    simp only [within, and_eq_true, all_some, decide_eq_true_eq] at inside
    exact Nat.not_lt.mpr inside.2 (earlier e visible tail edits)

/-- **A summary behind a cut**: the entries up to `previous` lie before it, those behind the tail of
the cut context without a head. -/
structure Summarized (h : History) (bounds : ContextBounds) (kept previous : EntryRecord)
    (id : EntryId) (content : Json Unit) : Prop where
  captured : Captured h bounds
  listed : kept ∈ plainRange h (bounds.head.map HeadMarker.head) bounds.tail
  appended : summaryEntry id kept.id content ∈ h.visible
  visible : previous ∈ h.visible
  before : previous.id < id
  later : bounds.tail ≤ previous.id
  next : ∀ e ∈ h.visible, e.id < id → e.id ≤ previous.id
  plain : ∀ e ∈ h.visible, bounds.tail < e.id → e.id < id → e.head = none

namespace Summarized

variable {h : History} {bounds : ContextBounds} {kept previous : EntryRecord} {id : EntryId}
  {content : Json Unit}

theorem kept_spec (summarized : Summarized h bounds kept previous id content) :
    kept ∈ h.visible ∧ kept.id ≤ bounds.tail ∧ kept.head = none ∧
      ∀ lower, bounds.head.map HeadMarker.head = some lower → lower ≤ kept.id := by
  obtain ⟨inside, plain⟩ := mem_filter.mp summarized.listed
  obtain ⟨visible, bound⟩ := mem_filter.mp inside
  simp only [within, and_eq_true, all_some, decide_eq_true_eq] at bound
  refine ⟨visible, bound.2, by simpa using plain, fun lower found => ?_⟩
  rw [found] at bound
  simpa using bound.1

/-- What is within the bounds of the cut, from the first kept entry on. -/
theorem within_of_le (summarized : Summarized h bounds kept previous id content) {upper : EntryId}
    {e : EntryId} (from_ : kept.id ≤ e) :
    within (bounds.head.map HeadMarker.head) (some upper) e = decide (e ≤ upper) := by
  obtain ⟨-, -, -, low⟩ := summarized.kept_spec
  cases lower : bounds.head.map HeadMarker.head with
  | none => rfl
  | some l =>
    have below := Nat.le_trans (low l lower) from_
    simp [within, below]

/-- The marker of the context right before the summary is that of the cut. -/
theorem marker_previous (summarized : Summarized h bounds kept previous id content) :
    newestMarker (some previous.id) h.visible = bounds.head := by
  rw [summarized.captured.head]
  exact newestMarker_between summarized.later fun e visible after upto =>
    summarized.plain e visible after (Nat.lt_of_le_of_lt upto summarized.before)

/-- The entries that were appended in between. -/
def between (h : History) (tail upper : EntryId) : List EntryRecord :=
  h.visible.filter fun e => decide (tail < e.id) && decide (e.id ≤ upper)

section Summarized

variable (summarized : Summarized h bounds kept previous id content)
include summarized

/-- The scanned entries of the context right before the summary. -/
theorem scan_previous :
    (h.visible.filter fun e =>
        within (bounds.head.map HeadMarker.head) (some previous.id) e.id) =
      (h.visible.filter fun e =>
        within (bounds.head.map HeadMarker.head) (some bounds.tail) e.id) ++
        between h bounds.tail previous.id := by
  obtain ⟨-, tail, -, -⟩ := summarized.kept_spec
  rw [filter_split h.ascending _ bounds.tail]
  unfold between
  congr 1
  · refine filter_congr fun e _ => ?_
    have longer := summarized.later
    rw [Bool.eq_iff_iff]
    simp only [within, and_eq_true, all_some, decide_eq_true_eq]
    constructor
    · rintro ⟨⟨low, -⟩, high⟩
      exact ⟨low, high⟩
    · rintro ⟨low, high⟩
      exact ⟨⟨low, Nat.le_trans high longer⟩, high⟩
  · refine filter_congr fun e _ => ?_
    by_cases after : bounds.tail < e.id
    · rw [summarized.within_of_le (Nat.le_trans tail (Nat.le_of_lt after)), Bool.and_comm]
      rfl
    · have low : ¬bounds.tail + 1 ≤ e.id := after
      rw [decide_eq_false after, decide_eq_false low, Bool.and_false, Bool.false_and]

/-- **The entries behind the summary** are those from the first kept one on. -/
theorem plainRange_summary :
    plainRange h (some kept.id) id =
      (plainRange h (bounds.head.map HeadMarker.head) previous.id).filter
        fun e => decide (kept.id ≤ e.id) := by
  unfold plainRange
  rw [List.filter_filter, List.filter_filter, List.filter_filter]
  refine filter_congr fun e visible => ?_
  by_cases from_ : kept.id ≤ e.id
  · rw [summarized.within_of_le from_, Bool.eq_iff_iff]
    simp only [within, and_eq_true, all_some, decide_eq_true_eq]
    constructor
    · rintro ⟨plain, -, upto⟩
      refine ⟨⟨from_, plain⟩, summarized.next e visible (Nat.lt_of_le_of_ne upto fun same => ?_)⟩
      obtain rfl := h.eq_of_id visible summarized.appended same
      cases plain
    · rintro ⟨⟨-, plain⟩, upto⟩
      exact ⟨plain, from_, Nat.le_trans upto (Nat.le_of_lt summarized.before)⟩
  · simp [within, from_]

/-- **The edits behind the summary** are those that the entries from the first kept one on have had. -/
theorem edits_summary (earlier : ∀ e ∈ h.visible, ∀ target, e.Edits target → target < e.id)
    {e : EntryId} (from_ : kept.id ≤ e) :
    Assoc.get e (editsOf (h.visible.filter fun f => within (some kept.id) (some id) f.id)) =
      Assoc.get e (editsOf (h.visible.filter fun f =>
        within (bounds.head.map HeadMarker.head) (some previous.id) f.id)) := by
  obtain ⟨visible, tail, -, -⟩ := summarized.kept_spec
  have listed : kept ∈ h.visible.filter fun f =>
      within (bounds.head.map HeadMarker.head) (some previous.id) f.id := by
    refine mem_filter.mpr ⟨visible, ?_⟩
    rw [summarized.within_of_le (Nat.le_refl _)]
    exact decide_eq_true (Nat.le_trans tail summarized.later)
  obtain ⟨index, there⟩ := List.getElem?_of_mem listed
  have sorted : Ascending (h.visible.filter fun f =>
      within (bounds.head.map HeadMarker.head) (some previous.id) f.id) := h.ascending.filter _
  have behind : (h.visible.filter fun f => within (some kept.id) (some id) f.id) =
      ((h.visible.filter fun f =>
        within (bounds.head.map HeadMarker.head) (some previous.id) f.id).drop index) ++
        [summaryEntry id kept.id content] := by
    rw [drop_eq_filter sorted there, List.filter_filter]
    refine (History.filter_next (p := fun f => decide (kept.id ≤ f.id)) summarized.appended
      summarized.before summarized.next ?_).trans ?_
    · exact decide_eq_true (Nat.le_trans tail (Nat.le_of_lt
        (Nat.lt_of_le_of_lt summarized.later summarized.before)))
    · congr 1
      refine filter_congr fun f _ => ?_
      by_cases low : kept.id ≤ f.id
      · rw [summarized.within_of_le low]
      · simp [low]
  rw [behind, (get_editsOf_append e).2 fun f member => ?_]
  · conv_rhs => rw [← take_append_drop index (h.visible.filter fun f =>
      within (bounds.head.map HeadMarker.head) (some previous.id) f.id)]
    refine ((get_editsOf_append e).1 fun f member edits => ?_).symm
    have below : f.id < kept.id := by
      obtain ⟨bound, at_⟩ := List.getElem?_eq_some_iff.mp there
      have parts := sorted
      unfold Ascending at parts
      rw [← take_append_drop index (h.visible.filter fun f =>
        within (bounds.head.map HeadMarker.head) (some previous.id) f.id)] at parts
      refine (List.pairwise_append.mp parts).2.2 f member kept ?_
      rw [drop_eq_getElem_cons bound, at_]
      exact mem_cons_self
    have old := earlier f (mem_filter.mp (mem_of_mem_take member)).1 e edits
    exact Nat.lt_irrefl _ (Nat.lt_of_lt_of_le (Nat.lt_trans old below) from_)
  · rw [List.mem_singleton.mp member]
    rintro ⟨edit, listed, -⟩
    exact absurd listed not_mem_nil

/-- The marker of the context at the summary is the summary. -/
theorem marker_summary :
    newestMarker (some id) h.visible = some ⟨summaryEntry id kept.id content, kept.id, rfl⟩ :=
  newestMarker_self ⟨summaryEntry id kept.id content, kept.id, rfl⟩ summarized.appended
    summarized.before summarized.next

/-- The context right before the summary. -/
theorem read_previous :
    readContext h (some previous.id) = .ok
      (deriveRange ⟨bounds.head, previous.id⟩ (scanBounds h ⟨bounds.head, previous.id⟩)).view := by
  rw [readContext_at summarized.visible, summarized.marker_previous]

theorem captured_previous :
    Captured h ⟨bounds.head, previous.id⟩ :=
  ⟨summarized.marker_previous.symm, previous, summarized.visible, rfl⟩

/-- What was appended in between stands behind the entries of the cut context. -/
theorem entries_previous :
    (deriveRange ⟨bounds.head, previous.id⟩
        (scanBounds h ⟨bounds.head, previous.id⟩)).view.entries =
      (deriveRange bounds (scanBounds h bounds)).view.entries ++
        between h bounds.tail previous.id := by
  rw [derived_entries summarized.captured_previous, derived_entries summarized.captured]
  unfold plainRange
  dsimp only
  have plain : (between h bounds.tail previous.id).filter (fun e => e.head.isNone) =
      between h bounds.tail previous.id := by
    refine List.filter_eq_self.mpr fun e member => ?_
    obtain ⟨visible, inside⟩ := mem_filter.mp member
    simp only [and_eq_true, decide_eq_true_eq] at inside
    rw [summarized.plain e visible inside.1 (Nat.lt_of_le_of_lt inside.2 summarized.before)]
    rfl
  rw [summarized.scan_previous, filter_append, plain, append_assoc]

/-- **Behind the summary the context is what was kept.** -/
theorem context_summary (earlier : ∀ e ∈ h.visible, ∀ target, e.Edits target → target < e.id)
    {cut : Nat} (start : (leading bounds.head).length ≤ cut)
    (first : (deriveRange bounds (scanBounds h bounds)).view.entries[cut]? = some kept) :
    ∃ after, readContext h (some id) = .ok after ∧
      after.entries = summaryEntry id kept.id content :: (deriveRange ⟨bounds.head, previous.id⟩
        (scanBounds h ⟨bounds.head, previous.id⟩)).view.entries.drop cut ∧
      after.contributions = contribute (summaryEntry id kept.id content) none ::
        (deriveRange ⟨bounds.head, previous.id⟩
          (scanBounds h ⟨bounds.head, previous.id⟩)).view.contributions.drop cut := by
  have read := readContext_at summarized.appended
  have id_eq : (summaryEntry id kept.id content).id = id := rfl
  rw [id_eq, summarized.marker_summary] at read
  have captured : Captured h ⟨some ⟨summaryEntry id kept.id content, kept.id, rfl⟩, id⟩ :=
    ⟨summarized.marker_summary.symm, _, summarized.appended, rfl⟩
  -- From the first kept entry on, the sorted entries are those of larger identifiers.
  have behind : (deriveRange ⟨bounds.head, previous.id⟩
      (scanBounds h ⟨bounds.head, previous.id⟩)).view.entries.drop cut =
      plainRange h (some kept.id) id := by
    have there : (plainRange h (bounds.head.map HeadMarker.head) previous.id)[cut -
        (leading bounds.head).length]? = some kept := by
      have longer := summarized.entries_previous
      rw [derived_entries summarized.captured_previous, derived_entries summarized.captured,
        append_assoc, append_cancel_left_eq] at longer
      rw [longer]
      rw [derived_entries summarized.captured, List.getElem?_append_right start] at first
      rw [List.getElem?_append_left (List.getElem?_eq_some_iff.mp first).1]
      exact first
    have sorted : Ascending (plainRange h (bounds.head.map HeadMarker.head) previous.id) :=
      (h.ascending.filter _).filter _
    rw [derived_entries summarized.captured_previous, List.drop_append,
      drop_eq_nil_of_le start, nil_append]
    dsimp only
    rw [drop_eq_filter sorted there, summarized.plainRange_summary]
  have entries : (deriveRange ⟨some ⟨summaryEntry id kept.id content, kept.id, rfl⟩, id⟩
      (scanBounds h ⟨some ⟨summaryEntry id kept.id content, kept.id, rfl⟩, id⟩)).view.entries =
      summaryEntry id kept.id content :: plainRange h (some kept.id) id :=
    derived_entries captured
  refine ⟨_, read, entries.trans (by rw [behind]), ?_⟩
  have contributions : ∀ b : ContextBounds, (deriveRange b (scanBounds h b)).view.contributions =
      (deriveRange b (scanBounds h b)).view.entries.map fun e =>
        contribute e (Assoc.get e.id (editsOf (scanBounds h b))) := fun b => rfl
  rw [contributions, contributions, entries, map_cons, ← map_drop, behind]
  rw [scanBounds_eq, scanBounds_eq]
  dsimp only [map_some]
  congr 1
  · exact congrArg _ (not_edited earlier _ id)
  · refine map_congr_left fun e member => ?_
    obtain ⟨inside, -⟩ := mem_filter.mp member
    have bound := (mem_filter.mp inside).2
    simp only [within, and_eq_true, all_some, decide_eq_true_eq] at bound
    rw [summarized.edits_summary earlier bound.1]

/-- An entry that none in between edits contributes what it did. -/
theorem contribution_previous {index : Nat}
    (there : (deriveRange bounds (scanBounds h bounds)).view.entries[index]? = some e)
    (unedited : ∀ f ∈ between h bounds.tail previous.id, ¬f.Edits e.id) :
    (deriveRange ⟨bounds.head, previous.id⟩
        (scanBounds h ⟨bounds.head, previous.id⟩)).view.contributions[index]? =
      (deriveRange bounds (scanBounds h bounds)).view.contributions[index]? := by
  have contributions : ∀ b : ContextBounds, (deriveRange b (scanBounds h b)).view.contributions =
      (deriveRange b (scanBounds h b)).view.entries.map fun e =>
        contribute e (Assoc.get e.id (editsOf (scanBounds h b))) := fun b => rfl
  have bound := (List.getElem?_eq_some_iff.mp there).1
  rw [contributions, contributions, List.getElem?_map, List.getElem?_map,
    summarized.entries_previous, List.getElem?_append_left bound, there, scanBounds_eq,
    scanBounds_eq]
  dsimp only
  rw [summarized.scan_previous, map_some, map_some,
    (get_editsOf_append e.id).2 unedited]

end Summarized

end Summarized

/-! ### The whole compaction -/

/-- **A compaction loses nothing that is kept and splits no call from its result.** Before the cut some
entry contributes; ordered by results,
  the messages are those before the cut and those from it on; and
behind the summary the context is the one right before it, from the cut on. That one has what was
appended in between behind the entries of the cut context,
  and contributions change by edits in between
alone. -/
theorem selectCut_keeps (estimateMessageTokens : Sent → Nat) (keepRecentTokens : ℚ) {h h' : History}
    (grows : h.Grows h') {at_ : Option EntryId} {bounds : ContextBounds}
    (captured : captureContextBounds h at_ = .ok (some bounds)) {view : ContextView}
    (read : readContext h at_ = .ok view) {cut : Nat}
    (selected : selectCut estimateMessageTokens keepRecentTokens view = some cut)
    (earlier : ∀ e ∈ h'.visible, ∀ target, e.Edits target → target < e.id) {kept : EntryRecord}
    (first : view.entries[cut]? = some kept) {id : EntryId} {content : Json Unit}
    (appended : summaryEntry id kept.id content ∈ h'.visible) (after : bounds.tail < id)
    (plain : ∀ e ∈ h'.visible, bounds.tail < e.id → e.id < id → e.head = none) :
    (∃ index messages, view.start ≤ index ∧ index < cut ∧
      view.contributions[index]? = some messages ∧ messages ≠ []) ∧
    orderToolResults view.contributions.flatten =
      summarizedMessages view cut ++ orderToolResults (view.contributions.drop cut).flatten ∧
    ∃ previous before behind, previous < id ∧
      (∀ e ∈ h'.visible, e.id < id → e.id ≤ previous) ∧
      readContext h' (some previous) = .ok before ∧ readContext h' (some id) = .ok behind ∧
      behind.entries = summaryEntry id kept.id content :: before.entries.drop cut ∧
      behind.contributions =
        contribute (summaryEntry id kept.id content) none :: before.contributions.drop cut ∧
      before.entries = view.entries ++ Summarized.between h' bounds.tail previous ∧
      ∀ (index : Nat) (e : EntryRecord), view.entries[index]? = some e →
        (∀ f ∈ Summarized.between h' bounds.tail previous, ¬f.Edits e.id) →
        before.contributions[index]? = view.contributions[index]? := by
  obtain ⟨start, candidate, contributes⟩ := selectCut_some selected
  refine ⟨contributes, ?_, ?_⟩
  · conv_lhs => rw [← take_append_drop cut view.contributions, flatten_append]
    exact orderToolResults_split (candidate_apart candidate)
  · have now := captured_of_captureContextBounds captured
    have later := now.grows grows
    obtain rfl : (deriveRange bounds (scanBounds h' bounds)).view = view := by
      unfold readContext at read
      rw [captured] at read
      rw [scanBounds_grows now grows]
      exact Except.ok.inj read
    have start : (leading bounds.head).length ≤ cut := by
      unfold ContextView.start at start
      unfold leading
      have head : (deriveRange bounds (scanBounds h' bounds)).view.head = bounds.head := rfl
      rw [head] at start
      cases marker : bounds.head with
      | none => exact Nat.zero_le _
      | some marker =>
        rw [marker] at start
        exact start
    obtain ⟨last, visible, tail⟩ := later.tail
    obtain ⟨previous, there, before, upto, next⟩ :=
      h'.exists_previous visible appended (tail.symm ▸ after)
    have listed : kept ∈ plainRange h' (bounds.head.map HeadMarker.head) bounds.tail := by
      rw [derived_entries later, List.getElem?_append_right start] at first
      exact mem_of_getElem? first
    have summarized : Summarized h' bounds kept previous id content :=
      ⟨later, listed, appended, there, before, tail ▸ upto, next, plain⟩
    obtain ⟨behind, read', entries, contributions⟩ :=
      summarized.context_summary earlier start first
    exact ⟨previous.id, _, behind, before, next, summarized.read_previous, read', entries,
      contributions, summarized.entries_previous, fun index e inside unedited =>
        summarized.contribution_previous inside unedited⟩

/-- An assistant message without calls. -/
def replyEntry (id : EntryId) : EntryRecord :=
  ⟨id, text "tg.assistant", some [.assistant [] .stop (.ofNat 0)], none, none⟩

def talkHistory : History where
  lineage := .root [messageEntry 1 none, replyEntry 2, messageEntry 3 none, replyEntry 4]
  ordered := by simp [Lineage.Ordered, Ascending, messageEntry, replyEntry]

/-- The same with one message more, and a summary that keeps entry 4. -/
def compactedHistory : History where
  lineage := .root ([messageEntry 1 none, replyEntry 2, messageEntry 3 none, replyEntry 4] ++
    [messageEntry 5 none, summaryEntry 6 4 .null])
  ordered := by simp [Lineage.Ordered, Ascending, messageEntry, replyEntry, summaryEntry]

theorem talkHistory_grows : talkHistory.Grows compactedHistory :=
  .root _ [messageEntry 5 none, summaryEntry 6 4 .null]

/-- Behind the summary: the summary, the kept message and the one in between. -/
theorem selectCut_keeps_last : ∃ behind, readContext compactedHistory (some 6) = .ok behind ∧
    behind.entries = [summaryEntry 6 4 .null, replyEntry 4, messageEntry 5 none] := by
  have captured : captureContextBounds talkHistory none = .ok (some ⟨none, 4⟩) := by rfl
  obtain ⟨view, read⟩ : ∃ view, readContext talkHistory none = .ok view := ⟨_, rfl⟩
  have entries : view.entries =
      [messageEntry 1 none, replyEntry 2, messageEntry 3 none, replyEntry 4] := by
    obtain rfl := Except.ok.inj read
    rfl
  have selected : selectCut (fun _ => 1) 1 view = some 3 := by
    obtain rfl := Except.ok.inj read
    decide +kernel
  have first : view.entries[3]? = some (replyEntry 4) := by rw [entries]; rfl
  have appended : summaryEntry 6 (replyEntry 4).id .null ∈ compactedHistory.visible := by
    simp [History.visible, Lineage.visible, compactedHistory, replyEntry]
  have each : ∀ e ∈ compactedHistory.visible, e.edits = none ∧
    (4 < e.id → e.id < 6 → e.head = none) := by
    simp [History.visible, Lineage.visible, compactedHistory, replyEntry, messageEntry,
      summaryEntry]
  obtain ⟨-, -, previous, before, behind, below, next, -, read', entries', -, kept, -⟩ :=
    selectCut_keeps (fun _ => 1) 1 talkHistory_grows captured read selected
      (fun e visible target edits => by
        obtain ⟨edit, listed, -⟩ := edits
        rw [(each e visible).1] at listed
        cases listed)
      first appended (by decide) fun e visible => (each e visible).2
  have last : previous = 5 := Nat.le_antisymm (Nat.le_of_lt_succ below)
    (next (messageEntry 5 none) (by simp [History.visible, Lineage.visible, compactedHistory])
      (by decide))
  refine ⟨behind, read', entries'.trans ?_⟩
  rw [kept, entries, last]
  rfl

end TianGong.Gibraltar
