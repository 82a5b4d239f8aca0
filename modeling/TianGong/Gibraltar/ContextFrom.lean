/-
**Incremental context against full context.**

`readContextFrom` reuses the range of an earlier read. The reuse is exact as long as the range holds what
a scan within its bounds returns (`Coherent`), which growth of the history does not change.

* `rangeFrom_eq`, `skipped_view`: one read: the reused range is the derived one, unless entries behind
  the earlier tail lie before the head of the marker (`Skips`); then the view has entries too many.
* `readAll_eq_iff`: a whole sequence of reads.
-/

import TianGong.Gibraltar.Context

namespace TianGong.Gibraltar

open TianGong.Lib
open List Option

/-! ### Tool results -/

/-- A sequence that is empty or starts with an assistant message. -/
def Opens (messages : List Sent) : Prop := ∀ m, messages.head? = some m → m.isAssistant = true

theorem resultOf_append {timestamp : JsNumber} {later more : List Sent} (opens : Opens more)
    (call : ToolCall) : resultOf timestamp (later ++ more) call = resultOf timestamp later call := by
  have stops : (later ++ more).takeWhile (fun m => !m.isAssistant) =
      later.takeWhile fun m => !m.isAssistant := by
    induction later with
    | nil =>
      cases more with
      | nil => rfl
      | cons m more =>
        rw [nil_append, takeWhile_cons_of_neg, takeWhile_nil]
        rw [opens m rfl]
        decide
    | cons m later ih =>
      rw [cons_append, takeWhile_cons, takeWhile_cons, ih]
  rw [resultOf, resultOf, stops]

/-- **Results are ordered within the messages up to the next assistant message.** -/
theorem orderToolResults_append (first : List Sent) {more : List Sent} (opens : Opens more) :
    orderToolResults (first ++ more) = orderToolResults first ++ orderToolResults more := by
  induction first with
  | nil => rfl
  | cons m first ih =>
    obtain ⟨slot, message⟩ := m
    have same : ∀ timestamp : JsNumber, resultOf timestamp (first ++ more) =
        resultOf timestamp first := fun timestamp => funext fun call => resultOf_append opens call
    cases message <;> simp only [cons_append, orderToolResults, ih, same, append_assoc]

theorem findLastIndex_append (p : Sent → Bool) (first more : List Sent) :
    findLastIndex p (first ++ more) =
      match findLastIndex p more with
      | some index => some (first.length + index)
      | none => findLastIndex p first := by
  induction first with
  | nil =>
    rw [nil_append]
    cases findLastIndex p more with
    | none => rfl
    | some index => exact congrArg some (Nat.zero_add index).symm
  | cons m first ih =>
    rw [cons_append, findLastIndex, ih]
    cases findLastIndex p more with
    | none => rfl
    | some index =>
      rw [length_cons]
      exact congrArg some (by omega)

/-- From the last match on, there is one match, and it is first. -/
theorem findLastIndex_drop {p : Sent → Bool} {messages : List Sent} {last : Nat}
    (found : findLastIndex p messages = some last) :
    findLastIndex p (messages.drop last) = some 0 ∧ last < messages.length ∧
      ∀ m, (messages.drop last).head? = some m → p m = true := by
  induction messages generalizing last with
  | nil => cases found
  | cons m messages ih =>
    rw [findLastIndex] at found
    cases inside : findLastIndex p messages with
    | some index =>
      rw [inside] at found
      cases found
      obtain ⟨first, bound, holds⟩ := ih inside
      exact ⟨first, Nat.succ_lt_succ bound, holds⟩
    | none =>
      rw [inside] at found
      dsimp only at found
      split_ifs at found with here
      cases found
      refine ⟨?_, Nat.succ_pos _, fun other first => ?_⟩
      · rw [drop_zero, findLastIndex, inside]
        exact if_pos here
      · cases first
        exact here

theorem settle_of_last {settled open_ : List Sent} {last : Nat}
    (found : findLastIndex Sent.isAssistant open_ = some (last + 1)) :
    settle settled open_ =
      (settled ++ orderToolResults (open_.take (last + 1)), open_.drop (last + 1)) := by
  unfold settle
  rw [found]
  rfl

theorem settle_of_first {settled open_ : List Sent}
    (found : findLastIndex Sent.isAssistant open_ = some 0) : settle settled open_ = (settled, open_) := by
  unfold settle
  rw [found]
  rfl

/-- **Settling goes on from where it stopped.** -/
theorem settle_append (messages more : List Sent) :
    settle (settle [] messages).1 ((settle [] messages).2 ++ more) = settle [] (messages ++ more) := by
  rcases last : findLastIndex Sent.isAssistant messages with _ | _ | k
  · have before : settle [] messages = ([], messages) := by
      unfold settle
      rw [last]
    rw [before]
  · rw [settle_of_first last]
  obtain ⟨first, bound, opens⟩ := findLastIndex_drop last
  have before : settle [] messages =
      (orderToolResults (messages.take (k + 1)), messages.drop (k + 1)) := settle_of_last last
  rw [before]
  dsimp only
  rcases next : findLastIndex Sent.isAssistant more with _ | index
  · -- No assistant message follows: the open part grows.
    have left : findLastIndex Sent.isAssistant (messages.drop (k + 1) ++ more) = some 0 := by
      rw [findLastIndex_append, next]
      exact first
    have right : findLastIndex Sent.isAssistant (messages ++ more) = some (k + 1) := by
      rw [findLastIndex_append, next]
      exact last
    rw [settle_of_first left, settle_of_last right, nil_append,
      take_append_of_le_length bound.le, drop_append_of_le_length bound.le]
  · -- The new last assistant message closes the part that was open.
    obtain ⟨rest, length⟩ : ∃ rest, messages.length = k + 1 + (rest + 1) :=
      ⟨messages.length - (k + 2), by omega⟩
    have left : findLastIndex Sent.isAssistant (messages.drop (k + 1) ++ more) =
        some (rest + index + 1) := by
      rw [findLastIndex_append, next, length_drop, length]
      exact congrArg some (by omega)
    have right : findLastIndex Sent.isAssistant (messages ++ more) =
        some (k + 1 + (rest + index) + 1) := by
      rw [findLastIndex_append, next, length]
      exact congrArg some (by omega)
    have split : messages ++ more = messages.take (k + 1) ++ (messages.drop (k + 1) ++ more) := by
      rw [← append_assoc, take_append_drop]
    have taken : (messages.take (k + 1)).length = k + 1 := length_take_of_le bound.le
    have total : k + 1 + (rest + index) + 1 = (messages.take (k + 1)).length + (rest + index + 1) := by
      omega
    have starts : Opens ((messages.drop (k + 1) ++ more).take (rest + index + 1)) := by
      intro m found
      rw [List.head?_take, if_neg (Nat.succ_ne_zero _), List.head?_append_of_ne_nil] at found
      · exact opens m found
      · intro empty
        rw [drop_eq_nil_iff] at empty
        omega
    rw [settle_of_last left, settle_of_last right, nil_append, split, total,
      take_length_add_append, drop_length_add_append, orderToolResults_append _ starts]

/-! ### Parts of a derived range -/

theorem findBaseline_append (head : Option HeadMarker) (first more : List EntryRecord) :
    findBaseline head (first ++ more) =
      match findBaseline head first with
      | .undefined => findBaseline head more
      | found => found := by
  induction first with
  | nil => rfl
  | cons entry first ih =>
    rw [cons_append, findBaseline, findBaseline]
    split_ifs
    · exact ih
    · cases entry.sent.find? Sent.isSystem <;> rfl
    · rfl
    · exact ih

theorem editsOf_append {first more : List EntryRecord}
    (plain : ∀ entry ∈ more, entry.edits = none) : editsOf (first ++ more) = editsOf first := by
  have none : more.flatMap EntryRecord.foundEdits = [] := by
    refine List.flatMap_eq_nil_iff.mpr fun entry member => ?_
    rw [EntryRecord.foundEdits, plain entry member]
    rfl
  rw [editsOf, editsOf, flatMap_append, none, append_nil]

theorem selectActive_append (head : Option HeadMarker) {first more : List EntryRecord}
    (plain : ∀ entry ∈ more, entry.head = none) :
    selectActive head (first ++ more) = selectActive head first ++ more := by
  cases head with
  | none => rfl
  | some marker =>
    have kept : more.filter (fun entry => entry.head.isNone) = more :=
      List.filter_eq_self.mpr fun entry member => by rw [plain entry member]; rfl
    rw [selectActive, selectActive, filter_append, kept, cons_append]

variable {bounds : ContextBounds}

/-- **Extending a derived range derives the range of all its entries.** -/
theorem extendRange_eq {previous : ContextBounds} (same : previous.head = bounds.head)
    (entries added : List EntryRecord) :
    extendRange (deriveRange previous entries) bounds added =
      deriveRange bounds (entries ++ added) := by
  unfold extendRange
  dsimp only
  split_ifs with forced
  · rfl
  · have plain : ∀ entry ∈ added, entry.edits = none ∧ entry.head = none ∧
        entry.id ∉ Assoc.keys (editsOf entries) := by
      intro entry member
      have nothing : ¬(entry.edits.isSome || entry.head.isSome ||
          (Assoc.keys (editsOf entries)).contains entry.id) = true := fun holds =>
        forced (List.any_eq_true.mpr ⟨entry, member, holds⟩)
      simp only [Bool.or_eq_true, not_or, not_isSome_iff_eq_none] at nothing
      exact ⟨nothing.1.1, nothing.1.2, fun inside =>
        nothing.2 (List.contains_iff_mem.mpr inside)⟩
    have edits : editsOf (entries ++ added) = editsOf entries :=
      editsOf_append fun entry member => (plain entry member).1
    have active : selectActive bounds.head (entries ++ added) =
        selectActive bounds.head entries ++ added :=
      selectActive_append bounds.head fun entry member => (plain entry member).2.1
    have contributed : added.map (fun entry => contribute entry none) =
        added.map fun entry => contribute entry (Assoc.get entry.id (editsOf entries)) := by
      refine map_congr_left fun entry member => ?_
      rw [Assoc.get_eq_none_iff.mpr (plain entry member).2.2]
    cases baseline : findBaseline bounds.head (selectActive bounds.head entries) <;>
      simp only [deriveRange, same, edits, active, contributed, baseline, settle_append,
        findBaseline_append, map_append, flatten_append]

/-! ### Captured bounds -/

variable {h h' : History}

/-- The entries a cut-off at a visible entry leaves do not change when the history grows. -/
theorem History.Grows.filter_tail (grows : h.Grows h') {e : EntryRecord} (visible : e ∈ h.visible)
    (lower : Option EntryId) :
    (h'.visible.filter fun f => within lower (some e.id) f.id) =
      h.visible.filter fun f => within lower (some e.id) f.id := by
  obtain ⟨more, same⟩ := grows.visible
  have sorted := h'.ascending
  rw [same] at sorted
  have none : more.filter (fun f => within lower (some e.id) f.id) = [] := by
    refine List.filter_eq_nil_iff.mpr fun f new inside => ?_
    have above := (List.pairwise_append.mp sorted).2.2 e visible f new
    simp only [within, all_some, Bool.and_eq_true, decide_eq_true_eq] at inside
    exact Nat.not_lt.mpr inside.2 above
  rw [same, filter_append, none, append_nil]

/-- Bounds as a read captures them: the newest marker at or below a visible entry. -/
structure Captured (h : History) (bounds : ContextBounds) : Prop where
  head : bounds.head = newestMarker (some bounds.tail) h.visible
  tail : ∃ e ∈ h.visible, e.id = bounds.tail

theorem captured_of_captureContextBounds {at_ : Option EntryId}
    (done : captureContextBounds h at_ = .ok (some bounds)) : Captured h bounds := by
  unfold captureContextBounds at done
  cases at_ with
  | none =>
    dsimp only at done
    cases newest : (h.scanEntries none none 1 none).1.head? with
    | none => simp [newest] at done
    | some e =>
      rw [newest] at done
      cases done
      refine ⟨findLatestHeadMarker_eq _ _, e, ?_, rfl⟩
      have member := mem_of_head? newest
      rw [History.scanEntries, page_take, page, behind_none] at member
      have walked := mem_of_mem_take member
      rw [visibleEntries_eq h.ordered, mem_reverse] at walked
      exact (mem_filter.mp walked).1
  | some id =>
    dsimp only at done
    cases found : h.entry id with
    | none => simp [found] at done
    | some e =>
      rw [found] at done
      cases done
      exact ⟨findLatestHeadMarker_eq _ _, (h.entry_isSome id).mp (by rw [found]; rfl)⟩

theorem Captured.grows (captured : Captured h bounds) (grows : h.Grows h') :
    Captured h' bounds := by
  obtain ⟨e, visible, same⟩ := captured.tail
  obtain ⟨more, added⟩ := grows.visible
  refine ⟨?_, e, by rw [added]; exact mem_append_left _ visible, same⟩
  rw [captured.head, ← same, newestMarker, newestMarker, grows.filter_tail visible]

theorem scanBounds_eq (h : History) (bounds : ContextBounds) :
    scanBounds h bounds = h.visible.filter fun e =>
      within (bounds.head.map HeadMarker.head) (some bounds.tail) e.id :=
  h.scanRange_eq _ _

theorem scanBounds_grows (captured : Captured h bounds) (grows : h.Grows h') :
    scanBounds h' bounds = scanBounds h bounds := by
  obtain ⟨e, visible, same⟩ := captured.tail
  rw [scanBounds_eq, scanBounds_eq, ← same, grows.filter_tail visible]

/-- A marker is a visible entry at or below the cut-off. -/
theorem mem_of_newestMarker {upper : EntryId} {entries : List EntryRecord} {marker : HeadMarker}
    (newest : newestMarker (some upper) entries = some marker) :
    marker.entry ∈ entries ∧ marker.entry.id ≤ upper := by
  obtain ⟨e, member, found⟩ := List.mem_filterMap.mp (mem_of_getLast? newest)
  rw [marker_some found]
  obtain ⟨inside, bound⟩ := mem_filter.mp member
  simp only [within, all_some, Bool.and_eq_true, decide_eq_true_eq] at bound
  exact ⟨inside, bound.2⟩

/-- Two markers of one history with one identifier are the same. -/
theorem marker_unique {a b : HeadMarker} (here : a.entry ∈ h.visible)
    (there : b.entry ∈ h.visible) (same : a.entry.id = b.entry.id) : a = b := by
  obtain ⟨entry, head, marks⟩ := a
  obtain ⟨entry', head', marks'⟩ := b
  obtain rfl : entry = entry' := h.eq_of_id here there same
  rw [marks] at marks'
  cases marks'
  rfl

theorem Captured.head_eq {a b : ContextBounds} (first : Captured h a) (second : Captured h b)
    (same : markerId a.head = markerId b.head) : a.head = b.head := by
  cases left : a.head with
  | none => cases right : b.head <;> simp [left, right, markerId] at same ⊢
  | some m =>
    cases right : b.head with
    | none => simp [left, right, markerId] at same
    | some n =>
      rw [left, right] at same
      have here := (mem_of_newestMarker (first.head.symm.trans left)).1
      have there := (mem_of_newestMarker (second.head.symm.trans right)).1
      exact congrArg some (marker_unique here there (Option.some.inj same))

/-- No entry behind the newest marker at or below a cut-off, up to the cut-off, carries a head. -/
theorem head_none_of_newest {upper : EntryId} {e : EntryRecord} (visible : e ∈ h.visible)
    (bound : e.id ≤ upper)
    (later : ∀ marker, newestMarker (some upper) h.visible = some marker → marker.entry.id < e.id) :
    e.head = none := by
  by_contra carries
  obtain ⟨m, marks⟩ := Option.isSome_iff_exists.mp
    ((marker_isSome e).trans (Option.isSome_iff_ne_none.mpr carries))
  have listed : m ∈ (h.visible.filter fun f => within none (some upper) f.id).filterMap
      EntryRecord.marker :=
    List.mem_filterMap.mpr ⟨e, mem_filter.mpr ⟨visible, by simp [within, bound]⟩, marks⟩
  obtain ⟨front, last, split⟩ : ∃ front last, (h.visible.filter fun f =>
      within none (some upper) f.id).filterMap EntryRecord.marker = front ++ [last] :=
    ⟨_, _, (dropLast_append_getLast (ne_nil_of_mem listed)).symm⟩
  have newest : newestMarker (some upper) h.visible = some last := by
    rw [newestMarker, split, List.getLast?_append, List.getLast?_singleton, some_or]
  have sorted : ((h.visible.filter fun f => within none (some upper) f.id).filterMap
      EntryRecord.marker).Pairwise fun a b => a.entry.id < b.entry.id := by
    refine List.pairwise_filterMap.mpr ((h.ascending.filter _).imp fun {a b} less m found n other => ?_)
    rw [marker_some found, marker_some other]
    exact less
  rw [split] at sorted listed
  have order := later last newest
  rw [← marker_some marks] at order
  rcases List.mem_append.mp listed with earlier | same
  · exact Nat.lt_asymm order ((List.pairwise_append.mp sorted).2.2 m earlier last
      (mem_singleton_self _))
  · rw [List.mem_singleton.mp same] at order
    exact Nat.lt_irrefl _ order

/-! ### One read -/

/-- A range that holds what a scan within its bounds returns. -/
structure Coherent (h : History) (range : ContextRange) : Prop where
  captured : Captured h range.bounds
  derived : range = deriveRange range.bounds (scanBounds h range.bounds)

theorem coherent_deriveRange (captured : Captured h bounds) :
    Coherent h (deriveRange bounds (scanBounds h bounds)) := ⟨captured, rfl⟩

variable {range : ContextRange}

theorem Coherent.grows (coherent : Coherent h range) (grows : h.Grows h') : Coherent h' range where
  captured := coherent.captured.grows grows
  derived := by
    rw [scanBounds_grows coherent.captured grows]
    exact coherent.derived

/-- **The entries a reused range picks up by mistake**: with the marker of an earlier read, the entries
behind the earlier tail that lie before the marker's head. -/
def Skips (h : History) (previous bounds : ContextBounds) : Prop :=
  markerId previous.head = markerId bounds.head ∧ previous.tail < bounds.tail ∧
    ∃ marker, bounds.head = some marker ∧
      ∃ e ∈ h.visible, previous.tail < e.id ∧ e.id ≤ bounds.tail ∧ e.id < marker.head

theorem filter_split {entries : List EntryRecord} (ascending : Ascending entries)
    (p : EntryRecord → Bool) (tail : EntryId) :
    entries.filter p = (entries.filter fun e => p e && decide (e.id ≤ tail)) ++
      entries.filter fun e => p e && decide (tail + 1 ≤ e.id) := by
  induction entries with
  | nil => rfl
  | cons e entries ih =>
    obtain ⟨first, rest⟩ := List.pairwise_cons.mp ascending
    by_cases low : e.id ≤ tail
    · have high : ¬tail + 1 ≤ e.id := Nat.not_le.mpr (Nat.lt_succ_of_le low)
      simp only [filter_cons, low, high, decide_true, decide_false, Bool.and_true,
        Bool.and_false, Bool.false_eq_true, if_false]
      rw [ih rest]
      split <;> rfl
    · -- From here on everything is behind the tail.
      have past : (e :: entries).filter (fun f => p f && decide (f.id ≤ tail)) = [] := by
        refine List.filter_eq_nil_iff.mpr fun f member kept => ?_
        have below := of_decide_eq_true (Bool.and_eq_true_iff.mp kept).2
        rcases mem_cons.mp member with rfl | later
        · exact low below
        · exact low (Nat.le_trans (Nat.le_of_lt (first f later)) below)
      rw [past, nil_append]
      refine filter_congr fun f member => ?_
      have high : tail + 1 ≤ f.id := by
        rcases mem_cons.mp member with rfl | later
        · exact Nat.not_le.mp low
        · exact Nat.lt_trans (Nat.not_le.mp low) (first f later)
      rw [decide_eq_true high, Bool.and_true]

/-- Behind the tail of a derived range with the same marker, the range is extended. -/
theorem rangeFrom_of_later (coherent : Coherent h range) (captured : Captured h bounds)
    (same : markerId range.bounds.head = markerId bounds.head)
    (later : range.bounds.tail < bounds.tail) :
    rangeFrom h (some range) bounds = deriveRange bounds (scanBounds h range.bounds ++
      h.scanRange (some (range.bounds.tail + 1)) (some bounds.tail)) := by
  have heads := coherent.captured.head_eq captured same
  unfold rangeFrom
  dsimp only
  rw [if_neg (not_not.mpr same), if_neg (Nat.ne_of_gt later), if_neg (Nat.lt_asymm later)]
  conv_lhs => rw [coherent.derived]
  exact extendRange_eq heads _ _

/-- **Where nothing is skipped, the reused range is the derived one.** -/
theorem rangeFrom_eq (coherent : Coherent h range) (captured : Captured h bounds)
    (exact_ : ¬Skips h range.bounds bounds) :
    rangeFrom h (some range) bounds = deriveRange bounds (scanBounds h bounds) := by
  by_cases same : markerId range.bounds.head = markerId bounds.head
  · have heads := coherent.captured.head_eq captured same
    rcases Nat.lt_trichotomy bounds.tail range.bounds.tail with earlier | equal | later
    · unfold rangeFrom
      dsimp only
      rw [if_neg (not_not.mpr same), if_neg (Nat.ne_of_lt earlier), if_pos earlier,
        coherent.derived]
      have entries : (deriveRange range.bounds (scanBounds h range.bounds)).entries =
          scanBounds h range.bounds := rfl
      rw [entries, scanBounds_eq, scanBounds_eq, List.filter_filter, heads]
      congr 1
      refine filter_congr fun e _ => ?_
      rw [Bool.eq_iff_iff]
      simp only [within, all_some, Bool.and_eq_true, decide_eq_true_eq]
      constructor
      · rintro ⟨tail, low, _⟩
        exact ⟨low, tail⟩
      · rintro ⟨low, tail⟩
        exact ⟨tail, low, Nat.le_trans tail (Nat.le_of_lt earlier)⟩
    · have bounds_eq : range.bounds = bounds := by
        cases bounds
        cases into : range.bounds
        rw [into] at heads equal
        cases heads
        cases equal
        rfl
      unfold rangeFrom
      dsimp only
      rw [if_neg (not_not.mpr same), if_pos equal, ← bounds_eq]
      exact coherent.derived
    · rw [rangeFrom_of_later coherent captured same later]
      congr 1
      rw [scanBounds_eq, scanBounds_eq, History.scanRange_eq, heads]
      refine Eq.trans ?_ (filter_split h.ascending _ range.bounds.tail).symm
      congr 1
      · refine filter_congr fun e _ => ?_
        rw [Bool.eq_iff_iff]
        simp only [within, all_some, Bool.and_eq_true, decide_eq_true_eq]
        constructor
        · rintro ⟨low, tail⟩
          exact ⟨⟨low, Nat.le_trans tail (Nat.le_of_lt later)⟩, tail⟩
        · rintro ⟨⟨low, _⟩, tail⟩
          exact ⟨low, tail⟩
      · refine filter_congr fun e visible => ?_
        rw [Bool.eq_iff_iff]
        simp only [within, all_some, Bool.and_eq_true, decide_eq_true_eq]
        constructor
        · rintro ⟨after, tail⟩
          refine ⟨⟨?_, tail⟩, after⟩
          cases marker : bounds.head with
          | none => rfl
          | some m =>
            simp only [map_some, all_some, decide_eq_true_eq]
            by_contra below
            exact exact_ ⟨same, later, m, marker, e, visible, after, tail, Nat.not_le.mp below⟩
        · rintro ⟨⟨_, tail⟩, after⟩
          exact ⟨after, tail⟩
  · unfold rangeFrom
    exact if_pos same

/-- **Where an entry is skipped, the view has it all the same.** -/
theorem skipped_view (coherent : Coherent h range) (captured : Captured h bounds)
    (skips : Skips h range.bounds bounds) :
    (rangeFrom h (some range) bounds).view ≠ (deriveRange bounds (scanBounds h bounds)).view := by
  obtain ⟨same, later, marker, head, e, visible, after, tail, below⟩ := skips
  have heads := coherent.captured.head_eq captured same
  have newest := captured.head.symm.trans head
  -- The marker is older than the entry, so the entry carries no head itself.
  have older : marker.entry.id < e.id := by
    have before := coherent.captured.head.symm.trans (heads.trans head)
    exact Nat.lt_of_le_of_lt (mem_of_newestMarker before).2 after
  have plain : e.head = none := by
    refine head_none_of_newest visible tail fun other found => ?_
    rw [newest] at found
    cases found
    exact older
  rw [rangeFrom_of_later coherent captured same later]
  intro views
  have entries : selectActive bounds.head (scanBounds h range.bounds ++
      h.scanRange (some (range.bounds.tail + 1)) (some bounds.tail)) =
      selectActive bounds.head (scanBounds h bounds) := congrArg ContextView.entries views
  rw [head] at entries
  have inside : e ∈ selectActive (some marker) (scanBounds h range.bounds ++
      h.scanRange (some (range.bounds.tail + 1)) (some bounds.tail)) := by
    refine mem_cons_of_mem _ (mem_filter.mpr ⟨mem_append_right _ ?_, by rw [plain]; rfl⟩)
    rw [History.scanRange_eq]
    refine mem_filter.mpr ⟨visible, ?_⟩
    simp only [within, all_some, Bool.and_eq_true, decide_eq_true_eq]
    exact ⟨after, tail⟩
  rw [entries, selectActive] at inside
  rcases mem_cons.mp inside with rfl | listed
  · exact Nat.lt_irrefl _ older
  · have scanned := (mem_filter.mp listed).1
    rw [scanBounds_eq, head] at scanned
    have low := (mem_filter.mp scanned).2
    simp only [within, map_some, all_some, Bool.and_eq_true, decide_eq_true_eq] at low
    exact Nat.not_lt.mpr low.1 below

/-! ### Sequences of reads -/

/-- A read: the history at that time, and the cut-off. -/
abbrev Read := History × Option EntryId

/-- Reads in order, each passed the range the last one returned. A read that fails returns none. -/
def readAll : Option ContextRange → List Read → List (Except ContextError ContextView)
  | _, [] => []
  | previous, (h, at_) :: later =>
    match readContextFrom h at_ previous with
    | .error e => .error e :: readAll previous later
    | .ok (view, range) => .ok view :: readAll range later

/-- **The condition**: no read of the sequence, after a read with the same marker and an earlier tail,
sees entries behind that tail and before the marker's head. -/
def NothingSkipped : Option ContextBounds → List Read → Prop
  | _, [] => True
  | previous, (h, at_) :: later =>
    match captureContextBounds h at_ with
    | .error _ => NothingSkipped previous later
    | .ok none => NothingSkipped none later
    | .ok (some bounds) =>
      (∀ p, previous = some p → ¬Skips h p bounds) ∧ NothingSkipped (some bounds) later

theorem readAll_iff {previous : Option ContextRange} {reads : List Read}
    (grows : reads.Pairwise fun r s => r.1.Grows s.1)
    (coherent : ∀ range, previous = some range → ∀ r ∈ reads, Coherent r.1 range) :
    readAll previous reads = reads.map (fun r => readContext r.1 r.2) ↔
      NothingSkipped (previous.map ContextRange.bounds) reads := by
  induction reads generalizing previous with
  | nil => exact ⟨fun _ => trivial, fun _ => rfl⟩
  | cons read later ih =>
    obtain ⟨h, at_⟩ := read
    obtain ⟨first, rest⟩ := List.pairwise_cons.mp grows
    have full : readContext h at_ = (captureContextBounds h at_).map _ := rfl
    have reused : readContextFrom h at_ previous = (captureContextBounds h at_).map _ := rfl
    rw [readAll, NothingSkipped, map_cons]
    dsimp only
    rw [full, reused]
    cases captures : captureContextBounds h at_ with
    | error e =>
      simp only [Except.map, List.cons.injEq, true_and]
      exact ih rest fun range held r member => coherent range held r (mem_cons_of_mem _ member)
    | ok found =>
      cases found with
      | none =>
        simp only [Except.map, List.cons.injEq, true_and]
        exact ih rest fun range held => by cases held
      | some bounds =>
        have captured := captured_of_captureContextBounds captures
        have next : ∀ range, some (deriveRange bounds (scanBounds h bounds)) = some range →
            ∀ r ∈ later, Coherent r.1 range := by
          intro range held r member
          cases held
          exact (coherent_deriveRange captured).grows (first r member)
        simp only [Except.map, List.cons.injEq, Except.ok.injEq]
        by_cases exact_ : ∀ p, previous.map ContextRange.bounds = some p → ¬Skips h p bounds
        · have range_eq : rangeFrom h previous bounds = deriveRange bounds (scanBounds h bounds) := by
            cases previous with
            | none => rfl
            | some range =>
              exact rangeFrom_eq (coherent range rfl _ mem_cons_self) captured (exact_ _ rfl)
          rw [range_eq, ih rest next]
          exact ⟨fun ⟨_, holds⟩ => ⟨exact_, holds⟩, fun ⟨_, holds⟩ => ⟨rfl, holds⟩⟩
        · refine ⟨fun ⟨views, _⟩ => ?_, fun ⟨holds, _⟩ => (exact_ holds).elim⟩
          simp only [not_forall, Classical.not_not] at exact_
          obtain ⟨p, before, skips⟩ := exact_
          obtain ⟨range, rfl, rfl⟩ := Option.map_eq_some_iff.mp before
          exact (skipped_view (coherent range rfl _ mem_cons_self) captured skips views).elim

/-- No head lies behind its own marker. -/
def HeadsBack (h : History) : Prop :=
  ∀ e ∈ h.visible, ∀ head, e.head = some head → head ≤ e.id

/-- **Where no head lies behind its own marker, nothing is skipped.** -/
theorem nothingSkipped_of_headsBack {previous : Option ContextBounds} {reads : List Read}
    (back : ∀ r ∈ reads, HeadsBack r.1)
    (older : ∀ p, previous = some p → ∀ m, p.head = some m → m.entry.id ≤ p.tail) :
    NothingSkipped previous reads := by
  induction reads generalizing previous with
  | nil => trivial
  | cons read later ih =>
    obtain ⟨h, at_⟩ := read
    have rest : ∀ r ∈ later, HeadsBack r.1 := fun r member => back r (mem_cons_of_mem _ member)
    rw [NothingSkipped]
    cases captures : captureContextBounds h at_ with
    | error e => exact ih rest older
    | ok found =>
      cases found with
      | none => exact ih rest fun p held => by cases held
      | some bounds =>
        have captured := captured_of_captureContextBounds captures
        have below : ∀ m, bounds.head = some m → m.entry ∈ h.visible ∧ m.entry.id ≤ bounds.tail :=
          fun m head => mem_of_newestMarker (captured.head.symm.trans head)
        refine ⟨fun p held skips => ?_, ih rest fun q same m head => ?_⟩
        · obtain ⟨same, -, marker, head, e, -, after, -, before⟩ := skips
          rw [head] at same
          obtain ⟨earlier, had, id⟩ := Option.map_eq_some_iff.mp same
          have first := older p held earlier had
          have own := back _ mem_cons_self _ (below marker head).1 _ marker.marks
          rw [id] at first
          exact Nat.lt_irrefl _ (Nat.lt_of_lt_of_le
            (Nat.lt_trans after before) (Nat.le_trans own first))
        · cases same
          exact (below m head).2

/-- **Incremental context equals full context, exactly when nothing is skipped.** For every sequence of
reads of a history that grows between them, at any cut-offs. -/
theorem readAll_eq_iff {reads : List Read} (grows : reads.Pairwise fun r s => r.1.Grows s.1) :
    readAll none reads = reads.map (fun r => readContext r.1 r.2) ↔ NothingSkipped none reads :=
  readAll_iff grows fun _ held => by cases held

/-- A conversation of a first message and a marker, with its head, and later one message more. -/
def messageEntry (id : EntryId) (head : Option EntryId) : EntryRecord :=
  ⟨id, text "tg.user", some [.user .null], head, none⟩

def markedHistory (head : EntryId) : History where
  lineage := .root [messageEntry 1 none, messageEntry 2 (some head)]
  ordered := by simp [Lineage.Ordered, Ascending, messageEntry]

def grownHistory (head : EntryId) : History where
  lineage := .root [messageEntry 1 none, messageEntry 2 (some head), messageEntry 3 none]
  ordered := by simp [Lineage.Ordered, Ascending, messageEntry]

theorem markedHistory_grows (head : EntryId) : (markedHistory head).Grows (grownHistory head) :=
  .root _ [messageEntry 3 none]

/-- Two reads of a conversation with a marker whose head is the marker itself. -/
theorem readAll_marked :
    readAll none [(markedHistory 2, none), (grownHistory 2, none)] =
      [(markedHistory 2, none), (grownHistory 2, none)].map fun r => readContext r.1 r.2 := by
  refine (readAll_eq_iff ?_).mpr (nothingSkipped_of_headsBack ?_ fun _ held => by cases held)
  · simpa using markedHistory_grows 2
  · intro r member e visible head carries
    simp only [mem_cons, not_mem_nil, or_false] at member
    rcases member with rfl | rfl <;>
      simp only [History.visible, Lineage.visible, markedHistory, grownHistory, mem_cons,
        not_mem_nil, or_false] at visible <;>
      rcases visible with rfl | rfl | rfl <;> cases carries <;> exact Nat.le_refl _

/-- A marker whose head is an entry still to come: the second read returns entry 3, which the full read
leaves out. -/
theorem readAll_picks_up_skipped :
    [(markedHistory 4, (none : Option EntryId)), (grownHistory 4, none)].Pairwise
        (fun r s => r.1.Grows s.1) ∧
      readAll none [(markedHistory 4, none), (grownHistory 4, none)] ≠
        [(markedHistory 4, none), (grownHistory 4, none)].map fun r => readContext r.1 r.2 := by
  refine ⟨by simpa using markedHistory_grows 4, fun same => ?_⟩
  have ids := congrArg (List.map fun view : Except ContextError ContextView =>
    view.toOption.map fun v => v.entries.map EntryRecord.id) same
  revert ids
  decide +kernel

end TianGong.Gibraltar
