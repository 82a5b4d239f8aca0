/-
**Scans of visible entries, page by page.**

A page ends at an id, and the next one goes on behind that id. So the pages together show every visible
entry only where the walk goes through the ids in order, which it does where each conversation's own
entries lie above the inherited ones.

* `scanEntries_eq`: a page is a page of the visible entries behind the cursor.
* `visibleIds_descending`: the walk goes through descending ids where the chain is `InOrder`.
* `entry_reads_agree`: all reads of a conversation agree on what is visible.
-/

import TianGong.Storage.EntryVisibility

namespace TianGong.Storage

open TianGong.Lib
open List Option

variable {state : State}

/-! ### The entries of some ids -/

theorem mem_entriesOf {ids : List EntryId} {entry : EntryRecord} (indexed : EntriesIndexed state) :
    entry ∈ state.entriesOf ids ↔ entry.id ∈ ids ∧ Assoc.get entry.id state.entries = some entry := by
  rw [State.entriesOf, mem_filterMap]
  constructor
  · rintro ⟨id, member, found⟩
    obtain rfl := (indexed.stored id entry found).1
    exact ⟨member, found⟩
  · rintro ⟨member, found⟩
    exact ⟨entry.id, member, found⟩

theorem filter_entriesOf (indexed : EntriesIndexed state) (p : EntryId → Bool) (ids : List EntryId) :
    (state.entriesOf ids).filter (fun entry => p entry.id) = state.entriesOf (ids.filter p) := by
  induction ids with
  | nil => rfl
  | cons id rest ih =>
    rw [State.entriesOf, filterMap_cons]
    cases found : Assoc.get id state.entries with
    | none =>
      dsimp only
      by_cases keep : p id = true
      · rw [filter_cons_of_pos keep, State.entriesOf, filterMap_cons, found]
        exact ih
      · rw [filter_cons_of_neg keep]
        exact ih
    | some entry =>
      obtain rfl := (indexed.stored id entry found).1
      dsimp only
      by_cases keep : p entry.id = true
      · rw [filter_cons_of_pos (p := fun entry : EntryRecord => p entry.id) keep,
          filter_cons_of_pos keep, State.entriesOf, filterMap_cons, found]
        exact congrArg _ ih
      · rw [filter_cons_of_neg (p := fun entry : EntryRecord => p entry.id) keep,
          filter_cons_of_neg keep]
        exact ih

/-- The ids of the entries that are stored under some ids. -/
theorem ids_entriesOf (indexed : EntriesIndexed state) (ids : List EntryId) :
    ((state.entriesOf ids).map EntryRecord.id).Sublist ids := by
  induction ids with
  | nil => exact .slnil
  | cons id rest ih =>
    rw [State.entriesOf, filterMap_cons]
    cases found : Assoc.get id state.entries with
    | none => exact ih.cons id
    | some entry =>
      obtain rfl := (indexed.stored id entry found).1
      exact ih.cons_cons entry.id

/-! ### Order -/

/-- **The own entries of each conversation of a chain lie above the inherited ones.** -/
def InOrder (state : State) (conversation : ConversationId) (bound : Option Int) : Prop :=
  ∀ fork last parent ancestor older, OnChain state conversation bound fork last →
    state.parentOf fork = some parent →
    OnChain state parent.conversationId (some (narrowed last parent.at_)) ancestor older →
    ∀ own ∈ idsOf state.entryIds fork, within last own = true →
    ∀ old ∈ idsOf state.entryIds ancestor, within older old = true → old < own

variable {conversation : ConversationId}

theorem segments_onChain {fuel : Nat} {bound : Option Int} {segment : ConversationId × Option Int}
    (member : segment ∈ state.segmentsLoop none fuel conversation bound) :
    OnChain state conversation bound segment.1 segment.2 := by
  induction fuel generalizing conversation bound with
  | zero => exact absurd member not_mem_nil
  | succ fuel ih =>
    rw [State.segmentsLoop] at member
    rcases List.mem_cons.mp member with rfl | later
    · exact .here _ _
    · cases fork : state.parentOf conversation with
      | none => rw [fork] at later; exact absurd later not_mem_nil
      | some parent =>
        rw [fork] at later
        exact .up fork (ih later)

theorem walk_descending (indexed : EntriesIndexed state) (fuel : Nat) {bound : Option Int}
    (inOrder : InOrder state conversation bound) :
    (state.walk none (state.segmentsLoop none fuel conversation bound)).Pairwise
      fun a b => b < a := by
  induction fuel generalizing conversation bound with
  | zero => exact .nil
  | succ fuel ih =>
    have own : (state.idsIn none (conversation, bound)).reverse.Pairwise fun a b => b < a :=
      List.pairwise_reverse.mpr ((indexed.sorted conversation).filter _)
    rw [State.segmentsLoop, walk_cons]
    cases fork : state.parentOf conversation with
    | none =>
      refine List.pairwise_append.mpr ⟨own, .nil, fun _ _ _ later => absurd later not_mem_nil⟩
    | some parent =>
      refine List.pairwise_append.mpr ⟨own, ih ?_, fun id inside old later => ?_⟩
      · exact fun child last source ancestor older chain => inOrder child last source ancestor older
          (.up fork chain)
      · obtain ⟨segment, member, there⟩ := List.mem_flatMap.mp later
        have insideIds := List.mem_filter.mp (List.mem_reverse.mp inside)
        have thereIds := List.mem_filter.mp (List.mem_reverse.mp there)
        exact inOrder conversation bound parent segment.1 segment.2 (.here _ _) fork
          (segments_onChain member) id insideIds.1 (Bool.and_eq_true_iff.mp insideIds.2).2 old
          thereIds.1 (Bool.and_eq_true_iff.mp thereIds.2).2

theorem visibleIds_descending (indexed : EntriesIndexed state)
    (inOrder : InOrder state conversation none) :
    (state.visibleIds conversation).Pairwise fun a b => b < a :=
  walk_descending indexed _ inOrder

/-! ### Pages -/

/-- The visible entries between two bounds, newest segment first. -/
def State.visibleRows (state : State) (conversation : ConversationId) (min max : Option Int) :
    List EntryRecord :=
  state.entriesOf ((state.visibleIds conversation).filter fun id => reaches min id && within max id)

/-- The rows in the order of a scan. -/
def ScanOrder.arrange (order : ScanOrder) (rows : List EntryRecord) : List EntryRecord :=
  match order with
  | .descending => rows
  | .ascending => rows.reverse

/-- What a scan shows first. -/
def ScanOrder.before (order : ScanOrder) (a b : Nat) : Bool :=
  match order with
  | .descending => decide (b < a)
  | .ascending => decide (a < b)

/-- The rows that are left when the cursor narrows the upper bound. -/
theorem rows_behind_descending (indexed : EntriesIndexed state) (conversation : ConversationId)
    (low high : Option Int) (after : Nat) :
    state.visibleRows conversation low (some (min (high.getD after) (after - 1))) =
      behind ScanOrder.descending.before EntryRecord.id (some after)
        (state.visibleRows conversation low high) := by
  simp only [behind, all_some, State.visibleRows]
  rw [filter_entriesOf indexed fun id => ScanOrder.descending.before after id, List.filter_filter]
  refine congrArg _ (filter_congr fun id _ => ?_)
  rw [← Bool.and_assoc, Bool.and_comm (ScanOrder.before _ _ _), Bool.and_assoc]
  refine congrArg _ ?_
  cases high with
  | none =>
    simp only [within, ScanOrder.before, all_some, all_none, getD_none,
      Bool.and_true, decide_eq_decide]
    omega
  | some high =>
    simp only [within, ScanOrder.before, all_some, getD_some]
    rw [← Bool.decide_and, decide_eq_decide]
    omega

/-- The rows that are left when the cursor narrows the lower bound. -/
theorem rows_behind_ascending (indexed : EntriesIndexed state) (conversation : ConversationId)
    (low high : Option Int) (after : Nat) :
    (state.visibleRows conversation (some (max (low.getD after) (after + 1))) high).reverse =
      behind ScanOrder.ascending.before EntryRecord.id (some after)
        (state.visibleRows conversation low high).reverse := by
  simp only [behind, all_some, State.visibleRows, filter_reverse]
  rw [filter_entriesOf indexed fun id => ScanOrder.ascending.before after id, List.filter_filter]
  refine congrArg (fun ids => (state.entriesOf ids).reverse) (filter_congr fun id _ => ?_)
  rw [← Bool.and_assoc]
  refine congrArg (· && _) ?_
  cases low with
  | none =>
    simp only [reaches, ScanOrder.before, all_some, all_none, getD_none,
      Bool.and_true, decide_eq_decide]
    omega
  | some low =>
    simp only [reaches, ScanOrder.before, all_some, getD_some]
    rw [← Bool.decide_and, decide_eq_decide]
    omega

section Pages

variable (indexed : EntriesIndexed state) {query : EntryQuery}
  (known : Assoc.has query.conversationId state.conversations = true)

/-- The bounds of a query, as the reads take them. -/
def EntryQuery.rows (query : EntryQuery) (state : State) : List EntryRecord :=
  state.visibleRows query.conversationId (boundOf query.minEntryId) (boundOf query.maxEntryId)

include indexed known

/-- **A page is one of the visible entries behind the cursor.** -/
theorem scanEntries_eq {order : ScanOrder} (asked : query.order.getD .descending = order)
    (limit : Nat) (after : Option Nat) :
    state.scanEntries query limit (after.map fun id => ⟨id, some order⟩) =
      .ok ((page EntryRecord.id limit
          (behind order.before EntryRecord.id after (order.arrange (query.rows state)))).1,
        (page EntryRecord.id limit (behind order.before EntryRecord.id after
          (order.arrange (query.rows state)))).2.map fun id => ⟨id, some order⟩) := by
  have start : scanStart query.order (after.map fun id => ⟨id, some order⟩) .descending =
      .ok (order, after) := by
    cases after with
    | none => rw [← asked]; rfl
    | some after =>
      cases requested : query.order with
      | none => rfl
      | some other =>
        rw [requested] at asked
        cases asked
        have same : (some other).filter (fun requested => decide (requested ≠ other)) = none :=
          filter_some_neg (by simp)
        simp only [scanStart, map_some, getD_some, same]
  rw [State.scanEntries, start]
  dsimp only [bind, Except.bind]
  cases order with
  | descending =>
    dsimp only
    rw [visibleEntries_eq indexed known]
    dsimp only
    rw [page_take]
    cases after with
    | none => rw [behind_none]; rfl
    | some after =>
      have rows := rows_behind_descending indexed query.conversationId
        (boundOf query.minEntryId) (boundOf query.maxEntryId) after
      rw [State.visibleRows] at rows
      dsimp only
      rw [rows]
      rfl
  | ascending =>
    dsimp only
    rw [visibleEntriesAscending_eq indexed known]
    dsimp only
    rw [page_take]
    cases after with
    | none => rw [behind_none]; rfl
    | some after =>
      have rows := rows_behind_ascending indexed query.conversationId
        (boundOf query.minEntryId) (boundOf query.maxEntryId) after
      rw [State.visibleRows] at rows
      dsimp only
      rw [rows]
      rfl

/-- A page that is large enough shows all. -/
theorem scanEntries_whole {order : ScanOrder} (asked : query.order.getD .descending = order)
    {limit : Nat} (fits : (query.rows state).length ≤ limit) :
    state.scanEntries query limit none = .ok (order.arrange (query.rows state), none) := by
  have fits' : (order.arrange (query.rows state)).length ≤ limit := by
    cases order with
    | descending => exact fits
    | ascending => exact List.length_reverse.trans_le fits
  have first := scanEntries_eq indexed known asked limit none
  rw [behind_none, page, if_pos fits', take_of_length_le fits'] at first
  exact first

/-- The pages that follow the cursors are those of a chain of pages. -/
theorem followCursors_eq {order : ScanOrder} (asked : query.order.getD .descending = order)
    (limits : List Nat) (after : Option Nat) :
    state.followCursors query limits (after.map fun id => ⟨id, some order⟩) =
      .ok (followPages (fun limit cursor => page EntryRecord.id limit
        (behind order.before EntryRecord.id cursor (order.arrange (query.rows state)))) limits after) := by
  induction limits generalizing after with
  | nil => rfl
  | cons limit limits ih =>
    rw [State.followCursors, scanEntries_eq indexed known asked, followPages]
    dsimp only [bind, Except.bind]
    cases (page EntryRecord.id limit
        (behind order.before EntryRecord.id after (order.arrange (query.rows state)))).2 with
    | none =>
      dsimp only [map_none]
      rw [append_nil]
      rfl
    | some next =>
      dsimp only [map_some]
      have rest := ih (some next)
      rw [map_some] at rest
      rw [rest]
      rfl

end Pages

/-! ### What each read shows -/

theorem reaches_boundOf {min : Option EntryId} {id : EntryId} :
    reaches (boundOf min) id = true ↔ ∀ low ∈ min, low ≤ id := by
  cases min with
  | none => simp [reaches, boundOf]
  | some low => simp [reaches, boundOf]

theorem within_boundOf {max : Option EntryId} {id : EntryId} :
    within (boundOf max) id = true ↔ ∀ high ∈ max, id ≤ high := by
  cases max with
  | none => simp [within, boundOf]
  | some high => simp [within, boundOf]

section Shown

variable (indexed : EntriesIndexed state) (forest : Forest state) (conversation : ConversationId)

include indexed

/-- The rows within bounds are descending where the walk is. -/
theorem visibleRows_descending (inOrder : InOrder state conversation none) (low high : Option Int) :
    (state.visibleRows conversation low high).Pairwise fun e f => f.id < e.id := by
  have ids := (visibleIds_descending indexed inOrder).filter fun id => reaches low id && within high id
  exact List.pairwise_map.mp (ids.sublist (ids_entriesOf indexed _))

include forest

/-- **The rows within bounds are the visible entries within them, each once.** -/
theorem visibleRows_spec (min max : Option EntryId) :
    ((state.visibleRows conversation (boundOf min) (boundOf max)).map EntryRecord.id).Nodup ∧
      ∀ entry, entry ∈ state.visibleRows conversation (boundOf min) (boundOf max) ↔
        Visible state conversation entry ∧ (∀ low ∈ min, low ≤ entry.id) ∧
          ∀ high ∈ max, entry.id ≤ high := by
  have once := visibleIds_nodup indexed forest conversation
  refine ⟨(once.filter _).sublist (ids_entriesOf indexed _), fun entry => ?_⟩
  rw [State.visibleRows, mem_entriesOf indexed, mem_filter, mem_visibleIds indexed forest,
    Bool.and_eq_true, reaches_boundOf, within_boundOf]
  constructor
  · rintro ⟨⟨⟨other, found, visible⟩, inside⟩, stored⟩
    rw [stored] at found
    exact ⟨Option.some.inj found ▸ visible, inside⟩
  · rintro ⟨visible, inside⟩
    exact ⟨⟨⟨entry, visible.1, visible⟩, inside⟩, visible.1⟩

variable {conversation} (known : Assoc.has conversation state.conversations = true)

include known

/-- **A point read shows an entry exactly where it is visible**, with the commit that wrote it. -/
theorem entry_spec (id : EntryId) :
    ∃ found, state.entry conversation id = .ok found ∧
      (found.isSome = true ↔ ∃ entry, Visible state conversation entry ∧ entry.id = id) ∧
      ∀ entry seq, found = some (entry, seq) → Visible state conversation entry ∧ entry.id = id ∧
        Assoc.get id state.entryCommitSeqs = some seq := by
  obtain ⟨_, members⟩ := visibleRows_spec indexed forest conversation (some id) (some id)
  have exact_ : ∀ entry, entry ∈ state.visibleRows conversation (some (id : Int)) (some (id : Int)) ↔
      Visible state conversation entry ∧ entry.id = id := by
    intro entry
    refine (members entry).trans (and_congr_right fun _ => ?_)
    constructor
    · rintro ⟨low, high⟩
      exact Nat.le_antisymm (high id rfl) (low id rfl)
    · rintro rfl
      constructor
      · rintro _ ⟨⟩
        exact Nat.le_refl _
      · rintro _ ⟨⟩
        exact Nat.le_refl _
  rw [State.entry, visibleEntries_eq indexed known]
  refine ⟨_, rfl, ?_, fun entry seq found => ?_⟩
  · cases rows : state.visibleRows conversation (some (id : Int)) (some (id : Int)) with
    | nil =>
      rw [State.visibleRows] at rows
      rw [rows]
      refine ⟨fun absent => (by cases absent), fun ⟨entry, shown⟩ => ?_⟩
      have member := (exact_ entry).mpr shown
      rw [State.visibleRows, rows] at member
      exact absurd member not_mem_nil
    | cons first rest =>
      have shown := (exact_ first).mp (rows ▸ mem_cons_self)
      rw [State.visibleRows] at rows
      rw [rows, List.head?_cons, bind_some]
      have stamped := indexed.stamped id
      rw [← shown.2, shown.1.1, isSome_some] at stamped
      rw [isSome_map, ← shown.2, stamped]
      exact ⟨fun _ => ⟨first, shown.1, rfl⟩, fun _ => rfl⟩
  · obtain ⟨first, head, later⟩ := Option.bind_eq_some_iff.mp found
    obtain ⟨stamp, stamped, same⟩ := Option.map_eq_some_iff.mp later
    cases same
    have shown := (exact_ entry).mp (mem_of_head? head)
    exact ⟨shown.1, shown.2, stamped⟩

/-- A visible head at or below a bound. -/
def Selects (state : State) (conversation : ConversationId) (bound : Option EntryId)
    (entry : EntryRecord) : Prop :=
  Visible state conversation entry ∧ entry.head.isSome = true ∧ ∀ high ∈ bound, entry.id ≤ high

/-- **The head that is found is visible, and the newest one where the walk is in order.** -/
theorem findLatestHeadMarker_spec (bound : Option EntryId) :
    ∃ found, state.findLatestHeadMarker conversation bound = .ok found ∧
      (∀ head, found = some head → Selects state conversation bound head) ∧
      (found = none → ∀ entry, ¬ Selects state conversation bound entry) ∧
      (InOrder state conversation none → ∀ head, found = some head →
        ∀ other, Selects state conversation bound other → other.id ≤ head.id) := by
  have chosen : ∀ id, id ∈ (state.visibleIds conversation).filter (fun id =>
      within (boundOf bound) id && state.isHead id) ↔
      ∃ entry, Assoc.get id state.entries = some entry ∧ Selects state conversation bound entry := by
    intro id
    rw [mem_filter, mem_visibleIds indexed forest, Bool.and_eq_true, within_boundOf]
    constructor
    · rintro ⟨⟨entry, found, visible⟩, low, head⟩
      rw [State.isHead, found] at head
      exact ⟨entry, found, visible, head, (indexed.stored id entry found).1.symm ▸ low⟩
    · rintro ⟨entry, found, visible, head, low⟩
      refine ⟨⟨entry, found, visible⟩, (indexed.stored id entry found).1 ▸ low, ?_⟩
      rw [State.isHead, found]
      exact head
  refine ⟨_, findLatestHeadMarker_eq indexed known bound, fun head found => ?_, fun none_ => ?_,
    fun inOrder head found other selected => ?_⟩
  · obtain ⟨id, first, stored⟩ := Option.bind_eq_some_iff.mp found
    obtain ⟨entry, same, selects⟩ := (chosen id).mp (mem_of_head? first)
    rw [stored] at same
    exact Option.some.inj same ▸ selects
  · intro entry selected
    have member := (chosen entry.id).mpr ⟨entry, selected.1.1, selected⟩
    cases rows : (state.visibleIds conversation).filter fun id =>
        within (boundOf bound) id && state.isHead id with
    | nil => rw [rows] at member; exact absurd member not_mem_nil
    | cons id rest =>
      obtain ⟨stored, found, _⟩ := (chosen id).mp (rows ▸ mem_cons_self)
      rw [rows, List.head?_cons, bind_some, found] at none_
      cases none_
  · have sorted := (visibleIds_descending indexed inOrder).filter fun id =>
      within (boundOf bound) id && state.isHead id
    have member := (chosen other.id).mpr ⟨other, selected.1.1, selected⟩
    obtain ⟨id, first, stored⟩ := Option.bind_eq_some_iff.mp found
    rw [(indexed.stored id head stored).1]
    obtain ⟨rest, rows⟩ := List.head?_eq_some_iff.mp first
    rw [rows] at sorted member
    rcases List.mem_cons.mp member with rfl | later
    · exact Nat.le_refl _
    · exact Nat.le_of_lt ((List.pairwise_cons.mp sorted).1 _ later)

end Shown

/-! ### The reads agree -/

/-- **The reads of a conversation agree on what is visible in it.** Where its chain is in order, following
cursors shows each visible entry within the bounds once and in order, and the head that is found is the
newest one. -/
theorem entry_reads_agree {admits : State → List Write → Prop} {state : State}
    (reachable : Reachable admits state) (forest : Forest state) {conversation : ConversationId}
    (known : Assoc.has conversation state.conversations = true) :
    (∀ min max : Option EntryId, ∃ rows : List EntryRecord, (rows.map EntryRecord.id).Nodup ∧
      (∀ entry, entry ∈ rows ↔ Visible state conversation entry ∧ (∀ low ∈ min, low ≤ entry.id) ∧
        ∀ high ∈ max, entry.id ≤ high) ∧
      (∀ limit, rows.length ≤ limit →
        state.scanEntries ⟨conversation, min, max, some .descending⟩ limit none = .ok (rows, none) ∧
          state.scanEntries ⟨conversation, min, max, some .ascending⟩ limit none =
            .ok (rows.reverse, none)) ∧
      (InOrder state conversation none → rows.Pairwise (fun e f => f.id < e.id) ∧
        ∀ order limits, (∀ limit ∈ limits, 0 < limit) → rows.length < limits.length →
          state.followCursors ⟨conversation, min, max, order⟩ limits none =
            .ok ((order.getD .descending).arrange rows))) ∧
      (∀ id, ∃ found, state.entry conversation id = .ok found ∧
        (found.isSome = true ↔ ∃ entry, Visible state conversation entry ∧ entry.id = id) ∧
        ∀ entry seq, found = some (entry, seq) → Visible state conversation entry ∧ entry.id = id ∧
          Assoc.get id state.entryCommitSeqs = some seq) ∧
      ∀ bound, ∃ found, state.findLatestHeadMarker conversation bound = .ok found ∧
        (∀ head, found = some head → Selects state conversation bound head) ∧
        (found = none → ∀ entry, ¬ Selects state conversation bound entry) ∧
        (InOrder state conversation none → ∀ head, found = some head →
          ∀ other, Selects state conversation bound other → other.id ≤ head.id) := by
  have indexed := reachable.entriesIndexed
  refine ⟨fun min max => ?_, entry_spec indexed forest known,
    findLatestHeadMarker_spec indexed forest known⟩
  obtain ⟨once, members⟩ := visibleRows_spec indexed forest conversation min max
  refine ⟨_, once, members, fun limit fits => ⟨?_, ?_⟩, fun inOrder => ?_⟩
  · exact @scanEntries_whole state indexed ⟨conversation, min, max, some .descending⟩ known .descending
      rfl limit fits
  · exact @scanEntries_whole state indexed ⟨conversation, min, max, some .ascending⟩ known .ascending
      rfl limit fits
  · have sorted := visibleRows_descending indexed conversation inOrder (boundOf min) (boundOf max)
    refine ⟨sorted, fun order limits positive enough => ?_⟩
    refine (@followCursors_eq state indexed ⟨conversation, min, max, order⟩ known _ rfl limits
      none).trans (congrArg _ ?_)
    dsimp only [EntryQuery.rows]
    cases order.getD .descending with
    | descending =>
      refine followPages_eq (fun a b less => ?_) (sorted.imp fun less => decide_eq_true less) positive
        enough
      exact decide_eq_false (Nat.lt_asymm (of_decide_eq_true less))
    | ascending =>
      refine followPages_eq (fun a b less => ?_)
        (List.pairwise_reverse.mpr (sorted.imp fun less => decide_eq_true less)) positive
        (List.length_reverse.trans_lt enough)
      exact decide_eq_false (Nat.lt_asymm (of_decide_eq_true less))

/-- Conversations that are forked from ones with smaller ids form a forest. -/
theorem forest_of_less (less : ∀ fork parent, state.parentOf fork = some parent →
    parent.conversationId < fork) : Forest state := by
  refine Subrelation.wf (r := fun a b : Nat => a < b) ?_ Nat.lt_wfRel.wf
  rintro source fork ⟨parent, forked, rfl⟩
  exact less fork parent forked

/-- A fork at `at_`, an entry of the fork, and two entries of its source. -/
def forkWrites (at_ own : EntryId) : List Write :=
  [.conversation ⟨2, none, none⟩, .entry ⟨10, 2, some 10, .null⟩, .entry ⟨20, 2, none, .null⟩,
    .conversation ⟨3, some ⟨2, at_⟩, none⟩, .entry ⟨own, 3, none, .null⟩]

theorem forest_of_fork {at_ : EntryId}
    (shape : state.conversations = [(2, ⟨2, none, none⟩), (3, ⟨3, some ⟨2, at_⟩, none⟩)]) :
    Forest state := by
  refine forest_of_less fun fork parent forked => ?_
  rw [State.parentOf, shape, Assoc.get, Assoc.get, Assoc.get] at forked
  split at forked
  · cases forked
  · split at forked
    · rename_i here
      cases forked
      rw [← here]
      exact Nat.lt_succ_self 2
    · cases forked

/-- In a fork at entry 20, entry 10 is the head that is found, and it is visible. -/
theorem entry_reads_agree_fork :
    Selects (committed {} (forkWrites 20 30)) 3 none ⟨10, 2, some 10, .null⟩ := by
  have accepted : commit {} (forkWrites 20 30) = .ok (committed {} (forkWrites 20 30)) := rfl
  obtain ⟨found, read, selects, _⟩ :=
    (@entry_reads_agree (fun _ _ => True) (committed {} (forkWrites 20 30))
      (.commit .empty trivial accepted) (forest_of_fork rfl) 3 rfl).2.2 none
  exact selects _ (Except.ok.inj read).symm

/-- **Following cursors misses an entry** that was inherited below a fork point above the fork's own
entries: entry 20 of conversation 2, which conversation 3 was forked from at entry 30, lies behind the
cursor of entry 15. -/
theorem followCursors_misses :
    ∃ (state : State) (entry : EntryRecord) (rows : List EntryRecord) (limits : List Nat),
      Reachable (fun _ _ => True) state ∧ Forest state ∧
        Assoc.has 3 state.conversations = true ∧ Visible state 3 entry ∧
        (∀ limit ∈ limits, 0 < limit) ∧ rows.length < limits.length ∧
        state.followCursors ⟨3, none, none, none⟩ limits none = .ok rows ∧ entry ∉ rows := by
  have accepted : commit {} (forkWrites 30 15) = .ok (committed {} (forkWrites 30 15)) := rfl
  refine ⟨committed {} (forkWrites 30 15), ⟨20, 2, none, .null⟩,
    [⟨15, 3, none, .null⟩, ⟨10, 2, some 10, .null⟩], [1, 1, 1],
    .commit .empty trivial accepted, forest_of_fork rfl, rfl,
    ⟨rfl, some 30, .up rfl (.here _ _), rfl⟩, by decide, by decide, rfl, ?_⟩
  simp

end TianGong.Storage
