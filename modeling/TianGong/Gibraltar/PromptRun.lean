/-
**A planned prompt is the prompt of the next context.**

The entries of `planSystemEntries` are appended to the conversation whose context was planned for, and the
context is read again.

* `systemChanges_minimal`, `Appended.systemChanges_rebaseline`: what an appended plan adds, and
  what a baseline leaves.
* `planSystemEntries_reaches`: the sections and tools of the next context are the desired ones, and
  nothing is left to plan.
* `planSystemEntries_integer_like`: section keys that are array indices are listed first.
-/

import TianGong.Gibraltar.Compaction
import TianGong.Gibraltar.Prompt

namespace TianGong.Gibraltar

open TianGong.Lib TianGong.Ai
open List

/-! ### The system messages of a context -/

theorem systemChanges_append_list (first more : List Sent) :
    systemChanges (first ++ more) = systemChanges first ++ systemChanges more :=
  filterMap_append

/-- Only system messages change sections and tools. -/
theorem systemChanges_eq_nil {messages : List Sent} (none : ∀ m ∈ messages, m.isSystem = false) :
    systemChanges messages = [] := by
  refine List.filterMap_eq_nil_iff.mpr fun m member => ?_
  have other := none m member
  obtain ⟨slot, message⟩ := m
  cases message with
  | system content => cases other
  | _ => rfl

theorem not_isSystem_of_isToolResult {m : Sent} (result : m.isToolResult = true) :
    m.isSystem = false := by
  obtain ⟨slot, message⟩ := m
  cases message with
  | toolResult => rfl
  | _ => cases result

/-- **Ordering tool results leaves the system messages in order.** -/
theorem systemChanges_orderToolResults (messages : List Sent) :
    systemChanges (orderToolResults messages) = systemChanges messages := by
  induction messages with
  | nil => rfl
  | cons m later ih =>
    obtain ⟨slot, message⟩ := m
    cases message with
    | system content => exact congrArg (changesOf content :: ·) ih
    | user content => exact ih
    | toolResult => exact ih
    | assistant content stopReason timestamp =>
      show systemChanges ((toolCalls content).map (resultOf timestamp later) ++
        orderToolResults later) = _
      rw [systemChanges_append_list, ih, systemChanges_eq_nil]
      · rfl
      · intro m member
        obtain ⟨call, -, rfl⟩ := mem_map.mp member
        exact not_isSystem_of_isToolResult resultOf_isToolResult

/-- **Only the first system message moves**, so their order stays. -/
theorem systemChanges_leadWithSystem (messages : List Sent) (baseline : Baseline) :
    systemChanges (leadWithSystem messages baseline) = systemChanges messages := by
  unfold leadWithSystem
  split
  · rfl
  · rfl
  · rename_i index found
    split
    · rfl
    · rename_i system there
      split_ifs
      · rfl
      · obtain ⟨bound, at_⟩ := List.getElem?_eq_some_iff.mp there
        have before : systemChanges (messages.take (index + 1)) = [] := by
          refine systemChanges_eq_nil fun m member => ?_
          obtain ⟨i, inside, rfl⟩ := List.mem_take_iff_getElem.mp member
          have first := (List.findIdx?_eq_some_iff_getElem.mp found).2.2 i (by omega)
          simpa using first
        have split : messages = messages.take (index + 1) ++ system :: messages.drop (index + 2) := by
          rw [← at_, ← drop_eq_getElem_cons bound, take_append_drop]
        conv_rhs => rw [split]
        rw [systemChanges_append_list, systemChanges_append_list, before, nil_append]
        show systemChanges ([system] ++ messages.take (index + 1)) ++ _ =
          systemChanges ([system] ++ messages.drop (index + 2))
        rw [systemChanges_append_list, systemChanges_append_list, before, append_nil]

/-- What the entries of a range contribute. -/
def contributed (range active : List EntryRecord) : List Sent :=
  active.flatMap fun e => contribute e (Assoc.get e.id (editsOf range))

/-- **The system messages of a context are those its entries contribute, in order.** -/
theorem systemChanges_view (bounds : ContextBounds) (range : List EntryRecord) :
    systemChanges (deriveRange bounds range).view.messages =
      systemChanges (contributed range (selectActive bounds.head range)) := by
  have ordered (messages : List Sent) :
      systemChanges ((settle [] messages).1 ++ orderToolResults (settle [] messages).2) =
        systemChanges messages := by
    rcases last : findLastIndex Sent.isAssistant messages with _ | _ | k
    · have whole : settle [] messages = ([], messages) := by
        unfold settle
        rw [last]
      rw [whole]
      exact systemChanges_orderToolResults messages
    · rw [settle_of_first last]
      exact systemChanges_orderToolResults messages
    · rw [settle_of_last last]
      dsimp only
      rw [nil_append, systemChanges_append_list, systemChanges_orderToolResults,
        systemChanges_orderToolResults, ← systemChanges_append_list, take_append_drop]
  unfold deriveRange
  dsimp only
  rw [systemChanges_leadWithSystem, ordered, contributed, flatMap_def]

/-! ### Reads of the newest context -/

namespace History

/-- The newest marker of a conversation. -/
def newest (h : History) : Option HeadMarker := (h.visible.filterMap EntryRecord.marker).getLast?

/-- The entries from the newest marker's head on. -/
def current (h : History) : List EntryRecord :=
  h.visible.filter fun e => within (h.newest.map HeadMarker.head) none e.id

theorem newest_mem {h : History} {marker : HeadMarker} (found : h.newest = some marker) :
    marker.entry ∈ h.visible := by
  obtain ⟨e, member, marked⟩ := List.mem_filterMap.mp (mem_of_getLast? found)
  rwa [marker_some marked]

end History

/-- **A read without a cut-off.** -/
theorem readContext_newest (h : History) :
    readContext h none = .ok (deriveRange ⟨h.newest, 0⟩ h.current).view := by
  have rows : (h.scanEntries none none 1 none).1.head? = h.visible.getLast? := by
    have whole : h.visible.filter (fun e => within none none e.id) = h.visible :=
      List.filter_eq_self.mpr fun e _ => rfl
    rw [History.scanEntries, page_take, page, behind_none, visibleEntries_eq h.ordered]
    show (List.take 1 (h.visible.filter fun e => within none none e.id).reverse).head? = _
    rw [whole, List.head?_take, if_neg Nat.one_ne_zero, List.head?_reverse]
  cases last : h.visible.getLast? with
  | none =>
    have empty : h.visible = [] := List.getLast?_eq_none_iff.mp last
    have range : h.current = [] := by rw [History.current, empty]; rfl
    have marker : h.newest = none := by rw [History.newest, empty]; rfl
    unfold readContext captureContextBounds
    dsimp only
    rw [rows, last, range, marker]
    rfl
  | some e =>
    have newestId : ∀ f ∈ h.visible, f.id ≤ e.id := by
      intro f member
      obtain ⟨before, same⟩ := List.getLast?_eq_some_iff.mp last
      have sorted := h.ascending
      rw [same] at sorted member
      rcases List.mem_append.mp member with old | own
      · exact Nat.le_of_lt ((List.pairwise_append.mp sorted).2.2 f old e (mem_singleton_self e))
      · rw [mem_singleton.mp own]
    have reach (lower : Option EntryId) : (h.visible.filter fun f => within lower (some e.id) f.id) =
        h.visible.filter fun f => within lower none f.id := by
      refine filter_congr fun f member => ?_
      simp [within, newestId f member]
    have marker : newestMarker (some e.id) h.visible = h.newest := by
      rw [newestMarker, reach, History.newest]
      congr 2
      exact List.filter_eq_self.mpr fun f _ => rfl
    unfold readContext captureContextBounds
    dsimp only
    rw [rows, last]
    dsimp only
    rw [(findLatestHeadMarker_eq h.lineage (some e.id)).trans marker]
    show Except.ok (deriveRange ⟨h.newest, e.id⟩ (scanBounds h ⟨h.newest, e.id⟩)).view = _
    rw [scanBounds_eq, reach]
    rfl

/-! ### Contexts with a plan behind them -/

/-- The entry that a draft becomes. -/
def SystemDraft.entry (draft : SystemDraft) (id : EntryId) : EntryRecord :=
  ⟨id, SYSTEM_ENTRY, some draft.model, none, draft.edits⟩

/-- Entries as drafts become them, each with some identifier. -/
def Drafted (drafts : List SystemDraft) (entries : List EntryRecord) : Prop :=
  List.Forall₂ (fun draft e => e = draft.entry e.id) drafts entries

variable {e : EntryRecord} {changes : List Changes} {timestamp : JsNumber}

theorem Drafted.mem {drafts : List SystemDraft} {entries : List EntryRecord}
    (drafted : Drafted drafts entries) (member : e ∈ entries) :
    ∃ draft ∈ drafts, e = draft.entry e.id := by
  induction drafted with
  | nil => cases member
  | cons is _ ih =>
    rcases List.mem_cons.mp member with same | later
    · subst same
      exact ⟨_, mem_cons_self, is⟩
    · obtain ⟨draft, there, is⟩ := ih later
      exact ⟨draft, mem_cons_of_mem _ there, is⟩

/-- A conversation that entries were appended to, none of them named by an entry before. -/
structure Appended (h h' : History) (added : List EntryRecord) : Prop where
  visible : h'.visible = h.visible ++ added
  plain : ∀ e ∈ added, e.head = none
  past : ∀ e ∈ h.visible, ∀ new ∈ added,
    ¬e.Edits new.id ∧ ∀ head, e.head = some head → head ≤ new.id

namespace Appended

variable {h h' : History} {added : List EntryRecord} (appended : Appended h h' added)

include appended

theorem newest : h'.newest = h.newest := by
  have none : added.filterMap EntryRecord.marker = [] := by
    refine List.filterMap_eq_nil_iff.mpr fun e member => ?_
    have unmarked := marker_isSome e
    rw [appended.plain e member] at unmarked
    simpa using unmarked
  rw [History.newest, appended.visible, filterMap_append, none, append_nil, History.newest]

theorem current : h'.current = h.current ++ added := by
  rw [History.current, appended.newest, appended.visible, filter_append, History.current]
  refine congrArg (_ ++ ·) (List.filter_eq_self.mpr fun new member => ?_)
  cases found : h.newest with
  | none => rfl
  | some marker =>
    have below := (appended.past _ (History.newest_mem found) new member).2 _ marker.marks
    simpa [within] using below

/-- **The next context** has the added entries behind those of the old one. -/
theorem read : readContext h' none = .ok (deriveRange ⟨h.newest, 0⟩ (h.current ++ added)).view := by
  rw [readContext_newest, appended.newest, appended.current]

theorem active : selectActive h.newest (h.current ++ added) =
    selectActive h.newest h.current ++ added :=
  selectActive_append _ appended.plain

omit appended in
theorem active_mem (member : e ∈ selectActive h.newest h.current) : e ∈ h.visible := by
  cases found : h.newest with
  | none =>
    rw [found] at member
    exact mem_of_mem_filter member
  | some marker =>
    rw [found] at member
    rcases List.mem_cons.mp member with same | plain
    · rw [same]
      exact History.newest_mem found
    · exact mem_of_mem_filter (mem_of_mem_filter plain)

theorem later {new : EntryRecord} (old : e ∈ h.visible) (member : new ∈ added) : e.id < new.id := by
  have sorted := h'.ascending
  rw [appended.visible] at sorted
  exact (List.pairwise_append.mp sorted).2.2 e old new member

/-- An entry of a plan is not edited, by an entry before or by one of the plan. -/
theorem unedited (own : ∀ e ∈ added, ∀ new ∈ added, ¬e.Edits new.id) {new : EntryRecord}
    (member : new ∈ added) : Assoc.get new.id (editsOf (h.current ++ added)) = none := by
  rw [get_editsOf, find_foundEdits_none]
  · rfl
  · intro e there
    rcases List.mem_append.mp there with old | planned
    · exact (appended.past e (mem_of_mem_filter old) new member).1
    · exact own e planned new member

end Appended

/-- The entry of some changes. -/
def changesEntry (timestamp : JsNumber) (changes : Changes) : SystemDraft :=
  systemEntry changes.sections ⟨changes.toolsRemoved, changes.toolsAdded⟩ timestamp

/-- A planned entry contributes its changes. -/
theorem systemChanges_entry {draft : SystemDraft} {changes : Changes}
    (model : draft.model = (changesEntry timestamp changes).model) (id : EntryId) :
    systemChanges (contribute (draft.entry id) none) = [changes] := by
  obtain ⟨messages, edits⟩ := draft
  subst model
  exact congrArg (· :: []) (changesOf_systemMessage changes timestamp)

theorem systemChanges_drafted {entries : List EntryRecord}
    (drafted : Drafted (changes.map (changesEntry timestamp)) entries) :
    systemChanges (entries.flatMap fun e => contribute e none) = changes := by
  induction changes generalizing entries with
  | nil =>
    cases drafted
    rfl
  | cons first rest ih =>
    obtain ⟨e, later, is, behind, rfl⟩ := List.forall₂_cons_left_iff.mp drafted
    rw [flatMap_cons, systemChanges_append_list, ih behind, is, systemChanges_entry rfl]
    rfl

/-! ### A minimal plan -/

/-- One system message more. -/
def applySections (shown : List (Text × Text)) (changes : Changes) : List (Text × Text) :=
  patch shown (changes.sections.getD [])

theorem foldl_sections (patches : List (List (Text × Option Text))) (shown : List (Text × Text)) :
    (patches.map fun patch => Changes.mk (some patch) [] []).foldl applySections shown =
      patches.foldl patch shown := by
  rw [foldl_map]
  rfl

theorem foldl_noTools (patches : List (List (Text × Option Text))) (offered : List (Text × Tool)) :
    (patches.map fun patch => Changes.mk (some patch) [] []).foldl applyTools offered = offered := by
  rw [foldl_map]
  induction patches with
  | nil => rfl
  | cons _ rest ih => exact ih

variable {view : ContextView}

/-- **A minimal plan**, as the changes its entries make: the section patches one by one, and all tool
changes. -/
theorem planSystemEntries_minimal (minimal : view.rebaselines = false)
    (desired : List (Text × Text)) (tools : List Tool) (timestamp : JsNumber) :
    ∃ changes : List Changes,
      planSystemEntries view desired tools timestamp = changes.map (changesEntry timestamp) ∧
      (∀ shown, changes.foldl applySections shown =
        (planSections (replaySections (systemChanges view.messages)) desired).foldl patch shown) ∧
      ∀ offered, changes.foldl applyTools offered = applyTools offered
        ⟨none, (planTools (getCurrentTools (systemChanges view.messages)) tools).toolsRemoved,
          (planTools (getCurrentTools (systemChanges view.messages)) tools).toolsAdded⟩ := by
  unfold planSystemEntries
  rw [if_neg (Bool.eq_false_iff.mp minimal)]
  dsimp only
  generalize planSections (replaySections (systemChanges view.messages)) desired = sections
  generalize planTools (getCurrentTools (systemChanges view.messages)) tools = change
  obtain ⟨removed, added⟩ := change
  split_ifs with unchanged alone
  · obtain ⟨noneRemoved, noneAdded⟩ := Bool.and_eq_true_iff.mp unchanged
    obtain rfl : removed = [] := isEmpty_iff.mp noneRemoved
    obtain rfl : added = [] := isEmpty_iff.mp noneAdded
    refine ⟨sections.map fun patch => ⟨some patch, [], []⟩, ?_, foldl_sections sections,
      foldl_noTools sections⟩
    rw [map_map]
    rfl
  · obtain rfl : sections = [] := isEmpty_iff.mp alone
    exact ⟨[⟨none, removed, added⟩], rfl, fun shown => rfl, fun offered => rfl⟩
  · obtain ⟨front, last, rfl⟩ : ∃ front last, sections = front ++ [last] :=
      ⟨sections.dropLast, sections.getLast fun empty => alone (isEmpty_iff.mpr empty),
        (dropLast_append_getLast _).symm⟩
    refine ⟨(front.map fun patch => ⟨some patch, [], []⟩) ++ [⟨some last, removed, added⟩], ?_, ?_, ?_⟩
    · have firsts : front.mapIdx (fun index patch => systemEntry (some patch)
          (if index + 1 = (front ++ [last]).length then ⟨removed, added⟩ else ⟨[], []⟩) timestamp) =
          front.map fun patch => systemEntry (some patch) ⟨[], []⟩ timestamp := by
        refine ext_getElem (by simp) fun i inside there => ?_
        have before : i < front.length := by simpa using inside
        simp [Nat.ne_of_lt before]
      rw [mapIdx_append, firsts, map_append, map_map]
      simp [changesEntry, Function.comp_def]
    · intro shown
      rw [foldl_append, foldl_sections, foldl_append]
      rfl
    · intro offered
      rw [foldl_append, foldl_noTools]
      rfl

namespace Appended

variable {h h' : History} {added : List EntryRecord} (appended : Appended h h' added)

include appended

/-- **Behind a minimal plan** the context has its changes more. -/
theorem systemChanges_minimal (drafted : Drafted (changes.map (changesEntry timestamp)) added) :
    systemChanges (deriveRange ⟨h.newest, 0⟩ (h.current ++ added)).view.messages =
      systemChanges (deriveRange ⟨h.newest, 0⟩ h.current).view.messages ++ changes := by
  have noEdits : ∀ e ∈ added, e.edits = none := by
    intro e member
    obtain ⟨draft, planned, is⟩ := drafted.mem member
    obtain ⟨change, -, rfl⟩ := mem_map.mp planned
    rw [is]
    rfl
  have unedited : ∀ new ∈ added, Assoc.get new.id (editsOf (h.current ++ added)) = none :=
    fun new => appended.unedited fun e member target there ⟨edit, inside, _⟩ => by
      rw [noEdits e member] at inside
      cases inside
  rw [systemChanges_view, systemChanges_view]
  dsimp only
  rw [appended.active, contributed, flatMap_append, systemChanges_append_list,
    ← systemChanges_drafted drafted]
  refine congrArg₂ (· ++ ·) ?_ (congrArg systemChanges (flatMap_congr fun new member => ?_))
  · rw [editsOf_append noEdits]
    rfl
  · rw [unedited new member]

end Appended

/-! ### A baseline -/

/-- What the entries of a context contribute, but for `tg.system` entries. -/
def ContextView.foreign (view : ContextView) : List Sent :=
  ((view.entries.zip view.contributions).filter fun p => !p.1.isSystemEntry).flatMap Prod.snd

theorem foreign_view (bounds : ContextBounds) (range : List EntryRecord) :
    (deriveRange bounds range).view.foreign = (selectActive bounds.head range).flatMap fun e =>
        if e.isSystemEntry then [] else contribute e (Assoc.get e.id (editsOf range)) := by
  show (((selectActive bounds.head range).zip ((selectActive bounds.head range).map fun e =>
    contribute e (Assoc.get e.id (editsOf range)))).filter fun p => !p.1.isSystemEntry).flatMap _ = _
  induction selectActive bounds.head range with
  | nil => rfl
  | cons e rest ih =>
    rw [map_cons, zip_cons_cons, flatMap_cons, ← ih]
    cases own : e.isSystemEntry with
    | true => simp [own]
    | false => simp [own]

/-- The drafts of a baseline: all sections and tools, and the entries it omits. -/
theorem planSystemEntries_baseline (rebaselines : view.rebaselines = true)
    (desired : List (Text × Text)) (tools : List Tool) (timestamp : JsNumber) :
    ∃ draft : SystemDraft, planSystemEntries view desired tools timestamp = [draft] ∧
      draft.model = (changesEntry timestamp
        ⟨some (listed Prod.fst (desired.map fun e => (e.1, some e.2))), [], tools⟩).model ∧
      draft.edits.getD [] =
        (view.entries.filter EntryRecord.isSystemEntry).map fun e => ⟨e.id, .omit⟩ := by
  unfold planSystemEntries
  rw [if_pos rebaselines]
  refine ⟨_, rfl, ?_, ?_⟩ <;> split_ifs with none
  · rfl
  · rfl
  · rw [isEmpty_iff.mp none]
    rfl
  · rfl

/-- The edits of an entry that only omits. -/
theorem get_editsOf_omits {range : List EntryRecord}
    (omits : ∀ edit ∈ e.edits.getD [], edit.action = .omit) {target : EntryId}
    (edits : e.Edits target) : Assoc.get target (editsOf (range ++ [e])) = some .omit := by
  rw [get_editsOf, flatMap_append, reverse_append, List.find?_append]
  have found : ((List.flatMap EntryRecord.foundEdits [e]).reverse.find?
      fun found => decide (found.1 = target)).isSome := by
    obtain ⟨edit, member, rfl⟩ := edits
    obtain ⟨i, bound, rfl⟩ := getElem_of_mem member
    rw [List.find?_isSome]
    refine ⟨_, List.mem_reverse.mpr (List.mem_flatMap.mpr ⟨e, mem_singleton_self e,
      List.mem_mapIdx.mpr ⟨i, bound, rfl⟩⟩), decide_eq_true rfl⟩
  obtain ⟨edit, is⟩ := Option.isSome_iff_exists.mp found
  have member := List.mem_of_find?_eq_some is
  rw [mem_reverse, flatMap_cons, flatMap_nil, append_nil] at member
  obtain ⟨index, bound, rfl⟩ := List.mem_mapIdx.mp member
  rw [is, Option.some_or, Option.map_some, omits _ (getElem_mem bound)]

/-- **Behind a baseline** the context has what other entries say, and the baseline. -/
theorem Appended.systemChanges_rebaseline {h h' : History} (appended : Appended h h' [e])
    {draft : SystemDraft} (is : e = draft.entry e.id) {changes : Changes}
    (model : draft.model = (changesEntry timestamp changes).model)
    (omits : draft.edits.getD [] =
      ((deriveRange ⟨h.newest, 0⟩ h.current).view.entries.filter EntryRecord.isSystemEntry).map
        fun e => ⟨e.id, .omit⟩) :
    systemChanges (deriveRange ⟨h.newest, 0⟩ (h.current ++ [e])).view.messages =
      systemChanges (deriveRange ⟨h.newest, 0⟩ h.current).view.foreign ++ [changes] := by
  have edits : e.edits = draft.edits := by rw [is]; rfl
  have editsIff : ∀ target, e.Edits target ↔
      ∃ f ∈ selectActive h.newest h.current, f.isSystemEntry = true ∧ f.id = target := by
    intro target
    rw [EntryRecord.Edits, edits, omits]
    constructor
    · rintro ⟨edit, member, rfl⟩
      obtain ⟨f, there, rfl⟩ := mem_map.mp member
      exact ⟨f, mem_of_mem_filter there, (List.mem_filter.mp there).2, rfl⟩
    · rintro ⟨f, there, own, rfl⟩
      exact ⟨_, mem_map_of_mem (List.mem_filter.mpr ⟨there, own⟩), rfl⟩
  have unedited := appended.unedited (fun f single new only edited => by
    obtain rfl := mem_singleton.mp single
    obtain rfl := mem_singleton.mp only
    obtain ⟨g, there, -, same⟩ := (editsIff _).mp edited
    exact absurd same (Nat.ne_of_lt (appended.later (Appended.active_mem there)
      (mem_singleton_self _)))) (mem_singleton_self e)
  rw [systemChanges_view, foreign_view]
  dsimp only
  rw [appended.active, contributed, flatMap_append, systemChanges_append_list]
  refine congrArg₂ (· ++ ·) (congrArg systemChanges (flatMap_congr fun f there => ?_)) ?_
  · by_cases own : f.isSystemEntry = true
    · rw [if_pos own, get_editsOf_omits (fun edit member => ?_) ((editsIff _).mpr ⟨f, there, own, rfl⟩)]
      · rfl
      · rw [edits, omits] at member
        obtain ⟨g, -, rfl⟩ := mem_map.mp member
        rfl
    · rw [if_neg own, (get_editsOf_append f.id).2]
      intro g single edited
      obtain rfl := mem_singleton.mp single
      obtain ⟨other, active, isOwn, same⟩ := (editsIff _).mp edited
      exact own (h.eq_of_id (Appended.active_mem active) (Appended.active_mem there) same ▸ isOwn)
  · rw [flatMap_singleton, unedited, is]
    exact systemChanges_entry model _

/-! ### The next context -/

/-- The section keys that a plan adds. -/
def ContextView.writtenKeys (view : ContextView) (desired : List (Text × Text)) : List Text :=
  if view.rebaselines then Assoc.keys desired
  else Gibraltar.writtenKeys (replaySections (systemChanges view.messages)) desired

theorem nodup_replaySections (messages : List Changes) :
    (Assoc.keys (replaySections messages)).Nodup := by
  have keeps : ∀ shown : List (Text × Text), (Assoc.keys shown).Nodup →
      (Assoc.keys (messages.foldl applySections shown)).Nodup := by
    induction messages with
    | nil => exact fun shown once => once
    | cons changes rest ih => exact fun shown once => ih _ (nodup_patch once _)
  exact keeps [] nodup_nil

variable {desired : List (Text × Text)} {tools : List Tool}

theorem getCurrentTools_of_foldl {messages : List Changes}
    (is : messages.foldl applyTools [] = byName tools) : getCurrentTools messages = tools := by
  rw [getCurrentTools, is, byName_values]

/-- What the system messages of the next context show. -/
def Shows (messages : List Changes) (desired : List (Text × Text)) (tools : List Tool) : Prop :=
  replaySections messages = desired ∧ getCurrentTools messages = tools

theorem shows_minimal {messages : List Changes} (desiredOnce : (Assoc.keys desired).Nodup)
    (toolsOnce : (tools.map Tool.name).Nodup)
    (sections : ∀ shown, changes.foldl applySections shown =
      (planSections (replaySections messages) desired).foldl patch shown)
    (changed : ∀ offered, changes.foldl applyTools offered = applyTools offered
      ⟨none, (planTools (getCurrentTools messages) tools).toolsRemoved,
        (planTools (getCurrentTools messages) tools).toolsAdded⟩)
    (order : listed id (writtenKeys (replaySections messages) desired) =
      writtenKeys (replaySections messages) desired)
    (agree : Assoc.get PROTO (replaySections messages) = Assoc.get PROTO desired) :
    Shows (messages ++ changes) desired tools := by
  constructor
  · show (messages ++ changes).foldl applySections [] = desired
    rw [foldl_append, sections]
    exact planSections_replay (nodup_replaySections messages) desiredOnce agree order
  · obtain ⟨offered, offeredOnce⟩ := foldl_applyTools messages
    refine getCurrentTools_of_foldl ?_
    rw [foldl_append, changed, offered, applyTools_eq]
    exact planTools_replay offeredOnce toolsOnce

theorem shows_baseline {foreign : List Changes} (desiredOnce : (Assoc.keys desired).Nodup)
    (toolsOnce : (tools.map Tool.name).Nodup)
    (order : listed id (Assoc.keys desired) = Assoc.keys desired) (nothing : Shows foreign [] []) :
    Shows (foreign ++ [⟨some (listed Prod.fst (desired.map fun e => (e.1, some e.2))), [], tools⟩])
      desired tools := by
  constructor
  · show (foreign ++ _).foldl applySections [] = desired
    rw [foldl_append]
    exact (congrArg (fun shown => patch shown _) nothing.1).trans (patch_whole desiredOnce order)
  · refine getCurrentTools_of_foldl ?_
    rw [foldl_append, (foldl_applyTools foreign).1, nothing.2]
    show applyTools [] _ = _
    rw [applyTools_eq]
    have added := patch_additions [] (byName tools) (byName_once toolsOnce)
    rw [byName_some] at added
    exact added

/-- **Nothing is left to plan** where a system entry is behind the head marker. -/
theorem planSystemEntries_nothing (minimal : view.rebaselines = false)
    (desiredOnce : (Assoc.keys desired).Nodup) (toolsOnce : (tools.map Tool.name).Nodup)
    (shows : Shows (systemChanges view.messages) desired tools) (timestamp : JsNumber) :
    planSystemEntries view desired tools timestamp = [] := by
  unfold planSystemEntries
  rw [if_neg (Bool.eq_false_iff.mp minimal)]
  dsimp only
  rw [shows.1, shows.2, planSections_self desiredOnce, planTools_self toolsOnce]
  rfl

/-- A plan leaves a system entry behind the head marker, if there is one. -/
theorem Appended.rebaselines {h h' : History} {added : List EntryRecord}
    (appended : Appended h h' added)
    (behind : (deriveRange ⟨h.newest, 0⟩ h.current).view.rebaselines = true →
      ∃ e ∈ added, e.isSystemEntry = true) :
    (deriveRange ⟨h.newest, 0⟩ (h.current ++ added)).view.rebaselines = false := by
  rw [← Bool.not_eq_true]
  intro rebaselines
  unfold ContextView.rebaselines at *
  cases found : h.newest with
  | none =>
    have none : (deriveRange ⟨h.newest, 0⟩ (h.current ++ added)).view.head = Option.none := found
    rw [none] at rebaselines
    cases rebaselines
  | some marker =>
    have some_ : (deriveRange ⟨h.newest, 0⟩ (h.current ++ added)).view.head = some marker := found
    have before : (deriveRange ⟨h.newest, 0⟩ h.current).view.head = some marker := found
    have entries : (deriveRange ⟨h.newest, 0⟩ (h.current ++ added)).view.entries =
        (deriveRange ⟨h.newest, 0⟩ h.current).view.entries ++ added := appended.active
    rw [some_, Option.any_some, entries, any_append, Bool.not_or, Bool.and_eq_true] at rebaselines
    rw [before, Option.any_some] at behind
    obtain ⟨e, member, own⟩ := behind rebaselines.1
    have later := appended.later (History.newest_mem found) member
    refine absurd rebaselines.2 ?_
    rw [Bool.not_eq_true', Bool.not_eq_false, any_eq_true]
    exact ⟨e, member, by rw [own, decide_eq_true later]; rfl⟩

/-- **A planned prompt is the prompt of the next context.** The planned entries are appended to the
conversation whose context was planned for, and no entry before names them. The keys that the plan adds
are in the order in which an object lists them, `__proto__` is not to be changed, and where a baseline is
planned, entries other than `tg.system` leave no section and no tool. -/
theorem planSystemEntries_reaches {h h' : History} {added : List EntryRecord} {view : ContextView}
    (reads : readContext h none = .ok view) {desired : List (Text × Text)} {tools : List Tool}
    {timestamp : JsNumber} (desiredOnce : (Assoc.keys desired).Nodup)
    (toolsOnce : (tools.map Tool.name).Nodup) (appended : Appended h h' added)
    (drafted : Drafted (planSystemEntries view desired tools timestamp) added)
    (order : listed id (view.writtenKeys desired) = view.writtenKeys desired)
    (agree : view.rebaselines = false →
      Assoc.get PROTO (replaySections (systemChanges view.messages)) = Assoc.get PROTO desired)
    (foreign : view.rebaselines = true → Shows (systemChanges view.foreign) [] []) :
    ∃ after, readContext h' none = .ok after ∧
      replaySections (systemChanges after.messages) = desired ∧
      getCurrentTools (systemChanges after.messages) = tools ∧
      ∀ later, planSystemEntries after desired tools later = [] := by
  rw [readContext_newest] at reads
  obtain rfl := Except.ok.inj reads
  have shows : Shows (systemChanges
      (deriveRange ⟨h.newest, 0⟩ (h.current ++ added)).view.messages) desired tools ∧
      ((deriveRange ⟨h.newest, 0⟩ h.current).view.rebaselines = true →
        ∃ e ∈ added, e.isSystemEntry = true) := by
    cases kind : (deriveRange ⟨h.newest, 0⟩ h.current).view.rebaselines with
    | false =>
      obtain ⟨changes, plan, sections, changed⟩ :=
        planSystemEntries_minimal kind desired tools timestamp
      rw [plan] at drafted
      rw [ContextView.writtenKeys, kind] at order
      rw [appended.systemChanges_minimal drafted]
      exact ⟨shows_minimal desiredOnce toolsOnce sections changed order (agree kind),
        fun rebaselines => by cases rebaselines⟩
    | true =>
      obtain ⟨draft, plan, model, omits⟩ := planSystemEntries_baseline kind desired tools timestamp
      rw [plan] at drafted
      obtain ⟨e, rest, is, none, rfl⟩ := List.forall₂_cons_left_iff.mp drafted
      cases none
      rw [ContextView.writtenKeys, kind] at order
      rw [appended.systemChanges_rebaseline is model omits]
      refine ⟨shows_baseline desiredOnce toolsOnce order (foreign kind), fun _ =>
        ⟨e, mem_singleton_self e, ?_⟩⟩
      rw [is]
      exact decide_eq_true rfl
  refine ⟨_, appended.read, shows.1.1, shows.1.2, fun later => ?_⟩
  exact planSystemEntries_nothing (appended.rebaselines shows.2) desiredOnce toolsOnce shows.1 later

/-- A conversation of one prompt entry, and before it. -/
def silent : History := ⟨.root [], List.Pairwise.nil⟩

def promptEntry (sections : List (Text × Option Text)) (tools : List Tool) : EntryRecord :=
  ⟨1, SYSTEM_ENTRY, some [.system (systemMessage ⟨some sections, [], tools⟩ (.ofNat 7))], none, none⟩

def prompted (sections : List (Text × Option Text)) (tools : List Tool) : History :=
  ⟨.root [promptEntry sections tools], pairwise_singleton _ _⟩

theorem prompted_appended (sections : List (Text × Option Text)) (tools : List Tool) :
    Appended silent (prompted sections tools) [promptEntry sections tools] where
  visible := rfl
  plain e member := by
    rw [mem_singleton.mp member]
    rfl
  past e member := by cases member

/-- A first section and a first tool. -/
theorem planSystemEntries_reaches_first :
    ∃ after, readContext (prompted [(text "cwd", some (text "/repo"))]
        [⟨text "read", [], .null, none⟩]) none = .ok after ∧
      replaySections (systemChanges after.messages) = [(text "cwd", text "/repo")] ∧
      getCurrentTools (systemChanges after.messages) = [⟨text "read", [], .null, none⟩] ∧
      ∀ later, planSystemEntries after [(text "cwd", text "/repo")]
        [⟨text "read", [], .null, none⟩] later = [] :=
  planSystemEntries_reaches (readContext_newest silent) (nodup_singleton _)
    (nodup_singleton _) (prompted_appended _ _) (List.Forall₂.cons rfl .nil)
    (by decide) (fun _ => rfl) fun rebaselines => by cases rebaselines

/-- **Section keys that are array indices are listed first**, so that a map of `b` and then `1` does not
come back in its order. -/
theorem planSystemEntries_integer_like :
    ∃ view after, readContext silent none = .ok view ∧
      Appended silent (prompted [(text "1", some []), (text "b", some [])] [])
        [promptEntry [(text "1", some []), (text "b", some [])] []] ∧
      Drafted (planSystemEntries view [(text "b", []), (text "1", [])] [] (.ofNat 7))
        [promptEntry [(text "1", some []), (text "b", some [])] []] ∧
      readContext (prompted [(text "1", some []), (text "b", some [])] []) none = .ok after ∧
      replaySections (systemChanges after.messages) ≠ [(text "b", []), (text "1", [])] :=
  ⟨_, _, readContext_newest silent, prompted_appended _ _, List.Forall₂.cons rfl .nil,
    readContext_newest _, by decide⟩

end TianGong.Gibraltar
