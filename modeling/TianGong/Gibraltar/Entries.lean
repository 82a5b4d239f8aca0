/-
**Entries of a conversation, and the ones visible through its ancestry.**

A conversation has its own entries. A fork also sees those of its parent up to the entry it was forked
at. `Lineage` is that chain, from a conversation to the oldest ancestor whose rows exist; the reads are
those of `storage/memory.ts`, which walks the chain from the newest segment back.

* `Grows.visible`: a history that grows keeps its visible entries and has the new ones behind them.

Of the content of a message only what a context read looks at is told apart.
-/

import TianGong.Chord.Json
import TianGong.Lib.Paging

namespace TianGong.Gibraltar

open List
open TianGong.Lib

abbrev EntryId := Nat

inductive StopReason where
  | pending | stop | length | toolUse | error | aborted | deferred
  deriving DecidableEq

structure ToolCall where
  id : Text
  name : Text
  deriving DecidableEq

/-- A part of an assistant message: a tool call, or text and thinking. -/
inductive Content where
  | toolCall (call : ToolCall)
  | other (content : Json Unit)

inductive Message where
  | system (content : Json Unit)
  | user (content : Json Unit)
  | assistant (content : List Content) (stopReason : StopReason) (timestamp : JsNumber)
  | toolResult (toolCallId toolName : Text) (content : Json Unit) (isError : Bool)
      (details : Option (Json Unit)) (timestamp : JsNumber)

namespace Message

def isSystem : Message → Bool
  | system _ => true
  | _ => false

def isUser : Message → Bool
  | user _ => true
  | _ => false

def isAssistant : Message → Bool
  | assistant _ _ _ => true
  | _ => false

end Message

inductive EditAction where
  | omit
  | replace (messages : List Message)

structure ContextEdit where
  target : EntryId
  action : EditAction

structure EntryRecord where
  id : EntryId
  kind : Text
  model : Option (List Message)
  head : Option EntryId
  edits : Option (List ContextEdit)

/-! ### The chain of a fork -/

inductive Lineage where
  | root (entries : List EntryRecord)
  | fork (parent : Lineage) (at_ : EntryId) (entries : List EntryRecord)

/-- Identifiers are minted in ascending order. -/
def Ascending (entries : List EntryRecord) : Prop :=
  entries.Pairwise fun e f => e.id < f.id

variable {l : Lineage}

namespace Lineage

/-- The visible entries, oldest first. -/
def visible : Lineage → List EntryRecord
  | root entries => entries
  | fork parent at_ entries => (parent.visible.filter fun e => decide (e.id ≤ at_)) ++ entries

/-- A fork is made at a visible entry of the parent, and its own entries are minted later. -/
def Ordered : Lineage → Prop
  | root entries => Ascending entries
  | fork parent at_ entries =>
    parent.Ordered ∧ (∃ e ∈ parent.visible, e.id = at_) ∧ Ascending entries ∧
      ∀ e ∈ entries, at_ < e.id

/-- More entries in any of the conversations of the chain. -/
inductive Extends : Lineage → Lineage → Prop
  | root (entries more : List EntryRecord) : Extends (.root entries) (.root (entries ++ more))
  | fork {parent parent' : Lineage} (at_ : EntryId) (entries more : List EntryRecord)
      (grows : Extends parent parent') :
      Extends (.fork parent at_ entries) (.fork parent' at_ (entries ++ more))

theorem Ordered.ascending (ordered : l.Ordered) : Ascending l.visible := by
  induction l with
  | root entries => exact ordered
  | fork parent at_ entries ih =>
    obtain ⟨before, _, own, later⟩ := ordered
    refine List.pairwise_append.mpr ⟨(ih before).filter _, own, fun e old f new => ?_⟩
    have below := of_decide_eq_true (List.mem_filter.mp old).2
    exact Nat.lt_of_le_of_lt below (later f new)

theorem Extends.visible {l' : Lineage} (extends_ : Extends l l') (ordered' : l'.Ordered) :
    l.Ordered → ∃ more, l'.visible = l.visible ++ more := by
  induction extends_ with
  | root entries more => exact fun _ => ⟨more, rfl⟩
  | @fork parent parent' at_ entries more _ ih =>
    intro ordered
    obtain ⟨added, same⟩ := ih ordered'.1 ordered.1
    -- The fork's entry is among the old ones, so everything the parent got lies behind it.
    obtain ⟨e, old, rfl⟩ := ordered.2.1
    have sorted := ordered'.1.ascending
    rw [same] at sorted
    have none : added.filter (fun f => decide (f.id ≤ e.id)) = [] := by
      refine List.filter_eq_nil_iff.mpr fun f new => ?_
      have above := (List.pairwise_append.mp sorted).2.2 e old f new
      simpa using above
    refine ⟨more, ?_⟩
    rw [Lineage.visible, Lineage.visible, same, filter_append, none, append_nil,
      append_assoc]

end Lineage

/-- The history of a conversation. -/
structure History where
  lineage : Lineage
  ordered : lineage.Ordered

variable (h : History)

namespace History

def visible (h : History) : List EntryRecord := h.lineage.visible

theorem ascending : Ascending h.visible := h.ordered.ascending

/-- A later state of the same history. -/
def Grows (h h' : History) : Prop := h.lineage.Extends h'.lineage

theorem Grows.visible {h h' : History} (grows : h.Grows h') :
    ∃ more, h'.visible = h.visible ++ more :=
  Lineage.Extends.visible grows h'.ordered h.ordered

/-- Two visible entries with one identifier are the same. -/
theorem eq_of_id {e f : EntryRecord} (there : e ∈ h.visible) (here : f ∈ h.visible)
    (same : e.id = f.id) : e = f := by
  have nodup : (h.visible.map EntryRecord.id).Nodup :=
    List.pairwise_map.mpr (h.ascending.imp fun less => Nat.ne_of_lt less)
  exact inj_on_of_nodup_map nodup there here same

end History

/-! ### Reads -/

/-- Whether an identifier is within two inclusive bounds. -/
def within (lower upper : Option EntryId) (id : EntryId) : Bool :=
  lower.all (fun l => decide (l ≤ id)) && upper.all fun u => decide (id ≤ u)

/-- The upper bound for the parent of a fork. -/
def meet (upper : Option EntryId) (at_ : EntryId) : EntryId := upper.elim at_ fun u => min u at_

/-- The own entries of one conversation of the chain, from the upper bound back to the lower one. -/
def segment (lower upper : Option EntryId) (entries : List EntryRecord) : List EntryRecord :=
  (entries.filter fun e => within none upper e.id).reverse.takeWhile fun e => within lower none e.id

/-- `visibleEntries`: newest first, segment by segment. -/
def visibleEntries (lower : Option EntryId) : Option EntryId → Lineage → List EntryRecord
  | upper, .root entries => segment lower upper entries
  | upper, .fork parent at_ entries =>
    segment lower upper entries ++
      if lower.any fun l => decide (meet upper at_ < l) then []
      else visibleEntries lower (some (meet upper at_)) parent

/-- An entry that carries a `head`. -/
structure HeadMarker where
  entry : EntryRecord
  head : EntryId
  marks : entry.head = some head

def EntryRecord.marker (e : EntryRecord) : Option HeadMarker :=
  match found : e.head with
  | some head => some ⟨e, head, found⟩
  | none => none

/-- The newest marker among entries, at or below the upper bound. -/
def newestMarker (upper : Option EntryId) (entries : List EntryRecord) : Option HeadMarker :=
  ((entries.filter fun e => within none upper e.id).filterMap EntryRecord.marker).getLast?

def findLatestHeadMarker : Option EntryId → Lineage → Option HeadMarker
  | upper, .root entries => newestMarker upper entries
  | upper, .fork parent at_ entries =>
    match newestMarker upper entries with
    | some marker => some marker
    | none => findLatestHeadMarker (some (meet upper at_)) parent

namespace History

/-- `entry`: an entry, when it is visible. -/
def entry (h : History) (id : EntryId) : Option EntryRecord :=
  (visibleEntries (some id) (some id) h.lineage).head?

/-- `scanEntries`, newest first. A cursor narrows the upper bound to the identifiers below it. -/
def scanEntries (h : History) (lower upper : Option EntryId) (limit : Nat) (cursor : Option EntryId) :
    List EntryRecord × Option EntryId :=
  page EntryRecord.id limit <| List.take (limit + 1) <|
    behind (fun a b => decide (b < a)) EntryRecord.id cursor (visibleEntries lower upper h.lineage)

def SCAN_PAGE_SIZE : Nat := 256

/-- `scanRange`: the visible entries within the bounds, oldest first. -/
def scanRange (h : History) (lower upper : Option EntryId) : List EntryRecord :=
  (scanPages (h.scanEntries lower upper SCAN_PAGE_SIZE) (h.visible.length + 1) none).reverse

end History

/-! ### What the reads return -/

theorem within_meet (lower upper : Option EntryId) (at_ id : EntryId) :
    within lower (some (meet upper at_)) id = (within lower upper id && decide (id ≤ at_)) := by
  rw [Bool.eq_iff_iff]
  cases upper <;> simp [within, meet, and_assoc, Nat.le_min]

theorem segment_eq {lower upper : Option EntryId} {entries : List EntryRecord}
    (ascending : Ascending entries) :
    segment lower upper entries = (entries.filter fun e => within lower upper e.id).reverse := by
  have descending : (entries.filter fun e => within none upper e.id).reverse.Pairwise
      fun e f => f.id < e.id := List.pairwise_reverse.mpr (ascending.filter _)
  rw [segment, takeWhile_eq_filter (descending.imp fun {e f} below => ?_), filter_reverse,
    filter_filter]
  · congr 2
    funext e
    simp [within]
  · -- What the lower bound lets through, it lets through from there on.
    intro inside
    cases lower with
    | none => rfl
    | some l =>
      simp only [within, Option.all_some, Option.all_none, Bool.and_true, decide_eq_true_eq]
        at inside ⊢
      exact Nat.le_trans inside (Nat.le_of_lt below)

/-- **The walk yields the visible entries within its bounds, newest first.** -/
theorem visibleEntries_eq (ordered : l.Ordered) (lower upper : Option EntryId) :
    visibleEntries lower upper l = (l.visible.filter fun e => within lower upper e.id).reverse := by
  induction l generalizing upper with
  | root entries => exact segment_eq ordered
  | fork parent at_ entries ih =>
    obtain ⟨before, -, own, -⟩ := ordered
    have inherited : (if lower.any fun l => decide (meet upper at_ < l) then []
        else visibleEntries lower (some (meet upper at_)) parent) =
        (parent.visible.filter fun e => within lower (some (meet upper at_)) e.id).reverse := by
      split_ifs with below
      · -- The bounds are empty.
        have none : parent.visible.filter
            (fun e => within lower (some (meet upper at_)) e.id) = [] := by
          refine List.filter_eq_nil_iff.mpr fun e _ => ?_
          cases lower with
          | none => cases below
          | some l =>
            simp only [within, Option.any_some, Option.all_some, Bool.and_eq_true,
              decide_eq_true_eq] at below ⊢
            exact fun inside => Nat.not_lt.mpr (Nat.le_trans inside.1 inside.2) below
        rw [none, reverse_nil]
      · exact ih before _
    rw [visibleEntries, segment_eq own, inherited, Lineage.visible, filter_append,
      reverse_append, filter_filter]
    congr 3
    funext e
    exact within_meet lower upper at_ e.id

theorem marker_some {e : EntryRecord} {m : HeadMarker} (found : e.marker = some m) :
    m.entry = e := by
  unfold EntryRecord.marker at found
  split at found
  · cases found
    rfl
  · cases found

theorem marker_isSome (e : EntryRecord) : e.marker.isSome = e.head.isSome := by
  unfold EntryRecord.marker
  split <;> simp [*]

/-- **The newest visible marker at or below a cut-off.** -/
theorem findLatestHeadMarker_eq (l : Lineage) (upper : Option EntryId) :
    findLatestHeadMarker upper l = newestMarker upper l.visible := by
  induction l generalizing upper with
  | root entries => rfl
  | fork parent at_ entries ih =>
    have bound : (parent.visible.filter fun e => within none (some (meet upper at_)) e.id) =
        (parent.visible.filter fun e => decide (e.id ≤ at_)).filter
          fun e => within none upper e.id := by
      rw [filter_filter]
      congr 1
      funext e
      exact within_meet none upper at_ e.id
    rw [findLatestHeadMarker, ih, Lineage.visible]
    simp only [newestMarker, filter_append, filterMap_append, List.getLast?_append, bound]
    cases ((entries.filter fun e => within none upper e.id).filterMap EntryRecord.marker).getLast? <;>
      rfl

namespace History

/-- **`scanRange` returns the visible entries within the bounds.** -/
theorem scanRange_eq (lower upper : Option EntryId) :
    h.scanRange lower upper = h.visible.filter fun e => within lower upper e.id := by
  have rows := visibleEntries_eq h.ordered lower upper
  have scan : h.scanEntries lower upper SCAN_PAGE_SIZE = fun cursor =>
      page EntryRecord.id SCAN_PAGE_SIZE (behind (fun a b => decide (b < a)) EntryRecord.id cursor
        (visibleEntries lower upper h.lineage)) := by
    funext cursor
    exact page_take _ _ _
  have sorted : (visibleEntries lower upper h.lineage).Pairwise
      fun x y => decide (y.id < x.id) = true := by
    rw [rows, pairwise_reverse]
    exact (h.ascending.filter _).imp fun less => decide_eq_true less
  have short : (visibleEntries lower upper h.lineage).length < h.visible.length + 1 := by
    rw [rows, length_reverse]
    exact Nat.lt_succ_of_le (length_filter_le _ _)
  have asymm : ∀ a b : EntryId, decide (b < a) = true → decide (a < b) = false := by
    intro a b above
    exact decide_eq_false (Nat.lt_asymm (of_decide_eq_true above))
  rw [scanRange, scan, scanPages_eq asymm sorted (by decide) short, rows, reverse_reverse]
  rfl

theorem entry_isSome (id : EntryId) : (h.entry id).isSome = true ↔ ∃ e ∈ h.visible, e.id = id := by
  rw [entry, visibleEntries_eq h.ordered, List.head?_reverse, List.getLast?_isSome]
  simp only [ne_eq, filter_eq_nil_iff, not_forall, Classical.not_not]
  constructor
  · rintro ⟨e, member, inside⟩
    simp only [within, Option.all_some, Bool.and_eq_true, decide_eq_true_eq] at inside
    exact ⟨e, member, Nat.le_antisymm inside.2 inside.1⟩
  · rintro ⟨e, member, rfl⟩
    exact ⟨e, member, by simp [within]⟩

end History

end TianGong.Gibraltar
