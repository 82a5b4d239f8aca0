/-
**What a Storage answers about the past of a document.**

`prepareCommit`, `findDocument` and `document` of `memory.ts`. A batch is prepared without a change
  of
the state and then applied at a sequence number; an address keeps the IDs of all its incarnations.

* `Run`, `contentsOf`: commits in their order, and what they have written to an incarnation.
-/

import TianGong.Lib.LowerBound
import TianGong.Lib.Paging
import TianGong.Session.StoreInv

namespace TianGong.Session

open List
open TianGong.Lib (lowerBound)
open TianGong.Chord (Op)

/-- The documents of a Storage, with the incarnations of each address in the order of their IDs. -/
structure HistoryStore where
  store : DocumentStore := {}
  ids : List (DocumentAddress × List DocumentId) := []

/-- Why a batch is refused: the given sequence number, or what the Storage holds. -/
inductive CommitError
  | sequence (seq : Seq)
  | store (error : StoreError)

def insertSorted (ids : List DocumentId) (id : DocumentId) : List DocumentId :=
  if ids.getLast?.all fun last => decide (last < id) then ids ++ [id]
  else ids.take (lowerBound ids id) ++ id :: ids.drop (lowerBound ids id)

/-- A batch that was prepared. -/
structure PreparedCommit where
  seq : Seq
  writes : List DocumentWrite
  actions : List (DocumentId × DocumentAction)

namespace HistoryStore

/-- `prepareCommit`, at a sequence number. -/
def prepareCommit (history : HistoryStore) (writes : List DocumentWrite) (seq : Seq) :
    Except CommitError PreparedCommit :=
  if seq < history.store.nextSeq then .error (.sequence seq)
  else Except.mapError .store do
    let resolved ← resolveDocumentCopies history.store writes
    checkGlobalIds history.store [] resolved
    let actions ← prepareDocumentActions resolved
    checkDocumentActions history.store actions
    return ⟨seq, resolved, actions⟩

/-- A created incarnation is listed at its address. -/
def indexAction (ids : List (DocumentAddress × List DocumentId)) (id : DocumentId)
    (action : DocumentAction) : List (DocumentAddress × List DocumentId) :=
  match action.create with
  | some record =>
    Assoc.set record.address (insertSorted ((Assoc.get record.address ids).getD []) id) ids
  | none => ids

/-- `apply` of a prepared batch. -/
def apply (history : HistoryStore) (prepared : PreparedCommit) : HistoryStore where
  store := { applyDocumentActions prepared.seq history.store prepared.actions with
    nextSeq := prepared.seq + 1 }
  ids := prepared.actions.foldl (fun ids e => indexAction ids e.1 e.2) history.ids

/-- A commit: what is refused when it is prepared is not applied. -/
def commitAt (history : HistoryStore) (writes : List DocumentWrite) (seq : Seq) :
    HistoryStore × Except CommitError PreparedCommit :=
  match history.prepareCommit writes seq with
  | .ok prepared => (history.apply prepared, .ok prepared)
  | .error error => (history, .error error)

/-- `findDocument`, now (`none`) or at a commit. -/
def findDocument (history : HistoryStore) (address : DocumentAddress) (at_ : Option Seq) :
    Option DocumentRecord :=
  match at_ with
  | none => history.store.findDocument address
  | some seq =>
    ((Assoc.get address history.ids).getD []).findSome? fun id =>
      ((Assoc.get id history.store.documents).map StoredDocumentState.record).filter fun record =>
        isAliveAt record (some seq)

/-- `document`, now (`none`) or at a commit. -/
def document (history : HistoryStore) (id : DocumentId) (at_ : Option Seq) :
    Except StoreError (Option StoredDocument) :=
  history.store.materializeDocument id at_

end HistoryStore

/-! ### What contents come to -/

/-- One content: a base is the value, a delta changes it. -/
def foldContent (value : Option (Nat × JsonValue × Nat)) (revision : DocumentRevision) :
    Option (Nat × JsonValue × Nat) :=
  match revision.content with
  | .base version base => some (version, base, 0)
  | .delta _ ops => value.bind fun read =>
    (replay read.2.1 [ops]).map fun next => (read.1, next, read.2.2 + 1)

/-- **What contents come to**: the version and value of the newest base, changed by every later delta
in order, and the number of these. -/
def foldContents (revisions : List DocumentRevision) : Option (Nat × JsonValue × Nat) :=
  revisions.foldl foldContent none

/-- A delta is in the version of what it follows. -/
def Follows (before after : DocumentRevision) : Prop :=
  ∀ version ops, after.content = .delta version ops → before.content.version = version

def DocumentContent.IsBase : DocumentContent → Prop
  | .base _ _ => True
  | .delta _ _ => False

/-- Revisions that start with a base, each delta in the version of what it follows. -/
structure Based (revisions : List DocumentRevision) : Prop where
  starts : ∃ first, revisions.head? = some first ∧ first.content.IsBase
  follows : revisions.IsChain Follows

variable {deltas : List DocumentRevision}

theorem lastBase_deltas (all : ∀ r ∈ deltas, ¬r.content.IsBase) : lastBase deltas = none := by
  induction deltas with
  | nil => rfl
  | cons r rest ih =>
    rw [lastBase, ih fun other member => all other (mem_cons_of_mem _ member)]
    have delta := all r mem_cons_self
    cases content : r.content with
    | base version value =>
      rw [content] at delta
      exact absurd trivial delta
    | delta version ops => rfl

/-- The last base and the deltas after it. -/
theorem exists_lastBase {revisions : List DocumentRevision}
    (has : ∃ r ∈ revisions, r.content.IsBase) :
    ∃ before seq version value deltas,
      revisions = before ++ ⟨seq, .base version value⟩ :: deltas ∧
      (∀ r ∈ deltas, ¬r.content.IsBase) ∧ lastBase revisions = some (version, value, deltas) := by
  induction revisions with
  | nil =>
    obtain ⟨r, member, -⟩ := has
    exact absurd member not_mem_nil
  | cons first rest ih =>
    by_cases later : ∃ r ∈ rest, r.content.IsBase
    · obtain ⟨before, seq, version, value, deltas, rfl, all, last⟩ := ih later
      exact ⟨first :: before, seq, version, value, deltas, rfl, all, by rw [lastBase, last]⟩
    · have all : ∀ r ∈ rest, ¬r.content.IsBase := fun r member base => later ⟨r, member, base⟩
      obtain ⟨r, member, base⟩ := has
      rcases List.mem_cons.mp member with rfl | inside
      · obtain ⟨seq, content⟩ := r
        cases content with
        | base version value =>
          exact ⟨[], seq, version, value, rest, rfl, all, by rw [lastBase, lastBase_deltas all]⟩
        | delta version ops => exact base.elim
      · exact absurd base (all r inside)

/-- The deltas after a base are in its version. -/
theorem version_of_follows (all : ∀ r ∈ deltas, ¬r.content.IsBase) :
    ∀ {first : DocumentRevision}, (first :: deltas).IsChain Follows →
      ∀ r ∈ deltas, r.content.version = first.content.version := by
  induction deltas with
  | nil => exact fun _ r member => absurd member not_mem_nil
  | cons next rest ih =>
    intro first chain r member
    obtain ⟨follows, behind⟩ := List.isChain_cons_cons.mp chain
    have here : next.content.version = first.content.version := by
      cases content : next.content with
      | base version value =>
        have delta := all next mem_cons_self
        rw [content] at delta
        exact absurd trivial delta
      | delta version ops => exact (follows version ops content).symm
    rcases List.mem_cons.mp member with rfl | later
    · exact here
    · exact (ih (fun other inside => all other (mem_cons_of_mem _ inside)) behind r
      later).trans here

/-- Behind a delta that fails there is nothing up to the next base. -/
theorem foldl_deltas_none (all : ∀ r ∈ deltas, ¬r.content.IsBase) :
    deltas.foldl foldContent none = none := by
  induction deltas with
  | nil => rfl
  | cons first rest ih =>
    have delta := all first mem_cons_self
    have fails : foldContent none first = none := by
      unfold foldContent
      cases content : first.content with
      | base version value =>
        rw [content] at delta
        exact absurd trivial delta
      | delta version ops => rfl
    rw [foldl_cons, fails]
    exact ih fun r member => all r (mem_cons_of_mem _ member)

/-- Deltas of one version, as the batches of their operations. -/
theorem foldl_deltas (id : DocumentId) {version : Nat} (all : ∀ r ∈ deltas, ¬r.content.IsBase)
    (same : ∀ r ∈ deltas, r.content.version = version) :
    ∃ batches, documentDeltaBatches id version deltas = .ok batches ∧
      ∀ value count, deltas.foldl foldContent (some (version, value, count)) =
        (replay value batches).map fun next => (version, next, count + deltas.length) := by
  induction deltas with
  | nil => exact ⟨[], rfl, fun value count => rfl⟩
  | cons first rest ih =>
    obtain ⟨batches, read, fold⟩ := ih (fun r member => all r (mem_cons_of_mem _ member))
      fun r member => same r (mem_cons_of_mem _ member)
    have delta := all first mem_cons_self
    have at_ := same first mem_cons_self
    cases content : first.content with
    | base v value =>
      rw [content] at delta
      exact absurd trivial delta
    | delta v ops =>
      rw [content] at at_
      have at_ : v = version := at_
      refine ⟨ops :: batches, ?_, fun value count => ?_⟩
      · rw [documentDeltaBatches, content]
        dsimp only
        rw [if_pos at_, read]
        rfl
      · have first_ : foldContent (some (version, value, count)) first =
            (replay value [ops]).map fun next => (version, next, count + 1) := by
          unfold foldContent
          rw [content]
          rfl
        have split : replay value (ops :: batches) =
            replay value [ops] >>= fun next => replay next batches := replay_append value
              [ops] batches
        rw [foldl_cons, first_, split]
        cases replay value [ops] with
        | none => exact foldl_deltas_none fun r member => all r (mem_cons_of_mem _ member)
        | some next =>
          rw [Option.map_some, fold, length_cons]
          refine congrArg (fun f => Option.map f (replay next batches)) (funext fun y => ?_)
          rw [Nat.add_right_comm, Nat.add_assoc]

/-- **Revisions that start with a base are materialized to what they come to.** -/
theorem materializeRevisions_eq (id : DocumentId) {revisions : List DocumentRevision}
    (based : Based revisions) : materializeRevisions id revisions =
      match foldContents revisions with
      | some read => .ok read
      | none => .error (.replay id) := by
  obtain ⟨first, found, base⟩ := based.starts
  obtain ⟨before, seq, version, value, deltas, rfl, all, last⟩ :=
    exists_lastBase ⟨first, mem_of_head? found, base⟩
  have chain := (List.isChain_append.mp based.follows).2.1
  obtain ⟨batches, read, fold⟩ := foldl_deltas id all (version_of_follows all chain)
  have comes : foldContents (before ++ ⟨seq, .base version value⟩ :: deltas) =
      (replay value batches).map fun next => (version, next, deltas.length) := by
    unfold foldContents
    rw [foldl_append, foldl_cons]
    refine (fold value 0).trans ?_
    rw [Nat.zero_add]
    rfl
  have batches_ : documentDeltaBatches id version deltas = .ok batches := read
  unfold materializeRevisions
  rw [last, comes]
  dsimp only
  rw [batches_]
  dsimp only [bind, Except.bind]
  cases replay value batches <;> rfl

/-! ### Commits in their order -/

/-- What a write stores, and for which incarnation. -/
def DocumentWrite.content? : DocumentWrite → Option (DocumentId × DocumentContent)
  | .create record version value => some (record.id, .base version value)
  | .change id content => some (id, content)
  | .copy _ _ => none
  | .retire _ => none

/-- The writes of the accepted commits, their copies resolved. -/
abbrev CommitLog := List (Seq × List DocumentWrite)

/-- The contents that a batch writes to an incarnation. -/
def contentsIn (id : DocumentId) (writes : List DocumentWrite) : List DocumentContent :=
  ((writes.filterMap DocumentWrite.content?).filter fun e => e.1 = id).map Prod.snd

/-- **The contents of an incarnation**, in the order of their commits. -/
def contentsOf (id : DocumentId) (log : CommitLog) : List DocumentRevision :=
  log.flatMap fun e => (contentsIn id e.2).map fun content => ⟨e.1, content⟩

/-- Batches, accepted or refused, from an empty Storage on. -/
inductive Run : HistoryStore → CommitLog → Prop
  | start : Run {} []
  | accepted {history : HistoryStore} {log : CommitLog} (before : Run history log)
      {writes : List DocumentWrite} {seq : Seq} {prepared : PreparedCommit}
      (done : history.prepareCommit writes seq = .ok prepared) :
      Run (history.commitAt writes seq).1 (log ++ [(seq, prepared.writes)])
  | refused {history : HistoryStore} {log : CommitLog} (before : Run history log)
      {writes : List DocumentWrite} {seq : Seq} {error : CommitError}
      (done : history.prepareCommit writes seq = .error error) :
      Run (history.commitAt writes seq).1 log

end TianGong.Session
