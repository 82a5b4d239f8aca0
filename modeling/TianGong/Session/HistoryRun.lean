/-
**The past of a document is what was written to it.**

Over every sequence of batches, accepted or refused:

* `contentsIn_eq`: a batch has at most one content for an incarnation, that of its action.
* `Applied`, `applied_cases`: what an accepted batch makes of one incarnation.
* `document_history`: the answers of the state are those of the log.
-/

import TianGong.Session.DocumentHistory

namespace TianGong.Session

open TianGong.Lib (lowerBound)
open List
open TianGong.Returns

/-! ### One batch -/

theorem contentsIn_append (id : DocumentId) (writes more : List DocumentWrite) :
    contentsIn id (writes ++ more) = contentsIn id writes ++ contentsIn id more := by
  unfold contentsIn
  rw [filterMap_append, filter_append, map_append]

/-- The content of an action. -/
def contentOf (id : DocumentId) (actions : List (DocumentId × DocumentAction)) :
    List DocumentContent :=
  ((Assoc.get id actions).bind DocumentAction.content).toList

variable {id other : DocumentId} {writes : List DocumentWrite}
  {actions : List (DocumentId × DocumentAction)} {seq : Seq}

/-- A content write where there was none. -/
theorem contentOf_set {action : DocumentAction} {content : DocumentContent}
    (empty : ((Assoc.get id actions).getD {}).content = none)
    (has : action.content = some content) :
    contentOf other (Assoc.set id action actions) =
      contentOf other actions ++ if id = other then [content] else [] := by
  unfold contentOf
  rw [Assoc.get_set]
  split_ifs with same
  · subst same
    rw [Option.bind_some, has]
    cases found : Assoc.get id actions with
    | none => rfl
    | some before =>
      rw [found] at empty
      have empty : before.content = none := empty
      rw [Option.bind_some, empty]
      rfl
  · rw [append_nil]

/-- **A batch has at most one content for an incarnation**: that of its action. -/
theorem contentsIn_eq (done : prepareDocumentActions writes = .ok actions) (id : DocumentId) :
    contentsIn id writes = contentOf id actions := by
  induction writes using List.reverseRecOn generalizing actions with
  | nil =>
    cases done
    rfl
  | append_singleton writes write ih =>
    obtain ⟨middle, before, last⟩ := prepareDocumentActions_append done
    rw [contentsIn_append, ih before]
    unfold prepareAction at last
    cases write with
    | create record version value =>
      dsimp only at last
      split_ifs at last with more
      cases last
      rw [contentOf_set (by simpa using (not_or.mp more).2) rfl]
      by_cases same : record.id = id <;>
        simp [contentsIn, DocumentWrite.content?, same]
    | copy record source =>
      cases last
      exact append_nil _
    | change other content =>
      dsimp only at last
      split_ifs at last with more
      cases last
      rw [contentOf_set (by simpa using more) rfl]
      by_cases same : other = id <;>
        simp [contentsIn, DocumentWrite.content?, same]
    | retire other =>
      dsimp only at last
      split_ifs at last with more
      cases last
      unfold contentOf
      rw [Assoc.get_set]
      split_ifs with same
      · subst same
        cases Assoc.get other middle <;> simp [contentsIn, DocumentWrite.content?]
      · exact append_nil _

theorem prepareCommit_ok {history : HistoryStore} {prepared : PreparedCommit}
    (done : history.prepareCommit writes seq = .ok prepared) :
    history.store.nextSeq ≤ seq ∧ prepared.seq = seq ∧
      (∀ write ∈ prepared.writes, ∀ record source, write ≠ .copy record source) ∧
      prepareDocumentActions prepared.writes = .ok prepared.actions ∧
      checkDocumentActions history.store prepared.actions = .ok () := by
  unfold HistoryStore.prepareCommit at done
  split_ifs at done with early
  refine ⟨Nat.not_lt.mp early, ?_⟩
  obtain ⟨resolved, copies, done⟩ := bind_eq_ok.mp (of_mapError done)
  obtain ⟨_, -, done⟩ := bind_eq_ok.mp done
  obtain ⟨actions, ready, done⟩ := bind_eq_ok.mp done
  obtain ⟨_, checked, is⟩ := bind_eq_ok.mp done
  cases is
  exact ⟨rfl, resolved_plain copies, ready, checked⟩

/-! ### What a batch makes of an incarnation -/

/-- The revisions of an incarnation that is not created: what content adds, and what retiring leaves. -/
def revisionsAfter (seq : Seq) (old : StoredDocumentState) (content : Option DocumentContent)
    (retire : Bool) : List DocumentRevision :=
  if retire ∧ isCurrentOnly old.record.toDocumentCreate then []
  else
    match content with
    | none => old.revisions
    | some content => revised seq old content

/-- **What a batch makes of an incarnation**: nothing, a change or its creation. -/
inductive Applied (store : DocumentStore) (writes : List DocumentWrite) (seq : Seq)
    (id : DocumentId)
    (after : StoredDocumentState) : Prop
  | same (before : Assoc.get id store.documents = some after) (silent : contentsIn id writes = [])
      (kept : .retire id ∉ writes)
  | changed (old : StoredDocumentState) (content : Option DocumentContent) (retire : Bool)
      (before : Assoc.get id store.documents = some old) (alive : old.record.retiredAt = none)
      (contents : contentsIn id writes = content.toList)
      (delta : ∀ version ops, content = some (.delta version ops) →
        ∃ last, old.revisions.getLast? = some last ∧ last.content.version = version)
      (retires : .retire id ∈ writes ↔ retire = true)
      (stored : after = ⟨if retire then { old.record with retiredAt := some seq } else old.record,
        revisionsAfter seq old content retire⟩)
  | created (record : DocumentCreate) (version : Nat) (value : JsonValue) (retire : Bool)
      (fresh : Assoc.get id store.documents = none) (names : record.id = id)
      (made : .create record version value ∈ writes)
      (contents : contentsIn id writes = [.base version value])
      (retires : .retire id ∈ writes ↔ retire = true)
      (stored : after = ⟨⟨record, seq, if retire then some seq else none⟩,
        if retire ∧ isCurrentOnly record then [] else [⟨seq, .base version value⟩]⟩)

variable {after : StoredDocumentState}

theorem applied_cases {store : DocumentStore}
    (plain : ∀ write ∈ writes, ∀ record source, write ≠ .copy record source)
    (prepared : prepareDocumentActions writes = .ok actions)
    (checked : checkDocumentActions store actions = .ok ())
    (found : Assoc.get id (applyDocumentActions seq store actions).documents = some after) :
    Applied store writes seq id after := by
  have of := prepareDocumentActions_of plain prepared
  have contents := contentsIn_eq prepared id
  unfold contentOf at contents
  rw [get_applyDocumentActions seq of.nodup] at found
  cases there : Assoc.get id actions with
  | none =>
    rw [there] at found contents
    have silent : .retire id ∉ writes := fun member =>
      of.none id there (mem_map.mpr ⟨_, member, rfl⟩)
    exact .same found contents silent
  | some action =>
    rw [there] at found contents
    have here := of.of_get id action there
    have allowed := checkAction_existing (checkAction_of_checked checked (Assoc.mem_of_get there))
    cases made : action.create with
    | some record =>
      obtain ⟨names, version, value, content⟩ := here.named record made
      have fresh := allowed.2 record made
      refine .created record version value action.retire fresh names
        ((here.create record version value names).mpr ⟨made, content⟩) ?_ here.retire ?_
      · rw [contents, Option.bind_some, content]
        rfl
      · dsimp only at found
        unfold DocumentAction.stored DocumentAction.written at found
        rw [made, content, fresh] at found
        simp only [Option.map_some, Option.toList_some, Option.some_or, Option.some_inj] at found
        rw [← found]
        split_ifs <;> rfl
    | none =>
      obtain ⟨old, before, alive, delta⟩ := allowed.1 made
      refine .changed old action.content action.retire before alive ?_ delta here.retire ?_
      · rw [contents, Option.bind_some]
      · dsimp only at found
        unfold DocumentAction.stored DocumentAction.written at found
        rw [made, before] at found
        simp only [Option.map_some, Option.some_or, Option.some_inj] at found
        rw [← found]
        have record : (if action.retire then { old.record with retiredAt := some seq }
            else old.record).toDocumentCreate = old.record.toDocumentCreate := by
          split_ifs <;> rfl
        unfold revisionsAfter
        rw [record]
        cases action.content with
        | none => split_ifs <;> rfl
        | some content =>
          unfold revised
          cases content <;> dsimp only <;> split_ifs <;> rfl

/-! ### What is stored of an incarnation -/

theorem contentsOf_concat (id : DocumentId) (log : CommitLog) (seq : Seq)
    (writes : List DocumentWrite) :
    contentsOf id (log ++ [(seq, writes)]) =
      contentsOf id log ++ (contentsIn id writes).map fun content => ⟨seq, content⟩ := by
  unfold contentsOf
  rw [flatMap_append, flatMap_singleton]

/-- Contents were written by commits. -/
theorem seq_of_contentsOf {log : CommitLog} {revision : DocumentRevision}
    (member : revision ∈ contentsOf id log) : ∃ e ∈ log, e.1 = revision.seq := by
  obtain ⟨e, there, inside⟩ := List.mem_flatMap.mp member
  obtain ⟨content, -, rfl⟩ := mem_map.mp inside
  exact ⟨e, there, rfl⟩

variable {revisions : List DocumentRevision}

theorem Based.ne_nil (based : Based revisions) : revisions ≠ [] := by
  rintro rfl
  obtain ⟨first, found, -⟩ := based.starts
  cases found

/-- A base starts anew. -/
theorem based_base (seq : Seq) (version : Nat) (value : JsonValue) :
    Based [⟨seq, .base version value⟩] :=
  ⟨⟨_, rfl, trivial⟩, isChain_singleton _⟩

/-- One content more: a base, or a delta in the version of the last. -/
theorem Based.concat (based : Based revisions) (seq : Seq) {content : DocumentContent}
    (delta : ∀ version ops, content = .delta version ops →
      ∃ last, revisions.getLast? = some last ∧ last.content.version = version) :
    Based (revisions ++ [⟨seq, content⟩]) := by
  obtain ⟨first, found, base⟩ := based.starts
  refine ⟨⟨first, ?_, base⟩, List.isChain_append.mpr
    ⟨based.follows, isChain_singleton _, fun last isLast next isNext version ops same => ?_⟩⟩
  · rw [List.head?_append, found]
    rfl
  · obtain rfl : (⟨seq, content⟩ : DocumentRevision) = next := Option.some.inj isNext
    obtain ⟨other, isOther, at_⟩ := delta version ops same
    obtain rfl := Option.some.inj (Option.mem_def.mp isLast ▸ isOther)
    exact at_

/-- **What is stored of an incarnation**, by the log of the commits. -/
structure StoredAs (log : CommitLog) (id : DocumentId) (stored : StoredDocumentState) : Prop where
  created : ∃ writes version value, (stored.record.createdAt, writes) ∈ log ∧
    .create stored.record.toDocumentCreate version value ∈ writes
  retired : ∀ seq, stored.record.retiredAt = some seq ↔
    ∃ writes, (seq, writes) ∈ log ∧ .retire id ∈ writes
  based : Based (contentsOf id log)
  first : ∃ first, (contentsOf id log).head? = some first ∧ first.seq = stored.record.createdAt
  ascending : (contentsOf id log).Pairwise fun r s => r.seq < s.seq
  whole : isCurrentOnly stored.record.toDocumentCreate = false →
    stored.revisions = contentsOf id log
  current : isCurrentOnly stored.record.toDocumentCreate = true →
    stored.record.retiredAt = none →
    ∃ before, contentsOf id log = before ++ stored.revisions ∧ Based stored.revisions

namespace StoredAs

variable {log : CommitLog} {id : DocumentId} {stored : StoredDocumentState} {seq : Seq}
  {writes : List DocumentWrite}

/-- The last revision of a live incarnation is its last content. -/
theorem getLast? (as : StoredAs log id stored) (alive : stored.record.retiredAt = none) :
    stored.revisions.getLast? = (contentsOf id log).getLast? := by
  cases only : isCurrentOnly stored.record.toDocumentCreate with
  | false => rw [as.whole only]
  | true =>
    obtain ⟨before, split, based⟩ := as.current only alive
    rw [split, List.getLast?_append_of_ne_nil _ based.ne_nil]

/-- A batch that does not name the incarnation. -/
theorem same (as : StoredAs log id stored) (silent : contentsIn id writes = [])
    (kept : .retire id ∉ writes) : StoredAs (log ++ [(seq, writes)]) id stored := by
  have contents : contentsOf id (log ++ [(seq, writes)]) = contentsOf id log := by
    rw [contentsOf_concat, silent, map_nil, append_nil]
  obtain ⟨created, retired, based, first, ascending, whole, current⟩ := as
  refine ⟨?_, fun at_ => (retired at_).trans ?_, contents ▸ based, contents ▸ first,
    contents ▸ ascending, contents ▸ whole, contents ▸ current⟩
  · obtain ⟨by_, version, value, member, made⟩ := created
    exact ⟨by_, version, value, mem_append_left _ member, made⟩
  · constructor
    · rintro ⟨by_, member, retires⟩
      exact ⟨by_, mem_append_left _ member, retires⟩
    · rintro ⟨by_, member, retires⟩
      rcases mem_append.mp member with old | new
      · exact ⟨by_, old, retires⟩
      · cases mem_singleton.mp new
        exact absurd retires kept

/-- A content and the end of an incarnation. -/
theorem changed (as : StoredAs log id stored) (logged : ∀ e ∈ log, e.1 < seq)
    {content : Option DocumentContent} {retire : Bool} (alive : stored.record.retiredAt = none)
    (contents : contentsIn id writes = content.toList)
    (delta : ∀ version ops, content = some (.delta version ops) →
      ∃ last, stored.revisions.getLast? = some last ∧ last.content.version = version)
    (retires : .retire id ∈ writes ↔ retire = true) :
    StoredAs (log ++ [(seq, writes)]) id
      ⟨if retire then { stored.record with retiredAt := some seq } else stored.record,
        revisionsAfter seq stored content retire⟩ := by
  have record : (if retire then { stored.record with retiredAt := some seq }
      else stored.record).toDocumentCreate = stored.record.toDocumentCreate := by
    split_ifs <;> rfl
  have createdAt : (if retire then { stored.record with retiredAt := some seq }
      else stored.record).createdAt = stored.record.createdAt := by
    split_ifs <;> rfl
  have never : ∀ at_ by_, (at_, by_) ∈ log → .retire id ∉ by_ := by
    intro at_ by_ member retired
    have was := (as.retired at_).mpr ⟨by_, member, retired⟩
    rw [alive] at was
    cases was
  have grown : contentsOf id (log ++ [(seq, writes)]) =
      contentsOf id log ++ content.toList.map fun content => ⟨seq, content⟩ := by
    rw [contentsOf_concat, contents]
  have based : Based (contentsOf id (log ++ [(seq, writes)])) := by
    rw [grown]
    cases content with
    | none =>
      rw [Option.toList_none, map_nil, append_nil]
      exact as.based
    | some content =>
      refine as.based.concat seq fun version ops same => ?_
      rw [← as.getLast? alive]
      exact delta version ops (congrArg some same)
  refine ⟨?_, fun at_ => ?_, based, ?_, ?_, fun only => ?_, fun only live => ?_⟩
  · obtain ⟨by_, version, value, member, made⟩ := as.created
    dsimp only
    rw [record, createdAt]
    exact ⟨by_, version, value, mem_append_left _ member, made⟩
  · dsimp only
    cases retire with
    | false =>
      refine (as.retired at_).trans ⟨?_, ?_⟩
      · rintro ⟨by_, member, retired⟩
        exact ⟨by_, mem_append_left _ member, retired⟩
      · rintro ⟨by_, member, retired⟩
        rcases mem_append.mp member with old | new
        · exact ⟨by_, old, retired⟩
        · cases mem_singleton.mp new
          exact absurd (retires.mp retired) Bool.false_ne_true
    | true =>
      constructor
      · intro now
        obtain rfl : seq = at_ := Option.some.inj now
        exact ⟨writes, mem_append_right _ (mem_singleton_self _), retires.mpr rfl⟩
      · rintro ⟨by_, member, retired⟩
        rcases mem_append.mp member with old | new
        · exact absurd retired (never at_ by_ old)
        · cases mem_singleton.mp new
          rfl
  · obtain ⟨first, found, at_⟩ := as.first
    dsimp only
    rw [grown, List.head?_append, found, createdAt]
    exact ⟨first, rfl, at_⟩
  · rw [grown]
    refine List.pairwise_append.mpr ⟨as.ascending, ?_, fun r old s new => ?_⟩
    · cases content with
      | none => exact List.Pairwise.nil
      | some content => exact pairwise_singleton _ _
    · obtain ⟨e, member, at_⟩ := seq_of_contentsOf old
      obtain ⟨c, -, rfl⟩ := mem_map.mp new
      rw [← at_]
      exact logged e member
  · dsimp only at only ⊢
    rw [record] at only
    rw [grown, ← as.whole only]
    unfold revisionsAfter revised
    rw [if_neg (by simp [only])]
    rcases content with _ | ⟨version, value⟩ | ⟨version, ops⟩
    · exact (append_nil _).symm
    · dsimp only
      rw [if_neg (by simp [only])]
      rfl
    · rfl
  · dsimp only at only live ⊢
    rw [record] at only
    obtain rfl : retire = false := by
      cases retire with
      | false => rfl
      | true => cases live
    obtain ⟨before, split, here⟩ := as.current only alive
    unfold revisionsAfter revised
    rw [if_neg (by simp), grown]
    rcases content with _ | ⟨version, value⟩ | ⟨version, ops⟩
    · exact ⟨before, (append_nil _).trans split, here⟩
    · dsimp only
      rw [if_pos only]
      exact ⟨contentsOf id log, rfl, based_base seq version value⟩
    · refine ⟨before, ?_, here.concat seq fun v o same => ?_⟩
      · rw [split, append_assoc]
        rfl
      · exact delta v o (congrArg some same)

/-- The creation of an incarnation. -/
theorem fresh {record : DocumentCreate} {version : Nat} {value : JsonValue} {retire : Bool}
    (empty : contentsOf id log = []) (never : ∀ e ∈ log, .retire id ∉ e.2)
    (made : .create record version value ∈ writes)
    (contents : contentsIn id writes = [.base version value])
    (retires : .retire id ∈ writes ↔ retire = true) :
    StoredAs (log ++ [(seq, writes)]) id ⟨⟨record, seq, if retire then some seq else none⟩,
      if retire ∧ isCurrentOnly record then [] else [⟨seq, .base version value⟩]⟩ := by
  have grown : contentsOf id (log ++ [(seq, writes)]) = [⟨seq, .base version value⟩] := by
    rw [contentsOf_concat, empty, contents]
    rfl
  have here : (seq, writes) ∈ log ++ [(seq, writes)] :=
    mem_append_right _ (mem_singleton_self _)
  refine ⟨⟨writes, version, value, here, made⟩, fun at_ => ?_, ?_, ?_, ?_, fun only => ?_,
    fun only live => ?_⟩
  · constructor
    · intro now
      dsimp only at now
      split_ifs at now with retired
      obtain rfl : seq = at_ := Option.some.inj now
      exact ⟨writes, here, retires.mpr retired⟩
    · rintro ⟨by_, member, retired⟩
      rcases mem_append.mp member with old | new
      · exact absurd retired (never _ old)
      · cases mem_singleton.mp new
        exact if_pos (retires.mp retired)
  · rw [grown]
    exact based_base seq version value
  · rw [grown]
    exact ⟨_, rfl, rfl⟩
  · rw [grown]
    exact pairwise_singleton _ _
  · have only : isCurrentOnly record = false := only
    rw [grown]
    exact if_neg (by simp [only])
  · have stays : ¬retire = true := fun retired => by
      rw [if_pos retired] at live
      cases live
    rw [grown]
    dsimp only
    rw [if_neg (not_and_of_not_left _ stays)]
    exact ⟨[], rfl, based_base seq version value⟩

end StoredAs

/-! ### The index of an address -/

theorem mem_insertSorted {ids : List DocumentId} :
    other ∈ insertSorted ids id ↔ other ∈ ids ∨ other = id := by
  unfold insertSorted
  split_ifs
  · rw [mem_append, mem_singleton]
  · conv_rhs => rw [← take_append_drop (lowerBound ids id) ids]
    rw [mem_append, mem_cons, mem_append]
    tauto

/-- The incarnations that the index lists at an address. -/
def listedAt (ids : List (DocumentAddress × List DocumentId)) (address : DocumentAddress) :
    List DocumentId :=
  (Assoc.get address ids).getD []

theorem mem_indexAction {ids : List (DocumentAddress × List DocumentId)} {action : DocumentAction}
    {address : DocumentAddress} :
    other ∈ listedAt (HistoryStore.indexAction ids id action) address ↔
      other ∈ listedAt ids address ∨
        other = id ∧ ∃ record, action.create = some record ∧ record.address = address := by
  unfold HistoryStore.indexAction listedAt
  cases action.create with
  | none => simp
  | some record =>
    dsimp only
    rw [Assoc.get_set]
    split_ifs with here
    · subst here
      rw [Option.getD_some, mem_insertSorted]
      simp
    · simp [here]

/-- What the actions of a batch list. -/
theorem mem_foldl_indexAction {address : DocumentAddress} :
    ∀ {ids : List (DocumentAddress × List DocumentId)},
    id ∈ listedAt (actions.foldl (fun ids e => HistoryStore.indexAction ids e.1 e.2) ids) address ↔
      id ∈ listedAt ids address ∨ ∃ e ∈ actions, e.1 = id ∧
        ∃ record, e.2.create = some record ∧ record.address = address := by
  induction actions with
  | nil =>
    intro ids
    simp
  | cons first rest ih =>
    intro ids
    rw [foldl_cons, ih, mem_indexAction, exists_mem_cons_iff, or_assoc]
    constructor
    · rintro (old | ⟨rfl, here⟩ | later)
      · exact .inl old
      · exact .inr (.inl ⟨rfl, here⟩)
      · exact .inr (.inr later)
    · rintro (old | ⟨rfl, here⟩ | later)
      · exact .inl old
      · exact .inr (.inl ⟨rfl, here⟩)
      · exact .inr (.inr later)

/-! ### The whole state -/

/-- **What the state holds of the log.** -/
structure Kept (history : HistoryStore) (log : CommitLog) : Prop where
  inv : StoreInv history.store
  logged : ∀ e ∈ log, e.1 < history.store.nextSeq
  stored : ∀ id stored, Assoc.get id history.store.documents = some stored → StoredAs log id stored
  absent : ∀ id, Assoc.get id history.store.documents = none →
    contentsOf id log = [] ∧ ∀ e ∈ log, .retire id ∉ e.2
  live : ∀ id stored, Assoc.get id history.store.documents = some stored →
    stored.record.retiredAt = none →
    Assoc.get stored.record.address history.store.currentIds = some id
  listed : ∀ address id, id ∈ listedAt history.ids address ↔
    ∃ stored, Assoc.get id history.store.documents = some stored ∧ stored.record.address = address
  alone : ∀ seq id other stored stored', Assoc.get id history.store.documents = some stored →
    Assoc.get other history.store.documents = some stored' →
    stored.record.address = stored'.record.address → isAliveAt stored.record (some seq) = true →
    isAliveAt stored'.record (some seq) = true → id = other

theorem isAliveAt_some {record : DocumentRecord} :
    isAliveAt record (some seq) = true ↔
      record.createdAt ≤ seq ∧ ∀ retired, record.retiredAt = some retired → seq < retired := by
  unfold isAliveAt
  cases record.retiredAt with
  | none => simp
  | some retired => simp

theorem kept_start : Kept {} [] where
  inv := storeInv_empty
  logged := fun e member => absurd member not_mem_nil
  stored := fun id stored found => by cases found
  absent := fun id _ => ⟨rfl, fun e member => absurd member not_mem_nil⟩
  live := fun id stored found => by cases found
  listed := fun address id => by
    refine iff_of_false not_mem_nil ?_
    rintro ⟨stored, found, -⟩
    cases found
  alone := fun seq id other stored stored' found => by cases found

section Apply

variable {history : HistoryStore} {log : CommitLog} {writes : List DocumentWrite}
  {actions : List (DocumentId × DocumentAction)} {seq : Seq}

/-- What was stored before, and what was not. -/
theorem Applied.before (applied : Applied history.store writes seq id after)
    (logged : ∀ e ∈ log, e.1 < seq) (kept : Kept history log) :
    StoredAs (log ++ [(seq, writes)]) id after := by
  cases applied with
  | same before silent stays => exact (kept.stored id after before).same silent stays
  | changed old content retire before alive contents delta retires stored =>
    rw [stored]
    exact (kept.stored id old before).changed logged alive contents delta retires
  | created record version value retire fresh names made contents retires stored =>
    obtain ⟨empty, never⟩ := kept.absent id fresh
    rw [stored]
    exact .fresh empty never made contents retires

/-- An incarnation that is alive before a batch was so, and is current behind it. -/
theorem Applied.alive (applied : Applied history.store writes seq id after) {at_ : Seq}
    (alive : isAliveAt after.record (some at_) = true) (before : at_ < seq) :
    ∃ old, Assoc.get id history.store.documents = some old ∧
      old.record.address = after.record.address ∧ isAliveAt old.record (some at_) = true := by
  cases applied with
  | same was => exact ⟨after, was, rfl, alive⟩
  | changed old content retire was live contents delta retires stored =>
    subst stored
    refine ⟨old, was, by dsimp only; split_ifs <;> rfl, isAliveAt_some.mpr ⟨?_, ?_⟩⟩
    · have created := (isAliveAt_some.mp alive).1
      dsimp only at created
      split_ifs at created <;> exact created
    · rw [live]
      rintro retired ⟨⟩
  | created record version value retire fresh names made contents retires stored =>
    subst stored
    exact absurd before (Nat.not_lt.mpr (isAliveAt_some.mp alive).1)

/-- A live incarnation is what its address shows. -/
theorem Kept.live_apply (kept : Kept history log)
    (plain : ∀ write ∈ writes, ∀ record source, write ≠ .copy record source)
    (prepared : prepareDocumentActions writes = .ok actions)
    (checked : checkDocumentActions history.store actions = .ok ())
    (applied : Applied history.store writes seq id after) (alive : after.record.retiredAt = none) :
    Assoc.get after.record.address
      (applyDocumentActions seq history.store actions).currentIds = some id := by
  have of := prepareDocumentActions_of plain prepared
  cases applied with
  | same before silent stays =>
    exact current_applied_kept of checked (kept.live id after before alive) stays
  | changed old content retire before live contents delta retires stored =>
    subst stored
    obtain rfl : retire = false := by
      cases retire with
      | false => rfl
      | true => cases alive
    exact current_applied_kept of checked (kept.live id old before live)
      fun retired => Bool.false_ne_true (retires.mp retired)
  | created record version value retire fresh names made contents retires stored =>
    subst stored names
    have stays : ¬retire = true := fun retired => by
      rw [if_pos retired] at alive
      cases alive
    exact current_applied_created of checked made fun retired => stays (retires.mp retired)

/-- What a batch stores was stored before, or is created by it. -/
theorem Applied.address (applied : Applied history.store writes seq id after) :
    (∃ old, Assoc.get id history.store.documents = some old ∧
      old.record.address = after.record.address) ∨
    ∃ version value, Assoc.get id history.store.documents = none ∧
      .create after.record.toDocumentCreate version value ∈ writes ∧ after.record.id = id := by
  cases applied with
  | same before => exact .inl ⟨after, before, rfl⟩
  | changed old content retire before live contents delta retires stored =>
    subst stored
    exact .inl ⟨old, before, by dsimp only; split_ifs <;> rfl⟩
  | created record version value retire fresh names made contents retires stored =>
    subst stored
    exact .inr ⟨version, value, fresh, made, names⟩

/-- **An accepted batch keeps it.** -/
theorem Kept.apply (kept : Kept history log) (next : history.store.nextSeq ≤ seq)
    (plain : ∀ write ∈ writes, ∀ record source, write ≠ .copy record source)
    (prepared : prepareDocumentActions writes = .ok actions)
    (checked : checkDocumentActions history.store actions = .ok ()) :
    Kept (history.apply ⟨seq, writes, actions⟩) (log ++ [(seq, writes)]) := by
  have of := prepareDocumentActions_of plain prepared
  have logged : ∀ e ∈ log, e.1 < seq := fun e member =>
    Nat.lt_of_lt_of_le (kept.logged e member) next
  have cases_ : ∀ id after, Assoc.get id (history.apply ⟨seq, writes, actions⟩).store.documents =
      some after → Applied history.store writes seq id after := fun id after found =>
    applied_cases plain prepared checked found
  have stays : ∀ id old, Assoc.get id history.store.documents = some old →
      ∃ after, Assoc.get id (history.apply ⟨seq, writes, actions⟩).store.documents =
        some after := by
    intro id old found
    have got := @get_applyDocumentActions seq history.store actions of.nodup id
    rw [found] at got
    cases action : Assoc.get id actions with
    | none =>
      rw [action] at got
      exact ⟨old, got⟩
    | some action_ =>
      rw [action] at got
      exact ⟨_, got.trans Option.or_some⟩
  have created : ∀ id action, Assoc.get id actions = some action →
      Assoc.get id history.store.documents = none →
      ∃ after, Assoc.get id (history.apply ⟨seq, writes, actions⟩).store.documents =
        some after := by
    intro id action there fresh
    have got := @get_applyDocumentActions seq history.store actions of.nodup id
    have allowed := checkAction_existing (checkAction_of_checked checked (Assoc.mem_of_get there))
    cases made : action.create with
    | none =>
      obtain ⟨old, was, -⟩ := allowed.1 made
      rw [fresh] at was
      cases was
    | some record =>
      rw [there, fresh] at got
      dsimp only at got
      unfold DocumentAction.stored DocumentAction.written at got
      rw [made] at got
      exact ⟨_, got⟩
  have live : ∀ id after,
      Assoc.get id (history.apply ⟨seq, writes, actions⟩).store.documents = some after →
      after.record.retiredAt = none → Assoc.get after.record.address
        (history.apply ⟨seq, writes, actions⟩).store.currentIds = some id :=
    fun id after found alive => kept.live_apply plain prepared checked (cases_ id after found) alive
  have stored : ∀ id after,
      Assoc.get id (history.apply ⟨seq, writes, actions⟩).store.documents = some after →
      StoredAs (log ++ [(seq, writes)]) id after :=
    fun id after found => (cases_ id after found).before logged kept
  refine ⟨storeInv_applied kept.inv of checked _, fun e member => ?_, stored, fun id missing => ?_,
    live, fun address id => ?_, fun at_ id other after after' found found' address here there => ?_⟩
  · rcases mem_append.mp member with old | new
    · exact Nat.lt_succ_of_lt (logged e old)
    · rw [mem_singleton.mp new]
      exact Nat.lt_succ_self seq
  · have before : Assoc.get id history.store.documents = none := by
      cases was : Assoc.get id history.store.documents with
      | none => rfl
      | some old =>
        obtain ⟨after, found⟩ := stays id old was
        rw [found] at missing
        cases missing
    have unnamed : Assoc.get id actions = none := by
      cases there : Assoc.get id actions with
      | none => rfl
      | some action =>
        obtain ⟨after, found⟩ := created id action there before
        rw [found] at missing
        cases missing
    obtain ⟨empty, never⟩ := kept.absent id before
    refine ⟨?_, fun e member retired => ?_⟩
    · rw [contentsOf_concat, empty, contentsIn_eq prepared]
      unfold contentOf
      rw [unnamed]
      rfl
    · rcases mem_append.mp member with old | new
      · exact never e old retired
      · rw [mem_singleton.mp new] at retired
        exact of.none id unnamed (mem_map.mpr ⟨_, retired, rfl⟩)
  · refine mem_foldl_indexAction.trans ⟨?_, ?_⟩
    · rintro (old | ⟨⟨_, action⟩, member, rfl, record, made, at_⟩)
      · obtain ⟨before, was, at_⟩ := (kept.listed address id).mp old
        obtain ⟨after, found⟩ := stays id before was
        refine ⟨after, found, ?_⟩
        rcases (cases_ id after found).address with ⟨other, same, there⟩ | ⟨_, _, none, -, -⟩
        · rw [was] at same
          obtain rfl := Option.some.inj same
          rw [← there, at_]
        · rw [was] at none
          cases none
      · have there := Assoc.get_of_mem of.nodup member
        have fresh := (checkAction_existing (checkAction_of_checked checked member)).2 record made
        obtain ⟨after, found⟩ := created _ action there fresh
        refine ⟨after, found, ?_⟩
        rcases (cases_ _ after found).address with ⟨other, same, -⟩ |
          ⟨version, value, -, by_, names⟩
        · rw [fresh] at same
          cases same
        · have creates := (((of.of_get _ action there).create _ version value names).mp by_).1
          rw [made] at creates
          rw [← Option.some.inj creates, at_]
    · rintro ⟨after, found, at_⟩
      rcases (cases_ id after found).address with ⟨old, was, there⟩ |
        ⟨version, value, -, by_, names⟩
      · exact .inl ((kept.listed address id).mpr ⟨old, was, there.trans at_⟩)
      · obtain ⟨action, there, -, made, -⟩ := of.of_created by_
        exact .inr ⟨_, Assoc.mem_of_get there, names, _, made, at_⟩
  · rcases Nat.lt_or_ge at_ seq with before | behind
    · obtain ⟨old, was, same, lived⟩ := (cases_ id after found).alive here before
      obtain ⟨old', was', same', lived'⟩ := (cases_ other after' found').alive there before
      exact kept.alone at_ id other old old' was was' (same.trans (address.trans same'.symm)) lived
        lived'
    · -- Behind the batch an incarnation that is alive is not retired.
      have open_ : ∀ id after, Assoc.get id
          (history.apply ⟨seq, writes, actions⟩).store.documents = some after →
          isAliveAt after.record (some at_) = true → after.record.retiredAt = none := by
        intro id after found alive
        refine Option.eq_none_iff_forall_ne_some.mpr fun retired was => ?_
        obtain ⟨by_, member, -⟩ := ((stored id after found).retired retired).mp was
        have later := (isAliveAt_some.mp alive).2 retired was
        rcases mem_append.mp member with old | new
        · exact Nat.lt_asymm later (Nat.lt_of_lt_of_le (logged _ old) behind)
        · cases mem_singleton.mp new
          exact Nat.not_lt.mpr behind later
      have first := live id after found (open_ id after found here)
      have second := live other after' found' (open_ other after' found' there)
      rw [address, second] at first
      exact (Option.some.inj first).symm

end Apply

/-- **Every sequence of batches keeps it.** -/
theorem Run.kept {history : HistoryStore} {log : CommitLog} (run : Run history log) :
    Kept history log := by
  induction run with
  | start => exact kept_start
  | @accepted history log _ writes seq prepared done ih =>
    obtain ⟨next, rfl, plain, actions, checked⟩ := prepareCommit_ok done
    have applied : (history.commitAt writes prepared.seq).1 = history.apply prepared := by
      unfold HistoryStore.commitAt
      rw [done]
    rw [applied]
    exact ih.apply next plain actions checked
  | @refused history log _ writes seq error done ih =>
    have stays : (history.commitAt writes seq).1 = history := by
      unfold HistoryStore.commitAt
      rw [done]
    rw [stays]
    exact ih

/-! ### The answers -/

variable {stored : StoredDocumentState}

section Answers

variable {history : HistoryStore} {log : CommitLog}

/-- What a read answers for contents that come to this. -/
def answer (id : DocumentId) (record : DocumentRecord) :
    Option (Nat × JsonValue × Nat) → Except StoreError (Option StoredDocument)
  | some (version, value, count) => .ok (some ⟨record, version, value, count⟩)
  | none => .error (.replay id)

theorem answer_of_based (id : DocumentId) (record : DocumentRecord) (based : Based revisions) :
    (materializeRevisions id revisions).map (fun read => some
        { record := record, version := read.1, value := read.2.1, deltasSinceBase := read.2.2 }) =
      answer id record (foldContents revisions) := by
  rw [materializeRevisions_eq id based]
  cases foldContents revisions <;> rfl

/-- The first contents of an incarnation that is alive. -/
theorem StoredAs.based_upto (as : StoredAs log id stored)
    (created : stored.record.createdAt ≤ seq) :
    Based ((contentsOf id log).filter fun revision => decide (revision.seq ≤ seq)) := by
  have sorted := as.ascending
  obtain ⟨first, found, at_⟩ := as.first
  obtain ⟨other, same, base⟩ := as.based.starts
  obtain rfl := Option.some.inj (found.symm.trans same)
  have follows := as.based.follows
  generalize contentsOf id log = contents at *
  cases contents with
  | nil => cases found
  | cons head rest =>
    obtain rfl := Option.some.inj found
    have upto : (head :: rest).filter (fun revision => decide (revision.seq ≤ seq)) =
        (head :: rest).takeWhile fun revision => decide (revision.seq ≤ seq) := by
      refine (Lib.takeWhile_eq_filter (sorted.imp fun {r s} before inside => ?_)).symm
      rw [decide_eq_true_eq] at inside ⊢
      exact Nat.le_trans (Nat.le_of_lt before) inside
    rw [upto]
    refine ⟨⟨head, ?_, base⟩, follows.prefix (List.takeWhile_prefix _)⟩
    have inside : head.seq ≤ seq := at_ ▸ created
    rw [takeWhile_cons_of_pos (by simpa using inside)]
    rfl

/-- **An address shows exactly the incarnation that is alive**, now or at a commit. -/
theorem Kept.findDocument_iff (kept : Kept history log) (address : DocumentAddress)
    (at_ : Option Seq) (record : DocumentRecord) :
    history.findDocument address at_ = some record ↔
      ∃ stored, Assoc.get record.id history.store.documents = some stored ∧
        stored.record = record ∧ record.address = address ∧ isAliveAt record at_ = true := by
  cases at_ with
  | none =>
    unfold HistoryStore.findDocument DocumentStore.findDocument
    dsimp only
    constructor
    · intro found
      obtain ⟨id, shown, there⟩ := Option.bind_eq_some_iff.mp found
      obtain ⟨stored, was, rfl⟩ := Option.map_eq_some_iff.mp there
      obtain ⟨other, same, at_, alive⟩ := kept.inv.current address id shown
      obtain rfl := Option.some.inj (was.symm.trans same)
      rw [kept.inv.ids id stored was]
      exact ⟨stored, was, rfl, at_, by rw [isAliveAt, alive]; rfl⟩
    · rintro ⟨stored, found, rfl, rfl, alive⟩
      have shown := kept.live _ stored found (Option.isNone_iff_eq_none.mp alive)
      refine Option.bind_eq_some_iff.mpr ⟨_, shown, ?_⟩
      rw [found]
      rfl
  | some seq =>
    have one : ∀ id record, (((Assoc.get id history.store.documents).map
        StoredDocumentState.record).filter fun record => isAliveAt record (some seq)) =
          some record ↔
        ∃ stored, Assoc.get id history.store.documents = some stored ∧ stored.record = record ∧
          isAliveAt record (some seq) = true := by
      intro id record
      rw [Option.filter_eq_some_iff, Option.map_eq_some_iff]
      constructor
      · rintro ⟨⟨stored, found, rfl⟩, alive⟩
        exact ⟨stored, found, rfl, alive⟩
      · rintro ⟨stored, found, rfl, alive⟩
        exact ⟨⟨stored, found, rfl⟩, alive⟩
    unfold HistoryStore.findDocument
    dsimp only
    constructor
    · intro found
      obtain ⟨before, id, after, split, here, -⟩ := List.findSome?_eq_some_iff.mp found
      obtain ⟨stored, was, rfl, alive⟩ := (one id record).mp here
      have member : id ∈ listedAt history.ids address := by
        unfold listedAt
        rw [split]
        exact mem_append_right _ mem_cons_self
      obtain ⟨other, same, at_⟩ := (kept.listed address id).mp member
      obtain rfl := Option.some.inj (was.symm.trans same)
      rw [kept.inv.ids id stored was]
      exact ⟨stored, was, rfl, at_, alive⟩
    · rintro ⟨stored, found, rfl, rfl, alive⟩
      have member := (kept.listed stored.record.address stored.record.id).mpr ⟨stored, found, rfl⟩
      have here := (one _ _).mpr ⟨stored, found, rfl, alive⟩
      cases first : (listedAt history.ids stored.record.address).findSome? fun id =>
          ((Assoc.get id history.store.documents).map StoredDocumentState.record).filter fun record
            =>
            isAliveAt record (some seq) with
      | none =>
        have nothing := List.findSome?_eq_none_iff.mp first _ member
        rw [here] at nothing
        cases nothing
      | some record =>
        obtain ⟨before, id, after, split, there, -⟩ := List.findSome?_eq_some_iff.mp first
        obtain ⟨other, was, rfl, lived⟩ := (one id record).mp there
        have listed : id ∈ listedAt history.ids stored.record.address := by
          rw [split]
          exact mem_append_right _ mem_cons_self
        obtain ⟨again, same, at_⟩ := (kept.listed _ id).mp listed
        obtain rfl := Option.some.inj (was.symm.trans same)
        obtain rfl := kept.alone seq id _ other stored was found at_ lived alive
        obtain rfl := Option.some.inj (was.symm.trans found)
        exact first

/-- Contents that start with a base come to the same behind others. -/
theorem Based.foldl_eq (based : Based revisions) (value : Option (Nat × JsonValue × Nat)) :
    revisions.foldl foldContent value = foldContents revisions := by
  obtain ⟨first, found, base⟩ := based.starts
  cases revisions with
  | nil => cases found
  | cons head rest =>
    obtain rfl := Option.some.inj found
    have starts : foldContent value head = foldContent none head := by
      unfold foldContent
      cases content : head.content with
      | base version value => rfl
      | delta version ops =>
        rw [content] at base
        exact base.elim
    exact congrArg (rest.foldl foldContent) starts

/-- **A rewindable document at a commit** is what its contents up to then come to. -/
theorem Kept.document_at (kept : Kept history log)
    (found : Assoc.get id history.store.documents = some stored)
    (rewindable : isCurrentOnly stored.record.toDocumentCreate = false) (seq : Seq) :
    history.document id (some seq) = if isAliveAt stored.record (some seq) then
      answer id stored.record
        (foldContents ((contentsOf id log).filter fun revision => decide (revision.seq ≤ seq)))
    else .ok none := by
  have as := kept.stored id stored found
  unfold HistoryStore.document DocumentStore.materializeDocument
  rw [found]
  dsimp only
  rw [if_neg (by simp [rewindable]), as.whole rewindable]
  cases alive : isAliveAt stored.record (some seq) with
  | false => rfl
  | true =>
    rw [if_neg (by simp), if_pos rfl]
    exact answer_of_based id stored.record (as.based_upto (isAliveAt_some.mp alive).1)

/-- **A document now** is what all its contents come to, also where older ones were dropped. -/
theorem Kept.document_now (kept : Kept history log)
    (found : Assoc.get id history.store.documents = some stored) :
    history.document id none = if isAliveAt stored.record none then
      answer id stored.record (foldContents (contentsOf id log)) else .ok none := by
  have as := kept.stored id stored found
  unfold HistoryStore.document DocumentStore.materializeDocument
  rw [found]
  dsimp only
  rw [if_neg (by simp)]
  cases alive : isAliveAt stored.record none with
  | false => rfl
  | true =>
    rw [if_neg (by simp), if_pos rfl]
    cases only : isCurrentOnly stored.record.toDocumentCreate with
    | false =>
      rw [as.whole only]
      exact answer_of_based id stored.record as.based
    | true =>
      obtain ⟨before, split, based⟩ := as.current only (Option.isNone_iff_eq_none.mp alive)
      have dropped : foldContents (contentsOf id log) = foldContents stored.revisions := by
        rw [split]
        exact List.foldl_append.trans (based.foldl_eq _)
      rw [dropped]
      exact answer_of_based id stored.record based

/-- **Document history is exact.** Over every sequence of batches, accepted or refused: at each commit
at most one incarnation of an address is alive,
  and `findDocument` returns exactly it; an incarnation
has the interval that the log gives it; a rewindable one has at each commit what its contents up
  to then
come to, and every one has now what all its contents come to; and a batch that is refused changes
nothing. -/
theorem document_history (run : Run history log) :
    (∀ seq id other stored stored', Assoc.get id history.store.documents = some stored →
      Assoc.get other history.store.documents = some stored' →
      stored.record.address = stored'.record.address → isAliveAt stored.record (some seq) = true →
      isAliveAt stored'.record (some seq) = true → id = other) ∧
    (∀ address at_ record, history.findDocument address at_ = some record ↔
      ∃ stored, Assoc.get record.id history.store.documents = some stored ∧
        stored.record = record ∧ record.address = address ∧ isAliveAt record at_ = true) ∧
    (∀ id, Assoc.get id history.store.documents = none → contentsOf id log = []) ∧
    (∀ id stored, Assoc.get id history.store.documents = some stored →
      (∃ writes version value, (stored.record.createdAt, writes) ∈ log ∧
        .create stored.record.toDocumentCreate version value ∈ writes) ∧
      ∀ seq, stored.record.retiredAt = some seq ↔
        ∃ writes, (seq, writes) ∈ log ∧ .retire id ∈ writes) ∧
    (∀ id stored seq, Assoc.get id history.store.documents = some stored →
      isCurrentOnly stored.record.toDocumentCreate = false →
      history.document id (some seq) = if isAliveAt stored.record (some seq) then
        answer id stored.record
          (foldContents ((contentsOf id log).filter fun revision => decide (revision.seq ≤ seq)))
      else .ok none) ∧
    (∀ id stored, Assoc.get id history.store.documents = some stored →
      history.document id none = if isAliveAt stored.record none then
        answer id stored.record (foldContents (contentsOf id log)) else .ok none) ∧
    ∀ writes seq error, (history.commitAt writes seq).2 = .error error →
      (history.commitAt writes seq).1 = history := by
  have kept := run.kept
  refine ⟨kept.alone, kept.findDocument_iff, fun id missing => (kept.absent id missing).1,
    fun id stored found => ?_, fun id stored seq found rewindable =>
      kept.document_at found rewindable seq, fun id stored found => kept.document_now found,
    fun writes seq error refused => ?_⟩
  · have as := kept.stored id stored found
    exact ⟨as.created, as.retired⟩
  · unfold HistoryStore.commitAt at refused ⊢
    cases prepared : history.prepareCommit writes seq with
    | ok prepared =>
      rw [prepared] at refused
      cases refused
    | error error => rfl

end Answers

/-- A rewindable document of a conversation. -/
def planRecord (id : DocumentId) : DocumentCreate where
  id := id
  address := ⟨text "plan", .conversation 1, none⟩
  history := some .rewindable
  fork := none

/-- Retired and created anew in one commit, the address shows at each commit the incarnation of that
time. -/
theorem document_history_recreated : ∃ history,
    Run history [(1, [.create (planRecord 2) 1 .null]),
      (2, [.create (planRecord 3) 1 .null, .retire 2])] ∧
    history.findDocument (planRecord 2).address (some 1) = some ⟨planRecord 2, 1, some 2⟩ ∧
    history.findDocument (planRecord 2).address (some 2) = some ⟨planRecord 3, 2, none⟩ := by
  have first : ({} : HistoryStore).prepareCommit [.create (planRecord 2) 1 .null] 1 =
      .ok ⟨1, [.create (planRecord 2) 1 .null],
        [(2, { create := some (planRecord 2), content := some (.base 1 .null) })]⟩ := by rfl
  have one := Run.start.accepted first
  have second : (({} : HistoryStore).commitAt [.create (planRecord 2) 1 .null] 1).1.prepareCommit
      [.create (planRecord 3) 1 .null, .retire 2] 2 =
      .ok ⟨2, [.create (planRecord 3) 1 .null, .retire 2],
        [(3, { create := some (planRecord 3), content := some (.base 1 .null) }),
          (2, { retire := true })]⟩ := by rfl
  have run := one.accepted second
  refine ⟨_, run, ?_, ?_⟩
  · exact ((document_history run).2.1 _ _ _).mpr
      ⟨⟨⟨planRecord 2, 1, some 2⟩, [⟨1, .base 1 .null⟩]⟩, rfl, rfl, rfl, rfl⟩
  · exact ((document_history run).2.1 _ _ _).mpr
      ⟨⟨⟨planRecord 3, 2, none⟩, [⟨2, .base 1 .null⟩]⟩, rfl, rfl, rfl, rfl⟩

/-- **The addresses are indexed** after every run: the current incarnation of an address is its live
one, and its list holds all of them. -/
theorem addresses_indexed {history : HistoryStore} {log : CommitLog} (run : Run history log)
    (address : DocumentAddress) (id : DocumentId) :
    (Assoc.get address history.store.currentIds = some id ↔
      ∃ stored, Assoc.get id history.store.documents = some stored ∧
        stored.record.address = address ∧ stored.record.retiredAt = none) ∧
    (id ∈ listedAt history.ids address ↔
      ∃ stored, Assoc.get id history.store.documents = some stored ∧
        stored.record.address = address) := by
  refine ⟨⟨run.kept.inv.current address id, ?_⟩, run.kept.listed address id⟩
  rintro ⟨stored, found, rfl, live⟩
  exact run.kept.live id stored found live

theorem addresses_indexed_plan : 2 ∈ listedAt
    (({} : HistoryStore).commitAt [.create (planRecord 2) 1 .null] 1).1.ids (planRecord 2).address := by
  have done : ({} : HistoryStore).prepareCommit [.create (planRecord 2) 1 .null] 1 =
      .ok ⟨1, [.create (planRecord 2) 1 .null],
        [(2, { create := some (planRecord 2), content := some (.base 1 .null) })]⟩ := by rfl
  exact (addresses_indexed (Run.start.accepted done) _ 2).2.mpr
    ⟨⟨⟨planRecord 2, 1, none⟩, [⟨1, .base 1 .null⟩]⟩, rfl, rfl⟩

end TianGong.Session
