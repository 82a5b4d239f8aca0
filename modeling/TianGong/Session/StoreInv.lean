/-
**What a commit does to the documents.**

A batch is gathered into at most one action for each incarnation, so its effect on an incarnation is
read off the writes that name it.

* `current_applyDocumentActions`, `live_le_one`: the incarnation an address shows.
-/

import TianGong.Lib.Returns
import TianGong.Session.Store
import Mathlib.Data.List.Induction

namespace TianGong.Session

open TianGong.Lib
open TianGong.Chord (Op transformAll)
open List Option
open TianGong.Returns

/-! ### The actions of a batch -/

/-- The incarnation a write names. -/
def DocumentWrite.id : DocumentWrite → DocumentId
  | .create record _ _ => record.id
  | .copy record _ => record.id
  | .change id _ => id
  | .retire id => id

/-- The action is what the writes about the incarnation ask for. -/
structure ActionOf (writes : List DocumentWrite) (id : DocumentId) (action : DocumentAction) :
    Prop where
  change : ∀ content, .change id content ∈ writes ↔
    action.create = none ∧ action.content = some content
  create : ∀ record version value, record.id = id → (.create record version value ∈ writes ↔
    action.create = some record ∧ action.content = some (.base version value))
  retire : .retire id ∈ writes ↔ action.retire = true
  named : ∀ record, action.create = some record → record.id = id ∧
    ∃ version value, action.content = some (.base version value)

/-- Every incarnation that is named has its action. -/
structure ActionsOf (writes : List DocumentWrite) (actions : List (DocumentId × DocumentAction)) :
    Prop where
  nodup : (Assoc.keys actions).Nodup
  of_get : ∀ id action, Assoc.get id actions = some action → ActionOf writes id action
  none : ∀ id, Assoc.get id actions = none → id ∉ writes.map DocumentWrite.id

variable {writes : List DocumentWrite} {actions : List (DocumentId × DocumentAction)}
  {id : DocumentId} {action : DocumentAction} {write : DocumentWrite}

theorem ActionOf.empty (absent : id ∉ writes.map DocumentWrite.id) : ActionOf writes id {} := by
  have not : ∀ w : DocumentWrite, w.id = id → w ∉ writes := fun w names member =>
    absent (List.mem_map.mpr ⟨w, member, names⟩)
  refine ⟨fun content => ?_, fun record version value names => ?_, ?_, fun record some => ?_⟩
  · exact iff_of_false (not _ rfl) (fun both => by cases both.2)
  · exact iff_of_false (not _ names) (fun both => by cases both.1)
  · exact iff_of_false (not _ rfl) Bool.false_ne_true
  · cases some

/-- The action so far. -/
theorem ActionsOf.getD (of : ActionsOf writes actions) (id : DocumentId) :
    ActionOf writes id ((Assoc.get id actions).getD {}) := by
  cases found : Assoc.get id actions with
  | none => exact .empty (of.none id found)
  | some action => exact of.of_get id action found

/-- A write about another incarnation changes nothing. -/
theorem ActionOf.other (of : ActionOf writes id action) (other : write.id ≠ id) :
    ActionOf (writes ++ [write]) id action := by
  have same : ∀ w : DocumentWrite, w.id = id → (w ∈ writes ++ [write] ↔ w ∈ writes) := by
    intro w names
    rw [mem_append, mem_singleton]
    refine or_iff_left ?_
    rintro rfl
    exact other names
  exact ⟨fun content => (same _ rfl).trans (of.change content), fun record version value names =>
      (same (.create record version value) names).trans (of.create record version value names),
    (same _ rfl).trans of.retire, of.named⟩

/-- A write sets the action of its incarnation. -/
theorem ActionsOf.set (of : ActionsOf writes actions) (names : write.id = id)
    (here : ActionOf (writes ++ [write]) id action) :
    ActionsOf (writes ++ [write]) (Assoc.set id action actions) := by
  subst names
  refine ⟨Assoc.nodup_set _ of.nodup, fun id found got => ?_, fun id missing => ?_⟩
  · rw [Assoc.get_set] at got
    split_ifs at got with same
    · cases got
      exact same ▸ here
    · exact (of.of_get id found got).other same
  · rw [Assoc.get_set] at missing
    split_ifs at missing with same
    rw [map_append, mem_append, map_singleton, mem_singleton]
    exact not_or.mpr ⟨of.none id missing, Ne.symm same⟩

theorem prepareAction_of {actions' : List (DocumentId × DocumentAction)}
    (of : ActionsOf writes actions) (resolved : ∀ record source, write ≠ .copy record source)
    (done : prepareAction actions write = .ok actions') :
    ActionsOf (writes ++ [write]) actions' := by
  have last : ∀ w : DocumentWrite, w ∈ writes ++ [write] ↔ w ∈ writes ∨ w = write := fun w => by
    rw [mem_append, mem_singleton]
  cases write with
  | copy record source => exact absurd rfl (resolved record source)
  | create record version value =>
    rw [prepareAction] at done
    have before := of.getD record.id
    generalize (Assoc.get record.id actions).getD {} = action at done before
    split_ifs at done with taken
    cases done
    obtain ⟨noCreate, noContent⟩ := not_or.mp taken
    rw [not_isSome_iff_eq_none] at noCreate noContent
    refine of.set rfl ⟨fun content => ?_, fun r v x names => ?_, ?_, ?_⟩
    · rw [last, before.change, noContent]
      simp
    · rw [last, before.create r v x names, noCreate]
      simp only [reduceCtorEq, false_and, false_or, DocumentWrite.create.injEq, some_inj,
        DocumentContent.base.injEq]
      exact ⟨fun ⟨a, b, c⟩ => ⟨a.symm, b.symm, c.symm⟩, fun ⟨a, b, c⟩ => ⟨a.symm, b.symm, c.symm⟩⟩
    · rw [last, before.retire]
      simp
    · rintro r rfl'
      cases rfl'
      exact ⟨rfl, version, value, rfl⟩
  | change id content =>
    rw [prepareAction] at done
    have before := of.getD id
    generalize (Assoc.get id actions).getD {} = action at done before
    split_ifs at done with taken
    cases done
    rw [not_isSome_iff_eq_none] at taken
    have noCreate : action.create = none := by
      cases create : action.create with
      | none => rfl
      | some record =>
        obtain ⟨_, version, value, some⟩ := before.named record create
        rw [taken] at some
        cases some
    refine of.set rfl ⟨fun c => ?_, fun r v x names => ?_, ?_, ?_⟩
    · rw [last, before.change, taken]
      simp only [reduceCtorEq, and_false, false_or, DocumentWrite.change.injEq, true_and, noCreate,
        some_inj]
      exact eq_comm
    · rw [last, before.create r v x names, noCreate]
      simp
    · rw [last, before.retire]
      simp
    · intro r made
      have none : action.create = some r := made
      rw [noCreate] at none
      cases none
  | retire id =>
    rw [prepareAction] at done
    have before := of.getD id
    generalize (Assoc.get id actions).getD {} = action at done before
    split_ifs at done with taken
    cases done
    refine of.set rfl ⟨fun c => ?_, fun r v x names => ?_, ?_, before.named⟩
    · rw [last, before.change]
      simp
    · rw [last, before.create r v x names]
      simp
    · exact iff_of_true ((last _).mpr (.inr rfl)) rfl

theorem prepareDocumentActions_append
    (done : prepareDocumentActions (writes ++ [write]) = .ok actions) :
    ∃ middle, prepareDocumentActions writes = .ok middle ∧ prepareAction middle write = .ok actions := by
  unfold prepareDocumentActions at done
  rw [foldlM_append] at done
  obtain ⟨middle, before, last⟩ := bind_eq_ok.mp done
  obtain ⟨_, last, is⟩ := bind_eq_ok.mp last
  cases is
  exact ⟨middle, before, last⟩

/-- **The actions of a batch** are what its writes ask for. -/
theorem prepareDocumentActions_of
    (resolved : ∀ write ∈ writes, ∀ record source, write ≠ .copy record source)
    (done : prepareDocumentActions writes = .ok actions) : ActionsOf writes actions := by
  induction writes using List.reverseRecOn generalizing actions with
  | nil =>
    cases done
    exact ⟨nodup_nil, fun id action found => (by cases found),
      fun id _ member => (by cases member)⟩
  | append_singleton writes write ih =>
    obtain ⟨middle, before, last⟩ := prepareDocumentActions_append done
    exact prepareAction_of (ih (fun w member => resolved w (mem_append_left _ member)) before)
      (resolved write (by simp)) last

/-! ### Applying actions -/

variable {store : DocumentStore} (seq : Seq)

theorem get_applyAction (store : DocumentStore) (id id' : DocumentId) (action : DocumentAction) :
    Assoc.get id' (applyAction seq store id action).documents =
      if id = id' then (action.stored seq (Assoc.get id store.documents)).or
        (Assoc.get id store.documents) else Assoc.get id' store.documents := by
  unfold applyAction
  cases action.stored seq (Assoc.get id store.documents) with
  | none =>
    rw [none_or]
    by_cases same : id = id'
    · rw [if_pos same, same]
    · rw [if_neg same]
  | some stored =>
    dsimp only
    rw [Assoc.get_set]
    split_ifs with same
    · rw [some_or]
    · rfl

theorem nodup_tail (nodup : (Assoc.keys ((id, action) :: actions)).Nodup) :
    Assoc.get id actions = none ∧ (Assoc.keys actions).Nodup := by
  rw [Assoc.keys_cons, nodup_cons] at nodup
  exact ⟨Assoc.get_eq_none_iff.mpr nodup.1, nodup.2⟩

/-- **An incarnation is what its own action leaves.** -/
theorem get_applyDocumentActions (seq : Seq) {store : DocumentStore}
    {actions : List (DocumentId × DocumentAction)} (nodup : (Assoc.keys actions).Nodup)
    (id : DocumentId) :
    Assoc.get id (applyDocumentActions seq store actions).documents =
      match Assoc.get id actions with
      | none => Assoc.get id store.documents
      | some action => (action.stored seq (Assoc.get id store.documents)).or
          (Assoc.get id store.documents) := by
  unfold applyDocumentActions
  induction actions generalizing store with
  | nil => rfl
  | cons e actions ih =>
    obtain ⟨first, action⟩ := e
    obtain ⟨absent, rest⟩ := nodup_tail nodup
    rw [foldl_cons, ih rest, get_applyAction]
    by_cases same : first = id
    · subst same
      rw [absent, Assoc.get_cons_self, if_pos rfl]
    · rw [Assoc.get_cons_ne same, if_neg same]

/-- What an action does to the incarnation its address shows. -/
def currentStep (current : Option DocumentId) (e : DocumentId × DocumentAction) :
    Option DocumentId :=
  if e.2.create.isSome ∧ e.2.retire = false then some e.1
  else if e.2.retire ∧ current = some e.1 then none else current

/-- The actions about an address. -/
def actionsAt (store : DocumentStore) (address : DocumentAddress)
    (actions : List (DocumentId × DocumentAction)) : List (DocumentId × DocumentAction) :=
  actions.filter fun e => store.addressOf e.1 e.2 = some address

theorem address_written {seq : Seq} {store : DocumentStore} {id : DocumentId}
    {action : DocumentAction} :
    (action.stored seq (Assoc.get id store.documents)).map (fun stored => stored.record.address) =
      store.addressOf id action := by
  unfold DocumentAction.stored DocumentAction.written DocumentStore.addressOf
  cases action.create with
  | some record =>
    simp only [map_some]
    split_ifs <;> rfl
  | none =>
    simp only [Option.map_map]
    congr 1
    funext stored
    simp only [Function.comp_apply]
    split_ifs <;> rfl

theorem current_applyAction (store : DocumentStore) (id : DocumentId) (action : DocumentAction)
    (address : DocumentAddress) :
    Assoc.get address (applyAction seq store id action).currentIds =
      if store.addressOf id action = some address then
        currentStep (Assoc.get address store.currentIds) (id, action)
      else Assoc.get address store.currentIds := by
  rw [← @address_written seq]
  unfold applyAction currentStep
  cases action.stored seq (Assoc.get id store.documents) with
  | none => rw [map_none, if_neg (by simp)]
  | some stored =>
    dsimp only [map_some]
    by_cases here : stored.record.address = address
    · subst here
      rw [if_pos rfl]
      by_cases creates : action.create.isSome = true ∧ action.retire = false
      · rw [if_pos creates, if_pos creates, Assoc.get_set_self]
      · rw [if_neg creates, if_neg creates]
        split_ifs with retires
        · exact Assoc.get_erase_self _ _
        · rfl
    · have other : ¬some stored.record.address = some address := by simpa using here
      rw [if_neg other]
      by_cases creates : action.create.isSome = true ∧ action.retire = false
      · rw [if_pos creates, Assoc.get_set_ne here]
        split_ifs
        · exact Assoc.get_erase_ne here _
        · rfl
      · rw [if_neg creates]
        split_ifs
        · exact Assoc.get_erase_ne here _
        · rfl

/-- **What an address shows** is what the actions about it leave. -/
theorem current_applyDocumentActions (nodup : (Assoc.keys actions).Nodup)
    (address : DocumentAddress) :
    Assoc.get address (applyDocumentActions seq store actions).currentIds =
      (actionsAt store address actions).foldl currentStep (Assoc.get address store.currentIds) := by
  unfold applyDocumentActions
  induction actions generalizing store with
  | nil => rfl
  | cons e actions ih =>
    obtain ⟨first, action⟩ := e
    obtain ⟨absent, rest⟩ := nodup_tail nodup
    have same : actionsAt (applyAction seq store first action) address actions =
        actionsAt store address actions := by
      refine filter_congr fun e member => ?_
      have other : first ≠ e.1 := by
        rintro rfl
        exact Assoc.get_eq_none_iff.mp absent (List.mem_map_of_mem member)
      unfold DocumentStore.addressOf
      rw [get_applyAction, if_neg other]
    rw [foldl_cons, ih rest, same, current_applyAction]
    unfold actionsAt
    rw [filter_cons]
    by_cases here : store.addressOf first action = some address
    · rw [if_pos here, if_pos (by simpa using here), foldl_cons]
    · rw [if_neg here, if_neg (by simpa using here)]

/-! ### One live incarnation an address -/

/-- The action adds a live incarnation. -/
def Creates (e : DocumentId × DocumentAction) : Prop := e.2.create.isSome ∧ e.2.retire = false

instance (e : DocumentId × DocumentAction) : Decidable (Creates e) :=
  inferInstanceAs (Decidable (e.2.create.isSome = true ∧ e.2.retire = false))

/-- The count of an address after an action about it. -/
def liveStep (current : Option DocumentId) (live : Nat) (e : DocumentId × DocumentAction) : Nat :=
  let live := if e.2.retire ∧ current = some e.1 then live - 1 else live
  if Creates e then live + 1 else live

theorem get_countLive (store : DocumentStore) (counts : List (DocumentAddress × Nat))
    (id : DocumentId) (action : DocumentAction) (address : DocumentAddress) :
    Assoc.get address (countLive store counts id action) =
      if store.addressOf id action = some address then
        some (liveStep (Assoc.get address store.currentIds)
          ((Assoc.get address counts).getD (store.liveAt address)) (id, action))
      else Assoc.get address counts := by
  unfold countLive
  cases store.addressOf id action with
  | none => rw [if_neg (by simp)]
  | some there =>
    dsimp only
    rw [Assoc.get_set]
    by_cases here : there = address
    · subst here
      rw [if_pos rfl, if_pos rfl]
      rfl
    · rw [if_neg here, if_neg (by simpa using here)]

theorem get_counts (store : DocumentStore) (counts : List (DocumentAddress × Nat))
    (actions : List (DocumentId × DocumentAction)) (address : DocumentAddress) :
    (Assoc.get address (actions.foldl (fun counts e => countLive store counts e.1 e.2) counts)).getD
        (store.liveAt address) =
      (actionsAt store address actions).foldl (liveStep (Assoc.get address store.currentIds))
        ((Assoc.get address counts).getD (store.liveAt address)) := by
  induction actions generalizing counts with
  | nil => rfl
  | cons e actions ih =>
    unfold actionsAt
    rw [foldl_cons, ih, get_countLive, filter_cons]
    by_cases here : store.addressOf e.1 e.2 = some address
    · rw [if_pos here, if_pos (by simpa using here), foldl_cons, getD_some]
      rfl
    · rw [if_neg here, if_neg (by simpa using here)]
      rfl

/-- Live incarnations are not lost in the count. -/
theorem creates_le_count (current : Option DocumentId) (live : Nat)
    (actions : List (DocumentId × DocumentAction)) :
    live + actions.countP (fun e => Creates e) ≤ actions.foldl (liveStep current) live +
      actions.countP (fun e => e.2.retire ∧ current = some e.1) := by
  induction actions generalizing live with
  | nil => exact Nat.le_refl _
  | cons e actions ih =>
    have rest := ih (liveStep current live e)
    rw [foldl_cons, countP_cons, countP_cons]
    unfold liveStep at rest ⊢
    dsimp only at rest ⊢
    by_cases creates : Creates e <;> by_cases retires : e.2.retire ∧ current = some e.1 <;>
      simp only [creates, retires, decide_true, decide_false, if_true, if_false, Bool.false_eq_true,
        and_self] at rest ⊢ <;> omega

/-- **A batch that is allowed leaves one live incarnation an address.** -/
theorem live_le_one (checked : checkDocumentActions store actions = .ok ())
    (address : DocumentAddress) :
    store.liveAt address + (actionsAt store address actions).countP (fun e => Creates e) ≤ 1 +
      (actionsAt store address actions).countP
        (fun e => e.2.retire ∧ Assoc.get address store.currentIds = some e.1) := by
  have counted := creates_le_count (Assoc.get address store.currentIds) (store.liveAt address)
    (actionsAt store address actions)
  have total := get_counts store [] actions address
  rw [Assoc.get_nil, getD_none] at total
  rw [← total] at counted
  refine counted.trans (Nat.add_le_add_right ?_ _)
  unfold checkDocumentActions at checked
  obtain ⟨_, -, checked⟩ := bind_eq_ok.mp checked
  obtain ⟨over_, -⟩ := ite_error_eq_ok.mp checked
  cases found : Assoc.get address
      (actions.foldl (fun counts e => countLive store counts e.1 e.2) []) with
  | none =>
    rw [getD_none]
    unfold DocumentStore.liveAt
    split_ifs <;> omega
  | some live =>
    rw [getD_some]
    by_contra more
    refine over_ (List.any_eq_true.mpr ⟨_, Assoc.mem_of_get found, ?_⟩)
    simpa using more

theorem checkAction_of_checked (checked : checkDocumentActions store actions = .ok ())
    (member : (id, action) ∈ actions) : checkAction store id action = .ok () := by
  unfold checkDocumentActions at checked
  obtain ⟨_, each, -⟩ := bind_eq_ok.mp checked
  clear checked
  induction actions with
  | nil => cases member
  | cons e actions ih =>
    obtain ⟨_, first, each⟩ := bind_eq_ok.mp each
    rcases List.mem_cons.mp member with rfl | later
    · exact first
    · exact ih later each

/-! ### What an address shows in the end -/

theorem foldl_current_keeps (none : ∀ e ∈ actions, ¬Creates e)
    (live : ∀ e ∈ actions, e.1 = id → e.2.retire = false) :
    actions.foldl currentStep (some id) = some id := by
  induction actions with
  | nil => rfl
  | cons e actions ih =>
    have step : currentStep (some id) e = some id := by
      unfold currentStep
      have plain : ¬(e.2.create.isSome = true ∧ e.2.retire = false) := none e mem_cons_self
      rw [if_neg plain, if_neg]
      rintro ⟨retires, same⟩
      rw [live e mem_cons_self (Option.some.inj same).symm] at retires
      cases retires
    rw [foldl_cons, step]
    exact ih (fun e member => none e (mem_cons_of_mem _ member))
      fun e member => live e (mem_cons_of_mem _ member)

theorem foldl_current_some {current : Option DocumentId}
    (shown : actions.foldl currentStep current = some id) :
    current = some id ∧ (∀ e ∈ actions, e.1 = id → e.2.retire = false) ∨
      ∃ e ∈ actions, e.1 = id ∧ Creates e := by
  induction actions generalizing current with
  | nil => exact .inl ⟨shown, fun e member => (by cases member)⟩
  | cons e actions ih =>
    rw [foldl_cons] at shown
    rcases ih shown with ⟨after, live⟩ | ⟨later, member, names, creates⟩
    · unfold currentStep at after
      split_ifs at after with creates retires
      · exact .inr ⟨e, mem_cons_self, Option.some.inj after, creates⟩
      · refine .inl ⟨after, fun other member names => ?_⟩
        rcases List.mem_cons.mp member with rfl | later
        · rw [← names] at after
          exact Bool.eq_false_iff.mpr fun is => retires ⟨is, after⟩
        · exact live other later names
    · exact .inr ⟨later, mem_cons_of_mem _ member, names, creates⟩

theorem countP_le_one {id : DocumentId} {p : DocumentId × DocumentAction → Bool}
    {actions : List (DocumentId × DocumentAction)} (nodup : (Assoc.keys actions).Nodup)
    (only : ∀ e ∈ actions, p e = true → e.1 = id) : actions.countP p ≤ 1 := by
  induction actions with
  | nil => exact Nat.zero_le _
  | cons e actions ih =>
    rw [Assoc.keys_cons, nodup_cons] at nodup
    rw [countP_cons]
    split_ifs with here
    · have none : actions.countP p = 0 := by
        refine List.countP_eq_zero.mpr fun other member holds => nodup.1 ?_
        rw [only e mem_cons_self here, ← only other (mem_cons_of_mem _ member) holds]
        exact List.mem_map_of_mem member
      omega
    · exact ih nodup.2 fun other member => only other (mem_cons_of_mem _ member)

theorem nodup_actionsAt {address : DocumentAddress} (nodup : (Assoc.keys actions).Nodup) :
    (Assoc.keys (actionsAt store address actions)).Nodup :=
  nodup.sublist (List.filter_sublist.map Prod.fst)

/-- A created incarnation that is not retired is what its address shows. -/
theorem foldl_current_created {current : Option DocumentId} {e : DocumentId × DocumentAction}
    (nodup : (Assoc.keys actions).Nodup) (member : e ∈ actions) (creates : Creates e)
    (one : actions.countP (fun e => Creates e) ≤ 1) :
    actions.foldl currentStep current = some e.1 := by
  obtain ⟨before, after, rfl⟩ := append_of_mem member
  rw [countP_append, countP_cons, if_pos (by simpa using creates)] at one
  have none : after.countP (fun e => Creates e) = 0 := by omega
  rw [Assoc.keys_append, Assoc.keys_cons] at nodup
  have apart := (List.nodup_cons.mp (List.nodup_append.mp nodup).2.1).1
  have step : ∀ c, currentStep c e = some e.1 := fun c => if_pos creates
  rw [foldl_append, foldl_cons, step]
  refine foldl_current_keeps (fun other later => by
    simpa using List.countP_eq_zero.mp none other later) fun other later names => ?_
  rw [← names] at apart
  exact absurd (List.mem_map_of_mem later) apart

/-! ### An accepted commit -/

/-- **What holds of the documents of a Storage**: an address shows a live incarnation stored there,
and an incarnation is stored under its ID. -/
structure StoreInv (store : DocumentStore) : Prop where
  current : ∀ address id, Assoc.get address store.currentIds = some id →
    ∃ stored, Assoc.get id store.documents = some stored ∧ stored.record.address = address ∧
      stored.record.retiredAt = none
  ids : ∀ id stored, Assoc.get id store.documents = some stored → stored.record.id = id

theorem storeInv_empty : StoreInv {} :=
  ⟨fun address id found => (by cases found), fun id stored found => (by cases found)⟩

/-- The revisions after a content write. -/
def revised (seq : Seq) (old : StoredDocumentState) (content : DocumentContent) :
    List DocumentRevision :=
  match content with
  | .base version value =>
    if isCurrentOnly old.record.toDocumentCreate then [⟨seq, .base version value⟩]
    else old.revisions ++ [⟨seq, .base version value⟩]
  | .delta version ops => old.revisions ++ [⟨seq, .delta version ops⟩]

/-! ### Resolved copies -/

theorem mem_mapM {α β ε : Type} {f : α → Except ε β} {xs : List α} {ys : List β}
    (done : xs.mapM f = .ok ys) (y : β) : y ∈ ys ↔ ∃ x ∈ xs, f x = .ok y := by
  induction xs generalizing ys with
  | nil =>
    cases done
    simp
  | cons x xs ih =>
    rw [mapM_cons] at done
    obtain ⟨b, first, done⟩ := bind_eq_ok.mp done
    obtain ⟨bs, rest, is⟩ := bind_eq_ok.mp done
    cases is
    rw [mem_cons, ih rest, exists_mem_cons_iff, first, Except.ok.injEq, eq_comm]

/-- The writes of a batch once its copies are resolved. -/
theorem mem_resolved {resolved : List DocumentWrite}
    (done : resolveDocumentCopies store writes = .ok resolved) (write : DocumentWrite) :
    write ∈ resolved ↔ write ∈ writes ∧ (∀ record source, write ≠ .copy record source) ∨
      ∃ record source version value, .copy record source ∈ writes ∧
        write = .create record version value ∧
        resolveDocumentCopy store (changedIds writes) (.copy record source) = .ok write := by
  rw [mem_mapM done]
  constructor
  · rintro ⟨w, member, resolves⟩
    cases w with
    | copy record source =>
      refine .inr ?_
      have shape : ∃ version value, write = .create record version value := by
        rw [resolveDocumentCopy] at resolves
        split_ifs at resolves
        obtain ⟨_ | stored, -, resolves⟩ := bind_eq_ok.mp resolves
        · cases resolves
        · obtain ⟨-, is⟩ := ite_error_eq_ok.mp resolves
          cases is
          exact ⟨_, _, rfl⟩
      obtain ⟨version, value, made⟩ := shape
      exact ⟨record, source, version, value, member, made, resolves⟩
    | create record version value | change id content | retire id =>
      cases resolves
      exact .inl ⟨member, fun _ _ is => by cases is⟩
  · rintro (⟨member, plain⟩ | ⟨record, source, version, value, member, _, resolves⟩)
    · refine ⟨write, member, ?_⟩
      cases write with
      | copy record source => exact absurd rfl (plain record source)
      | create | change | retire => rfl
    · exact ⟨_, member, resolves⟩

theorem resolved_plain {resolved : List DocumentWrite}
    (done : resolveDocumentCopies store writes = .ok resolved) :
    ∀ write ∈ resolved, ∀ record source, write ≠ .copy record source := by
  intro write member
  rcases (mem_resolved done write).mp member with ⟨_, plain⟩ | ⟨_, _, _, _, _, rfl, _⟩
  · exact plain
  · exact fun _ _ is => by cases is

/-- What an allowed action needs of the incarnation it names. -/
theorem checkAction_existing (checked : checkAction store id action = .ok ()) :
    (action.create = none → ∃ old, Assoc.get id store.documents = some old ∧
      old.record.retiredAt = none ∧ ∀ version ops, action.content = some (.delta version ops) →
        ∃ last, old.revisions.getLast? = some last ∧ last.content.version = version) ∧
    ∀ record, action.create = some record → Assoc.get id store.documents = none := by
  unfold checkAction at checked
  dsimp only at checked
  split_ifs at checked with unknown exists_ retired
  refine ⟨fun none => ?_, fun record made => ?_⟩
  · cases found : Assoc.get id store.documents with
    | none =>
      rw [none, found] at unknown
      exact absurd ⟨rfl, rfl⟩ unknown
    | some old =>
      refine ⟨old, rfl, ?_, fun version ops delta => ?_⟩
      · rw [found] at retired
        exact Option.not_isSome_iff_eq_none.mp retired
      · rw [delta, found] at checked
        dsimp only [bind_eq_bind, bind_some] at checked
        cases last : old.revisions.getLast? with
        | none =>
          rw [last] at checked
          cases checked
        | some revision =>
          rw [last] at checked
          dsimp only at checked
          split_ifs at checked with same
          exact ⟨revision, rfl, not_not.mp same⟩
  · rw [made] at exists_
    cases found : Assoc.get id store.documents with
    | none => rfl
    | some old =>
      rw [found] at exists_
      exact absurd ⟨rfl, rfl⟩ exists_

/-! ### An applied batch -/

variable {record : DocumentCreate} {version : Nat} {value : JsonValue}

section Applied

variable {store : DocumentStore} {writes : List DocumentWrite}
  {actions : List (DocumentId × DocumentAction)} {seq : Seq}

/-- The action of an incarnation that is written. -/
theorem ActionsOf.get_of_written (of : ActionsOf writes actions) (id : DocumentId)
    (member : write ∈ writes) (names : write.id = id) :
    ∃ action, Assoc.get id actions = some action ∧ ActionOf writes id action := by
  cases found : Assoc.get id actions with
  | none => exact absurd (List.mem_map.mpr ⟨write, member, names⟩) (of.none id found)
  | some action => exact ⟨action, rfl, of.of_get id action found⟩

theorem ActionsOf.of_created (of : ActionsOf writes actions)
    (member : .create record version value ∈ writes) :
    ∃ action, Assoc.get record.id actions = some action ∧ ActionOf writes record.id action ∧
      action.create = some record ∧ action.content = some (.base version value) := by
  obtain ⟨action, found, here⟩ := of.get_of_written record.id member rfl
  exact ⟨action, found, here, (here.create record version value rfl).mp member⟩

theorem addressOf_created (made : action.create = some record) :
    store.addressOf id action = some record.address := by
  rw [DocumentStore.addressOf, made]

/-- A created incarnation is stored, with its base. -/
theorem get_applied_created (of : ActionsOf writes actions)
    (member : .create record version value ∈ writes) (live : .retire record.id ∉ writes) :
    Assoc.get record.id (applyDocumentActions seq store actions).documents =
      some ⟨⟨record, seq, none⟩, [⟨seq, .base version value⟩]⟩ := by
  obtain ⟨action, found, here, made, content⟩ := of.of_created member
  have stays : action.retire = false := Bool.eq_false_iff.mpr fun is => live (here.retire.mpr is)
  rw [get_applyDocumentActions seq of.nodup, found]
  dsimp only
  unfold DocumentAction.stored DocumentAction.written
  rw [made, content, stays]
  rfl

/-- A created incarnation is what its address shows. -/
theorem current_applied_created (of : ActionsOf writes actions)
    (checked : checkDocumentActions store actions = .ok ())
    (member : .create record version value ∈ writes) (live : .retire record.id ∉ writes) :
    Assoc.get record.address (applyDocumentActions seq store actions).currentIds =
      some record.id := by
  obtain ⟨action, found, here, made, _⟩ := of.of_created member
  have stays : action.retire = false := Bool.eq_false_iff.mpr fun is => live (here.retire.mpr is)
  have inside : (record.id, action) ∈ actionsAt store record.address actions :=
    List.mem_filter.mpr ⟨Assoc.mem_of_get found, by simpa using addressOf_created made⟩
  have retired : (actionsAt store record.address actions).countP (fun e => e.2.retire ∧
      Assoc.get record.address store.currentIds = some e.1) ≤ store.liveAt record.address := by
    unfold DocumentStore.liveAt
    cases Assoc.get record.address store.currentIds with
    | none =>
      rw [List.countP_eq_zero.mpr (by simp)]
      exact Nat.zero_le _
    | some id =>
      rw [if_neg (by simp)]
      refine @countP_le_one id _ _ (nodup_actionsAt of.nodup) fun e _ holds => ?_
      simp only [some_inj, decide_eq_true_eq] at holds
      exact holds.2.symm
  have counted := live_le_one checked record.address
  rw [current_applyDocumentActions seq of.nodup]
  refine foldl_current_created (nodup_actionsAt of.nodup) inside ⟨by rw [made]; rfl, stays⟩ ?_
  omega

/-- What an address shows was there before or is created, and is not retired. -/
theorem shown_applied (inv : StoreInv store) (of : ActionsOf writes actions)
    (checked : checkDocumentActions store actions = .ok ()) {address : DocumentAddress}
    (shown : Assoc.get address (applyDocumentActions seq store actions).currentIds = some id) :
    .retire id ∉ writes ∧ (Assoc.get address store.currentIds = some id ∨
      ∃ record version value, record.id = id ∧ record.address = address ∧
        .create record version value ∈ writes) := by
  rw [current_applyDocumentActions seq of.nodup] at shown
  rcases foldl_current_some shown with ⟨before, live⟩ | ⟨e, inside, rfl, creates⟩
  · refine ⟨fun retires => ?_, .inl before⟩
    obtain ⟨action, found, here⟩ := of.get_of_written id retires rfl
    obtain ⟨old, stored, there, _⟩ := inv.current address id before
    have noCreate : action.create = none := by
      refine Option.eq_none_iff_forall_ne_some.mpr fun record made => ?_
      have fresh := (checkAction_existing (checkAction_of_checked checked
        (Assoc.mem_of_get found))).2 record made
      rw [fresh] at stored
      cases stored
    have inside : (id, action) ∈ actionsAt store address actions := by
      refine List.mem_filter.mpr ⟨Assoc.mem_of_get found, ?_⟩
      rw [DocumentStore.addressOf, noCreate, stored, ← there]
      simp
    have stays : action.retire = false := live _ inside rfl
    rw [here.retire.mp retires] at stays
    cases stays
  · obtain ⟨member, at_⟩ := List.mem_filter.mp inside
    have here := of.of_get _ _ (Assoc.get_of_mem of.nodup member)
    obtain ⟨record, made⟩ := Option.isSome_iff_exists.mp creates.1
    obtain ⟨names, version, value, content⟩ := here.named record made
    refine ⟨fun retires => ?_, .inr ⟨record, version, value, names, ?_,
      (here.create record version value names).mpr ⟨made, content⟩⟩⟩
    · have stays : e.2.retire = false := creates.2
      rw [here.retire.mp retires] at stays
      cases stays
    · rw [addressOf_created made] at at_
      simpa using at_

/-- What an address shows stays unless it is retired: no other incarnation may take its place. -/
theorem current_applied_kept (of : ActionsOf writes actions)
    (checked : checkDocumentActions store actions = .ok ()) {address : DocumentAddress}
    (before : Assoc.get address store.currentIds = some id) (live : .retire id ∉ writes) :
    Assoc.get address (applyDocumentActions seq store actions).currentIds = some id := by
  rw [current_applyDocumentActions seq of.nodup, before]
  have stays : ∀ e ∈ actionsAt store address actions, e.1 = id → e.2.retire = false := by
    rintro e inside rfl
    refine Bool.eq_false_iff.mpr fun is => live ?_
    exact (of.of_get _ _ (Assoc.get_of_mem of.nodup (List.mem_filter.mp inside).1)).retire.mpr is
  refine foldl_current_keeps (fun e inside creates => ?_) stays
  have counted := live_le_one checked address
  rw [DocumentStore.liveAt, before, if_neg (by simp)] at counted
  have retired : (actionsAt store address actions).countP
      (fun e => e.2.retire ∧ some id = some e.1) = 0 := by
    refine List.countP_eq_zero.mpr fun e inside holds => ?_
    simp only [some_inj, decide_eq_true_eq] at holds
    rw [stays e inside holds.2.symm] at holds
    exact Bool.false_ne_true holds.1
  have made : 0 < (actionsAt store address actions).countP (fun e => Creates e) :=
    List.countP_pos_iff.mpr ⟨e, inside, by simpa using creates⟩
  omega

/-- The record of an incarnation is the one it was created with, retired or not. -/
theorem record_applied (of : ActionsOf writes actions) {after : StoredDocumentState}
    (stored : Assoc.get id (applyDocumentActions seq store actions).documents = some after) :
    (∃ old, Assoc.get id store.documents = some old ∧
      after.record.toDocumentCreate = old.record.toDocumentCreate ∧
      (.retire id ∉ writes → after.record = old.record)) ∨
    ∃ record version value, record.id = id ∧ .create record version value ∈ writes ∧
      after.record.toDocumentCreate = record ∧
      (.retire id ∉ writes → after.record.retiredAt = none) := by
  rw [get_applyDocumentActions seq of.nodup] at stored
  cases found : Assoc.get id actions with
  | none =>
    rw [found] at stored
    exact .inl ⟨after, stored, rfl, fun _ => rfl⟩
  | some action =>
    have here := of.of_get id action found
    rw [found] at stored
    dsimp only at stored
    unfold DocumentAction.stored DocumentAction.written at stored
    have stays : .retire id ∉ writes → action.retire = false := fun live =>
      Bool.eq_false_iff.mpr fun is => live (here.retire.mpr is)
    cases made : action.create with
    | some record =>
      obtain ⟨names, version, value, content⟩ := here.named record made
      refine .inr ⟨record, version, value, names,
        (here.create record version value names).mpr ⟨made, content⟩, ?_⟩
      rw [made] at stored
      simp only [map_some, some_or, some_inj] at stored
      subst stored
      refine ⟨by split_ifs <;> rfl, fun live => ?_⟩
      simp [stays live]
    | none =>
      cases before : Assoc.get id store.documents with
      | none =>
        rw [made, before] at stored
        cases stored
      | some old =>
        refine .inl ⟨old, rfl, ?_⟩
        rw [made, before] at stored
        simp only [map_some, some_or, some_inj] at stored
        subst stored
        refine ⟨by split_ifs <;> rfl, fun live => ?_⟩
        simp [stays live]

/-- **An allowed batch keeps the invariant.** -/
theorem storeInv_applied (inv : StoreInv store) (of : ActionsOf writes actions)
    (checked : checkDocumentActions store actions = .ok ()) (nextSeq : Seq) :
    StoreInv { applyDocumentActions seq store actions with nextSeq := nextSeq } := by
  constructor
  · intro address id shown
    obtain ⟨live, before | ⟨record, version, value, rfl, rfl, member⟩⟩ :=
      shown_applied inv of checked shown
    · obtain ⟨old, stored, there, alive⟩ := inv.current address id before
      have after : ∃ after, Assoc.get id (applyDocumentActions seq store actions).documents =
          some after := by
        rw [get_applyDocumentActions seq of.nodup, stored]
        cases Assoc.get id actions with
        | none => exact ⟨_, rfl⟩
        | some action => exact ⟨_, or_some⟩
      obtain ⟨after, found⟩ := after
      refine ⟨after, found, ?_⟩
      rcases record_applied of found with
        ⟨old', stored', _, same⟩ | ⟨record, version, value, rfl, member, _⟩
      · rw [stored] at stored'
        cases stored'
        rw [same live]
        exact ⟨there, alive⟩
      · obtain ⟨action, got, _, made, _⟩ := of.of_created member
        have allowed := checkAction_of_checked checked (Assoc.mem_of_get got)
        rw [(checkAction_existing allowed).2 record made] at stored
        cases stored
    · exact ⟨_, get_applied_created of member live, rfl, rfl⟩
  · intro id after found
    rcases record_applied of found with
      ⟨old, stored, same, _⟩ | ⟨record, version, value, rfl, _, same, _⟩
    · rw [same]
      exact inv.ids id old stored
    · rw [same]

end Applied

end TianGong.Session
