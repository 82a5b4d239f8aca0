/-
**Usage is conserved.**

* `Write.charge`, `charges`, `spent`: what a write spends, what a conversation spent in a bucket, and
  under one key of it.
* `Kept.perform`, `Reaches.kept`: a commit keeps it, and so does a run.
* `usage_conserved`: the ledgers are the sums of what was committed.
* `hosted_unrecorded`: an assistant entry of a host is not in the ledger.
-/

import Mathlib.Algebra.GroupWithZero.Nat
import TianGong.Gibraltar.Spend

namespace TianGong.Gibraltar.Spend

open TianGong.Lib Tally
open List Option

variable {N : Type}

/-! ### Charges -/

/-- A charge: of a conversation, in a bucket, under a key. -/
structure Charge (N : Type) where
  conversationId : ConversationId
  bucket : UsageBucket
  key : Text
  usage : Usage N

/-- What an entry spends: an assistant entry, or a tool result with usage. -/
def EntryRecord.charge (record : EntryRecord N) : Option (Charge N) :=
  if record.kind = AssistantEntry then
    match record.model with
    | some (.assistant message :: _) =>
      some ⟨record.conversationId, .models, modelKey message, message.usage⟩
    | _ => none
  else if record.kind = ToolResultEntry then
    match record.model with
    | some (.toolResult message :: _) =>
      message.usage.map fun usage => ⟨record.conversationId, .tools, message.toolName, usage⟩
    | _ => none
  else none

/-- What a write spends. -/
def Write.charge : Write N → Option (Charge N)
  | .entry record => record.charge
  | .nested c name result => result.usage.map fun usage => ⟨c, .tools, name, usage⟩
  | .attempt c message => some ⟨c, .models, modelKey message, message.usage⟩

/-- The conversation of a write. -/
def Write.conversationId : Write N → ConversationId
  | .entry record => record.conversationId
  | .nested c _ _ => c
  | .attempt c _ => c

/-- The entry of a write. -/
def Write.record : Write N → Option (EntryRecord N)
  | .entry record => some record
  | _ => none

/-- A charge in a bucket of a conversation, under its key. -/
def Charge.at (charge : Charge N) (c : ConversationId) (bucket : UsageBucket) : Option (Text × Usage N) :=
  if charge.conversationId = c ∧ charge.bucket = bucket then some (charge.key, charge.usage) else none

/-- What a conversation spent in a bucket. -/
def charges (written : List (Write N)) (c : ConversationId) (bucket : UsageBucket) :
    List (Text × Usage N) :=
  written.filterMap fun write => write.charge.bind fun charge => charge.at c bucket

/-- **What a conversation spent** under a key of a bucket, in order. -/
def spent (written : List (Write N)) (c : ConversationId) (bucket : UsageBucket) (key : Text) :
    List (Usage N) :=
  written.filterMap fun write => write.charge.bind fun charge =>
    if charge.conversationId = c ∧ charge.bucket = bucket ∧ charge.key = key then some charge.usage
    else none

/-- The entries that were written to a conversation. -/
def entriesOf (written : List (Write N)) (c : ConversationId) : List (EntryRecord N) :=
  (written.filterMap Write.record).filter fun e => e.conversationId = c

variable (written : List (Write N))

theorem spent_eq_under (c : ConversationId) (bucket : UsageBucket) (key : Text) :
    spent written c bucket key = under key (charges written c bucket) := by
  unfold spent charges under
  rw [filterMap_filterMap]
  refine filterMap_congr fun write _ => ?_
  cases write.charge with
  | none => rfl
  | some charge =>
    rw [bind_some, bind_some, Charge.at]
    by_cases here : charge.conversationId = c ∧ charge.bucket = bucket
    · rw [if_pos here, bind_some]
      exact if_congr ⟨fun all => all.2.2, fun same => ⟨here.1, here.2, same⟩⟩ rfl rfl
    · rw [if_neg here, bind_none, if_neg fun all => here ⟨all.1, all.2.1⟩]

theorem charges_append (writes : List (Write N)) (c : ConversationId) (bucket : UsageBucket) :
    charges (written ++ writes) c bucket = charges written c bucket ++ charges writes c bucket :=
  filterMap_append

theorem entriesOf_append (writes : List (Write N)) (c : ConversationId) :
    entriesOf (written ++ writes) c = entriesOf written c ++ entriesOf writes c := by
  unfold entriesOf
  rw [filterMap_append, filter_append]

theorem EntryRecord.charge_conversationId {record : EntryRecord N} {charge : Charge N}
    (charged : record.charge = some charge) : charge.conversationId = record.conversationId := by
  unfold EntryRecord.charge at charged
  by_cases isAssistant : record.kind = AssistantEntry
  · rw [if_pos isAssistant] at charged
    split at charged
    · exact (congrArg Charge.conversationId (Option.some.inj charged)).symm
    · cases charged
  rw [if_neg isAssistant] at charged
  by_cases isResult : record.kind = ToolResultEntry
  · rw [if_pos isResult] at charged
    split at charged
    · obtain ⟨usage, -, rfl⟩ := map_eq_some_iff.mp charged
      rfl
    · cases charged
  · rw [if_neg isResult] at charged
    cases charged

theorem Write.charge_conversationId {write : Write N} {charge : Charge N}
    (charged : write.charge = some charge) : charge.conversationId = write.conversationId := by
  cases write with
  | entry record => exact EntryRecord.charge_conversationId charged
  | nested c name result =>
    obtain ⟨usage, -, rfl⟩ := map_eq_some_iff.mp charged
    rfl
  | attempt c message => exact (congrArg Charge.conversationId (Option.some.inj charged)).symm

variable {c : ConversationId}

/-- Writes to other conversations are not charged to one. -/
theorem charges_eq_nil {written : List (Write N)}
    (others : ∀ write ∈ written, write.conversationId ≠ c) (bucket : UsageBucket) :
    charges written c bucket = [] := by
  refine List.filterMap_eq_nil_iff.mpr fun write member => ?_
  cases charged : write.charge with
  | none => rfl
  | some charge =>
    refine if_neg fun here => others write member ?_
    exact (Write.charge_conversationId charged).symm.trans here.1

theorem entriesOf_eq_nil {written : List (Write N)}
    (others : ∀ write ∈ written, write.conversationId ≠ c) : entriesOf written c = [] := by
  refine List.filter_eq_nil_iff.mpr fun e member same => ?_
  obtain ⟨write, inside, is⟩ := List.mem_filterMap.mp member
  cases write with
  | entry record =>
    obtain rfl := Option.some.inj is
    exact others _ inside (of_decide_eq_true same)
  | nested => cases is
  | attempt => cases is

/-! ### What a run keeps -/

variable {key : Text}

section Kept

variable [Add N] [Zero N]

/-- **The ledgers hold the charges**, and the entries are those that were written. -/
structure Kept (store : Store N) (written : List (Write N)) : Prop where
  sorted : store.conversations.Pairwise (· < ·)
  first : ∀ c ∈ store.conversations, ROOT_CONVERSATION_ID ≤ c
  minted : ∀ c ∈ store.conversations, c < store.nextId
  above : ROOT_CONVERSATION_ID < store.nextId
  past : ∀ write ∈ written, write.conversationId < store.nextId ∧
    (write.conversationId = ROOT_CONVERSATION_ID → ROOT_CONVERSATION_ID ∈ store.conversations)
  ledger : ∀ c ∈ store.conversations, ∀ bucket,
    (store.ledger c).bucket bucket = tally addUsage [] (charges written c bucket)
  entries : ∀ c ∈ store.conversations,
    store.entries.filter (fun e => e.conversationId = c) = entriesOf written c
  own : ∀ e ∈ store.entries, Write.entry e ∈ written

variable {store store' : Store N} {written : List (Write N)}

theorem Kept.initial : Kept (Store.initial : Store N) [] where
  sorted := .nil
  first _ member := absurd member not_mem_nil
  minted _ member := absurd member not_mem_nil
  above := Nat.lt_succ_self 1
  past _ member := absurd member not_mem_nil
  ledger _ member := absurd member not_mem_nil
  entries _ member := absurd member not_mem_nil
  own _ member := absurd member not_mem_nil

/-- **One more write**, which its ledger takes. -/
theorem Kept.write (kept : Kept store written) {write : Write N}
    (inside : write.conversationId ∈ store.conversations)
    (conversations : store'.conversations = store.conversations)
    (later : store.nextId ≤ store'.nextId)
    (entries : store'.entries = store.entries ++ write.record.toList)
    (ledger : ∀ c bucket, (store'.ledger c).bucket bucket = tally addUsage
      ((store.ledger c).bucket bucket) (write.charge.bind fun charge => charge.at c bucket).toList) :
    Kept store' (written ++ [write]) where
  sorted := conversations ▸ kept.sorted
  first := conversations ▸ kept.first
  minted c member := Nat.lt_of_lt_of_le (kept.minted c (conversations ▸ member)) later
  above := Nat.lt_of_lt_of_le kept.above later
  past other member := by
    rw [conversations]
    rcases List.mem_append.mp member with earlier | last
    · exact ⟨Nat.lt_of_lt_of_le (kept.past other earlier).1 later, (kept.past other earlier).2⟩
    · rw [List.mem_singleton.mp last]
      exact ⟨Nat.lt_of_lt_of_le (kept.minted _ inside) later, fun root => root ▸ inside⟩
  ledger c member bucket := by
    rw [ledger, kept.ledger c (conversations ▸ member), charges_append]
    unfold tally
    rw [foldl_append]
    refine congrArg _ ?_
    unfold charges
    rw [filterMap_cons]
    cases write.charge.bind fun charge => charge.at c bucket <;> rfl
  entries c member := by
    rw [entries, filter_append, kept.entries c (conversations ▸ member), entriesOf_append]
    refine congrArg _ ?_
    cases write <;> rfl
  own e member := by
    rw [entries] at member
    rcases List.mem_append.mp member with earlier | last
    · exact mem_append_left _ (kept.own e earlier)
    · cases write with
      | entry record =>
        obtain rfl := List.mem_singleton.mp last
        exact mem_append_right _ mem_cons_self
      | nested => cases last
      | attempt => cases last

/-- What is not charged changes no ledger. -/
theorem Kept.write_free (kept : Kept store written) {write : Write N}
    (inside : write.conversationId ∈ store.conversations) (free : write.charge = none)
    (conversations : store'.conversations = store.conversations)
    (later : store.nextId ≤ store'.nextId)
    (entries : store'.entries = store.entries ++ write.record.toList)
    (usage : store'.usage = store.usage) : Kept store' (written ++ [write]) := by
  refine kept.write inside conversations later entries fun c bucket => ?_
  rw [free]
  unfold Store.ledger
  rw [usage]
  rfl

/-- A ledger after a usage has been recorded. -/
theorem ledger_record {bucket : UsageBucket} {usage : Usage N}
    (recorded : store'.usage =
      Assoc.set c (Gibraltar.recordUsage (store.ledger c) bucket key usage) store.usage)
    (other : ConversationId) (at_ : UsageBucket) :
    (store'.ledger other).bucket at_ = tally addUsage ((store.ledger other).bucket at_)
      (Charge.at ⟨c, bucket, key, usage⟩ other at_).toList := by
  unfold Charge.at
  by_cases same : c = other
  · subst same
    have here : store'.ledger c = Gibraltar.recordUsage (store.ledger c) bucket key usage := by
      rw [Store.ledger, recorded, Assoc.get_set_self]
      rfl
    rw [here, recordUsage_bucket]
    by_cases bucket_eq : bucket = at_
    · subst bucket_eq
      rw [if_pos rfl, if_pos ⟨rfl, rfl⟩]
      rfl
    · rw [if_neg bucket_eq, if_neg fun both => bucket_eq both.2]
      rfl
  · rw [if_neg fun both => same both.1, Store.ledger, recorded, Assoc.get_set_ne same]
    rfl

/-- A charged write, with its usage recorded. -/
theorem Kept.spends (kept : Kept store written) {write : Write N} {c : ConversationId}
    {bucket : UsageBucket} {key : Text} {usage : Usage N}
    (charged : write.charge = some ⟨c, bucket, key, usage⟩) (inside : c ∈ store.conversations)
    (conversations : store'.conversations = store.conversations)
    (later : store.nextId ≤ store'.nextId)
    (entries : store'.entries = store.entries ++ write.record.toList)
    (recorded : store'.usage =
      Assoc.set c (Gibraltar.recordUsage (store.ledger c) bucket key usage) store.usage) :
    Kept store' (written ++ [write]) := by
  have here : write.conversationId = c := (Write.charge_conversationId charged).symm
  refine kept.write (here ▸ inside) conversations later entries fun other at_ => ?_
  rw [charged]
  exact ledger_record recorded other at_

/-! ### Transactions -/

/-- A transaction keeps it, with what it has written. -/
def KeptIn (written : List (Write N)) (tx : Tx N) : Prop := Kept tx.store (written ++ tx.writes)

/-- An entry that is no writer's of the harness. -/
def Plain (draft : EntryDraft N) : Prop := draft.kind ≠ AssistantEntry ∧ draft.kind ≠ ToolResultEntry

variable {tx tx' : Tx N} {c : ConversationId}

omit [Add N] [Zero N] in
theorem appendEntry_eq_some {draft : EntryDraft N} (appended : tx.appendEntry c draft = some tx') :
    c ∈ tx.store.conversations ∧ ∃ record : EntryRecord N, record.conversationId = c ∧
      record.kind = draft.kind ∧ record.model = draft.model ∧
      tx' = ⟨{ tx.store with entries := tx.store.entries ++ [record], nextId := tx.store.nextId + 1 },
        tx.writes ++ [.entry record]⟩ := by
  unfold Tx.appendEntry at appended
  by_cases inside : c ∈ tx.store.conversations
  · rw [if_pos inside] at appended
    exact ⟨inside, _, rfl, rfl, rfl, (Option.some.inj appended).symm⟩
  · rw [if_neg inside] at appended
    cases appended

theorem recordUsage_eq_some {bucket : UsageBucket} {usage : Usage N}
    (recorded : tx.recordUsage c bucket key usage = some tx') :
    c ∈ tx.store.conversations ∧
      tx' = { tx with store := { tx.store with
        usage := Assoc.set c (Gibraltar.recordUsage (tx.store.ledger c) bucket key usage)
          tx.store.usage } } := by
  unfold Tx.recordUsage at recorded
  split_ifs at recorded with inside
  exact ⟨inside, (Option.some.inj recorded).symm⟩

section Kept

variable (kept : KeptIn written tx)
include kept

theorem KeptIn.appendEntry {draft : EntryDraft N} (plain : Plain draft)
    (appended : tx.appendEntry c draft = some tx') : KeptIn written tx' := by
  obtain ⟨inside, record, here, kind, -, rfl⟩ := appendEntry_eq_some appended
  have free : (Write.entry record).charge = none := by
    show record.charge = none
    unfold EntryRecord.charge
    rw [if_neg (kind ▸ plain.1), if_neg (kind ▸ plain.2)]
  have at_ : (Write.entry record).conversationId ∈ tx.store.conversations :=
    (congrArg (· ∈ tx.store.conversations) here).mpr inside
  unfold KeptIn
  rw [← append_assoc]
  exact Kept.write_free kept at_ free rfl (Nat.le_succ _) rfl rfl

theorem KeptIn.appendEntries {drafts : List (EntryDraft N)} (plain : ∀ draft ∈ drafts, Plain draft)
    (appended : tx.appendEntries c drafts = some tx') :
    KeptIn written tx' := by
  unfold Tx.appendEntries at appended
  induction drafts generalizing tx with
  | nil =>
    cases appended
    exact kept
  | cons draft drafts ih =>
    rw [foldlM_cons, bind_eq_bind, bind_eq_some_iff] at appended
    obtain ⟨between, first, rest⟩ := appended
    exact ih (kept.appendEntry (plain draft mem_cons_self) first)
      (fun other member => plain other (mem_cons_of_mem _ member)) rest

/-- An assistant entry is charged what it records. -/
theorem KeptIn.appendAssistant {message : AssistantMessage N}
    (appended : tx.appendAssistant c message = some tx') : KeptIn written tx' := by
  unfold Tx.appendAssistant at appended
  obtain ⟨between, recorded, appended⟩ := bind_eq_some_iff.mp appended
  obtain ⟨-, rfl⟩ := recordUsage_eq_some recorded
  obtain ⟨inside, record, here, kind, model, rfl⟩ := appendEntry_eq_some appended
  have charged : (Write.entry record).charge =
      some ⟨c, .models, modelKey message, message.usage⟩ := by
    show record.charge = _
    unfold EntryRecord.charge
    rw [if_pos kind, model, here]
  unfold KeptIn
  rw [← append_assoc]
  exact Kept.spends kept charged inside rfl (Nat.le_succ _) rfl rfl

theorem KeptIn.appendToolResult {call : ToolCall} {result : ToolExecutionResult N}
    (appended : tx.appendToolResult c call result = some tx') :
    KeptIn written tx' := by
  unfold Tx.appendToolResult at appended
  obtain ⟨between, recorded, appended⟩ := bind_eq_some_iff.mp appended
  obtain ⟨inside, record, here, kind, model, rfl⟩ := appendEntry_eq_some appended
  have other : ToolResultEntry ≠ AssistantEntry := by decide
  have charge : (Write.entry record).charge =
      result.usage.map fun usage => ⟨c, .tools, call.name, usage⟩ := by
    show record.charge = _
    unfold EntryRecord.charge
    rw [if_neg (kind ▸ other), if_pos kind, model, here]
  have at_ : (Write.entry record).conversationId ∈ between.store.conversations :=
    (congrArg (· ∈ between.store.conversations) here).mpr inside
  unfold KeptIn
  rw [← append_assoc]
  cases spend : result.usage with
  | none =>
    rw [spend] at recorded charge
    cases recorded
    exact Kept.write_free kept at_ charge rfl (Nat.le_succ _) rfl rfl
  | some usage =>
    rw [spend] at recorded charge
    obtain ⟨-, rfl⟩ := recordUsage_eq_some recorded
    exact Kept.spends kept charge inside rfl (Nat.le_succ _) rfl rfl

theorem KeptIn.appendErrors {calls : List ToolCall} (appended : tx.appendErrors c calls = some tx')
    : KeptIn written tx' := by
  unfold Tx.appendErrors at appended
  induction calls generalizing tx with
  | nil =>
    cases appended
    exact kept
  | cons call calls ih =>
    rw [foldlM_cons, bind_eq_bind, bind_eq_some_iff] at appended
    obtain ⟨between, first, rest⟩ := appended
    exact ih (kept.appendToolResult first) rest

theorem KeptIn.convertPartial (converted : tx.convertPartial c = some tx') :
    KeptIn written tx' := by
  unfold Tx.convertPartial at converted
  cases left : Assoc.get c tx.store.partials with
  | none =>
    rw [left] at converted
    cases converted
    exact kept
  | some message =>
    rw [left] at converted
    exact kept.appendAssistant converted

theorem KeptIn.settleNested {task parent : TaskId} {call : ToolCall}
    {result : ToolExecutionResult N}
    (settled : tx.settleNested c task parent key call result = some tx') : KeptIn written tx' := by
  unfold Tx.settleNested at settled
  obtain ⟨between, recorded, settled⟩ := bind_eq_some_iff.mp settled
  cases found : Assoc.get (parent, key) between.store.nestedCalls with
  | none =>
    rw [found] at settled
    cases settled
  | some state =>
    rw [found] at settled
    dsimp only at settled
    split_ifs at settled with whole
    obtain rfl := Option.some.inj settled
    unfold KeptIn
    rw [← append_assoc]
    cases spend : result.usage with
    | none =>
      rw [spend] at recorded
      cases recorded
      exact Kept.write_free kept whole.2 rfl rfl le_rfl (append_nil _).symm rfl
    | some usage =>
      rw [spend] at recorded
      obtain ⟨-, rfl⟩ := recordUsage_eq_some recorded
      exact Kept.spends kept rfl whole.2 rfl le_rfl (append_nil _).symm rfl

theorem KeptIn.recordAttempt {message : AssistantMessage N}
    (recorded : tx.recordAttempt c message = some tx') : KeptIn written tx' := by
  unfold Tx.recordAttempt at recorded
  obtain ⟨between, taken, rfl⟩ := map_eq_some_iff.mp recorded
  obtain ⟨inside, rfl⟩ := recordUsage_eq_some taken
  unfold KeptIn
  rw [← append_assoc]
  exact Kept.spends kept rfl inside rfl le_rfl (append_nil _).symm rfl

end Kept

/-! ### Commits -/

/-- A store that differs in nothing that is kept. -/
theorem Kept.frame (kept : Kept store written)
    (conversations : store'.conversations = store.conversations)
    (later : store.nextId ≤ store'.nextId) (entries : store'.entries = store.entries)
    (usage : store'.usage = store.usage) : Kept store' written where
  sorted := conversations ▸ kept.sorted
  first := conversations ▸ kept.first
  minted c member := Nat.lt_of_lt_of_le (kept.minted c (conversations ▸ member)) later
  above := Nat.lt_of_lt_of_le kept.above later
  past write member :=
    ⟨Nat.lt_of_lt_of_le (kept.past write member).1 later, conversations ▸ (kept.past write member).2⟩
  ledger c member := by
    unfold Store.ledger
    rw [usage]
    exact kept.ledger c (conversations ▸ member)
  entries c member := entries ▸ kept.entries c (conversations ▸ member)
  own e member := kept.own e (entries ▸ member)

/-- **A conversation is created**, to which nothing has been written. -/
theorem Kept.create (kept : Kept store written)
    (fresh : ∀ write ∈ written, write.conversationId ≠ c)
    (mem : ∀ other, other ∈ store'.conversations ↔ other = c ∨ other ∈ store.conversations)
    (sorted : store'.conversations.Pairwise (· < ·)) (first : ROOT_CONVERSATION_ID ≤ c)
    (minted : c < store'.nextId) (later : store.nextId ≤ store'.nextId)
    (entries : store'.entries = store.entries)
    (usage : store'.usage = Assoc.set c UsageState.initial store.usage) : Kept store' written where
  sorted := sorted
  first other member := by
    rcases (mem other).mp member with rfl | old
    · exact first
    · exact kept.first other old
  minted other member := by
    rcases (mem other).mp member with rfl | old
    · exact minted
    · exact Nat.lt_of_lt_of_le (kept.minted other old) later
  above := Nat.lt_of_lt_of_le kept.above later
  past write member :=
    ⟨Nat.lt_of_lt_of_le (kept.past write member).1 later,
      fun root => (mem _).mpr (.inr ((kept.past write member).2 root))⟩
  ledger other member bucket := by
    by_cases same : c = other
    · subst same
      have here : store'.ledger c = UsageState.initial := by
        rw [Store.ledger, usage, Assoc.get_set_self]
        rfl
      rw [here, charges_eq_nil fresh]
      cases bucket <;> rfl
    · have there : store'.ledger other = store.ledger other := by
        rw [Store.ledger, usage, Assoc.get_set_ne same]
        rfl
      rw [there]
      exact kept.ledger other (((mem other).mp member).resolve_left (Ne.symm same)) bucket
  entries other member := by
    rw [entries]
    rcases (mem other).mp member with rfl | old
    · rw [entriesOf_eq_nil fresh, filter_eq_nil_iff]
      intro e inside same
      exact fresh _ (kept.own e inside) (of_decide_eq_true same)
    · exact kept.entries other old
  own e member := kept.own e (entries ▸ member)

theorem KeptIn.createRoot (kept : KeptIn written tx)
    (absent : ROOT_CONVERSATION_ID ∉ tx.store.conversations) :
    KeptIn written (tx.createConversation ROOT_CONVERSATION_ID
      (ROOT_CONVERSATION_ID :: tx.store.conversations)) := by
  refine Kept.create kept (fun write member root => absent ((kept.past write member).2 root))
    (fun other => mem_cons) ?_ le_rfl kept.above le_rfl rfl rfl
  refine List.pairwise_cons.mpr ⟨fun other member => ?_, kept.sorted⟩
  exact Nat.lt_of_le_of_ne (kept.first other member) fun same => absent (same ▸ member)

theorem KeptIn.createConversation (kept : KeptIn written tx) :
    KeptIn written (Tx.createConversation
      { tx with store := { tx.store with nextId := tx.store.nextId + 1 } } tx.store.nextId
      (tx.store.conversations ++ [tx.store.nextId])) := by
  refine Kept.create kept (fun write member => (kept.past write member).1.ne)
    (fun other => ?_) ?_ kept.above.le (Nat.lt_succ_self _) (Nat.le_succ _) rfl rfl
  · show other ∈ tx.store.conversations ++ [tx.store.nextId] ↔ _
    rw [mem_append, mem_singleton, or_comm]
  · refine List.pairwise_append.mpr ⟨kept.sorted, pairwise_singleton _ _, ?_⟩
    intro other member new last
    rw [List.mem_singleton.mp last]
    exact kept.minted other member

theorem KeptIn.deleteConversation (kept : KeptIn written tx) (other : c ≠ ROOT_CONVERSATION_ID) :
    KeptIn written (tx.deleteConversation c) where
  sorted := kept.sorted.filter _
  first d member := kept.first d (mem_filter.mp member).1
  minted d member := kept.minted d (mem_filter.mp member).1
  above := kept.above
  past write member :=
    ⟨(kept.past write member).1, fun root => mem_filter.mpr
      ⟨(kept.past write member).2 root, decide_eq_true other.symm⟩⟩
  ledger d member := by
    obtain ⟨inside, apart⟩ := mem_filter.mp member
    have there : (tx.deleteConversation c).store.ledger d = tx.store.ledger d := by
      show (Assoc.get d (Assoc.erase c tx.store.usage)).getD _ = _
      rw [Assoc.get_erase_ne (Ne.symm (of_decide_eq_true apart))]
      rfl
    rw [there]
    exact kept.ledger d inside
  entries d member := by
    obtain ⟨inside, apart⟩ := mem_filter.mp member
    refine Eq.trans ?_ (kept.entries d inside)
    show (tx.store.entries.filter _).filter _ = _
    rw [List.filter_filter]
    refine filter_congr fun e _ => ?_
    by_cases same : e.conversationId = d
    · simp [same, of_decide_eq_true apart]
    · simp [same]
  own e member := kept.own e (mem_filter.mp member).1

/-- **A commit keeps it.** -/
theorem KeptIn.run (kept : KeptIn written tx) {commit : Commit N}
    (plain : ∀ draft ∈ commit.drafts, Plain draft) (ran : commit.run tx = some tx') :
    KeptIn written tx' := by
  have clears {before after : Tx N} {c : ConversationId} (kept : KeptIn written before)
      (cleared : before.clearPartial c = after) : KeptIn written after := by
    subst cleared
    exact Kept.frame kept rfl le_rfl rfl rfl
  cases commit with
  | createRoot =>
    simp only [Commit.run] at ran
    split_ifs at ran with there
    · cases ran
      exact kept
    · cases ran
      exact kept.createRoot there
  | createConversation =>
    cases ran
    exact kept.createConversation
  | deleteConversation c =>
    simp only [Commit.run] at ran
    split_ifs at ran with root
    cases ran
    exact kept.deleteConversation root
  | appends c drafts => exact kept.appendEntries plain ran
  | request c | schedulerOutcome c =>
    obtain ⟨between, converted, cleared⟩ := map_eq_some_iff.mp ran
    exact clears (kept.convertPartial converted) cleared
  | flush c message | retire task =>
    cases ran
    exact Kept.frame kept rfl le_rfl rfl rfl
  | leaves c => exact clears kept (Option.some.inj ran)
  | fails c message =>
    obtain ⟨between, appended, cleared⟩ := map_eq_some_iff.mp ran
    exact clears (kept.appendAssistant appended) cleared
  | answer c message drafts =>
    obtain ⟨between, appended, rest⟩ := bind_eq_some_iff.mp ran
    obtain ⟨placed, drafted, cleared⟩ := map_eq_some_iff.mp rest
    exact clears ((kept.appendAssistant appended).appendEntries plain drafted) cleared
  | startToolRound c message calls offered =>
    obtain ⟨between, appended, rest⟩ := bind_eq_some_iff.mp ran
    obtain ⟨placed, refused, cleared⟩ := map_eq_some_iff.mp rest
    exact clears ((kept.appendAssistant appended).appendErrors refused) cleared
  | abort c unstarted =>
    obtain ⟨between, converted, rest⟩ := bind_eq_some_iff.mp ran
    obtain ⟨placed, refused, cleared⟩ := map_eq_some_iff.mp rest
    exact clears ((kept.convertPartial converted).appendErrors refused) cleared
  | startNestedCall c parent key =>
    simp only [Commit.run] at ran
    cases found : Assoc.get (parent, key) tx.store.nestedCalls with
    | some =>
      rw [found] at ran
      cases ran
      exact kept
    | none =>
      rw [found] at ran
      cases ran
      exact Kept.frame kept rfl (Nat.le_succ _) rfl rfl
  | settle c task input call result =>
    cases input with
    | model => exact kept.appendToolResult ran
    | nested parent key => exact kept.settleNested ran
  | summarize c message drafts =>
    obtain ⟨between, recorded, drafted⟩ := bind_eq_some_iff.mp ran
    exact (kept.recordAttempt recorded).appendEntries plain drafted

/-- **A run keeps it.** -/
theorem Reaches.kept (reaches : Reaches Plain store written) : Kept store written := by
  induction reaches with
  | initial => exact Kept.initial
  | @step store store' written writes commit _ plain performs ih =>
    obtain ⟨tx, ran, same⟩ := map_eq_some_iff.mp performs
    obtain ⟨rfl, rfl⟩ := Prod.mk.inj same
    have start : KeptIn written ⟨store, []⟩ := by
      unfold KeptIn
      rw [append_nil]
      exact ih
    exact start.run plain ran

/-- Commits that are performed one after the other are a run. -/
theorem Reaches.performAll {Allowed : EntryDraft N → Prop} (before : Reaches Allowed store written)
    (commits : List (Commit N)) (allowed : ∀ commit ∈ commits, ∀ draft ∈ commit.drafts, Allowed draft)
    {after : Store N × List (Write N)}
    (performs : Spend.performAll commits (store, written) = some after) :
    Reaches Allowed after.1 after.2 := by
  unfold Spend.performAll at performs
  induction commits generalizing store written with
  | nil =>
    cases performs
    exact before
  | cons commit commits ih =>
    rw [foldlM_cons, bind_eq_bind, bind_eq_some_iff] at performs
    obtain ⟨between, first, rest⟩ := performs
    obtain ⟨⟨store', writes⟩, performed, rfl⟩ := map_eq_some_iff.mp first
    exact ih (before.step (allowed commit mem_cons_self) performed)
      (fun other member => allowed other (mem_cons_of_mem _ member)) rest

/-! ### The project -/

omit [Add N] [Zero N] in
/-- The pages are the conversations. -/
theorem scanConversations_eq (sorted : store.conversations.Pairwise (· < ·)) :
    scanPages (store.scanConversations PROJECT_USAGE_PAGE) (store.conversations.length + 1) none =
      store.conversations := by
  refine scanPages_eq (fun a b less => ?_) (sorted.imp fun less => decide_eq_true less) (by decide)
    (Nat.lt_succ_self _)
  exact decide_eq_false (of_decide_eq_true less).not_gt

/-- What a conversation adds is its ledger. -/
theorem addConversation_usage (sum : ProjectUsage N) (c : ConversationId) (bucket : UsageBucket) :
    (addConversation store sum c).usage.bucket bucket =
      tally addUsage (sum.usage.bucket bucket) ((store.ledger c).bucket bucket) := by
  unfold addConversation Store.ledger
  cases Assoc.get c store.usage with
  | none => cases bucket <;> rfl
  | some state =>
    by_cases empty : (state.models.isEmpty && state.tools.isEmpty) = true
    · obtain ⟨models, tools⟩ := (Bool.and_eq_true _ _).mp empty
      simp only [if_pos empty, getD_some]
      cases bucket
      · show _ = tally addUsage _ state.models
        rw [List.isEmpty_iff.mp models]
        rfl
      · show _ = tally addUsage _ state.tools
        rw [List.isEmpty_iff.mp tools]
        rfl
    · simp only [if_neg empty, getD_some]
      exact addUsageState_bucket _ _ _

theorem projectUsage_bucket (sorted : store.conversations.Pairwise (· < ·)) (bucket : UsageBucket) :
    (projectUsage store).usage.bucket bucket =
      (store.conversations.map fun c => (store.ledger c).bucket bucket).foldl (tally addUsage) [] := by
  have steps (conversations : List ConversationId) (sum : ProjectUsage N) :
      (conversations.foldl (addConversation store) sum).usage.bucket bucket =
        (conversations.map fun c => (store.ledger c).bucket bucket).foldl (tally addUsage)
          (sum.usage.bucket bucket) := by
    induction conversations generalizing sum with
    | nil => rfl
    | cons c conversations ih =>
      rw [foldl_cons, ih, map_cons, foldl_cons, addConversation_usage]
  unfold projectUsage
  rw [scanConversations_eq sorted, steps]
  cases bucket <;> rfl

end Kept

section Sum

variable [AddZeroClass N] {store : Store N} {written : List (Write N)}

/-- **A ledger is the sum of what its conversation spent.** -/
theorem Kept.ledger_get (kept : Kept store written) (inside : c ∈ store.conversations)
    (bucket : UsageBucket) (key : Text) :
    Assoc.get key ((store.ledger c).bucket bucket) = sumUsage (spent written c bucket key) := by
  rw [kept.ledger c inside, get_tally, total_addUsage, spent_eq_under]

/-- **The project's usage is the sum of the ledgers.** -/
theorem Kept.projectUsage_get (kept : Kept store written) (bucket : UsageBucket) (key : Text) :
    Assoc.get key ((projectUsage store).usage.bucket bucket) =
      sumUsage (store.conversations.filterMap fun c =>
        Assoc.get key ((store.ledger c).bucket bucket)) := by
  rw [projectUsage_bucket kept.sorted, get_tally_flatten, total_addUsage, filterMap_map]
  · rfl
  · intro sums member
    obtain ⟨c, inside, rfl⟩ := List.mem_map.mp member
    rw [kept.ledger c inside]
    exact nodup_tally_nil addUsage _

/-- **Usage is conserved.** In every run whose hosts hand over no assistant entry and no tool result of
their own, a ledger is the sum of the usage of every assistant entry, tool result, nested result and
summarization attempt that was written in its conversation, the entries are all that were written, and the
project's usage is the sum over the conversations. -/
theorem usage_conserved (reaches : Reaches Plain store written) :
    (∀ c ∈ store.conversations, ∀ bucket key,
      Assoc.get key ((store.ledger c).bucket bucket) = sumUsage (spent written c bucket key)) ∧
    (∀ c ∈ store.conversations,
      store.entries.filter (fun e => e.conversationId = c) = entriesOf written c) ∧
    ∀ bucket key, Assoc.get key ((projectUsage store).usage.bucket bucket) =
      sumUsage (store.conversations.filterMap fun c =>
        Assoc.get key ((store.ledger c).bucket bucket)) :=
  ⟨fun _ inside => reaches.kept.ledger_get inside, reaches.kept.entries,
    reaches.kept.projectUsage_get⟩

/-- A partial that a restart left, the attempt after it, a summarization attempt, and a result with
usage. -/
theorem usage_conserved_retried :
    ∃ (store : Store Nat) (written : List (Write Nat)), Reaches Plain store written ∧
      store.entries.length = 3 ∧ written.length = 4 ∧
      Assoc.get (text "a/b") ((store.ledger ROOT_CONVERSATION_ID).bucket .models) =
        sumUsage (spent written ROOT_CONVERSATION_ID .models (text "a/b")) := by
  let usage : Usage Nat := ⟨1, 2, 0, 0, none, some 1, 3, ⟨0, 0, 0, 0, 0⟩⟩
  let message : AssistantMessage Nat := ⟨text "a", text "b", usage, .stop⟩
  have reaches : Reaches Plain _ _ := Reaches.initial.performAll
    [.createRoot, .flush 1 message, .request 1, .fails 1 message, .summarize 1 message [],
      .settle 1 2 .model ⟨text "c", text "d"⟩ ⟨none, some usage⟩] (by simp [Commit.drafts]) rfl
  exact ⟨_, _, reaches, rfl, rfl,
    (@usage_conserved Nat _ _ _ reaches).1 ROOT_CONVERSATION_ID mem_cons_self .models _⟩

/-- An assistant entry that a host hands over is not in the ledger. -/
theorem hosted_unrecorded :
    ∃ (store : Store Nat) (written : List (Write Nat)), Reaches (fun _ => True) store written ∧
      ROOT_CONVERSATION_ID ∈ store.conversations ∧
      Assoc.get (text "a/b") ((store.ledger ROOT_CONVERSATION_ID).bucket .models) ≠
        sumUsage (spent written ROOT_CONVERSATION_ID .models (text "a/b")) := by
  let usage : Usage Nat := ⟨1, 2, 0, 0, none, some 1, 3, ⟨0, 0, 0, 0, 0⟩⟩
  let message : AssistantMessage Nat := ⟨text "a", text "b", usage, .stop⟩
  have reaches : Reaches (fun _ => True) _ _ := Reaches.initial.performAll
    [.createRoot, .appends 1 [⟨AssistantEntry, some [.assistant message], none, []⟩]]
    (fun _ _ _ _ => trivial) rfl
  refine ⟨_, _, reaches, mem_cons_self, ?_⟩
  decide

end Sum

end TianGong.Gibraltar.Spend
