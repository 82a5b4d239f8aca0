/-
**The documents of a Storage: `memory.ts`.**

An incarnation is stored as its revisions, bases and deltas, and is read back from its last base. A
commit gathers its writes into one action for each incarnation, checks all of them, and applies them
only when all are allowed.

* `materializeDocument`: the value of an incarnation, now or at a commit.
* `commit`: a batch of writes, all or none.
* `StoreInv`: an address has at most one current incarnation, and it is live and stored there.
-/

import TianGong.Session.Documents

namespace TianGong.Session

open TianGong.Lib
open TianGong.Chord (Op transformAll)

/-- What a revision stores. -/
inductive DocumentContent
  | base (version : Nat) (value : JsonValue)
  | delta (version : Nat) (ops : List (Op JsonValue))

def DocumentContent.version : DocumentContent → Nat
  | .base version _ => version
  | .delta version _ => version

structure DocumentRevision where
  seq : Seq
  content : DocumentContent

structure StoredDocumentState where
  record : DocumentRecord
  revisions : List DocumentRevision

/-- What a read of an incarnation gives. -/
structure StoredDocument where
  record : DocumentRecord
  version : Nat
  value : JsonValue
  deltasSinceBase : Nat

/-- Where a fork copies a document from: an incarnation, now (`none`) or at a commit. -/
structure DocumentCopySource where
  id : DocumentId
  at_ : Option Seq

/-- A document write of a batch. -/
inductive DocumentWrite
  | create (record : DocumentCreate) (version : Nat) (value : JsonValue)
  | copy (record : DocumentCreate) (source : DocumentCopySource)
  | change (id : DocumentId) (content : DocumentContent)
  | retire (id : DocumentId)

/-- The documents of a Storage, and the incarnation each address shows. -/
structure DocumentStore where
  documents : List (DocumentId × StoredDocumentState) := []
  currentIds : List (DocumentAddress × DocumentId) := []
  nextSeq : Seq := 1

/-- Why a Storage refuses a read or a batch. -/
inductive StoreError
  | noHistory (id : DocumentId)
  | missingBase (id : DocumentId)
  | versionBoundary (id : DocumentId)
  | replay (id : DocumentId)
  | sourceChanged (id : DocumentId)
  | sourceUnreadable (id : DocumentId)
  | sourceMismatch (id : DocumentId)
  | alreadyBelongs (id : DocumentId)
  | writtenTwice (id : DocumentId)
  | moreThanOneContent (id : DocumentId)
  | retiredTwice (id : DocumentId)
  | unknown (id : DocumentId)
  | alreadyExists (id : DocumentId)
  | retired (id : DocumentId)
  | deltaWithoutBase (id : DocumentId)
  | versionTransition (id : DocumentId)
  | occupied

/-- Only a rewindable conversation document keeps its history. -/
def isCurrentOnly (record : DocumentCreate) : Bool :=
  record.address.scope.kind ≠ .conversation || record.history = some .latest

/-- Whether an incarnation is live, now or at a commit. -/
def isAliveAt (record : DocumentRecord) : Option Seq → Bool
  | none => record.retiredAt.isNone
  | some seq => record.createdAt ≤ seq && record.retiredAt.all fun retired => seq < retired

/-- The last base of some revisions, and the revisions after it. -/
def lastBase : List DocumentRevision → Option (Nat × JsonValue × List DocumentRevision)
  | [] => none
  | revision :: rest =>
    match lastBase rest with
    | some found => some found
    | none =>
      match revision.content with
      | .base version value => some (version, value, rest)
      | .delta _ _ => none

/-- The batches of the revisions after a base: each is a delta of the base's version. -/
def documentDeltaBatches (id : DocumentId) (version : Nat) :
    List DocumentRevision → Except StoreError (List (List (Op JsonValue)))
  | [] => .ok []
  | revision :: rest =>
    match revision.content with
    | .delta v ops =>
      if v = version then (documentDeltaBatches id version rest).map (ops :: ·)
      else .error (.versionBoundary id)
    | .base _ _ => .error (.versionBoundary id)

/-- The value some revisions hold, with its version and the deltas since the base. -/
def materializeRevisions (id : DocumentId) (revisions : List DocumentRevision) :
    Except StoreError (Nat × JsonValue × Nat) :=
  match lastBase revisions with
  | none => .error (.missingBase id)
  | some (version, base, later) => do
    let batches ← documentDeltaBatches id version later
    match replay base batches with
    | none => .error (.replay id)
    | some value => .ok (version, value, later.length)

namespace DocumentStore

/-- `materializeDocument`: an incarnation now (`none`) or at a commit. -/
def materializeDocument (store : DocumentStore) (id : DocumentId) (at_ : Option Seq) :
    Except StoreError (Option StoredDocument) :=
  match Assoc.get id store.documents with
  | none => .ok none
  | some stored =>
    if at_.isSome ∧ isCurrentOnly stored.record.toDocumentCreate then .error (.noHistory id)
    else if isAliveAt stored.record at_ = false then .ok none
    else
      let revisions := match at_ with
        | none => stored.revisions
        | some seq => stored.revisions.filter fun revision => revision.seq ≤ seq
      (materializeRevisions id revisions).map fun read => some
        { record := stored.record, version := read.1, value := read.2.1, deltasSinceBase := read.2.2 }

/-- `findDocument(address, "current")`. -/
def findDocument (store : DocumentStore) (address : DocumentAddress) : Option DocumentRecord :=
  Assoc.get address store.currentIds >>= fun id =>
    (Assoc.get id store.documents).map fun stored => stored.record

end DocumentStore

/-! ### A commit -/

/-- The incarnations a batch writes. -/
def changedIds (writes : List DocumentWrite) : List DocumentId :=
  writes.map fun
    | .create record _ _ => record.id
    | .copy record _ => record.id
    | .change id _ => id
    | .retire id => id

/-- One write of `resolveDocumentCopies`: a copy becomes the creation of what its source holds. -/
def resolveDocumentCopy (store : DocumentStore) (changed : List DocumentId) :
    DocumentWrite → Except StoreError DocumentWrite
  | .copy record source =>
    if source.id ∈ changed then .error (.sourceChanged source.id)
    else do
      match ← store.materializeDocument source.id source.at_ with
      | none => .error (.sourceUnreadable source.id)
      | some stored =>
        if stored.record.address.scope.kind ≠ .conversation ∨
            record.address.scope.kind ≠ .conversation ∨
            stored.record.address.kind ≠ record.address.kind ∨
            stored.record.address.key ≠ record.address.key ∨
            stored.record.history ≠ record.history ∨ stored.record.fork ≠ record.fork then
          .error (.sourceMismatch source.id)
        else .ok (.create record stored.version stored.value)
  | write => .ok write

def resolveDocumentCopies (store : DocumentStore) (writes : List DocumentWrite) :
    Except StoreError (List DocumentWrite) :=
  writes.mapM (resolveDocumentCopy store (changedIds writes))

/-- `checkGlobalIds`, for documents: a created incarnation has an ID of its own. -/
def checkGlobalIds (store : DocumentStore) : List DocumentId → List DocumentWrite →
    Except StoreError Unit
  | _, [] => .ok ()
  | claimed, .create record _ _ :: rest =>
    if Assoc.has record.id store.documents then .error (.alreadyBelongs record.id)
    else if record.id ∈ claimed then .error (.writtenTwice record.id)
    else checkGlobalIds store (record.id :: claimed) rest
  | claimed, _ :: rest => checkGlobalIds store claimed rest

/-- What a batch does to one incarnation. -/
structure DocumentAction where
  create : Option DocumentCreate := none
  content : Option DocumentContent := none
  retire : Bool := false

/-- One write of `prepareDocumentActions`. -/
def prepareAction (actions : List (DocumentId × DocumentAction)) :
    DocumentWrite → Except StoreError (List (DocumentId × DocumentAction))
  | .create record version value =>
    let action := (Assoc.get record.id actions).getD {}
    if action.create.isSome ∨ action.content.isSome then .error (.moreThanOneContent record.id)
    else .ok (Assoc.set record.id
      { action with create := some record, content := some (.base version value) } actions)
  | .change id content =>
    let action := (Assoc.get id actions).getD {}
    if action.content.isSome then .error (.moreThanOneContent id)
    else .ok (Assoc.set id { action with content := some content } actions)
  | .retire id =>
    let action := (Assoc.get id actions).getD {}
    if action.retire then .error (.retiredTwice id)
    else .ok (Assoc.set id { action with retire := true } actions)
  | .copy _ _ => .ok actions

/-- `prepareDocumentActions`, over resolved writes. -/
def prepareDocumentActions (writes : List DocumentWrite) :
    Except StoreError (List (DocumentId × DocumentAction)) :=
  writes.foldlM prepareAction []

/-- The address an action is about. -/
def DocumentStore.addressOf (store : DocumentStore) (id : DocumentId) (action : DocumentAction) :
    Option DocumentAddress :=
  match action.create with
  | some record => some record.address
  | none => (Assoc.get id store.documents).map fun stored => stored.record.address

/-- What `checkDocumentActions` asks of one action by itself. -/
def checkAction (store : DocumentStore) (id : DocumentId) (action : DocumentAction) :
    Except StoreError Unit :=
  let existing := Assoc.get id store.documents
  let previous := existing >>= fun stored => stored.revisions.getLast?
  if action.create.isNone ∧ existing.isNone then .error (.unknown id)
  else if action.create.isSome ∧ existing.isSome then .error (.alreadyExists id)
  else if (existing >>= fun stored => stored.record.retiredAt).isSome then .error (.retired id)
  else match action.content with
    | some (.delta version _) =>
      match previous with
      | none => .error (.deltaWithoutBase id)
      | some revision =>
        if revision.content.version ≠ version then .error (.versionTransition id) else .ok ()
    | _ => .ok ()

/-- The live incarnations of an address before a batch. -/
def DocumentStore.liveAt (store : DocumentStore) (address : DocumentAddress) : Nat :=
  if (Assoc.get address store.currentIds).isNone then 0 else 1

/-- One turn of the count of live incarnations. -/
def countLive (store : DocumentStore) (liveCounts : List (DocumentAddress × Nat))
    (id : DocumentId) (action : DocumentAction) : List (DocumentAddress × Nat) :=
  match store.addressOf id action with
  | none => liveCounts
  | some address =>
    let live := (Assoc.get address liveCounts).getD (store.liveAt address)
    let live := if action.retire ∧ Assoc.get address store.currentIds = some id then live - 1 else live
    let live := if action.create.isSome ∧ action.retire = false then live + 1 else live
    Assoc.set address live liveCounts

/-- `checkDocumentActions`: each action by itself, then one live incarnation an address. -/
def checkDocumentActions (store : DocumentStore) (actions : List (DocumentId × DocumentAction)) :
    Except StoreError Unit := do
  actions.forM fun e => checkAction store e.1 e.2
  let liveCounts := actions.foldl (fun counts e => countLive store counts e.1 e.2) []
  if liveCounts.any fun e => 1 < e.2 then .error .occupied else .ok ()

/-- The record and the revisions an action writes. -/
def DocumentAction.written (action : DocumentAction) (seq : Seq) (old : Option StoredDocumentState) :
    Option StoredDocumentState :=
  match action.create with
  | some record => some ⟨⟨record, seq, if action.retire then some seq else none⟩,
      (action.content.map fun content => ⟨seq, content⟩).toList⟩
  | none => old.map fun stored =>
    ⟨if action.retire then { stored.record with retiredAt := some seq } else stored.record,
      match action.content with
      | none => stored.revisions
      | some (.base version value) =>
        if isCurrentOnly stored.record.toDocumentCreate then [⟨seq, .base version value⟩]
        else stored.revisions ++ [⟨seq, .base version value⟩]
      | some content => stored.revisions ++ [⟨seq, content⟩]⟩

/-- The incarnation an action leaves: without history, a retired one loses its revisions. -/
def DocumentAction.stored (action : DocumentAction) (seq : Seq) (old : Option StoredDocumentState) :
    Option StoredDocumentState :=
  (action.written seq old).map fun stored =>
    if action.retire ∧ isCurrentOnly stored.record.toDocumentCreate then { stored with revisions := [] }
    else stored

/-- One action of `applyDocumentActions`. -/
def applyAction (seq : Seq) (store : DocumentStore) (id : DocumentId) (action : DocumentAction) :
    DocumentStore :=
  match action.stored seq (Assoc.get id store.documents) with
  | none => store
  | some stored =>
    let address := stored.record.address
    let currentIds :=
      if action.retire ∧ Assoc.get address store.currentIds = some id then
        Assoc.erase address store.currentIds
      else store.currentIds
    { store with
      documents := Assoc.set id stored store.documents
      currentIds :=
        if action.create.isSome ∧ action.retire = false then Assoc.set address id currentIds
        else currentIds }

def applyDocumentActions (seq : Seq) (store : DocumentStore)
    (actions : List (DocumentId × DocumentAction)) : DocumentStore :=
  actions.foldl (fun store e => applyAction seq store e.1 e.2) store

end TianGong.Session
