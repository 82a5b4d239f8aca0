/-
**A transcript for a provider pairs calls with results.**

`ai/api/transform-messages.ts`: messages are rewritten for the model that is asked. The first pass
drops what only another model can read and gives call ids the form a provider takes; the second drops
failed turns, holds system messages back and answers calls that nothing answers. Content is never
null, and `now` is the time at which results are made up.

* `pairs_secondPass`: the second pass pairs what it is given, unless a result is out of place.
* `transformMessages_delivers`: the transcript is right exactly when every result is in place.
* `left_behind`: a result that a failed turn leaves behind.
-/

import TianGong.Gibraltar.Entries
import TianGong.SecGuard.Address

namespace TianGong.Ai.TransformMessages

open TianGong.Lib TianGong.SecGuard TianGong.Gibraltar
open List

/-- A part of a user message or of a tool result. -/
inductive Block where
  | text (text : Text) (textSignature : Option Text)
  | image (data mimeType : Text)

/-- A tool call. What is left of it stands in `rest`. -/
structure ToolCall where
  id : Text
  name : Text
  thoughtSignature : Option Text
  rest : Json Unit

inductive AssistantBlock where
  | text (text : Text) (textSignature : Option Text)
  | thinking (thinking : Text) (thinkingSignature : Option Text) (redacted : Bool)
  | toolCall (call : ToolCall)

structure AssistantMessage where
  content : List AssistantBlock
  api : Text
  provider : Text
  model : Text
  stopReason : StopReason
  rest : Json Unit

structure ToolResultMessage where
  toolCallId : Text
  toolName : Text
  content : List Block
  isError : Bool
  timestamp : JsNumber
  rest : Json Unit

inductive Message where
  | system (message : Json Unit)
  | user (content : Text ⊕ List Block) (timestamp : JsNumber)
  | assistant (message : AssistantMessage)
  | toolResult (message : ToolResultMessage)

/-- A kind of input that a model takes. -/
inductive Modality where
  | text | image
  deriving DecidableEq

structure Model where
  id : Text
  api : Text
  provider : Text
  input : List Modality

/-- The model that is asked, and the form that its provider wants ids in. -/
structure Target where
  model : Model
  normalizeToolCallId : Option (Text → AssistantMessage → Text)

/-- A signature that is there and not empty. -/
def truthy (signature : Option Text) : Bool := signature.any fun t => t ≠ []

def AssistantBlock.toolCall? : AssistantBlock → Option ToolCall
  | .toolCall call => some call
  | _ => none

def AssistantMessage.toolCalls (a : AssistantMessage) : List ToolCall :=
  a.content.filterMap AssistantBlock.toolCall?

def AssistantMessage.callIds (a : AssistantMessage) : List Text := a.toolCalls.map ToolCall.id

/-- A turn that is not sent again. -/
def AssistantMessage.failed (a : AssistantMessage) : Bool :=
  a.stopReason = .error ∨ a.stopReason = .aborted

def Message.isToolResult : Message → Bool
  | .toolResult _ => true
  | _ => false

def Message.failed : Message → Bool
  | .assistant a => a.failed
  | _ => false

/-! ### Images -/

def replaceImages (placeholder : Text) (previous : Bool) : List Block → List Block
  | [] => []
  | .image _ _ :: rest =>
    if previous then replaceImages placeholder true rest
    else .text placeholder none :: replaceImages placeholder true rest
  | .text t signature :: rest =>
    .text t signature :: replaceImages placeholder (t = placeholder) rest

def replaceImagesWithPlaceholder (content : List Block) (placeholder : Text) : List Block :=
  replaceImages placeholder false content

def NON_VISION_USER_IMAGE_PLACEHOLDER : Text :=
  text "(image omitted: model does not support images)"

def NON_VISION_TOOL_IMAGE_PLACEHOLDER : Text :=
  text "(tool image omitted: model does not support images)"

section

variable (target : Target)

/-- The blocks that the model can take. -/
def takenImages (placeholder : Text) (content : List Block) : List Block :=
  if target.model.input.contains .image then content
  else replaceImagesWithPlaceholder content placeholder

/-- One message in `downgradeUnsupportedImages`. -/
def downgrade : Message → Message
  | .user content timestamp =>
    .user (content.map id (takenImages target NON_VISION_USER_IMAGE_PLACEHOLDER)) timestamp
  | .toolResult r =>
    .toolResult { r with content := takenImages target NON_VISION_TOOL_IMAGE_PLACEHOLDER r.content }
  | m => m

/-! ### The first pass -/

def isSameModel (a : AssistantMessage) : Bool :=
  a.provider = target.model.provider ∧ a.api = target.model.api ∧ a.model = target.model.id

/-- The id that a call of a message gets. -/
def normalizedId (a : AssistantMessage) (id : Text) : Text :=
  match target.normalizeToolCallId with
  | some normalize => if isSameModel target a then id else normalize id a
  | none => id

/-- A block of an assistant message, rewritten. -/
def transformBlock (a : AssistantMessage) : AssistantBlock → List AssistantBlock
  | .thinking thinking signature redacted =>
    if ¬isSameModel target a then []
    else if redacted ∨ truthy signature then [.thinking thinking signature redacted]
    else if thinking = [] ∨ trim thinking = [] then []
    else [.thinking thinking signature redacted]
  | .text t signature => [.text t (if isSameModel target a then signature else none)]
  | .toolCall call =>
    [.toolCall { call with
      id := normalizedId target a call.id
      thoughtSignature :=
        if ¬isSameModel target a ∧ truthy call.thoughtSignature then none else call.thoughtSignature
          }]

/-- `toolCallIdMap` after an assistant message. -/
def noteIds (ids : List (Text × Text)) (a : AssistantMessage) : List (Text × Text) :=
  a.callIds.foldl (fun ids id =>
    if normalizedId target a id ≠ id then Assoc.set id (normalizedId target a id) ids else ids) ids

/-- The id of a result, when its call has got another one. -/
def mappedId (normalized : Option Text) (id : Text) : Text :=
  match normalized with
  | some other => if other ≠ [] ∧ other ≠ id then other else id
  | none => id

def transformAssistant (a : AssistantMessage) : AssistantMessage :=
  { a with content := a.content.flatMap (transformBlock target a) }

def firstPass (ids : List (Text × Text)) : List Message → List Message
  | [] => []
  | .assistant a :: rest =>
    .assistant (transformAssistant target a) :: firstPass (noteIds target ids a) rest
  | .toolResult r :: rest =>
    .toolResult { r with toolCallId := mappedId (Assoc.get r.toolCallId ids) r.toolCallId } ::
      firstPass ids rest
  | m :: rest => m :: firstPass ids rest

end

/-! ### The second pass -/

/-- Calls that wait for results, ids that results came with, and system messages held back. -/
structure Pairing where
  pendingToolCalls : List ToolCall
  existingToolResultIds : List Text
  heldSystemMessages : List Message

/-- The result of a call that none answers. -/
def noResult (now : JsNumber) (call : ToolCall) : Message :=
  .toolResult ⟨call.id, call.name, [.text (text "No result provided") none], true, now, .null⟩

/-- What `closePendingToolCalls` pushes. -/
def Pairing.closing (now : JsNumber) (p : Pairing) : List Message :=
  (p.pendingToolCalls.filter fun call => call.id ∉ p.existingToolResultIds).map (noResult now) ++
    p.heldSystemMessages

/-- What it leaves. -/
def Pairing.closed (p : Pairing) : Pairing :=
  ⟨[], if p.pendingToolCalls.isEmpty then p.existingToolResultIds else [], []⟩

def secondPass (now : JsNumber) (p : Pairing) : List Message → List Message
  | [] => p.closing now
  | .assistant a :: rest =>
    p.closing now ++
      if a.failed then secondPass now p.closed rest
      else .assistant a :: secondPass now
        (if a.toolCalls.isEmpty then p.closed else ⟨a.toolCalls, [], []⟩) rest
  | .toolResult r :: rest =>
    .toolResult r :: secondPass now
      { p with existingToolResultIds := r.toolCallId :: p.existingToolResultIds } rest
  | .system message :: rest =>
    if p.pendingToolCalls.isEmpty then .system message :: secondPass now p rest
    else secondPass now
      { p with heldSystemMessages := p.heldSystemMessages ++ [.system message] } rest
  | .user content timestamp :: rest =>
    p.closing now ++ .user content timestamp :: secondPass now p.closed rest

/-- What the second pass reads. -/
def transformed (target : Target) (messages : List Message) : List Message :=
  firstPass target [] (messages.map (downgrade target))

def transformMessages (now : JsNumber) (messages : List Message) (target : Target) : List Message :=
  secondPass now ⟨[], [], []⟩ (transformed target messages)

/-! ### Reading a transcript from the left -/

/-- The ids that tool results have. -/
def resultIds (messages : List Message) : List Text :=
  messages.filterMap fun
    | .toolResult r => some r.toolCallId
    | _ => none

def Message.callIds : Message → List Text
  | .assistant a => a.callIds
  | _ => []

/-- The ids of the calls that a tool result may answer behind these messages: the calls of the last
assistant message, while only tool results have followed. -/
def openCalls (calls : List Text) : List Message → List Text
  | [] => calls
  | .toolResult _ :: rest => openCalls calls rest
  | m :: rest => openCalls m.callIds rest

/-- Calls and results pair up. -/
structure Paired (messages : List Message) : Prop where
  answers : ∀ before r after, messages = before ++ .toolResult r :: after →
    r.toolCallId ∈ openCalls [] before
  answered : ∀ before m after, messages = before ++ m :: after → ∀ id ∈ m.callIds,
    (resultIds (after.takeWhile Message.isToolResult)).count id = 1

/-- Read with these calls open, of which those seen have results. -/
def Pairs (calls seen : List Text) : List Message → Prop
  | [] => calls ⊆ seen
  | .toolResult r :: rest =>
    r.toolCallId ∈ calls ∧ r.toolCallId ∉ seen ∧ Pairs calls (r.toolCallId :: seen) rest
  | m :: rest => calls ⊆ seen ∧ Pairs m.callIds [] rest

theorem openCalls_other {m : Message} (other : m.isToolResult = false) (calls : List Text)
    (rest : List Message) : openCalls calls (m :: rest) = openCalls m.callIds rest := by
  cases m with
  | toolResult r => cases other
  | _ => rfl

theorem pairs_other {m : Message} (other : m.isToolResult = false) (calls seen : List Text)
    (rest : List Message) : Pairs calls seen (m :: rest) ↔ calls ⊆ seen ∧ Pairs m.callIds
      [] rest := by
  cases m with
  | toolResult r => cases other
  | _ => rfl

theorem forall_split_cons {A B : Type} {f : B → A} {m : A} {messages : List A}
    {P : List A → B → List A → Prop} :
    (∀ before x after, m :: messages = before ++ f x :: after → P before x after) ↔
      (∀ x, m = f x → P [] x messages) ∧
        ∀ before x after, messages = before ++ f x :: after → P (m :: before) x after := by
  constructor
  · exact fun all => ⟨fun x same => all [] x messages (by rw [same, nil_append]),
      fun before x after same => all (m :: before) x after (by rw [same, cons_append])⟩
  · rintro ⟨first, later⟩ (_ | ⟨head, before⟩) x after same
    · obtain ⟨rfl, rfl⟩ := List.cons.inj same
      exact first x rfl
    · obtain ⟨rfl, rest⟩ := List.cons.inj same
      exact later before x after rest

/-- What is left to hold of open calls when no result follows. -/
theorem subset_iff_count {calls seen : List Text} (once : seen.Nodup) :
    calls ⊆ seen ↔ ∀ id ∈ calls, 0 + seen.count id = 1 := by
  refine forall₂_congr fun id _ => ?_
  rw [Nat.zero_add]
  exact ⟨count_eq_one_of_mem once, fun one => List.count_pos_iff.mp (by omega)⟩

variable {messages : List Message}

/-- **Reading a transcript from the left, calls and results pair up.** -/
theorem pairs_iff {calls seen : List Text} (once : seen.Nodup) :
    Pairs calls seen messages ↔
      (∀ before r after, messages = before ++ .toolResult r :: after →
        r.toolCallId ∈ openCalls calls before) ∧
      (∀ before m after, messages = before ++ id m :: after → ∀ id ∈ m.callIds,
        (resultIds (after.takeWhile Message.isToolResult)).count id = 1) ∧
      ∀ id ∈ calls,
        (resultIds (messages.takeWhile Message.isToolResult)).count id + seen.count id = 1 := by
  induction messages generalizing calls seen with
  | nil =>
    rw [Pairs, subset_iff_count once]
    refine ⟨fun all => ⟨fun before r after same => ?_, fun before m after same => ?_, all⟩,
      fun all => all.2.2⟩ <;> simp at same
  | cons m messages ih =>
    rw [forall_split_cons, forall_split_cons]
    cases result : m.isToolResult with
    | false =>
      rw [pairs_other result, ih nodup_nil, subset_iff_count once,
        takeWhile_cons_of_neg (by rw [result]; exact Bool.false_ne_true)]
      simp only [openCalls_other result]
      constructor
      · rintro ⟨answered, answers, later, here⟩
        refine ⟨⟨fun r same => ?_, answers⟩, ⟨fun m' same => ?_, later⟩, answered⟩
        · rw [same] at result
          cases result
        · rw [← show m = m' from same]
          exact here
      · rintro ⟨⟨-, answers⟩, ⟨here, later⟩, answered⟩
        exact ⟨answered, answers, later, here m rfl⟩
    | true =>
      cases m with
      | toolResult r =>
        rw [Pairs, takeWhile_cons_of_pos rfl]
        have move (id : Text) : (resultIds (.toolResult r ::
            messages.takeWhile Message.isToolResult)).count id + seen.count id =
            (resultIds (messages.takeWhile Message.isToolResult)).count id +
              (r.toolCallId :: seen).count id := by
          rw [resultIds, filterMap_cons, count_cons, count_cons, ← resultIds]
          omega
        constructor
        · rintro ⟨waits, fresh, rest⟩
          obtain ⟨answers, answered, left⟩ := (ih (List.nodup_cons.mpr ⟨fresh, once⟩)).mp rest
          refine ⟨⟨fun r' same => ?_, answers⟩, ⟨fun m' same id is => ?_, answered⟩,
            fun id is => (move id).trans (left id is)⟩
          · cases same
            exact waits
          · rw [← show _ = m' from same] at is
            cases is
        · rintro ⟨⟨here, answers⟩, ⟨-, answered⟩, left⟩
          have waits := here r rfl
          have fresh : r.toolCallId ∉ seen := fun is => by
            have one := (move _).symm.trans (left _ waits)
            have seenOnce := List.count_pos_iff.mpr is
            rw [count_cons_self] at one
            omega
          exact ⟨waits, fresh, (ih (List.nodup_cons.mpr ⟨fresh, once⟩)).mpr
            ⟨answers, answered, fun id is => (move id).symm.trans (left id is)⟩⟩
      | _ => cases result

theorem paired_iff : Paired messages ↔ Pairs [] [] messages :=
  ⟨fun paired => (pairs_iff nodup_nil).mpr
    ⟨paired.answers, paired.answered, fun _ is => by cases is⟩,
    fun pairs => ⟨((pairs_iff nodup_nil).mp pairs).1, ((pairs_iff nodup_nil).mp pairs).2.1⟩⟩

/-! ### What the second pass pairs -/

section

variable (target : Target)

/-- The id that a result is sent with after these assistant messages, the last one first: what the
last of another model to hold a call with its id has given that call. -/
def sentId (history : List AssistantMessage) (id : Text) : Text :=
  mappedId ((history.find? fun a => id ∈ a.callIds ∧ normalizedId target a id ≠ id).map fun a =>
    normalizedId target a id) id

/-- Every tool result stands in the turn of an assistant message that has not failed: only tool
results and system messages are between. The id that it is sent with is the one a call of that
message is sent with, and no result of the turn before it has it. -/
def InPlace (history : List AssistantMessage) (calls seen : List Text) : List Message → Prop
  | [] => True
  | .toolResult r :: rest =>
    sentId target history r.toolCallId ∈ calls ∧ sentId target history r.toolCallId ∉ seen ∧
      InPlace history calls (sentId target history r.toolCallId :: seen) rest
  | .assistant a :: rest =>
    InPlace (a :: history) (if a.failed then [] else a.callIds.map (normalizedId target a)) [] rest
  | .system _ :: rest => InPlace history calls seen rest
  | .user _ _ :: rest => InPlace history [] [] rest

end

variable {now : JsNumber} {calls seen : List Text} {rest : List Message} {p : Pairing}

/-- The results made up for calls that none has answered. -/
theorem pairs_noResults {unanswered : List ToolCall}
    (once : (unanswered.map ToolCall.id).Nodup) (waits : unanswered.map ToolCall.id ⊆ calls)
    (fresh : ∀ id ∈ seen, id ∉ unanswered.map ToolCall.id) :
    Pairs calls seen (unanswered.map (noResult now) ++ rest) ↔
      Pairs calls ((unanswered.map ToolCall.id).reverse ++ seen) rest := by
  induction unanswered generalizing seen with
  | nil => rfl
  | cons call unanswered ih =>
    rw [map_cons, nodup_cons] at once
    rw [map_cons, cons_subset] at waits
    rw [map_cons, cons_append, map_cons, reverse_cons, append_assoc,
      singleton_append, ← ih once.2 waits.2, noResult, Pairs]
    · refine ⟨fun all => all.2.2, fun all => ⟨waits.1, fun is => ?_, all⟩⟩
      exact fresh _ is mem_cons_self
    · intro id is
      rcases mem_cons.mp is with rfl | is
      · exact once.1
      · exact fun member => fresh id is (mem_cons_of_mem _ member)

/-- System messages held back, behind results that answer every call. -/
theorem pairs_held {held : List Message} {Q : Prop} (systems : ∀ m ∈ held, ∃ s, m = .system s)
    (all : calls ⊆ seen) (next : ∀ calls seen, calls ⊆ seen → (Pairs calls seen rest ↔ Q)) :
    Pairs calls seen (held ++ rest) ↔ Q := by
  induction held generalizing calls seen with
  | nil => exact next calls seen all
  | cons m held ih =>
    obtain ⟨s, rfl⟩ := systems m mem_cons_self
    rw [cons_append, Pairs]
    · exact (and_iff_right all).trans
        (ih (fun m member => systems m (mem_cons_of_mem _ member)) (List.Subset.refl _))
    · exact fun r is => by cases is

/-- The state of the second pass, beside what has been read of the transcript. -/
inductive Reads (p : Pairing) (calls seen : List Text) : Prop where
  | idle (pending : p.pendingToolCalls = []) (held : p.heldSystemMessages = []) (all : calls ⊆ seen)
  | waiting (pending : p.pendingToolCalls ≠ [])
      (once : (p.pendingToolCalls.map ToolCall.id).Nodup)
      (held : ∀ m ∈ p.heldSystemMessages, ∃ s, m = .system s)
      (calls : calls = p.pendingToolCalls.map ToolCall.id) (seen : seen = p.existingToolResultIds)

/-- **Closing answers every call.** -/
theorem pairs_closing {Q : Prop} (reads : Reads p calls seen)
    (next : ∀ calls seen, calls ⊆ seen → (Pairs calls seen rest ↔ Q)) :
    Pairs calls seen (p.closing now ++ rest) ↔ Q := by
  cases reads with
  | idle pending held all =>
    rw [Pairing.closing, pending, held]
    exact next calls seen all
  | waiting pending once held called answered =>
    subst called answered
    have member {id : Text} : id ∈ (p.pendingToolCalls.filter fun call =>
        call.id ∉ p.existingToolResultIds).map ToolCall.id ↔
        id ∈ p.pendingToolCalls.map ToolCall.id ∧ id ∉ p.existingToolResultIds := by
      simp only [mem_map, mem_filter, decide_eq_true_eq]
      constructor
      · rintro ⟨call, ⟨is, open_⟩, rfl⟩
        exact ⟨⟨call, is, rfl⟩, open_⟩
      · rintro ⟨⟨call, is, rfl⟩, open_⟩
        exact ⟨call, ⟨is, open_⟩, rfl⟩
    rw [Pairing.closing, append_assoc, pairs_noResults
      (once.sublist (List.filter_sublist.map _)) (fun id is => (member.mp is).1)
      (fun id is both => (member.mp both).2 is)]
    refine pairs_held held (fun id is => ?_) next
    rw [mem_append, mem_reverse, member]
    by_cases answered : id ∈ p.existingToolResultIds
    · exact .inr answered
    · exact .inl ⟨is, answered⟩

variable {target : Target}

theorem transformAssistant_callIds (a : AssistantMessage) :
    (transformAssistant target a).callIds = a.callIds.map (normalizedId target a) := by
  rw [AssistantMessage.callIds, AssistantMessage.callIds, AssistantMessage.toolCalls,
    AssistantMessage.toolCalls, transformAssistant]
  induction a.content with
  | nil => rfl
  | cons block content ih =>
    rw [flatMap_cons, filterMap_append, map_append, ih]
    cases block with
    | thinking thinking signature redacted =>
      rw [transformBlock]
      split_ifs <;> rfl
    | _ => rfl

/-- The map of ids holds what the last renaming message has given. -/
theorem get_noteIds (ids : List (Text × Text)) (a : AssistantMessage) (id : Text) :
    Assoc.get id (noteIds target ids a) =
      if id ∈ a.callIds ∧ normalizedId target a id ≠ id then some (normalizedId target a id)
      else Assoc.get id ids := by
  rw [noteIds]
  induction a.callIds generalizing ids with
  | nil => simp
  | cons first rest ih =>
    rw [foldl_cons, ih]
    by_cases same : first = id
    · subst same
      by_cases other : normalizedId target a first ≠ first <;> simp [other]
    · have skip : Assoc.get id (if normalizedId target a first ≠ first then
          Assoc.set first (normalizedId target a first) ids else ids) = Assoc.get id ids := by
        split_ifs
        · exact Assoc.get_set_ne same _ _
        · rfl
      simp only [skip, mem_cons, Ne.symm same, false_or]

/-- What an injective normalizer makes of different ids is different. -/
theorem normalizedId_injective (a : AssistantMessage)
    (injective : ∀ normalize ∈ target.normalizeToolCallId,
      Function.Injective fun id => normalize id a) :
    Function.Injective (normalizedId target a) := by
  intro id other same
  unfold normalizedId at same
  split at same
  · split_ifs at same
    · exact same
    · exact injective _ ‹_› same
  · exact same

/-- **The second pass pairs what it is given, unless a result is out of place.** -/
theorem pairs_secondPass {ids : List (Text × Text)} {history : List AssistantMessage}
    {answered : List Text}
    (agrees : ∀ id, mappedId (Assoc.get id ids) id = sentId target history id)
    (unique : ∀ a, .assistant a ∈ messages → a.callIds.Nodup)
    (injective : ∀ normalize ∈ target.normalizeToolCallId, ∀ a,
      Function.Injective fun id => normalize id a)
    (reads : Reads p calls seen)
    (same : p.pendingToolCalls ≠ [] → answered = p.existingToolResultIds) :
    Pairs calls seen (secondPass now p (firstPass target ids messages)) ↔
      InPlace target history (p.pendingToolCalls.map ToolCall.id) answered messages := by
  induction messages generalizing p calls seen ids history answered with
  | nil =>
    rw [firstPass, secondPass, ← append_nil (p.closing now)]
    exact pairs_closing reads fun calls seen all => iff_of_true all trivial
  | cons m messages ih =>
    have later : ∀ a, .assistant a ∈ messages → a.callIds.Nodup :=
      fun a member => unique a (mem_cons_of_mem _ member)
    cases m with
    | system message =>
      simp only [firstPass, secondPass, InPlace, List.isEmpty_iff]
      cases reads with
      | idle pending held all =>
        rw [if_pos pending, pairs_other rfl, and_iff_right all]
        exact ih agrees later (.idle pending held (List.Subset.refl _)) same
      | waiting pending once held called seenIs =>
        rw [if_neg pending]
        refine ih agrees later (.waiting pending once (fun m member => ?_) called seenIs) same
        rcases mem_append.mp member with member | member
        · exact held m member
        · exact ⟨message, List.mem_singleton.mp member⟩
    | user content timestamp =>
      refine pairs_closing reads fun calls seen all => ?_
      rw [pairs_other rfl, and_iff_right all]
      exact ih (p := p.closed) agrees later (.idle rfl rfl (List.Subset.refl _))
        fun pending => absurd rfl pending
    | assistant a =>
      have noted (id : Text) : mappedId (Assoc.get id (noteIds target ids a)) id =
          sentId target (a :: history) id := by
        rw [get_noteIds, sentId, List.find?_cons]
        by_cases renames : id ∈ a.callIds ∧ normalizedId target a id ≠ id
        · rw [if_pos renames, decide_eq_true renames]
          rfl
        · rw [if_neg renames, decide_eq_false renames]
          exact agrees id
      have called : (transformAssistant target a).callIds = _ :=
        transformAssistant_callIds a
      rw [firstPass, secondPass, InPlace]
      refine pairs_closing reads fun calls seen all => ?_
      cases failed : a.failed with
      | true =>
        rw [if_pos (show (transformAssistant target a).failed = true from failed)]
        exact ih (p := p.closed) noted later (.idle rfl rfl all) fun pending => absurd rfl pending
      | false =>
        rw [if_neg (show ¬(transformAssistant target a).failed = true from
          ne_true_of_eq_false failed), pairs_other rfl, and_iff_right all, Message.callIds,
          if_neg Bool.false_ne_true, ← called, AssistantMessage.callIds]
        cases calls : (transformAssistant target a).toolCalls with
        | nil =>
          exact ih (p := p.closed) noted later (.idle rfl rfl (List.Subset.refl _))
            fun pending => absurd rfl pending
        | cons call rest =>
          have distinct : Function.Injective (normalizedId target a) :=
            normalizedId_injective a fun normalize is => injective normalize is a
          have once := (unique a mem_cons_self).map distinct
          rw [← called, AssistantMessage.callIds, calls] at once
          exact ih (p := ⟨call :: rest, [], []⟩) noted later
            (.waiting (cons_ne_nil _ _) once (fun m member => by cases member) rfl rfl)
            fun _ => rfl
    | toolResult r =>
      rw [firstPass, secondPass, InPlace, Pairs, ← agrees]
      cases reads with
      | idle pending held all =>
        rw [pending]
        exact iff_of_false (fun answers => answers.2.1 (all answers.1))
          fun answers => not_mem_nil answers.1
      | waiting pending once held called seenIs =>
        subst called seenIs
        rw [same pending]
        exact and_congr Iff.rfl (and_congr Iff.rfl
          (ih agrees later (.waiting pending once held rfl rfl) fun _ => rfl))

/-! ### What a provider gets -/

/-- A message that stays: no tool result, and no turn that failed. -/
def Message.stays (m : Message) : Bool := !m.isToolResult && !m.failed

theorem closing_stays {p : Pairing} (now : JsNumber)
    (held : ∀ m ∈ p.heldSystemMessages, ∃ s, m = .system s) :
    (p.closing now).filter (fun m => !m.isToolResult) = p.heldSystemMessages := by
  rw [Pairing.closing, filter_append, List.filter_eq_nil_iff.mpr, nil_append,
    filter_eq_self]
  · rintro m member
    obtain ⟨s, rfl⟩ := held m member
    rfl
  · rintro m member
    obtain ⟨call, -, rfl⟩ := mem_map.mp member
    exact Bool.false_ne_true

/-- The messages that stay keep their order. -/
theorem secondPass_stays (now : JsNumber) (p : Pairing)
    (held : ∀ m ∈ p.heldSystemMessages, ∃ s, m = .system s)
    (idle : p.pendingToolCalls = [] → p.heldSystemMessages = []) :
    (secondPass now p messages).filter (fun m => !m.isToolResult) =
      p.heldSystemMessages ++ messages.filter Message.stays := by
  induction messages generalizing p with
  | nil => rw [secondPass, closing_stays now held, filter_nil, append_nil]
  | cons m messages ih =>
    have closed : (secondPass now p.closed messages).filter (fun m => !m.isToolResult) =
        messages.filter Message.stays := ih p.closed (fun m member => by cases member) fun _ => rfl
    cases m with
    | system s =>
      rw [secondPass]
      split_ifs with none
      · rw [filter_cons_of_pos rfl, filter_cons_of_pos rfl, ih p held idle,
          idle (List.isEmpty_iff.mp none)]
        rfl
      · rw [filter_cons_of_pos rfl, ih]
        · rw [append_assoc, singleton_append]
        · rintro m member
          rcases mem_append.mp member with member | member
          · exact held m member
          · exact ⟨s, List.mem_singleton.mp member⟩
        · exact fun pending => absurd (List.isEmpty_iff.mpr pending) none
    | user content timestamp =>
      rw [secondPass, filter_append, closing_stays now held, filter_cons_of_pos rfl, closed,
        filter_cons_of_pos rfl]
    | assistant a =>
      rw [secondPass, filter_append, closing_stays now held]
      split_ifs with failed none
      · rw [closed, filter_cons_of_neg (by simp [Message.stays, Message.failed, failed])]
      all_goals
        rw [filter_cons_of_pos rfl, filter_cons_of_pos (by
          simp [Message.stays, Message.isToolResult, Message.failed, failed])]
      · rw [closed]
      · rw [ih _ (fun m member => by cases member) fun _ => rfl]
        rfl
    | toolResult r =>
      rw [secondPass, filter_cons_of_neg (by simp [Message.isToolResult]),
        filter_cons_of_neg (by simp [Message.stays, Message.isToolResult])]
      exact ih _ held idle

/-- The tool results that come in go out, and the others are made up. -/
theorem secondPass_results (now : JsNumber) (p : Pairing) (messages : List Message) :
    (messages.filter Message.isToolResult).Sublist (secondPass now p messages) ∧
      ∀ m ∈ secondPass now p messages,
        m ∈ messages ∨ m ∈ p.heldSystemMessages ∨ ∃ call, m = noResult now call := by
  have closing {p : Pairing} {m : Message} (member : m ∈ p.closing now) :
      m ∈ p.heldSystemMessages ∨ ∃ call, m = noResult now call := by
    rcases mem_append.mp member with made | held
    · obtain ⟨call, -, rfl⟩ := mem_map.mp made
      exact .inr ⟨call, rfl⟩
    · exact .inl held
  induction messages generalizing p with
  | nil => exact ⟨nil_sublist _, fun m member => .inr (closing member)⟩
  | cons m messages ih =>
    obtain ⟨kept, from_⟩ := ih p.closed
    have closed {m' : Message} (member : m' ∈ secondPass now p.closed messages) :
        m' ∈ m :: messages ∨ m' ∈ p.heldSystemMessages ∨ ∃ call, m' = noResult now call :=
      (from_ m' member).imp (mem_cons_of_mem _) fun other =>
        .inr (other.resolve_left not_mem_nil)
    have later := kept.trans (sublist_append_right (p.closing now) _)
    cases m with
    | system s =>
      rw [secondPass]
      split_ifs
      · refine ⟨(ih p).1.cons _, fun m' member => ?_⟩
        have := (ih p).2 m'
        grind
      · refine ⟨(ih _).1, fun m' member => ?_⟩
        have := (ih _).2 m' member
        grind
    | user content timestamp =>
      rw [secondPass]
      refine ⟨(kept.cons _).trans (sublist_append_right _ _), fun m' member => ?_⟩
      grind
    | assistant a =>
      rw [secondPass]
      split_ifs
      · exact ⟨later, fun m' member => (mem_append.mp member).elim
        (fun is => .inr (closing is)) closed⟩
      · refine ⟨(kept.cons _).trans (sublist_append_right _ _), fun m' member => ?_⟩
        grind
      · refine ⟨((ih _).1.cons _).trans (sublist_append_right _ _), fun m' member => ?_⟩
        have := (ih ⟨a.toolCalls, [], []⟩).2 m'
        grind
    | toolResult r =>
      rw [secondPass]
      refine ⟨(ih _).1.cons_cons _, fun m' member => ?_⟩
      have := (ih { p with existingToolResultIds := r.toolCallId :: p.existingToolResultIds }).2 m'
      grind

/-- One message as a provider gets it, if it stays. -/
def rewritten (target : Target) (m : Message) : Message :=
  match downgrade target m with
  | .assistant a => .assistant (transformAssistant target a)
  | m => m

/-- What `transformMessages` is for. -/
structure Delivers (target : Target)
    (now : JsNumber) (messages out : List Message) : Prop extends Paired out where
  stays : out.filter (fun m => !m.isToolResult) =
    (messages.filter Message.stays).map (rewritten target)
  originals : ((transformed target messages).filter Message.isToolResult).Sublist out
  madeUp : ∀ m ∈ out, m.isToolResult → m ∈ transformed target messages ∨ ∃ call, m =
    noResult now call
  succeeded : ∀ m ∈ out, m.failed = false

theorem firstPass_stays (ids : List (Text × Text)) (messages : List Message) :
    (firstPass target ids (messages.map (downgrade target))).filter Message.stays =
      (messages.filter Message.stays).map (rewritten target) := by
  induction messages generalizing ids with
  | nil => rfl
  | cons m messages ih =>
    cases m with
    | assistant a =>
      have same : Message.stays (.assistant (transformAssistant target a)) =
        Message.stays (.assistant a) := rfl
      have later := ih (noteIds target ids a)
      rw [filter_cons]
      refine (filter_cons ..).trans ?_
      rw [same, later]
      split_ifs <;> rfl
    | toolResult r => exact ih ids
    | _ => exact congrArg _ (ih ids)

theorem inPlace_downgrade {history : List AssistantMessage} :
    InPlace target history calls seen (messages.map (downgrade target)) ↔
      InPlace target history calls seen messages := by
  induction messages generalizing history calls seen with
  | nil => rfl
  | cons m messages ih =>
    cases m with
    | toolResult r => exact and_congr Iff.rfl (and_congr Iff.rfl ih)
    | _ => exact ih

/-- **The transcript is right exactly when every result is in place.** -/
theorem transformMessages_delivers (now : JsNumber)
    (unique : ∀ a, .assistant a ∈ messages → a.callIds.Nodup)
    (injective : ∀ normalize ∈ target.normalizeToolCallId,
      ∀ a, Function.Injective fun id => normalize id a) :
    Delivers target now messages (transformMessages now messages target) ↔
      InPlace target [] [] [] messages := by
  have unchanged {a : AssistantMessage} (member : .assistant a ∈ messages.map (downgrade target)) :
      a.callIds.Nodup := by
    obtain ⟨m, is, same⟩ := mem_map.mp member
    cases m <;> cases same
    exact unique a is
  have pairs : Pairs [] [] (transformMessages now messages target) ↔
      InPlace target [] [] [] (messages.map (downgrade target)) :=
    pairs_secondPass (fun id => rfl) (fun a => unchanged) injective
      (.idle rfl rfl (List.Subset.refl _)) fun pending => absurd rfl pending
  have stays : (transformMessages now messages target).filter (fun m => !m.isToolResult) =
    [] ++ _ :=
    secondPass_stays now ⟨[], [], []⟩ (fun m member => by cases member) fun _ => rfl
  have results := secondPass_results now ⟨[], [], []⟩ (transformed target messages)
  rw [← inPlace_downgrade, ← pairs, ← paired_iff]
  refine ⟨Delivers.toPaired, fun paired => { paired with
    stays := stays.trans (firstPass_stays [] messages)
    originals := results.1
    madeUp := fun m member _ => (results.2 m member).imp_right (Or.resolve_left · not_mem_nil)
    succeeded := fun m member => ?_ }⟩
  cases result : m.isToolResult with
  | true =>
    cases m with
    | toolResult r => rfl
    | _ => cases result
  | false =>
    have is := (mem_filter (p := fun m => !m.isToolResult)).mpr ⟨member, by rw [result]; rfl⟩
    rw [stays] at is
    have both := (List.mem_filter.mp is).2
    rw [Message.stays, Bool.and_eq_true, Bool.not_eq_true', Bool.not_eq_true'] at both
    exact both.2

/-- An assistant message with one call. -/
def oneCall (stopReason : StopReason) : AssistantMessage :=
  ⟨[.toolCall ⟨text "1", text "bash", none, .null⟩], text "anthropic-messages", text "anthropic",
    text "claude", stopReason, .null⟩

/-- The result of its call. -/
def itsResult : Message := .toolResult ⟨text "1", text "bash", [], false, .ofNat 0, .null⟩

/-- A model of another provider. -/
def otherTarget (normalizeToolCallId : Option (Text → AssistantMessage → Text)) : Target :=
  ⟨⟨text "gpt", text "openai-responses", text "openai", [.text]⟩, normalizeToolCallId⟩

theorem transformMessages_delivers_one :
    let messages := [.assistant (oneCall .toolUse), itsResult]
    let target := otherTarget (some fun id _ => text "call_" ++ id)
    Delivers target (.ofNat 1) messages (transformMessages (.ofNat 1) messages target) := by
  refine (transformMessages_delivers _ (fun a member => ?_) fun normalize is a => ?_).mpr ?_
  · rcases mem_cons.mp member with same | member
    · cases same
      exact nodup_singleton _
    · cases List.mem_singleton.mp member
  · cases is
    exact append_right_injective _
  · exact ⟨by decide, by decide, trivial⟩

/-- **A result that a failed turn leaves behind.** -/
theorem left_behind :
    let messages := [.assistant (oneCall .aborted), itsResult]
    (∀ a, .assistant a ∈ messages → a.callIds.Nodup) ∧
      (∀ before r after, messages = before ++ .toolResult r :: after →
        ∃ a, .assistant a ∈ before ∧ r.toolCallId ∈ a.callIds) ∧
      (resultIds messages).Nodup ∧
      ¬Delivers (otherTarget none) (.ofNat 1) messages
        (transformMessages (.ofNat 1) messages (otherTarget none)) := by
  refine ⟨fun a member => ?_, fun before r after same => ?_, by decide, fun delivered => ?_⟩
  · rcases mem_cons.mp member with same | member
    · cases same
      exact nodup_singleton _
    · cases List.mem_singleton.mp member
  · rcases before with _ | ⟨first, _ | ⟨second, before⟩⟩
    · cases same
    · cases same
      exact ⟨_, mem_singleton_self _, mem_singleton_self _⟩
    · simp at same
  · exact not_mem_nil (delivered.answers [] _ [] rfl)

end TianGong.Ai.TransformMessages
