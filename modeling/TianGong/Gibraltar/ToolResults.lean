/-
**Tool results follow their calls.**

What `orderToolResults` of `context.ts` does to a list of messages:

* `orderToolResults_again_iff`: ordering twice is ordering once, unless one message has calls of one
  identifier and several names, and no result.
* `orderToolResults_split`: the order of a sequence is that of its parts, where the second has no
  result of a call that is open in the first.
-/

import TianGong.Gibraltar.ContextFrom

namespace TianGong.Gibraltar

open List

namespace Sent

def isToolResult (m : Sent) : Bool :=
  match m.message with
  | .toolResult _ _ _ _ _ _ => true
  | _ => false

end Sent

/-- The messages up to the next assistant message. -/
def untilAssistant (later : List Sent) : List Sent := later.takeWhile fun m => !m.isAssistant

/-- No message up to the next assistant message is a result of the call. -/
def Unanswered (later : List Sent) (call : ToolCall) : Prop :=
  ∀ m ∈ untilAssistant later, answers call m = false

/-- **What a call is answered with**: the first of its results before the next assistant message, or
one that is made up. -/
inductive ResultFor (timestamp : JsNumber) (later : List Sent) (call : ToolCall) : Sent → Prop
  | found (before : List Sent) (result : Sent) (after : List Sent)
      (there : later = before ++ result :: after)
      (first : ∀ m ∈ before, m.isAssistant = false ∧ answers call m = false)
      (answered : answers call result = true) : ResultFor timestamp later call result
  | missing (none : Unanswered later call) :
      ResultFor timestamp later call (missingResult call timestamp)

/-- Calls of one message that share an identifier share a name too, unless a result answers them. -/
def NamedOnce (messages : List Sent) : Prop :=
  ∀ m later, m :: later <:+ messages → ∀ content stopReason timestamp,
    m.message = .assistant content stopReason timestamp →
    ∀ c ∈ toolCalls content, ∀ d ∈ toolCalls content, c.id = d.id → Unanswered later c →
      c.name = d.name

/-! ### The result of a call -/

variable {m : Sent}

section Result

variable {timestamp : JsNumber} {later : List Sent} {call : ToolCall}

theorem resultOf_cases (timestamp : JsNumber) (later : List Sent) (call : ToolCall) :
    (∃ m, (untilAssistant later).find? (answers call) = some m ∧
      resultOf timestamp later call = m) ∨
    Unanswered later call ∧ resultOf timestamp later call = missingResult call timestamp := by
  unfold resultOf
  rcases found : (later.takeWhile fun m => !m.isAssistant).find? (answers call) with _ | m
  · refine .inr ⟨fun m member => by simpa using List.find?_eq_none.mp found m member, ?_⟩
    rw [found, Option.getD_none]
  · exact .inl ⟨m, found, by rw [found, Option.getD_some]⟩

/-- **A call is answered** with its first result, or with one that is made up. -/
theorem resultFor_resultOf : ResultFor timestamp later call (resultOf timestamp later call) := by
  rcases resultOf_cases timestamp later call with ⟨m, found, result⟩ | ⟨none, result⟩
  · rw [result]
    obtain ⟨answered, before, after, split, first⟩ := List.find?_eq_some_iff_append.mp found
    refine .found before m (after ++ later.dropWhile fun m => !m.isAssistant) ?_ ?_ answered
    · calc later = untilAssistant later ++ later.dropWhile (fun m => !m.isAssistant) :=
            List.takeWhile_append_dropWhile.symm
        _ = _ := by rw [split, append_assoc, cons_append]
    · intro other member
      have inside : other ∈ untilAssistant later := split ▸ mem_append_left _ member
      exact ⟨by simpa using mem_takeWhile_imp inside, by simpa using first other member⟩
  · rw [result]
    exact .missing none

/-- A result answers the calls of its identifier. -/
theorem answers_of_answers (answered : answers call m = true) (other : ToolCall) :
    answers other m = (call.id == other.id) := by
  unfold answers at answered ⊢
  split at answered
  · rw [beq_iff_eq.mp answered]
  · cases answered

/-- Whose result the result of a call is. -/
theorem answers_resultOf (other : ToolCall) :
    answers other (resultOf timestamp later call) = (call.id == other.id) := by
  rcases resultOf_cases timestamp later call with ⟨m, found, result⟩ | ⟨none, result⟩
  · rw [result]
    exact answers_of_answers (List.find?_some found) other
  · rw [result]
    rfl

theorem isToolResult_of_answers (answered : answers call m = true) : m.isToolResult = true := by
  unfold answers at answered
  split at answered
  · rename_i same
    unfold Sent.isToolResult
    rw [same]
  · cases answered

theorem resultOf_isToolResult : (resultOf timestamp later call).isToolResult = true :=
  isToolResult_of_answers ((answers_resultOf call).trans (beq_self_eq_true _))

theorem not_isAssistant_of_isToolResult (result : m.isToolResult = true) :
    m.isAssistant = false := by
  unfold Sent.isToolResult at result
  split at result
  · rename_i same
    unfold Sent.isAssistant
    rw [same]
    rfl
  · cases result

theorem answers_congr {other : ToolCall} (same : other.id = call.id) :
    answers other = answers call := by
  unfold answers
  rw [same]

/-- Two calls of one identifier have one result where there is one, or one where they share a name. -/
theorem resultOf_eq_iff {other : ToolCall} (same : other.id = call.id) :
    resultOf timestamp later other = resultOf timestamp later call ↔
      (Unanswered later call → other.name = call.name) := by
  have alike := answers_congr same
  rcases resultOf_cases timestamp later call with ⟨m, found, result⟩ | ⟨none, result⟩
  · have shared : resultOf timestamp later other = resultOf timestamp later call := by
      rw [result]
      unfold resultOf
      rw [alike]
      exact congrArg (fun found => found.getD (missingResult other timestamp)) found
    refine iff_of_true shared fun none => ?_
    have answered := none m (List.mem_of_find?_eq_some found)
    rw [List.find?_some found] at answered
    cases answered
  · have missing : resultOf timestamp later other = missingResult other timestamp := by
      unfold resultOf
      rw [alike, List.find?_eq_none.mpr fun m member => by simpa using none m member]
      rfl
    rw [result, missing, missingResult, missingResult, same]
    simp [none]

end Result

/-! ### The ordered messages -/

/-- The results of an assistant message's calls. -/
def resultsOf (content : List Content) (timestamp : JsNumber) (later : List Sent) : List Sent :=
  (toolCalls content).map (resultOf timestamp later)

theorem orderToolResults_result (result : m.isToolResult = true) (later : List Sent) :
    orderToolResults (m :: later) = orderToolResults later := by
  unfold Sent.isToolResult at result
  rw [orderToolResults]
  split at result
  · rename_i same
    rw [same]
  · cases result

variable {content : List Content} {timestamp : JsNumber} {stopReason : StopReason}

theorem orderToolResults_assistant (same : m.message = .assistant content stopReason timestamp)
    (later : List Sent) :
    orderToolResults (m :: later) =
      m :: resultsOf content timestamp later ++ orderToolResults later := by
  rw [orderToolResults, same]
  rfl

theorem orderToolResults_other (result : m.isToolResult = false)
    (assistant : m.isAssistant = false) (later : List Sent) :
    orderToolResults (m :: later) = m :: orderToolResults later := by
  obtain ⟨slot, message⟩ := m
  cases message with
  | system content => rfl
  | user content => rfl
  | assistant content stopReason timestamp => cases assistant
  | toolResult id name content isError details timestamp => cases result

/-- What a message is, as far as the order of results goes. -/
theorem Sent.cases_order (m : Sent) : m.isToolResult = true ∨
    (∃ content stopReason timestamp, m.message = .assistant content stopReason timestamp) ∨
    m.isToolResult = false ∧ m.isAssistant = false := by
  obtain ⟨slot, message⟩ := m
  cases message with
  | system content | user content => exact .inr (.inr ⟨rfl, rfl⟩)
  | assistant content stopReason timestamp => exact .inr (.inl ⟨_, _, _, rfl⟩)
  | toolResult id name content isError details timestamp => exact .inl rfl

theorem isToolResult_of_assistant (same : m.message = .assistant content stopReason timestamp) :
    m.isToolResult = false := by
  unfold Sent.isToolResult
  rw [same]

theorem mem_resultsOf {later : List Sent} (member : m ∈ resultsOf content timestamp later) :
    m.isToolResult = true := by
  obtain ⟨call, -, rfl⟩ := List.mem_map.mp member
  exact resultOf_isToolResult

/-- **What is no result stays**, in its order. -/
theorem orderToolResults_filter (messages : List Sent) :
    (orderToolResults messages).filter (fun m => !m.isToolResult) =
      messages.filter fun m => !m.isToolResult := by
  induction messages with
  | nil => rfl
  | cons m later ih =>
    rcases m.cases_order with result | ⟨content, stopReason, timestamp, same⟩ | ⟨result, assistant⟩
    · rw [orderToolResults_result result, ih, filter_cons_of_neg (by simp [result])]
    · have none : (resultsOf content timestamp later).filter (fun m => !m.isToolResult) = [] :=
        List.filter_eq_nil_iff.mpr fun r member => by simp [mem_resultsOf member]
      have stays : ∀ rest : List Sent, (m :: rest).filter (fun m => !m.isToolResult) =
          m :: rest.filter fun m => !m.isToolResult := fun rest =>
        filter_cons_of_pos (by rw [isToolResult_of_assistant same]; rfl)
      rw [orderToolResults_assistant same, filter_append, stays, none, ih, stays,
        cons_append, nil_append]
    · rw [orderToolResults_other result assistant, filter_cons_of_pos (by simp [result]), ih,
        filter_cons_of_pos (by simp [result])]

/-- **Behind an assistant message stand the results of its calls**, and then what follows. -/
theorem orderToolResults_at (before : List Sent)
    (same : m.message = .assistant content stopReason timestamp) (later : List Sent) :
    orderToolResults (before ++ m :: later) =
      orderToolResults before ++ m :: (resultsOf content timestamp later ++
        orderToolResults later) := by
  have opens : Opens (m :: later) := by
    intro first found
    obtain rfl := Option.some.inj found
    unfold Sent.isAssistant
    rw [same]
    rfl
  rw [orderToolResults_append before opens, orderToolResults_assistant same, cons_append]

/-- Without an assistant message there are no results. -/
theorem orderToolResults_of_none {messages : List Sent}
    (none : ∀ m ∈ messages, m.isAssistant = false) :
    orderToolResults messages = messages.filter fun m => !m.isToolResult := by
  rw [← orderToolResults_filter, List.filter_eq_self.mpr]
  induction messages with
  | nil => exact fun m member => absurd member not_mem_nil
  | cons first later ih =>
    have rest := ih fun m member => none m (mem_cons_of_mem _ member)
    rcases first.cases_order with result | ⟨content, stopReason, timestamp, same⟩ | ⟨result, plain⟩
    · rw [orderToolResults_result result]
      exact rest
    · have assistant := none first mem_cons_self
      unfold Sent.isAssistant at assistant
      rw [same] at assistant
      cases assistant
    · rw [orderToolResults_other result plain]
      intro m member
      rcases List.mem_cons.mp member with rfl | later
      · simp [result]
      · exact rest m later

/-! ### Ordering twice -/

/-- Results that nothing asks for are dropped. -/
theorem orderToolResults_results_append {results : List Sent}
    (all : ∀ m ∈ results, m.isToolResult = true) (later : List Sent) :
    orderToolResults (results ++ later) = orderToolResults later := by
  induction results with
  | nil => rfl
  | cons m rest ih =>
    rw [cons_append, orderToolResults_result (all m mem_cons_self)]
    exact ih fun other member => all other (mem_cons_of_mem _ member)

/-- What a call is answered with behind the results of its message: the result of the first call of
its identifier. -/
theorem resultOf_again (timestamp : JsNumber) (later more : List Sent) {call : ToolCall}
    (member : call ∈ toolCalls content) :
    ∃ first, (toolCalls content).find? (fun other => other.id == call.id) = some first ∧
      resultOf timestamp (resultsOf content timestamp later ++ more) call =
        resultOf timestamp later first := by
  obtain ⟨first, found⟩ : ∃ first,
      (toolCalls content).find? (fun other => other.id == call.id) = some first :=
    Option.isSome_iff_exists.mp (List.find?_isSome.mpr ⟨call, member, by simp⟩)
  refine ⟨first, found, ?_⟩
  have answered : (resultsOf content timestamp later).find? (answers call) =
      some (resultOf timestamp later first) := by
    rw [resultsOf, List.find?_map]
    have sameId : (answers call ∘ resultOf timestamp later) = fun other => other.id == call.id := by
      funext other
      exact answers_resultOf call
    rw [sameId, found]
    rfl
  unfold resultOf
  rw [takeWhile_append_of_pos fun m inside => by
    rw [not_isAssistant_of_isToolResult (mem_resultsOf inside)]
    rfl, List.find?_append, answered]
  rfl

/-- The results of a message are answered by themselves where calls of one identifier share a name. -/
theorem resultsOf_again_iff (content : List Content) (timestamp : JsNumber)
    (later more : List Sent) :
    resultsOf content timestamp (resultsOf content timestamp later ++ more) =
        resultsOf content timestamp later ↔
      ∀ c ∈ toolCalls content, ∀ d ∈ toolCalls content, c.id = d.id → Unanswered later c →
        c.name = d.name := by
  have pointwise : resultsOf content timestamp (resultsOf content timestamp later ++ more) =
      resultsOf content timestamp later ↔ ∀ call ∈ toolCalls content,
        resultOf timestamp (resultsOf content timestamp later ++ more) call =
          resultOf timestamp later call := map_inj_left
  rw [pointwise]
  constructor
  · intro again
    -- Both calls have the name of the first call of their identifier.
    have named : ∀ call ∈ toolCalls content, Unanswered later call → ∃ first,
        (toolCalls content).find? (fun other => other.id == call.id) = some first ∧
          first.name = call.name := by
      intro call member none
      obtain ⟨first, found, result⟩ := resultOf_again timestamp later more member
      have id : first.id = call.id := by simpa using List.find?_some found
      exact ⟨first, found, (resultOf_eq_iff id).mp (result.symm.trans (again call member)) none⟩
    intro c here d there same none
    obtain ⟨first, found, name⟩ := named c here none
    obtain ⟨other, also, name'⟩ := named d there (by
      unfold Unanswered
      rw [answers_congr same.symm]
      exact none)
    rw [same, also] at found
    obtain rfl := Option.some.inj found
    exact name.symm.trans name'
  · intro named call member
    obtain ⟨first, found, result⟩ := resultOf_again timestamp later more member
    have id : first.id = call.id := by simpa using List.find?_some found
    rw [result, resultOf_eq_iff id]
    exact fun none => (named call member first (List.mem_of_find?_eq_some found) id.symm none).symm

theorem namedOnce_cons (m : Sent) (later : List Sent) :
    NamedOnce (m :: later) ↔ (∀ content stopReason timestamp,
      m.message = .assistant content stopReason timestamp →
      ∀ c ∈ toolCalls content, ∀ d ∈ toolCalls content, c.id = d.id → Unanswered later c →
        c.name = d.name) ∧ NamedOnce later := by
  constructor
  · intro once
    exact ⟨once m later suffix_rfl, fun other rest suffix =>
      once other rest (suffix.trans (suffix_cons _ _))⟩
  · rintro ⟨here, rest⟩ other more suffix
    rcases List.suffix_cons_iff.mp suffix with whole | inside
    · obtain ⟨rfl, rfl⟩ := List.cons_eq_cons.mp whole
      exact here
    · exact rest other more inside

/-- **Ordering twice is ordering once**, exactly when calls of one message that share an identifier
and have no result share a name. -/
theorem orderToolResults_again_iff (messages : List Sent) :
    orderToolResults (orderToolResults messages) = orderToolResults messages ↔
      NamedOnce messages := by
  induction messages with
  | nil =>
    refine iff_of_true rfl fun m later suffix => ?_
    exact absurd (List.suffix_nil.mp suffix) (cons_ne_nil _ _)
  | cons m later ih =>
    rw [namedOnce_cons, ← ih]
    rcases m.cases_order with result | ⟨content, stopReason, timestamp, same⟩ | ⟨result, plain⟩
    · rw [orderToolResults_result result, iff_and_self]
      intro _ content stopReason timestamp same
      rw [isToolResult_of_assistant same] at result
      cases result
    · rw [orderToolResults_assistant same, cons_append, orderToolResults_assistant same,
        orderToolResults_results_append fun r member => mem_resultsOf member, cons_append,
        cons_inj_right]
      constructor
      · intro again
        obtain ⟨results, rest⟩ := append_inj again (by simp [resultsOf])
        refine ⟨fun content' stopReason' timestamp' same' => ?_, rest⟩
        obtain ⟨rfl, -, rfl⟩ := Message.assistant.inj (same.symm.trans same')
        exact (resultsOf_again_iff content timestamp later _).mp results
      · rintro ⟨named, rest⟩
        rw [rest, (resultsOf_again_iff content timestamp later _).mpr
          (named content stopReason timestamp same)]
    · rw [orderToolResults_other result plain, orderToolResults_other result plain,
        cons_inj_right, iff_and_self]
      intro _ content stopReason timestamp same
      unfold Sent.isAssistant at plain
      rw [same] at plain
      cases plain

/-! ### Parts of a sequence -/

/-- No call that is open behind `first` has a result in `more`. -/
def Apart (first more : List Sent) : Prop :=
  ∀ before m later content stopReason timestamp, first = before ++ m :: later →
    m.message = .assistant content stopReason timestamp → (∀ r ∈ later, r.isAssistant = false) →
    ∀ call ∈ toolCalls content, Unanswered more call

theorem Apart.tail {first more : List Sent} (apart : Apart (m :: first) more) :
    Apart first more := by
  rintro before other later content stopReason timestamp rfl
  exact apart (m :: before) other later content stopReason timestamp rfl

/-- **A sequence is ordered in parts** that no call and its result are in. -/
theorem orderToolResults_split {first more : List Sent} (apart : Apart first more) :
    orderToolResults (first ++ more) = orderToolResults first ++ orderToolResults more := by
  induction first with
  | nil => rfl
  | cons m first ih =>
    have rest := ih apart.tail
    rw [cons_append]
    rcases m.cases_order with result | ⟨content, stopReason, timestamp, same⟩ | ⟨result, plain⟩
    · rw [orderToolResults_result result, orderToolResults_result result, rest]
    · have results : resultsOf content timestamp (first ++ more) =
          resultsOf content timestamp first := by
        refine map_congr_left fun call member => ?_
        unfold resultOf
        by_cases plain : ∀ r ∈ first, r.isAssistant = false
        · have open_ := apart [] m first content stopReason timestamp rfl same plain call member
          have none : (more.takeWhile fun r => !r.isAssistant).find? (answers call) = none :=
            List.find?_eq_none.mpr fun r inside => by simpa using open_ r inside
          have whole : ∀ r ∈ first, (!r.isAssistant) = true := fun r inside => by simp
            [plain r inside]
          rw [takeWhile_append_of_pos whole, List.find?_append, none, Option.or_none,
            List.takeWhile_eq_self_iff.mpr whole]
        · have stops : (first ++ more).takeWhile (fun r => !r.isAssistant) =
              first.takeWhile fun r => !r.isAssistant := by
            rw [takeWhile_append, if_neg]
            intro whole
            refine plain fun r inside => ?_
            have all := List.takeWhile_eq_self_iff.mp
              (List.IsPrefix.eq_of_length (List.takeWhile_prefix _) whole)
            simpa using all r inside
          rw [stops]
      rw [orderToolResults_assistant same, orderToolResults_assistant same, results, rest,
        append_assoc, cons_append]
    · rw [orderToolResults_other result plain, orderToolResults_other result plain, rest,
        cons_append]

/-! ### The whole order -/

/-- **Tool results follow their calls.** What is no result stays in its order; behind each assistant
message stands exactly one result for each of its calls, in their order; there is no other result;
ordering twice is ordering once where calls of one identifier share a name; and the order of a
  sequence
is that of its parts, where the second is empty or starts with an assistant message. -/
theorem orderToolResults_spec (messages : List Sent) :
    (orderToolResults messages).filter (fun m => !m.isToolResult) =
        messages.filter (fun m => !m.isToolResult) ∧
    (∀ before m later content stopReason timestamp, messages = before ++ m :: later →
      m.message = .assistant content stopReason timestamp → ∃ results,
        List.Forall₂ (ResultFor timestamp later) (toolCalls content) results ∧
        orderToolResults messages =
          orderToolResults before ++ m :: (results ++ orderToolResults later)) ∧
    ((∀ m ∈ messages, m.isAssistant = false) →
      ∀ m ∈ orderToolResults messages, m.isToolResult = false) ∧
    (orderToolResults (orderToolResults messages) = orderToolResults messages ↔
      NamedOnce messages) ∧
    ∀ more, (∀ m, more.head? = some m → m.isAssistant = true) →
      orderToolResults (messages ++ more) = orderToolResults messages ++ orderToolResults more := by
  refine ⟨orderToolResults_filter messages, ?_, ?_, orderToolResults_again_iff messages,
    fun more opens => orderToolResults_append messages opens⟩
  · rintro before m later content stopReason timestamp rfl same
    refine ⟨resultsOf content timestamp later, ?_, orderToolResults_at before same later⟩
    refine List.forall₂_map_right_iff.mpr (List.forall₂_same.mpr fun call _ => ?_)
    exact resultFor_resultOf
  · intro none m member
    rw [orderToolResults_of_none none] at member
    simpa using (List.mem_filter.mp member).2

/-- One message with two calls of one identifier and two names, and no result. -/
def twoNames : List Sent :=
  [⟨none, .assistant [.toolCall ⟨text "call", text "first"⟩, .toolCall ⟨text "call", text "second"⟩]
    .toolUse (.ofNat 0)⟩]

/-- The names of the tools of results. -/
def resultNames (messages : List Sent) : List Text :=
  messages.filterMap fun m =>
    match m.message with
    | .toolResult _ name _ _ _ _ => some name
    | _ => none

/-- The second result is made up for the second call, and at the second time for the first. -/
theorem orderToolResults_twice :
    orderToolResults (orderToolResults twoNames) ≠ orderToolResults twoNames := by
  intro again
  have names := congrArg resultNames again
  revert names
  decide

end TianGong.Gibraltar
