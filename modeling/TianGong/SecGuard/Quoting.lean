/-
**Quoted words are tokenized back.**

A word in single quotes, each quote in it written as a quoted quote (`quoted`), is one token again,
whatever units it has. So words joined by blanks, in segments joined by separators, are the tokens
of the text, and the first of each segment is at a command position (`tokenize_script`).
-/

import TianGong.SecGuard.Tokens

namespace TianGong.SecGuard

open List

/-! ### Words -/

/-- A unit between single quotes. -/
def quotedUnit (c : UInt16) : Text := if c = unit '\'' then text "'\\''" else [c]

/-- A word in single quotes. -/
def quoted (w : Text) : Text := unit '\'' :: (w.flatMap quotedUnit ++ [unit '\''])

example : quoted (text "it's") = text "'it'\\''s'" := by decide

/-- What ends a quoted word: a blank, a separator, or the end. -/
def Stops (t : Text) : Prop := ∀ c, t.head? = some c → (isSpace c || isSeparator c) = true

theorem stops_nil : Stops [] := by
  intro c found
  cases found

variable {more : Text} (position : Bool)

theorem word_stops (stops : Stops more) : word none more = ([], more) := by
  cases more with
  | nil => rfl
  | cons c rest =>
    have stop := stops c rfl
    have plain := plain_of_between (c := c) (by
      rcases Bool.or_eq_true _ _ ▸ stop with space | separator
      · exact .inr (.inl space)
      · exact .inl separator)
    exact word_ends plain.1 plain.2 (.inr (by rw [stop]; rfl))

/-- **Inside the quotes every unit is read as it is.** -/
theorem word_quotedUnits (w more : Text) :
    word (some (unit '\'')) (w.flatMap quotedUnit ++ unit '\'' :: more) =
      (w ++ (word none more).1, (word none more).2) := by
  induction w with
  | nil => exact word_close _ more
  | cons c w ih =>
    rw [flatMap_cons, append_assoc]
    by_cases quote : c = unit '\''
    · -- The quotes close, an escaped quote follows, and they open again.
      subst quote
      show word (some (unit '\'')) (unit '\'' :: unit '\\' :: unit '\'' :: unit '\'' ::
      (w.flatMap quotedUnit ++ unit '\'' :: more)) = _
      rw [word_close, word_escape, word_quote _ (by decide), ih]
      rfl
    · rw [quotedUnit, if_neg quote]
      show word (some (unit '\'')) (c :: (w.flatMap quotedUnit ++ unit '\'' :: more)) = _
      rw [word_inside _ quote (fun double => absurd double.1 (by decide)), ih]
      rfl

/-- **A quoted word is one token.** -/
theorem tokens_quoted (w : Text) (stops : Stops more) :
    tokens position (quoted w ++ more) = ⟨w, position⟩ :: tokens false more := by
  have read : word none (unit '\'' :: (w.flatMap quotedUnit ++ unit '\'' :: more)) = (w, more) := by
    rw [word_quote _ (by decide), word_quotedUnits, word_stops stops, append_nil]
  have starts : quoted w ++ more = unit '\'' :: (w.flatMap quotedUnit ++ unit '\'' :: more) := by
    simp [quoted]
  have taken : turn position (unit '\'') (w.flatMap quotedUnit ++ unit '\'' :: more) =
      ([⟨w, position⟩], false, more) := by
    unfold turn
    rw [if_neg (by decide), if_neg (by decide), if_neg (fun opens => absurd opens.1 (by decide)),
      if_neg (by decide), if_neg (by decide), read]
  rw [starts, tokens_cons, taken]
  rfl

/-! ### Segments -/

/-- Words with a blank between them. -/
def joinWords : List Text → Text
  | [] => []
  | [w] => quoted w
  | w :: next :: words => quoted w ++ 32 :: joinWords (next :: words)

/-- The tokens of a segment. -/
def segmentTokens : List Text → List TgSecToken
  | [] => []
  | w :: words => ⟨w, true⟩ :: words.map (⟨·, false⟩)

theorem tokens_joinWords (w : Text) (words : List Text) (stops : Stops more) :
    tokens position (joinWords (w :: words) ++ more) =
      ⟨w, position⟩ :: words.map (⟨·, false⟩) ++ tokens false more := by
  induction words generalizing position w with
  | nil => exact tokens_quoted position w stops
  | cons next words ih =>
    have blank : Stops (32 :: (joinWords (next :: words) ++ more)) := by
      intro c found
      cases found
      decide
    rw [joinWords, append_assoc, cons_append, tokens_quoted position w blank, tokens_cons]
    show _ :: tokens false (joinWords (next :: words) ++ more) = _
    rw [ih]
    rfl

/-! ### Scripts -/

/-- What joins two segments. -/
inductive Joint where
  | semicolon | and | or | pipe | background | newline

def Joint.text : Joint → Text
  | .semicolon => TianGong.text ";"
  | .and => TianGong.text "&&"
  | .or => TianGong.text "||"
  | .pipe => TianGong.text "|"
  | .background => TianGong.text "&"
  | .newline => TianGong.text "\n"

/-- Segments, each but the first with what joins it to the one before. -/
def joinSegments : List (Joint × List Text) → Text
  | [] => []
  | (_, words) :: rest => joinWords words ++ rest.flatMap fun segment =>
      segment.1.text ++ joinWords segment.2

theorem stops_joint (joint : Joint) (t : Text) : Stops (joint.text ++ t) := by
  intro c found
  cases joint <;> cases found <;> decide

/-- What joins two segments makes no token, and a command position. -/
theorem tokens_joint (joint : Joint) (position : Bool) (w : Text) (words : List Text) (more : Text) :
    tokens position (joint.text ++ (joinWords (w :: words) ++ more)) =
      tokens true (joinWords (w :: words) ++ more) := by
  obtain ⟨rest, starts⟩ : ∃ rest, joinWords (w :: words) ++ more = unit '\'' :: rest := by
    cases words with
    | nil => exact ⟨_, rfl⟩
    | cons next words => exact ⟨_, rfl⟩
  rw [starts]
  cases joint with
  | semicolon => exact tokens_cons position (unit ';') _
  | and | background => exact tokens_cons position (unit '&') _
  | or | pipe => exact tokens_cons position (unit '|') _
  | newline => exact tokens_cons position 10 _

theorem stops_flatMap (rest : List (Joint × List Text)) :
    Stops (rest.flatMap fun segment => segment.1.text ++ joinWords segment.2) := by
  cases rest with
  | nil => exact stops_nil
  | cons segment rest =>
    rw [flatMap_cons, append_assoc]
    exact stops_joint segment.1 _

/-- The tokens of the segments after the first. -/
theorem tokens_segments {rest : List (Joint × List Text)}
    (words : ∀ segment ∈ rest, segment.2 ≠ []) :
    tokens position (rest.flatMap fun segment => segment.1.text ++ joinWords segment.2) =
      rest.flatMap fun segment => segmentTokens segment.2 := by
  induction rest generalizing position with
  | nil => exact tokens_nil position
  | cons segment rest ih =>
    have later := ih false fun other inside => words other (mem_cons_of_mem _ inside)
    obtain ⟨joint, list⟩ := segment
    cases list with
    | nil => exact absurd rfl (words _ mem_cons_self)
    | cons w list =>
      rw [flatMap_cons, append_assoc, tokens_joint,
        tokens_joinWords true w list (stops_flatMap rest), later]
      rfl

/-- **Quoted words are tokenized back**: the tokens of segments of quoted words are those words, in
order, and the first word of each segment is at a command position, and no other. -/
theorem tokenize_script {script : List (Joint × List Text)}
    (words : ∀ segment ∈ script, segment.2 ≠ []) :
    tokenize (joinSegments script) = script.flatMap fun segment => segmentTokens segment.2 := by
  cases script with
  | nil => rfl
  | cons segment rest =>
    obtain ⟨joint, list⟩ := segment
    cases list with
    | nil => exact absurd rfl (words _ mem_cons_self)
    | cons w list =>
      rw [joinSegments, tokenize_eq, tokens_joinWords true w list (stops_flatMap rest),
        tokens_segments false fun other inside => words other (mem_cons_of_mem _ inside)]
      rfl

theorem tokenize_script_two : tokenize (joinSegments
    [(.semicolon, [text "a'b", []]), (.and, [text "$(c)"])]) =
      [⟨text "a'b", true⟩, ⟨[], false⟩, ⟨text "$(c)", true⟩] :=
  tokenize_script (by
    simp only [mem_cons, not_mem_nil, or_false, forall_eq_or_imp, forall_eq]
    exact ⟨cons_ne_nil _ _, cons_ne_nil _ _⟩)

end TianGong.SecGuard
