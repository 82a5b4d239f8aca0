/-
**The tokenizer on a text put together from parts.**

`endsOutside` says that a text ends outside quotes and not in a dangling backslash. Such a text,
followed by something that ends a word, gives its own tokens and then those of what follows
(`tokens_append`): nothing of it can reach over the end of the word.
-/

import TianGong.SecGuard.CommandText

namespace TianGong.SecGuard

open List

/-- The text ends outside quotes and not in a dangling backslash, read from inside a quote or from
outside of any. -/
def endsOutside : Option UInt16 → Text → Bool
  | none, [] => true
  | none, c :: rest =>
    if isQuote c then endsOutside (some c) rest
    else if c = unit '\\' then
      match rest with
      | [] => false
      | _ :: rest' => endsOutside none rest'
    else endsOutside none rest
  | some _, [] => false
  | some quote, c :: rest =>
    if c = quote then endsOutside none rest
    else if quote = unit '"' ∧ c = unit '\\' then
      match rest with
      | [] => false
      | _ :: rest' => endsOutside (some quote) rest'
    else endsOutside (some quote) rest

/-- A unit that ends a word, and that the tokenizer does not read together with the unit before it. -/
def closesWord (c : UInt16) : Bool := isSpace c || c == unit ';' || c == unit ')'

/-- The text is empty or starts with a unit that ends a word. -/
def Closing (t : Text) : Prop := ∀ c, t.head? = some c → closesWord c = true

theorem closesWord_ends {c : UInt16} (closes : closesWord c = true) :
    (isSpace c || isSeparator c || c == unit ')') = true := by
  simp only [closesWord, isSeparator, Bool.or_eq_true, beq_iff_eq] at closes ⊢
  tauto

/-- A unit that ends a word opens no quote, escapes nothing and starts no substitution. -/
theorem closesWord_plain {c : UInt16} (closes : closesWord c = true) :
    isQuote c = false ∧ c ≠ unit '\\' ∧ c ≠ unit '(' ∧ c ≠ unit '$' ∧ c ≠ unit '|' ∧
      c ≠ unit '&' := by
  have outside : ∀ d ∈ ['\'', '"', '\\', '(', '$', '|', '&'], closesWord (unit d) = false := by
    simp only [List.mem_cons, List.not_mem_nil, or_false, forall_eq_or_imp, forall_eq]
    decide
  have different : ∀ d ∈ ['\'', '"', '\\', '(', '$', '|', '&'], c ≠ unit d := by
    intro d member same
    subst same
    rw [outside d member] at closes
    cases closes
  simp only [isQuote, Bool.or_eq_false_iff, beq_eq_false_iff_ne]
  simpa [and_assoc] using different

/-! ### Words -/

/-! `endsOutside`, unit by unit. -/

theorem endsOutside_quote {c : UInt16} (rest : Text) (quote : isQuote c = true) :
    endsOutside none (c :: rest) = endsOutside (some c) rest := by
  rw [endsOutside.eq_def]
  dsimp only
  rw [if_pos quote]

theorem endsOutside_plain {c : UInt16} (rest : Text) (quote : ¬isQuote c = true)
    (escape : c ≠ unit '\\') : endsOutside none (c :: rest) = endsOutside none rest := by
  rw [endsOutside.eq_def]
  dsimp only
  rw [if_neg quote, if_neg escape]

theorem endsOutside_inside {quote c : UInt16} (rest : Text) (close : c ≠ quote)
    (escape : ¬(quote = unit '"' ∧ c = unit '\\')) :
    endsOutside (some quote) (c :: rest) = endsOutside (some quote) rest := by
  rw [endsOutside.eq_def]
  dsimp only
  rw [if_neg close, if_neg escape]

theorem endsOutside_close (quote : UInt16) (rest : Text) :
    endsOutside (some quote) (quote :: rest) = endsOutside none rest := by
  rw [endsOutside.eq_def]
  dsimp only
  rw [if_pos rfl]

theorem endsOutside_word {quote : Option UInt16} {t : Text} (outside : endsOutside quote t = true) :
    endsOutside none (word quote t).2 = true := by
  fun_induction word quote t with
  | case1 => rfl
  | case2 c rest quote ih => exact ih (endsOutside_quote rest quote ▸ outside)
  | case3 => exact absurd outside (by decide)
  | case4 x rest _ ih => exact ih outside
  | case5 => exact outside
  | case6 => exact outside
  | case7 c rest quote escape _ _ ih => exact ih (endsOutside_plain rest quote escape ▸ outside)
  | case8 => cases outside
  | case9 quote rest ih => exact ih (endsOutside_close quote rest ▸ outside)
  | case10 quote c close escape =>
    obtain ⟨rfl, rfl⟩ := escape
    exact absurd outside (by decide)
  | case11 quote c close escape x rest ih =>
    obtain ⟨rfl, rfl⟩ := escape
    exact ih outside
  | case12 quote c rest close escape ih =>
    exact ih (endsOutside_inside rest close escape ▸ outside)

/-! `word`, unit by unit. -/

theorem word_quote {c : UInt16} (rest : Text) (quote : isQuote c = true) :
    word none (c :: rest) = word (some c) rest := by
  rw [word.eq_def]
  dsimp only
  rw [if_pos quote]

theorem word_escape (x : UInt16) (rest : Text) :
    word none (unit '\\' :: x :: rest) = (x :: (word none rest).1, (word none rest).2) := by
  rw [word.eq_def]
  dsimp only
  rw [if_neg (by decide), if_pos rfl]

/-- A unit a word ends at: one that closes it, or the start of a substitution. -/
def endsWord (c : UInt16) (rest : Text) : Prop :=
  c = unit '$' ∧ rest.head? = some (unit '(') ∨ (isSpace c || isSeparator c || c == unit ')') = true

theorem word_ends {c : UInt16} {rest : Text} (quote : ¬isQuote c = true) (escape : c ≠ unit '\\')
    (ends : endsWord c rest) : word none (c :: rest) = ([], c :: rest) := by
  rw [word.eq_def]
  dsimp only
  rw [if_neg quote, if_neg escape]
  rcases ends with opens | breaks
  · rw [if_pos opens]
  · rw [if_pos breaks, ite_self]

theorem word_unit {c : UInt16} {rest : Text} (quote : ¬isQuote c = true) (escape : c ≠ unit '\\')
    (ends : ¬endsWord c rest) :
    word none (c :: rest) = (c :: (word none rest).1, (word none rest).2) := by
  rw [word.eq_def]
  dsimp only
  rw [if_neg quote, if_neg escape, if_neg fun opens => ends (.inl opens),
    if_neg fun breaks => ends (.inr breaks)]

theorem word_close (quote : UInt16) (rest : Text) :
    word (some quote) (quote :: rest) = word none rest := by
  rw [word.eq_def]
  dsimp only
  rw [if_pos rfl]

theorem word_escape_inside (x : UInt16) (rest : Text) :
    word (some (unit '"')) (unit '\\' :: x :: rest) =
      (x :: (word (some (unit '"')) rest).1, (word (some (unit '"')) rest).2) := by
  rw [word.eq_def]
  dsimp only
  rw [if_neg (by decide), if_pos ⟨rfl, rfl⟩]

theorem word_inside {quote c : UInt16} (rest : Text) (close : c ≠ quote)
    (escape : ¬(quote = unit '"' ∧ c = unit '\\')) :
    word (some quote) (c :: rest) = (c :: (word (some quote) rest).1, (word (some quote) rest).2) := by
  rw [word.eq_def]
  dsimp only
  rw [if_neg close, if_neg escape]

/-- Whether a word ends at a unit does not depend on what follows a text with that unit. -/
theorem endsWord_append {c : UInt16} {rest more : Text} (closing : Closing more) :
    endsWord c (rest ++ more) ↔ endsWord c rest := by
  unfold endsWord
  refine or_congr (and_congr_right fun _ => ?_) Iff.rfl
  cases rest with
  | cons d rest => rfl
  | nil =>
    constructor
    · intro opens
      exact absurd rfl (closesWord_plain (closing _ opens)).2.2.1
    · intro opens
      cases opens

theorem word_closing {more : Text} (closing : Closing more) : word none more = ([], more) := by
  cases more with
  | nil => rfl
  | cons c rest =>
    have closes := closing c rfl
    have plain := closesWord_plain closes
    exact word_ends (by rw [plain.1]; decide) plain.2.1 (.inr (closesWord_ends closes))

/-- **What follows a text that ends outside quotes is not read with its first word.** -/
theorem word_append {quote : Option UInt16} {t more : Text}
    (outside : endsOutside quote t = true) (closing : Closing more) :
    word quote (t ++ more) = ((word quote t).1, (word quote t).2 ++ more) := by
  fun_induction word quote t with
  | case1 => exact word_closing closing
  | case2 c rest quote ih =>
    rw [cons_append, word_quote _ quote, ih (endsOutside_quote rest quote ▸ outside)]
  | case3 => exact absurd outside (by decide)
  | case4 x rest _ ih =>
    rw [cons_append, cons_append, word_escape, ih outside]
  | case5 c rest quote escape opens =>
    exact word_ends quote escape ((endsWord_append closing).mpr (.inl opens))
  | case6 c rest quote escape _ breaks =>
    exact word_ends quote escape ((endsWord_append closing).mpr (.inr breaks))
  | case7 c rest quote escape opens breaks ih =>
    have goes : ¬endsWord c (rest ++ more) := by
      rw [endsWord_append closing]
      exact fun ends => ends.elim opens breaks
    rw [cons_append, word_unit quote escape goes,
      ih (endsOutside_plain rest quote escape ▸ outside)]
  | case8 => cases outside
  | case9 quote rest ih =>
    rw [cons_append, word_close, ih (endsOutside_close quote rest ▸ outside)]
  | case10 quote c close escape =>
    obtain ⟨rfl, rfl⟩ := escape
    exact absurd outside (by decide)
  | case11 quote c close escape x rest ih =>
    obtain ⟨rfl, rfl⟩ := escape
    rw [cons_append, cons_append, word_escape_inside, ih outside]
  | case12 quote c rest close escape ih =>
    rw [cons_append, word_inside _ close escape,
      ih (endsOutside_inside rest close escape ▸ outside)]

/-! ### Turns -/

/-- One turn of `tokenize` on a text that is not empty: the token it makes, if any, the position the
next one is at, and the rest of the text. -/
def turn (position : Bool) (c : UInt16) (rest : Text) : List TgSecToken × Bool × Text :=
  if isSeparator c then
    if (c == unit '|' || c == unit '&') && rest.head? == some c then ([], true, rest.drop 1)
    else ([], true, rest)
  else if isSpace c then ([], position, rest)
  else if c = unit '$' ∧ rest.head? = some (unit '(') then ([], true, rest.drop 1)
  else if c = unit '(' then ([], true, rest)
  else if c = unit ')' then ([], position, rest)
  else ([⟨(word none (c :: rest)).1, position⟩], false, (word none (c :: rest)).2)

theorem tokenizeLoop_succ (fuel : Nat) (position : Bool) (c : UInt16) (rest : Text) :
    tokenizeLoop (fuel + 1) position (c :: rest) =
      (turn position c rest).1 ++
        tokenizeLoop fuel (turn position c rest).2.1 (turn position c rest).2.2 := by
  rw [tokenizeLoop]
  unfold turn
  by_cases separator : isSeparator c = true
  · rw [if_pos separator, if_pos separator]
    split <;> rfl
  rw [if_neg separator, if_neg separator]
  by_cases space : isSpace c = true
  · rw [if_pos space, if_pos space]
    rfl
  rw [if_neg space, if_neg space]
  by_cases opens : c = unit '$' ∧ rest.head? = some (unit '(')
  · rw [if_pos opens, if_pos opens]
    rfl
  rw [if_neg opens, if_neg opens]
  split
  · rfl
  · split <;> rfl

/-- **A turn reads something.** -/
theorem turn_shorter (position : Bool) (c : UInt16) (rest : Text) :
    (turn position c rest).2.2.length ≤ rest.length := by
  unfold turn
  split
  · split
    · simp
    · exact le_rfl
  rename_i separator
  split
  · exact le_rfl
  rename_i space
  split
  · simp
  rename_i opens
  split
  · exact le_rfl
  split
  · exact le_rfl
  · rename_i close
    exact word_progress opens (by simp [separator, space, close])

/-- A unit that no word starts at opens no quote and escapes nothing. -/
theorem plain_of_between {c : UInt16} (between : isSeparator c = true ∨ isSpace c = true ∨
    c = unit '$' ∨ c = unit '(' ∨ c = unit ')') : ¬isQuote c = true ∧ c ≠ unit '\\' := by
  have table : ∀ d ∈ ['\'', '"', '\\'], isSeparator (unit d) = false ∧ isSpace (unit d) = false ∧
      unit d ≠ unit '$' ∧ unit d ≠ unit '(' ∧ unit d ≠ unit ')' := by
    simp only [List.mem_cons, List.not_mem_nil, or_false, forall_eq_or_imp, forall_eq]
    decide
  have different : ∀ d ∈ ['\'', '"', '\\'], c ≠ unit d := by
    intro d member same
    obtain ⟨separator, space, dollar, opens, close⟩ := table d member
    rw [same] at between
    simp only [separator, space, dollar, opens, close, Bool.false_eq_true, or_self] at between
  constructor
  · simp only [isQuote, Bool.or_eq_true, beq_iff_eq]
    rintro (single | double)
    · exact different _ (by simp) single
    · exact different _ (by simp) double
  · exact different _ (by simp)

theorem endsOutside_between {c : UInt16} {rest : Text} (between : isSeparator c = true ∨
    isSpace c = true ∨ c = unit '$' ∨ c = unit '(' ∨ c = unit ')') :
    endsOutside none (c :: rest) = endsOutside none rest :=
  endsOutside_plain rest (plain_of_between between).1 (plain_of_between between).2

theorem endsOutside_drop {c : UInt16} {rest : Text} (between : isSeparator c = true ∨
    isSpace c = true ∨ c = unit '$' ∨ c = unit '(' ∨ c = unit ')')
    (next : rest.head? = some c) (outside : endsOutside none rest = true) :
    endsOutside none (rest.drop 1) = true := by
  cases rest with
  | nil => cases next
  | cons d later =>
    cases next
    rw [endsOutside_between between] at outside
    exact outside

/-- **A turn of a text that ends outside quotes leaves one that does.** -/
theorem endsOutside_turn {c : UInt16} {rest : Text} (position : Bool)
    (outside : endsOutside none (c :: rest) = true) :
    endsOutside none (turn position c rest).2.2 = true := by
  unfold turn
  split
  · rename_i separator
    rw [endsOutside_between (.inl separator)] at outside
    split
    · rename_i double
      simp only [Bool.and_eq_true, beq_iff_eq] at double
      exact endsOutside_drop (.inl separator) double.2 outside
    · exact outside
  split
  · rename_i space
    rwa [endsOutside_between (.inr (.inl space))] at outside
  split
  · rename_i opens
    rw [endsOutside_between (.inr (.inr (.inl opens.1)))] at outside
    exact endsOutside_drop (.inr (.inr (.inr (.inl rfl)))) opens.2 outside
  split
  · rename_i opens
    rwa [endsOutside_between (.inr (.inr (.inr (.inl opens))))] at outside
  split
  · rename_i close
    rwa [endsOutside_between (.inr (.inr (.inr (.inr close))))] at outside
  · exact endsOutside_word outside

/-- A unit that closes no word is not first in what follows. -/
theorem head_append {c : UInt16} {rest more : Text} (closing : Closing more)
    (inside : closesWord c = false) : (rest ++ more).head? = some c ↔ rest.head? = some c := by
  cases rest with
  | cons d rest => rfl
  | nil =>
    constructor
    · intro found
      rw [closing c found] at inside
      cases inside
    · intro found
      cases found

theorem drop_append {c : UInt16} {rest : Text} (more : Text) (next : rest.head? = some c) :
    (rest ++ more).drop 1 = rest.drop 1 ++ more := by
  cases rest with
  | nil => cases next
  | cons d rest => rfl

/-- **A turn of a text that ends outside quotes does not depend on what follows the text.** -/
theorem turn_append {c : UInt16} {rest more : Text} (position : Bool)
    (outside : endsOutside none (c :: rest) = true) (closing : Closing more) :
    turn position c (rest ++ more) =
      ((turn position c rest).1, (turn position c rest).2.1,
        (turn position c rest).2.2 ++ more) := by
  unfold turn
  by_cases separator : isSeparator c = true
  · rw [if_pos separator, if_pos separator]
    have same : (((c == unit '|' || c == unit '&') && (rest ++ more).head? == some c) = true) ↔
        (((c == unit '|' || c == unit '&') && rest.head? == some c) = true) := by
      simp only [Bool.and_eq_true, beq_iff_eq, Bool.or_eq_true]
      refine and_congr_right fun double => head_append closing ?_
      rcases double with rfl | rfl <;> decide
    by_cases double : ((c == unit '|' || c == unit '&') && rest.head? == some c) = true
    · rw [if_pos double, if_pos (same.mpr double)]
      simp only [Bool.and_eq_true, beq_iff_eq] at double
      rw [drop_append more double.2]
    · rw [if_neg double, if_neg fun twice => double (same.mp twice)]
  rw [if_neg separator, if_neg separator]
  by_cases space : isSpace c = true
  · rw [if_pos space, if_pos space]
  rw [if_neg space, if_neg space]
  have same : (c = unit '$' ∧ (rest ++ more).head? = some (unit '(')) ↔
      (c = unit '$' ∧ rest.head? = some (unit '(')) :=
    and_congr_right fun _ => head_append closing (by decide)
  by_cases opens : c = unit '$' ∧ rest.head? = some (unit '(')
  · rw [if_pos opens, if_pos (same.mpr opens), drop_append more opens.2]
  rw [if_neg opens, if_neg fun found => opens (same.mp found)]
  split
  · rfl
  split
  · rfl
  · rw [← cons_append, word_append outside closing]

/-! ### Tokens -/

/-- **The number of turns is enough as soon as it is the length of the text.** -/
theorem tokenizeLoop_fuel {fuel more : Nat} (position : Bool) {t : Text} (enough : t.length ≤ fuel)
    (plenty : t.length ≤ more) : tokenizeLoop fuel position t = tokenizeLoop more position t := by
  induction fuel generalizing more position t with
  | zero =>
    obtain rfl := List.length_eq_zero_iff.mp (Nat.le_zero.mp enough)
    cases more <;> rfl
  | succ fuel ih =>
    cases t with
    | nil => cases more <;> rfl
    | cons c rest =>
      cases more with
      | zero => simp at plenty
      | succ more =>
        simp only [length_cons, Nat.add_le_add_iff_right] at enough plenty
        have shorter := turn_shorter position c rest
        rw [tokenizeLoop_succ, tokenizeLoop_succ,
          ih _ (shorter.trans enough) (shorter.trans plenty)]

/-- The tokens of a text, the first one at a command position or not. -/
def tokens (position : Bool) (t : Text) : List TgSecToken := tokenizeLoop t.length position t

theorem tokenize_eq (t : Text) : tokenize t = tokens true t := rfl

@[simp] theorem tokens_nil (position : Bool) : tokens position [] = [] := rfl

/-- **The tokens of a text are those of its first turn, and then those of the rest.** -/
theorem tokens_cons (position : Bool) (c : UInt16) (rest : Text) :
    tokens position (c :: rest) = (turn position c rest).1 ++
      tokens (turn position c rest).2.1 (turn position c rest).2.2 := by
  unfold tokens
  rw [length_cons, tokenizeLoop_succ,
    tokenizeLoop_fuel _ (turn_shorter position c rest) le_rfl]

/-- **A text that ends outside quotes gives its own tokens, and then those of what follows.** Only the
position the following text starts at depends on it. -/
theorem tokens_append {t : Text} (position : Bool) (outside : endsOutside none t = true) :
    ∃ after, ∀ more, Closing more →
      tokens position (t ++ more) = tokens position t ++ tokens after more := by
  -- The induction is on the length: a word can be of any length.
  induction length : t.length using Nat.strong_induction_on generalizing position t with
  | h n ih =>
    subst length
    cases t with
    | nil => exact ⟨position, fun more _ => rfl⟩
    | cons c rest =>
      have shorter := turn_shorter position c rest
      obtain ⟨after, split⟩ := ih _ (by rw [length_cons]; omega)
        (turn position c rest).2.1 (endsOutside_turn position outside) rfl
      refine ⟨after, fun more closing => ?_⟩
      rw [cons_append, tokens_cons, turn_append position outside closing, tokens_cons,
        split more closing, append_assoc]

/-! ### The first token -/

/-- The first token, if any, is at a command position. -/
def Opens (stream : List TgSecToken) : Prop :=
  ∀ token, stream.head? = some token → token.commandPosition = true

/-- **The position a text is read at is that of its first token, and of nothing else**: read at a
command position, the first token is at one, and read elsewhere it may not be. -/
theorem tokens_first (t : Text) :
    Opens (tokens true t) ∧ (tokens false t = tokens true t ∨
      ∃ first rest, tokens true t = ⟨first, true⟩ :: rest ∧ tokens false t = ⟨first, false⟩ :: rest) := by
  induction length : t.length using Nat.strong_induction_on generalizing t with
  | h n ih =>
    subst length
    cases t with
    | nil =>
      refine ⟨fun _ found => ?_, .inl rfl⟩
      cases found
    | cons c rest =>
      have later := fun position => ih _ (by
        have shorter := turn_shorter position c rest
        rw [length_cons]
        omega) (turn position c rest).2.2 rfl
      rw [tokens_cons, tokens_cons]
      have outcome : (turn true c rest = turn false c rest ∧ (turn true c rest).1 = [] ∧
            (turn true c rest).2.1 = true) ∨
          ((turn true c rest).1 = [] ∧ (turn true c rest).2.1 = true ∧
            turn false c rest = ([], false, (turn true c rest).2.2)) ∨
          ∃ first more, turn true c rest = ([⟨first, true⟩], false, more) ∧
            turn false c rest = ([⟨first, false⟩], false, more) := by
        unfold turn
        split_ifs <;> simp
      rcases outcome with ⟨same, silent, position⟩ | ⟨silent, position, other⟩ | ⟨first, more, one, two⟩
      · rw [← same, silent, position]
        exact ⟨(later true).1, .inl rfl⟩
      · rw [other, silent, position]
        exact later true
      · rw [one, two]
        refine ⟨fun token found => ?_, .inr ⟨first, tokens false more, rfl, rfl⟩⟩
        cases found
        rfl

theorem tokenize_opens (t : Text) : Opens (tokenize t) := (tokens_first t).1

/-! ### The ways to put texts together -/

/-- A text that ends a word and is followed by a command position. -/
def Separates (separator : Text) : Prop :=
  ∀ position t, Closing (separator ++ t) ∧ tokens position (separator ++ t) = tokens true t

theorem separates_semicolon : Separates (text ";") := by
  intro position t
  exact ⟨fun c found => by cases found; decide, tokens_cons position (unit ';') t⟩

theorem separates_newline : Separates (text "\n") := by
  intro position t
  exact ⟨fun c found => by cases found; decide, tokens_cons position 10 t⟩

theorem separates_and : Separates (text " && ") := by
  intro position t
  refine ⟨fun c found => by cases found; decide, ?_⟩
  show tokens position (32 :: unit '&' :: unit '&' :: 32 :: t) = _
  rw [tokens_cons]
  show tokens position (unit '&' :: unit '&' :: 32 :: t) = _
  rw [tokens_cons]
  exact tokens_cons true 32 t

theorem separates_pipe : Separates (text " | ") := by
  intro position t
  refine ⟨fun c found => by cases found; decide, ?_⟩
  show tokens position (32 :: unit '|' :: 32 :: t) = _
  rw [tokens_cons]
  show tokens position (unit '|' :: 32 :: t) = _
  rw [tokens_cons]
  exact tokens_cons true 32 t

/-- **Separated texts are tokenized each for itself.** -/
theorem tokenize_separated {before separator : Text} (t : Text)
    (outside : endsOutside none before = true) (separates : Separates separator) :
    tokenize (before ++ separator ++ t) = tokenize before ++ tokenize t := by
  obtain ⟨after, split⟩ := tokens_append true outside
  rw [append_assoc, tokenize_eq, split _ (separates after t).1, (separates after t).2]
  rfl

theorem tokens_close {t : Text} (position : Bool) (outside : endsOutside none t = true) :
    tokens position (t ++ text ")") = tokens position t := by
  obtain ⟨after, split⟩ := tokens_append position outside
  have closed : tokens after (text ")") = [] := tokens_cons after (unit ')') []
  rw [split _ fun c found => by cases found; decide, closed, append_nil]

/-- The tokens of `(t)`. -/
theorem tokenize_subshell {t : Text} (outside : endsOutside none t = true) :
    tokenize (text "(" ++ t ++ text ")") = tokenize t := by
  rw [append_assoc, tokenize_eq, tokenize_eq, ← tokens_close true outside]
  exact tokens_cons true (unit '(') (t ++ text ")")

/-- A first word that ends outside quotes is the first token, whatever closes it. -/
theorem tokens_word {name : Text} {c : UInt16} {rest : Text} (position : Bool)
    (spelled : turn position c rest = ([⟨name, position⟩], false, []))
    (outside : endsOutside none (c :: rest) = true) {more : Text} (closing : Closing more) :
    tokens position (c :: rest ++ more) = ⟨name, position⟩ :: tokens false more := by
  rw [cons_append, tokens_cons, turn_append position outside closing, spelled]
  rfl

/-- The tokens of `echo $(t)`. -/
theorem tokenize_substitution {t : Text} (outside : endsOutside none t = true) :
    tokenize (text "echo $(" ++ t ++ text ")") = ⟨text "echo", true⟩ :: tokenize t := by
  have opens : tokens false (32 :: unit '$' :: unit '(' :: (t ++ text ")")) = tokenize t := by
    rw [tokenize_eq, ← tokens_close true outside, tokens_cons]
    exact tokens_cons false (unit '$') (unit '(' :: (t ++ text ")"))
  rw [← opens, tokenize_eq, append_assoc]
  exact tokens_word true (by decide : turn true (unit 'e') (text "cho") = _) (by decide)
    fun c found => by cases found; decide

/-- The tokens of `sudo t`. -/
theorem tokenize_sudo (t : Text) :
    tokenize (text "sudo " ++ t) = ⟨text "sudo", true⟩ :: tokens false t := by
  have opens : tokens false (32 :: t) = tokens false t := tokens_cons false 32 t
  rw [← opens, tokenize_eq]
  exact tokens_word true (by decide : turn true (unit 's') (text "udo") = _) (by decide)
    fun c found => by cases found; decide

end TianGong.SecGuard
