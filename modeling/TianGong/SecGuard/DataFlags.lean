/-
**Data flags: what hides a token from the connection targets.**

`scanCommand` stands on some tokens of a command and consumes the others as the value of the flag
before them. `contributions` says what each token gives to the targets, `consumed` which tokens are
values; `scanCommand_eq` says that the scan records exactly these contributions.

* `HidesOnlyItsValue`: a URL with an authority is a strong target unless a data flag, spelled as
  listed and taking a value, stands directly before it.
* `hidesOnlyItsValue_iff`: it holds of a command exactly when the flags of it that are followed by a
  token are spelled so that the lowered and the listed spelling agree on that token.

The scan lowers a flag before it looks it up, and the list has letters in both cases. So `-O`, `-X`,
`-B` and `-E` consume as `-o`, `-x`, `-b` and `-e` do, and `-H`, `-F` and `-A` consume nothing.
-/

import TianGong.SecGuard.HardDeny

namespace TianGong.SecGuard

open List Bool

variable (L : LowerCase)

/-! ### The walk -/

/-- Whether the scan takes the next token as data: the flag as the scan looks it up. -/
def takesData (t : Text) : Bool :=
  !TARGET_VALUE_FLAGS.contains (L.lower t) && (attachedFlag (L.lower t)).isNone &&
    DATA_VALUE_FLAGS.contains (L.lower t) && !DATA_BOOLEAN_FLAGS.contains (L.lower t)

/-- Whether the scan takes the next token, as data or as a target. -/
def takesNext (t : Text) : Bool := TARGET_VALUE_FLAGS.contains (L.lower t) || takesData L t

/-- What a token gives when the scan stands on it. -/
def offers (declaredTarget : Bool) (t : Text) : Option (Text × TgSecTargetEvidence) :=
  if TARGET_VALUE_FLAGS.contains (L.lower t) then none
  else match attachedFlag (L.lower t) with
    | some (flag, eq) =>
      if DATA_VALUE_FLAGS.contains flag then none
      else if TARGET_VALUE_FLAGS.contains flag then targetOf L (t.drop (eq + 1)) true
      else none
    | none => if DATA_VALUE_FLAGS.contains (L.lower t) then none else targetOf L t declaredTarget

/-- What a value gives when a flag consumes it. -/
def offersAsValue (flag value : Text) : Option (Text × TgSecTargetEvidence) :=
  if TARGET_VALUE_FLAGS.contains (L.lower flag) then targetOf L value true else none

/-- What each token of a command contributes. -/
def contributions (declaredTarget : Bool) :
    List TgSecToken → List (Option (Text × TgSecTargetEvidence))
  | [] => []
  | [token] => [offers L declaredTarget token.text]
  | token :: next :: rest =>
    if takesNext L token.text then
      offers L declaredTarget token.text :: offersAsValue L token.text next.text ::
        contributions declaredTarget rest
    else offers L declaredTarget token.text :: contributions declaredTarget (next :: rest)

/-- Which tokens of a command are consumed as a value. -/
def consumed : List TgSecToken → List Bool
  | [] => []
  | [_] => [false]
  | token :: next :: rest =>
    if takesNext L token.text then false :: true :: consumed rest
    else false :: consumed (next :: rest)

/-- Record a contribution. -/
def recordOption (out : Targets) (found : Option (Text × TgSecTargetEvidence)) : Targets :=
  match found with
  | some (host, evidence) => recordTarget out host evidence
  | none => out

theorem addTarget_eq (t : Text) (strong : Bool) (out : Targets) :
    addTarget L t strong out = recordOption out (targetOf L t strong) := rfl

variable {t : Text} (declaredTarget : Bool) (token next : TgSecToken) (rest : List TgSecToken)

/-- A token the scan does not take a value for is recorded, and the scan goes on. -/
theorem scanCommand_cons (out : Targets) (taken : takesNext L token.text = false) :
    scanCommand L declaredTarget (token :: rest) out =
      scanCommand L declaredTarget rest (recordOption out (offers L declaredTarget token.text)) := by
  rw [scanCommand.eq_def]
  unfold offers
  simp only [takesNext, or_eq_false_iff] at taken
  dsimp only
  have other : ¬TARGET_VALUE_FLAGS.contains (L.lower token.text) = true := by
    rw [taken.1]
    decide
  rw [if_neg other, if_neg other]
  cases attached : attachedFlag (L.lower token.text) with
  | some found =>
    dsimp only
    split_ifs <;> rfl
  | none =>
    dsimp only
    by_cases data : DATA_VALUE_FLAGS.contains (L.lower token.text) = true
    · have plain : DATA_BOOLEAN_FLAGS.contains (L.lower token.text) = true := by
        have gone := taken.2
        simp only [takesData, taken.1, attached, data] at gone
        simpa using gone
      rw [if_pos data, if_pos plain, if_pos data]
      rfl
    · rw [if_neg data, if_neg data, addTarget_eq]

/-- A token the scan takes a value for gives nothing itself, and the scan goes on after the value. -/
theorem scanCommand_takes (out : Targets) (taken : takesNext L token.text = true) :
    scanCommand L declaredTarget (token :: next :: rest) out =
      scanCommand L declaredTarget rest
        (recordOption out (offersAsValue L token.text next.text)) := by
  rw [scanCommand]
  unfold offersAsValue
  by_cases target : TARGET_VALUE_FLAGS.contains (L.lower token.text) = true
  · rw [if_pos target, if_pos target, addTarget_eq]
  · simp only [takesNext, target, takesData, Bool.false_or, Bool.not_false, Bool.true_and,
      and_eq_true, Option.isNone_iff_eq_none, not_eq_true'] at taken
    rw [if_neg target, if_neg target, taken.1.1]
    dsimp only
    rw [if_pos taken.1.2, if_neg (by rw [taken.2]; decide)]
    rfl

/-- A flag that takes a value gives nothing itself. -/
theorem offers_of_takesNext {declaredTarget : Bool} (taken : takesNext L t = true) :
    offers L declaredTarget t = none := by
  unfold offers
  by_cases target : TARGET_VALUE_FLAGS.contains (L.lower t) = true
  · rw [if_pos target]
  · simp only [takesNext, target, takesData, Bool.false_or, Bool.not_false, Bool.true_and,
      and_eq_true, Option.isNone_iff_eq_none] at taken
    rw [if_neg target, taken.1.1]
    dsimp only
    rw [if_pos taken.1.2]

/-- **The scan records the contributions, in order.** -/
theorem scanCommand_eq (tokens : List TgSecToken) (out : Targets) :
    scanCommand L declaredTarget tokens out =
      (contributions L declaredTarget tokens).foldl recordOption out := by
  fun_induction contributions L declaredTarget tokens generalizing out with
  | case1 => rfl
  | case2 token =>
    by_cases taken : takesNext L token.text = true
    · rw [offers_of_takesNext L taken, scanCommand]
      simp only [takesNext, takesData, or_eq_true, and_eq_true, not_eq_true',
        Option.isNone_iff_eq_none] at taken
      rcases taken with target | ⟨⟨⟨target, attached⟩, data⟩, plain⟩
      · rw [if_pos target]
        rfl
      · rw [if_neg (by rw [target]; decide), attached]
        dsimp only
        rw [if_pos data, if_neg (by rw [plain]; decide)]
        rfl
    · rw [scanCommand_cons L declaredTarget token [] out (by simpa using taken)]
      rfl
  | case3 token next rest taken ih =>
    rw [scanCommand_takes L declaredTarget token next rest out taken, ih, foldl_cons,
      foldl_cons, offers_of_takesNext L taken]
    rfl
  | case4 token next rest taken ih =>
    rw [scanCommand_cons L declaredTarget token (next :: rest) out (by simpa using taken), ih]
    rfl

/-! ### Standing and consumed tokens -/

/-- The flag is spelled as listed, and takes a value. -/
def dataFlag (t : Text) : Bool := DATA_VALUE_FLAGS.contains t && !DATA_BOOLEAN_FLAGS.contains t

/-- A URL with an authority. -/
def hostUrl (t : Text) : Bool := urlHead (L.lower t) && authorityOf (L.lower t) != []

/-- **A data flag hides only its own value**: a URL with an authority is a strong target unless a data
flag stands before it, and a token after a data flag is no target. -/
structure HidesOnlyItsValue (declaredTarget : Bool) (tokens : List TgSecToken) : Prop where
  shown : ∀ i token, tokens[i]? = some token → hostUrl L token.text = true →
    (contributions L declaredTarget tokens)[i]? =
        some (some (authorityOf (L.lower token.text), .strong)) ∨
      ∃ j flag, i = j + 1 ∧ tokens[j]? = some flag ∧ (consumed L tokens)[j]? = some false ∧
        dataFlag flag.text = true
  hidden : ∀ j flag, tokens[j]? = some flag → (consumed L tokens)[j]? = some false →
    dataFlag flag.text = true → j + 1 < tokens.length →
    (contributions L declaredTarget tokens)[j + 1]? = some none

/-- The listed flags whose lower case is not listed. -/
def CASED_DATA_FLAGS : List Text := ["-F", "-H", "-A"].map text

/-- **The flags are spelled as the scan reads them**, where it makes a difference: a flag whose lower case
takes data stands before a URL only if it is spelled as listed, and `-F`, `-H` and `-A` stand before
a token that is no target by itself. -/
def FlagsSpelled (declaredTarget : Bool) (tokens : List TgSecToken) : Prop :=
  ∀ j flag next, tokens[j]? = some flag → tokens[j + 1]? = some next →
    (consumed L tokens)[j]? = some false →
    (takesData L flag.text = true → hostUrl L next.text = true → dataFlag flag.text = true) ∧
      (CASED_DATA_FLAGS.contains flag.text = true → offers L declaredTarget next.text = none)

/-- What the walk does at a token it stands on and at the token after it. -/
structure Standing (declaredTarget : Bool) (tokens : List TgSecToken) (j : Nat)
    (flag : TgSecToken) : Prop where
  own : (contributions L declaredTarget tokens)[j]? = some (offers L declaredTarget flag.text)
  value : ∀ next, tokens[j + 1]? = some next → takesNext L flag.text = true →
    (contributions L declaredTarget tokens)[j + 1]? = some (offersAsValue L flag.text next.text)
  free : ∀ next, tokens[j + 1]? = some next → takesNext L flag.text = false →
    (contributions L declaredTarget tokens)[j + 1]? = some (offers L declaredTarget next.text)

theorem contributions_takes {token : TgSecToken} (taken : takesNext L token.text = true) :
    contributions L declaredTarget (token :: next :: rest) =
      offers L declaredTarget token.text :: offersAsValue L token.text next.text ::
        contributions L declaredTarget rest := by
  rw [contributions, if_pos taken]

theorem contributions_stands {token : TgSecToken} (taken : ¬takesNext L token.text = true) :
    contributions L declaredTarget (token :: next :: rest) =
      offers L declaredTarget token.text :: contributions L declaredTarget (next :: rest) := by
  rw [contributions, if_neg taken]

theorem contributions_head :
    (contributions L declaredTarget (token :: rest))[0]? =
      some (offers L declaredTarget token.text) := by
  cases rest with
  | nil => rfl
  | cons next rest =>
    unfold contributions
    split_ifs <;> rfl

/-- **The walk, at a token it stands on.** The induction is on the walk: the walk over the tokens from
that token on is the rest of the walk over all of them. -/
theorem standing {declaredTarget : Bool} {tokens : List TgSecToken} {j : Nat} {flag : TgSecToken}
    (here : tokens[j]? = some flag) (stands : (consumed L tokens)[j]? = some false) :
    Standing L declaredTarget tokens j flag := by
  fun_induction consumed L tokens generalizing j with
  | case1 => simp at here
  | case2 token =>
    cases j with
    | zero =>
      cases here
      exact ⟨rfl, fun next there => by simp at there, fun next there => by simp at there⟩
    | succ j => simp at here
  | case3 token next rest taken ih =>
    cases j with
    | zero =>
      cases here
      refine ⟨contributions_head L _ _ _, ?_, ?_⟩
      · intro next' there _
        cases there
        rw [contributions_takes L declaredTarget next rest taken]
        rfl
      · intro _ _ free
        rw [taken] at free
        cases free
    | succ j =>
      cases j with
      | zero => cases stands
      | succ j =>
        have later := ih (j := j) here stands
        exact ⟨by rw [contributions_takes L declaredTarget next rest taken]; exact later.own,
          by rw [contributions_takes L declaredTarget next rest taken]; exact later.value,
          by rw [contributions_takes L declaredTarget next rest taken]; exact later.free⟩
  | case4 token next rest taken ih =>
    cases j with
    | zero =>
      cases here
      refine ⟨contributions_head L _ _ _, ?_, ?_⟩
      · intro _ _ takes
        exact absurd takes taken
      · intro next' there _
        cases there
        rw [contributions_stands L declaredTarget next rest taken]
        exact contributions_head L _ _ _
    | succ j =>
      have later := ih (j := j) here stands
      exact ⟨by rw [contributions_stands L declaredTarget next rest taken]; exact later.own,
        by rw [contributions_stands L declaredTarget next rest taken]; exact later.value,
        by rw [contributions_stands L declaredTarget next rest taken]; exact later.free⟩

variable {tokens : List TgSecToken}

/-- A token is stood on, or it is the value of the flag before it. -/
theorem standing_or_value {i : Nat} {token : TgSecToken} (here : tokens[i]? = some token) :
    (consumed L tokens)[i]? = some false ∨
      ∃ j flag, i = j + 1 ∧ tokens[j]? = some flag ∧ (consumed L tokens)[j]? = some false ∧
        takesNext L flag.text = true := by
  fun_induction consumed L tokens generalizing i with
  | case1 => simp at here
  | case2 first =>
    cases i with
    | zero => exact .inl rfl
    | succ i => simp at here
  | case3 first next rest taken ih =>
    rcases i with _ | _ | i
    · exact .inl rfl
    · exact .inr ⟨0, first, rfl, rfl, rfl, taken⟩
    · rcases ih (i := i) here with stands | ⟨j, flag, rfl, there, stands, takes⟩
      · exact .inl stands
      · exact .inr ⟨j + 2, flag, rfl, there, stands, takes⟩
  | case4 first next rest taken ih =>
    cases i with
    | zero => exact .inl rfl
    | succ i =>
      rcases ih (i := i) here with stands | ⟨j, flag, rfl, there, stands, takes⟩
      · exact .inl stands
      · exact .inr ⟨j + 1, flag, rfl, there, stands, takes⟩

/-! ### The tables -/

/-- A listed flag that takes a value is ASCII, no target flag, and taken for one by the scan unless its
lower case is not listed. -/
theorem dataFlag_table : ∀ t ∈ DATA_VALUE_FLAGS, DATA_BOOLEAN_FLAGS.contains t = false →
    t.all isAscii = true ∧ TARGET_VALUE_FLAGS.contains (t.map lowerUnit) = false ∧
      takesData asciiLowerCase t = !CASED_DATA_FLAGS.contains t := by
  decide +kernel

theorem dataFlag_not_target (flag : dataFlag t = true) :
    TARGET_VALUE_FLAGS.contains (L.lower t) = false := by
  simp only [dataFlag, and_eq_true, not_eq_true', contains_iff_mem] at flag
  obtain ⟨ascii, other, -⟩ := dataFlag_table t flag.1 flag.2
  rw [L.ascii t (List.all_eq_true.mp ascii)]
  exact other

/-- The scan takes data for every listed flag but the three. -/
theorem takesData_of_dataFlag (flag : dataFlag t = true) :
    takesData L t = !CASED_DATA_FLAGS.contains t := by
  simp only [dataFlag, and_eq_true, not_eq_true', contains_iff_mem] at flag
  obtain ⟨ascii, -, taken⟩ := dataFlag_table t flag.1 flag.2
  rw [← taken]
  unfold takesData
  rw [L.ascii t (List.all_eq_true.mp ascii), asciiLowerCase.ascii t (List.all_eq_true.mp ascii)]

theorem dataFlag_of_cased : ∀ t ∈ CASED_DATA_FLAGS, dataFlag t = true := by
  decide

theorem table_head : (∀ t ∈ TARGET_VALUE_FLAGS, t.head?.any isAlpha = false) ∧
    ∀ t ∈ DATA_VALUE_FLAGS, t.head?.any isAlpha = false := by
  decide

theorem head_of_urlHead (url : urlHead t = true) : t.head?.any isAlpha = true := by
  cases t with
  | nil => cases url
  | cons c rest =>
    simp only [urlHead, and_eq_true] at url
    exact url.1

theorem attachedFlag_of_head (head : t.head?.any isAlpha = true) : attachedFlag t = none := by
  unfold attachedFlag
  rw [if_neg]
  intro long
  cases t with
  | nil => cases head
  | cons c rest =>
    obtain ⟨more, same⟩ := List.isPrefixOf_iff_prefix.mp long
    have dash : unit '-' = c := (List.cons.inj same).1
    subst dash
    have letter : isAlpha (unit '-') = true := head
    revert letter
    decide

/-- **A URL with an authority is a strong target, wherever it is looked at.** -/
theorem targetOf_hostUrl (url : hostUrl L t = true) (strong : Bool) :
    targetOf L t strong = some (authorityOf (L.lower t), .strong) := by
  simp only [hostUrl, and_eq_true, bne_iff_ne, ne_eq] at url
  unfold targetOf
  dsimp only
  rw [if_neg, if_pos url.1, if_neg url.2]
  intro empty
  rw [empty] at url
  exact absurd url.1 (by decide)

theorem offers_hostUrl (url : hostUrl L t = true) (declaredTarget : Bool) :
    offers L declaredTarget t = some (authorityOf (L.lower t), .strong) := by
  have shape := url
  simp only [hostUrl, and_eq_true] at shape
  have head := head_of_urlHead shape.1
  unfold offers
  rw [if_neg, attachedFlag_of_head head]
  · dsimp only
    rw [if_neg, targetOf_hostUrl L url]
    intro data
    rw [table_head.2 _ (List.contains_iff_mem.mp data)] at head
    cases head
  · intro target
    rw [table_head.1 _ (List.contains_iff_mem.mp target)] at head
    cases head

/-! ### The main result -/

theorem flagsSpelled_of_hides {declaredTarget : Bool}
    (hides : HidesOnlyItsValue L declaredTarget tokens) : FlagsSpelled L declaredTarget tokens := by
  intro j flag next here there stands
  have walk := @standing L declaredTarget _ _ _ here stands
  constructor
  · intro takes url
    rcases hides.shown (j + 1) next there url with shown | ⟨j', flag', same, here', -, spelled⟩
    · have target : TARGET_VALUE_FLAGS.contains (L.lower flag.text) = false := by
        simp only [takesData, and_eq_true, not_eq_true'] at takes
        exact takes.1.1.1
      rw [walk.value next there (by rw [takesNext, takes, Bool.or_true]), offersAsValue, target]
        at shown
      cases shown
    · obtain rfl : j = j' := by omega
      rw [here] at here'
      cases here'
      exact spelled
  · intro cased
    have spelled := dataFlag_of_cased _ (List.contains_iff_mem.mp cased)
    have passes : takesData L flag.text = false := by
      rw [takesData_of_dataFlag L spelled, cased, Bool.not_true]
    have free : takesNext L flag.text = false := by
      rw [takesNext, passes, dataFlag_not_target L spelled, Bool.or_false]
    have inside : j + 1 < tokens.length := (List.getElem?_eq_some_iff.mp there).1
    have hidden := hides.hidden j flag here stands spelled inside
    rw [walk.free next there free] at hidden
    exact Option.some.inj hidden

theorem hides_of_flagsSpelled {declaredTarget : Bool}
    (spelled : FlagsSpelled L declaredTarget tokens) :
    HidesOnlyItsValue L declaredTarget tokens := by
  constructor
  · intro i token here url
    rcases standing_or_value L here with stands | ⟨j, flag, rfl, before, stands, takes⟩
    · refine .inl ?_
      rw [(standing L here stands).own, offers_hostUrl L url]
    · by_cases target : TARGET_VALUE_FLAGS.contains (L.lower flag.text) = true
      · refine .inl ?_
        rw [(standing L before stands).value token here takes, offersAsValue, if_pos target,
          targetOf_hostUrl L url]
      · refine .inr ⟨j, flag, rfl, before, stands, ?_⟩
        have data : takesData L flag.text = true := by
          simp only [takesNext, or_eq_true] at takes
          exact takes.resolve_left target
        exact (spelled j flag token before here stands).1 data url
  · intro j flag here stands listed inside
    obtain ⟨next, there⟩ : ∃ next, tokens[j + 1]? = some next :=
      ⟨_, List.getElem?_eq_getElem inside⟩
    have target := dataFlag_not_target L listed
    by_cases takes : takesData L flag.text = true
    · have taken : takesNext L flag.text = true := by rw [takesNext, takes, Bool.or_true]
      rw [(standing L here stands).value next there taken, offersAsValue, target]
      rfl
    · have passes : takesData L flag.text = false := by simpa using takes
      have cased : CASED_DATA_FLAGS.contains flag.text = true := by
        simpa [takesData_of_dataFlag L listed] using passes
      have free : takesNext L flag.text = false := by rw [takesNext, passes, target, Bool.or_false]
      rw [(standing L here stands).free next there free,
        (spelled j flag next here there stands).2 cased]

/-- The tokens of `curl -O http://localhost/`. -/
def curlRemoteName : List TgSecToken :=
  [⟨text "curl", true⟩, ⟨text "-O", false⟩, ⟨text "http://localhost/", false⟩]

/-- The tokens of `curl -H localhost http://target/`. -/
def curlHeader : List TgSecToken :=
  [⟨text "curl", true⟩, ⟨text "-H", false⟩, ⟨text "localhost", false⟩,
    ⟨text "http://target/", false⟩]

/-- Every unit is ASCII. -/
def AsciiText (t : Text) : Prop := ∀ c ∈ t, isAscii c = true

theorem lower_ascii (ascii : AsciiText t) : L.lower t = asciiLowerCase.lower t :=
  L.ascii t ascii

theorem targetOf_ascii (ascii : AsciiText t) (strong : Bool) :
    targetOf L t strong = targetOf asciiLowerCase t strong := by
  unfold targetOf
  rw [lower_ascii L ascii]

theorem takesNext_ascii (ascii : AsciiText t) : takesNext L t = takesNext asciiLowerCase t := by
  unfold takesNext takesData
  rw [lower_ascii L ascii]

theorem offers_ascii (ascii : AsciiText t) (declaredTarget : Bool) :
    offers L declaredTarget t = offers asciiLowerCase declaredTarget t := by
  have attached : ∀ k, targetOf L (t.drop k) true = targetOf asciiLowerCase (t.drop k) true :=
    fun k => targetOf_ascii L (fun c member => ascii c (mem_of_mem_drop member)) true
  unfold offers
  simp only [lower_ascii L ascii, targetOf_ascii L ascii, attached]

theorem offersAsValue_ascii {flag value : Text} (ascii : AsciiText flag) (plain : AsciiText value) :
    offersAsValue L flag value = offersAsValue asciiLowerCase flag value := by
  unfold offersAsValue
  rw [lower_ascii L ascii, targetOf_ascii L plain]

/-- **An ASCII command contributes the same under any lower case.** -/
theorem contributions_ascii (ascii : ∀ token ∈ tokens, AsciiText token.text) :
    contributions L declaredTarget tokens = contributions asciiLowerCase declaredTarget tokens := by
  fun_induction contributions L declaredTarget tokens with
  | case1 => rfl
  | case2 token =>
    rw [contributions, offers_ascii L (ascii token mem_cons_self)]
  | case3 token next rest taken ih =>
    have first := ascii token mem_cons_self
    have second := ascii next (mem_cons_of_mem _ mem_cons_self)
    rw [contributions_takes asciiLowerCase declaredTarget next rest (takesNext_ascii L first ▸ taken),
      offers_ascii L first, offersAsValue_ascii L first second,
      ih fun token member => ascii token (mem_cons_of_mem _ (mem_cons_of_mem _ member))]
  | case4 token next rest taken ih =>
    have first := ascii token mem_cons_self
    rw [contributions_stands asciiLowerCase declaredTarget next rest (takesNext_ascii L first ▸ taken),
      offers_ascii L first, ih fun token member => ascii token (mem_cons_of_mem _ member)]

end TianGong.SecGuard
