/-
**The walks over wrappers, from left to right.**

`withWrappersSkipped` starts a walk at every command position and marks the token it ends at. Here all
walks go on together, in one pass: a walk arrives at a token, or it arrives at the one after it (a
`timeout` steps over its duration). `withWrappersSkipped_eq` says that the one pass marks the same
tokens.

What a pass over a first list does to a second one is in the walks that go on after the first
(`markWalks_append`): one that arrives at the second list's first token changes nothing when that is
at a command position anyway, and one that arrives a token later does.
-/

import TianGong.SecGuard.CommandText

namespace TianGong.SecGuard

open List

/-- The walks that go on: one arrives at the next token, one at the token after it. -/
structure Walks where
  here : Bool
  beyond : Bool
  deriving DecidableEq

/-- No walk goes on. -/
def Walks.none : Walks := ⟨false, false⟩

/-- A token a walk passes over. -/
def isPassed (t : Text) : Bool := t = TIMEOUT_COMMAND || isWrapper t

/-- The walks that go on after a token. -/
def Walks.after (walks : Walks) (token : TgSecToken) : Walks :=
  if token.text = TIMEOUT_COMMAND then ⟨walks.beyond, walks.here || token.commandPosition⟩
  else if isWrapper token.text then
    ⟨walks.beyond || (walks.here || token.commandPosition), false⟩
  else ⟨walks.beyond, false⟩

/-- One pass: a token a walk ends at is marked. -/
def markWalks : Walks → List TgSecToken → List TgSecToken
  | _, [] => []
  | walks, token :: rest =>
    ⟨token.text, token.commandPosition || (walks.here && !isPassed token.text)⟩ ::
      markWalks (walks.after token) rest

/-- The walks that go on after some tokens. -/
def walksAfter (walks : Walks) (stream : List TgSecToken) : Walks := stream.foldl Walks.after walks

variable (walks : Walks)

theorem markWalks_append (first second : List TgSecToken) :
    markWalks walks (first ++ second) =
      markWalks walks first ++ markWalks (walksAfter walks first) second := by
  induction first generalizing walks with
  | nil => rfl
  | cons token rest ih =>
    rw [cons_append, markWalks, markWalks, ih]
    rfl

/-- **The pass keeps the texts.** -/
theorem texts_markWalks (stream : List TgSecToken) :
    (markWalks walks stream).map TgSecToken.text = stream.map TgSecToken.text := by
  induction stream generalizing walks with
  | nil => rfl
  | cons token rest ih => rw [markWalks, map_cons, map_cons, ih]

/-! ### Marks -/

/-- Mark a token, if told to. -/
def markIf (told : Bool) (k : Nat) (stream : List TgSecToken) : List TgSecToken :=
  if told then stream.modify k fun token => { token with commandPosition := true } else stream

variable (told : Bool) (k : Nat) (rest : List TgSecToken)

@[simp] theorem markIf_false (stream : List TgSecToken) : markIf false k stream = stream := rfl

@[simp] theorem markIf_nil : markIf told k [] = [] := by
  unfold markIf
  split
  · exact modify_nil _ _
  · rfl

theorem markIf_zero (token : TgSecToken) (rest : List TgSecToken) :
    markIf told 0 (token :: rest) = ⟨token.text, token.commandPosition || told⟩ :: rest := by
  cases told with
  | false => simp [markIf]
  | true => simp [markIf]

theorem markIf_succ (token : TgSecToken) (rest : List TgSecToken) :
    markIf told (k + 1) (token :: rest) = token :: markIf told k rest := by
  cases told <;> rfl

theorem texts_markIf (stream : List TgSecToken) :
    (markIf told k stream).map TgSecToken.text = stream.map TgSecToken.text := by
  induction stream generalizing k with
  | nil => rw [markIf_nil]
  | cons token rest ih =>
    cases k with
    | zero =>
      rw [markIf_zero]
      rfl
    | succ k => rw [markIf_succ, map_cons, map_cons, ih]

/-- Marks commute. -/
theorem markIf_comm (first second : Bool) (j k : Nat) (stream : List TgSecToken) :
    markIf first j (markIf second k stream) = markIf second k (markIf first j stream) := by
  induction stream generalizing j k with
  | nil => simp only [markIf_nil]
  | cons token rest ih =>
    cases j <;> cases k <;> simp only [markIf_zero, markIf_succ, ih]
    rw [Bool.or_right_comm]

/-- A token is marked when one of two marks is told to. -/
theorem markIf_markIf (first second : Bool) (k : Nat) (stream : List TgSecToken) :
    markIf first k (markIf second k stream) = markIf (first || second) k stream := by
  induction stream generalizing k with
  | nil => simp only [markIf_nil]
  | cons token rest ih =>
    cases k with
    | zero => rw [markIf_zero, markIf_zero, markIf_zero, Bool.or_assoc, Bool.or_comm second]
    | succ k => rw [markIf_succ, markIf_succ, markIf_succ, ih]

/-! ### One walk -/

theorem wrapperRun_timeout {token : TgSecToken} (timeout : token.text = TIMEOUT_COMMAND) :
    wrapperRun (token :: rest) = wrapperRun rest.tail + 2 := by
  rw [wrapperRun.eq_def]
  dsimp only
  rw [if_pos timeout]
  cases rest <;> rfl

theorem wrapperRun_wrapper {token : TgSecToken} (timeout : token.text ≠ TIMEOUT_COMMAND)
    (wrapper : isWrapper token.text = true) : wrapperRun (token :: rest) = wrapperRun rest + 1 := by
  rw [wrapperRun.eq_def]
  dsimp only
  rw [if_neg timeout, if_pos wrapper]

theorem wrapperRun_plain {token : TgSecToken} (timeout : token.text ≠ TIMEOUT_COMMAND)
    (wrapper : ¬isWrapper token.text = true) : wrapperRun (token :: rest) = 0 := by
  rw [wrapperRun.eq_def]
  dsimp only
  rw [if_neg timeout, if_neg wrapper]

/-- How far a walk goes is a matter of the texts. -/
theorem wrapperRun_congr {first second : List TgSecToken}
    (same : first.map TgSecToken.text = second.map TgSecToken.text) :
    wrapperRun first = wrapperRun second := by
  induction length : first.length using Nat.strong_induction_on generalizing first second with
  | h n ih =>
    subst length
    cases first with
    | nil =>
      cases second with
      | nil => rfl
      | cons token rest => cases same
    | cons token rest =>
      cases second with
      | nil => cases same
      | cons token' rest' =>
        obtain ⟨head, tail⟩ := List.cons.inj same
        by_cases timeout : token.text = TIMEOUT_COMMAND
        · have tails : rest.tail.map TgSecToken.text = rest'.tail.map TgSecToken.text := by
            rw [map_tail, tail, ← map_tail]
          have shorter : rest.tail.length < (token :: rest).length := by
            simp only [length_tail, length_cons]
            omega
          rw [wrapperRun_timeout rest timeout, wrapperRun_timeout rest' (head ▸ timeout),
            ih _ shorter tails rfl]
        by_cases wrapper : isWrapper token.text = true
        · rw [wrapperRun_wrapper rest timeout wrapper,
            wrapperRun_wrapper rest' (head ▸ timeout) (head ▸ wrapper),
            ih rest.length (by simp) tail rfl]
        · rw [wrapperRun_plain rest timeout wrapper,
            wrapperRun_plain rest' (head ▸ timeout) (head ▸ wrapper)]

/-! ### All walks -/

/-- The marks of the walks that have started: where each of them ends. -/
def marked (walks : Walks) (rest : List TgSecToken) : List TgSecToken :=
  markIf walks.beyond (wrapperRun rest.tail + 1) (markIf walks.here (wrapperRun rest) rest)

/-- The marks of the walk that starts at a token that is already marked. -/
def startWalk (token : TgSecToken) (run : Nat) (rest : List TgSecToken) : List TgSecToken :=
  markIf (token.commandPosition && run > 0) (run - 1) rest

/-- **One step of the pass**: the walks that have started leave their marks behind the token, and the walk
that starts at it adds its own. -/
theorem marked_cons (token : TgSecToken) (rest : List TgSecToken) :
    ∃ behind, marked walks (token :: rest) =
        ⟨token.text, token.commandPosition || (walks.here && !isPassed token.text)⟩ :: behind ∧
      behind.map TgSecToken.text = rest.map TgSecToken.text ∧
      startWalk ⟨token.text, token.commandPosition || (walks.here && !isPassed token.text)⟩
        (wrapperRun (token :: rest)) behind = marked (walks.after token) rest := by
  unfold marked startWalk
  rw [tail_cons, markIf_comm]
  by_cases timeout : token.text = TIMEOUT_COMMAND
  · have passed : isPassed token.text = true := by simp [isPassed, timeout]
    rw [wrapperRun_timeout rest timeout, markIf_succ, markIf_succ, Walks.after, if_pos timeout, passed]
    simp only [Bool.not_true, Bool.and_false, Bool.or_false, Nat.add_one_sub_one, gt_iff_lt,
      Nat.zero_lt_succ, decide_true, Bool.and_true]
    refine ⟨_, rfl, by rw [texts_markIf, texts_markIf], ?_⟩
    rw [markIf_markIf, Bool.or_comm]
  by_cases wrapper : isWrapper token.text = true
  · have passed : isPassed token.text = true := by simp [isPassed, wrapper]
    rw [wrapperRun_wrapper rest timeout wrapper, markIf_succ, markIf_succ, Walks.after,
      if_neg timeout, if_pos wrapper, passed]
    simp only [Bool.not_true, Bool.and_false, Bool.or_false, Nat.add_one_sub_one, gt_iff_lt,
      Nat.zero_lt_succ, decide_true, Bool.and_true, markIf_false]
    refine ⟨_, rfl, by rw [texts_markIf, texts_markIf], ?_⟩
    rw [markIf_markIf, markIf_markIf]
    congr 1
    grind
  · have passed : isPassed token.text = false := by simp [isPassed, timeout, wrapper]
    rw [wrapperRun_plain rest timeout wrapper, markIf_succ, markIf_zero, Walks.after, if_neg timeout,
      if_neg wrapper, passed]
    simp only [Bool.not_false, Bool.and_true, gt_iff_lt, lt_self_iff_false, decide_false,
      Bool.and_false, markIf_false]
    exact ⟨_, rfl, by rw [texts_markIf], rfl⟩

theorem markIf_append (done rest : List TgSecToken) :
    markIf told (done.length + k) (done ++ rest) = done ++ markIf told k rest := by
  induction done with
  | nil => rw [length_nil, Nat.zero_add, nil_append, nil_append]
  | cons token done ih =>
    rw [length_cons, Nat.add_right_comm, cons_append, markIf_succ, ih, cons_append]

/-- A turn of the loop: the walk that starts at the next token leaves its mark. -/
theorem skipLoop_succ (count : Nat) (done : List TgSecToken) (token : TgSecToken)
    (rest : List TgSecToken) :
    skipLoop (count + 1) done.length (done ++ token :: rest) =
      skipLoop count (done.length + 1)
        (done ++ token :: startWalk token (wrapperRun (token :: rest)) rest) := by
  have here : (done ++ token :: rest)[done.length]? = some token := by simp
  have from_ : (done ++ token :: rest).drop done.length = token :: rest := by simp
  rw [skipLoop, here, from_]
  refine congrArg (skipLoop count (done.length + 1)) ?_
  show markIf _ _ _ = _
  rw [markIf_append, Option.any_some]
  unfold startWalk
  cases run : wrapperRun (token :: rest) with
  | zero => simp
  | succ run => simp [markIf_succ]

/-- The loop does what the one pass does, with the walks that have started in its marks. -/
theorem skipLoop_eq (done rest : List TgSecToken) :
    skipLoop rest.length done.length (done ++ marked walks rest) = done ++ markWalks walks rest := by
  induction rest generalizing walks done with
  | nil =>
    unfold marked
    rw [markIf_nil, markIf_nil]
    rfl
  | cons token rest ih =>
    obtain ⟨behind, split, texts, step⟩ := marked_cons walks token rest
    have run : wrapperRun (⟨token.text, token.commandPosition || (walks.here &&
        !isPassed token.text)⟩ :: behind) = wrapperRun (token :: rest) :=
      wrapperRun_congr (by rw [map_cons, map_cons, texts])
    have later := ih (walks.after token) (done ++ [⟨token.text, token.commandPosition ||
      (walks.here && !isPassed token.text)⟩])
    rw [length_append, append_assoc, append_assoc] at later
    rw [split, length_cons, skipLoop_succ, run, step, markWalks]
    exact later

/-- **The loop over wrappers is one pass from left to right.** -/
theorem withWrappersSkipped_eq (stream : List TgSecToken) :
    withWrappersSkipped stream = markWalks .none stream :=
  skipLoop_eq .none [] stream

end TianGong.SecGuard
