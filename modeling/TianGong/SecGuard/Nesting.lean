/-
**Shell bodies are unwrapped.**

`nest` writes a command text as the body of shells in one another. `reaches` is the condition that the
stream of the text is found: the text is no flag, and the last flag of each shell is not a long one
that has no value attached, after which the walk over the flags takes the body for the flag's value.

* `subcommandShellBody_flags`: the walk over the flags of a shell.
* `nested_iff`: the stream of the text is found exactly on that condition, and then what a rule of
  self-destruction hits is hit.
-/

import Mathlib.Algebra.Ring.Nat
import TianGong.SecGuard.Quoting
import TianGong.SecGuard.Sequencing

namespace TianGong.SecGuard

open List Bool

/-! ### Shells -/

/-- A unit that a word holds as it is. -/
def isPlainUnit (c : UInt16) : Bool :=
  !(isQuote c || c == unit '\\' || isSpace c || isSeparator c || c == unit '(' || c == unit ')')

/-- A cluster of short flags: `-` and lower-case letters. -/
def isCluster (t : Text) : Bool := t.head? == some (unit '-') && t.tail ≠ [] && t.tail.all isLower

/-- A long flag that has no value attached, or `--`. -/
def isValueless (t : Text) : Bool := startsWith t (text "--") && !t.contains (unit '=')

/-- A long flag with its value attached. -/
def isAssigned (t : Text) : Bool := startsWith t (text "--") && t.contains (unit '=')

/-- A flag of a shell. -/
structure ShellFlag where
  text : Text
  kind : isCluster text = true ∨ isValueless text = true ∨ isAssigned text = true

/-- A flag as it stands in the command: quoted, when it holds a unit that needs it. -/
def ShellFlag.written (flag : ShellFlag) : Text :=
  if flag.text.all isPlainUnit then flag.text else quoted flag.text

/-- A shell with flags that ask it to run a body. -/
structure ShellLayer where
  shell : Text
  isShell : shell ∈ SUBCOMMAND_SHELLS
  flags : List ShellFlag
  armed : ∃ flag ∈ flags, isCluster flag.text = true ∧ flag.text.contains (unit 'c') = true

/-- `shell flags quoted(c)`. -/
def ShellLayer.wrap (layer : ShellLayer) (c : Text) : Text :=
  layer.shell ++ layer.flags.flatMap (fun flag => 32 :: flag.written) ++ 32 :: quoted c

/-- A text in shells, the outermost first. -/
def nest (layers : List ShellLayer) (c : Text) : Text := layers.foldr ShellLayer.wrap c

/-- The last flag before the body leaves the body alone. -/
def ShellLayer.endsWell (layer : ShellLayer) : Bool :=
  layer.flags.getLast?.all fun flag => !isValueless flag.text

/-- The condition that the stream of a text in shells is found. -/
def reaches (layers : List ShellLayer) (c : Text) : Bool :=
  layers.all ShellLayer.endsWell && (layers.isEmpty || !startsWith c (text "-"))

/-! ### Tokens -/

/-- **A plain word is one token.** -/
theorem word_plain {w more : Text} (plain : w.all isPlainUnit = true) (stops : Stops more) :
    word none (w ++ more) = (w, more) := by
  induction w with
  | nil => exact word_stops stops
  | cons c w ih =>
    rw [all_cons, and_eq_true] at plain
    have unit := plain.1
    simp only [isPlainUnit, not_eq_true', or_eq_false_iff, beq_eq_false_iff_ne] at unit
    obtain ⟨⟨⟨⟨⟨quote, escape⟩, space⟩, separator⟩, opens⟩, close⟩ := unit
    have goes : ¬ endsWord c (w ++ more) := by
      rintro (⟨-, next⟩ | ends)
      · -- No parenthesis follows: it is not plain, and nothing stops at one.
        cases w with
        | nil =>
          have stop := stops _ next
          exact absurd stop (by decide)
        | cons d w =>
          cases next
          rw [all_cons, and_eq_true] at plain
          exact absurd plain.2.1 (by decide)
      · rw [space, separator] at ends
        exact close (by simpa using ends)
    rw [cons_append, word_unit (by rw [quote]; decide) escape goes, ih plain.2]

variable (position : Bool) (layer : ShellLayer) (t : Text) (flag : ShellFlag) (c : Text)

theorem tokens_plain {c : UInt16} {w more : Text} (plain : (c :: w).all isPlainUnit = true)
    (dollar : c ≠ unit '$') (stops : Stops more) :
    tokens position (c :: w ++ more) = ⟨c :: w, position⟩ :: tokens false more := by
  have head := plain
  rw [all_cons, and_eq_true] at head
  have unit := head.1
  simp only [isPlainUnit, not_eq_true', or_eq_false_iff, beq_eq_false_iff_ne] at unit
  obtain ⟨⟨⟨⟨⟨quote, escape⟩, space⟩, separator⟩, opens⟩, close⟩ := unit
  have read : word none (c :: (w ++ more)) = (c :: w, more) := word_plain plain stops
  have taken : turn position c (w ++ more) = ([⟨c :: w, position⟩], false, more) := by
    unfold turn
    rw [if_neg (by rw [separator]; decide), if_neg (by rw [space]; decide),
      if_neg (fun substitution => dollar substitution.1), if_neg opens, if_neg close, read]
  rw [cons_append, tokens_cons, taken]
  rfl

theorem ShellFlag.dash : ∃ rest, flag.text = unit '-' :: rest := by
  obtain ⟨t, kind⟩ := flag
  have long (is : startsWith t (TianGong.text "--") = true) :
      ∃ rest, t = unit '-' :: rest := by
    obtain ⟨rest, rfl⟩ := List.isPrefixOf_iff_prefix.mp is
    exact ⟨unit '-' :: rest, rfl⟩
  rcases kind with cluster | valueless | assigned
  · cases t with
    | nil => cases cluster
    | cons c rest =>
      simp only [isCluster, List.head?_cons, and_eq_true, beq_iff_eq] at cluster
      exact ⟨rest, congrArg (fun d => d :: rest) (Option.some.inj cluster.1.1)⟩
  · exact long ((and_eq_true _ _).mp valueless).1
  · exact long ((and_eq_true _ _).mp assigned).1

theorem blank_stops : Stops (32 :: t) := by
  intro c found
  cases found
  decide

/-- **A flag is one token**, plain or quoted. -/
theorem ShellFlag.tokens_written {more : Text} (stops : Stops more) :
    tokens false (flag.written ++ more) = ⟨flag.text, false⟩ :: tokens false more := by
  unfold ShellFlag.written
  split
  · rename_i plain
    obtain ⟨rest, is⟩ := flag.dash
    rw [is] at plain ⊢
    exact tokens_plain false plain (by decide) stops
  · exact tokens_quoted false flag.text stops

theorem tokens_flags (flags : List ShellFlag) (c : Text) :
    tokens false (flags.flatMap (fun flag => 32 :: flag.written) ++ 32 :: quoted c) =
      flags.map (fun flag => ⟨flag.text, false⟩) ++ [⟨c, false⟩] := by
  induction flags with
  | nil =>
    show tokens false (32 :: quoted c) = [⟨c, false⟩]
    rw [tokens_cons]
    show tokens false (quoted c) = [⟨c, false⟩]
    have one := tokens_quoted false c stops_nil
    rwa [append_nil] at one
  | cons flag flags ih =>
    have stops : Stops (flags.flatMap (fun flag => 32 :: flag.written) ++ 32 :: quoted c) := by
      cases flags with
      | nil => exact blank_stops _
      | cons next flags => exact blank_stops _
    rw [flatMap_cons, append_assoc, cons_append, tokens_cons]
    show tokens false (flag.written ++ _) = _
    rw [flag.tokens_written stops, ih]
    rfl

theorem shell_plain : ∀ shell ∈ SUBCOMMAND_SHELLS, shell.all isPlainUnit = true ∧
    shell.head?.any (· ≠ unit '$') = true ∧ isPassed shell = false := by decide

/-- The tokens of a wrapped text. -/
def ShellLayer.tokens (layer : ShellLayer) (c : Text) : List TgSecToken :=
  ⟨layer.shell, true⟩ :: (layer.flags.map (fun flag => ⟨flag.text, false⟩) ++ [⟨c, false⟩])

theorem tokenize_wrap : tokenize (layer.wrap c) = layer.tokens c := by
  obtain ⟨plain, dollar, -⟩ := shell_plain layer.shell layer.isShell
  have stops : Stops (layer.flags.flatMap (fun flag => 32 :: flag.written) ++ 32 :: quoted c) := by
    cases layer.flags with
    | nil => exact blank_stops _
    | cons next flags => exact blank_stops _
  have read := tokens_flags layer.flags c
  unfold ShellLayer.wrap ShellLayer.tokens
  cases shell : layer.shell with
  | nil =>
    rw [shell] at dollar
    cases dollar
  | cons d rest =>
    rw [shell] at plain dollar
    rw [tokenize_eq, append_assoc, tokens_plain true plain (by simpa using dollar) stops, read]

/-- No token but the first is at a command position, and no walk over wrappers starts at it. -/
theorem streamOf_wrap : streamOf (layer.wrap c) = layer.tokens c := by
  have still (stream : List TgSecToken)
      (inside : ∀ token ∈ stream, token.commandPosition = false) :
      markWalks .none stream = stream := by
    induction stream with
    | nil => rfl
    | cons token stream ih =>
      have none : Walks.none.after token = .none := by
        unfold Walks.after
        rw [inside token mem_cons_self]
        split
        · rfl
        · split <;> rfl
      rw [markWalks, none, ih fun other isIn => inside other (mem_cons_of_mem _ isIn)]
      simp [Walks.none]
  obtain ⟨-, -, passed⟩ := shell_plain layer.shell layer.isShell
  have first : Walks.none.after ⟨layer.shell, true⟩ = .none := by
    simp only [isPassed, or_eq_false_iff, decide_eq_false_iff_not] at passed
    unfold Walks.after
    rw [if_neg passed.1, if_neg (by rw [passed.2]; decide)]
    rfl
  unfold streamOf
  rw [tokenize_wrap, withWrappersSkipped_eq]
  unfold ShellLayer.tokens
  rw [markWalks, first, still]
  · rfl
  · intro token isIn
    rcases List.mem_append.mp isIn with flag | body
    · obtain ⟨_, -, rfl⟩ := List.mem_map.mp flag
      rfl
    · rw [List.mem_singleton.mp body]

/-! ### The walk over the flags -/

/-- A text that is a flag to the walk. -/
def isFlag (t : Text) : Bool := startsWith t (text "-")

/-- A flag last: the walk finds no body. -/
theorem subcommandShellBody_flag {c : Text} (armed : Bool) (flag : isFlag c = true) :
    subcommandShellBody armed [⟨c, false⟩] = none := by
  rw [subcommandShellBody.eq_def]
  dsimp only
  rw [if_neg (by rw [show startsWith c (text "-") = true from flag]; decide)]
  split
  · split <;> rfl
  · rfl

theorem ShellFlag.isFlag : isFlag flag.text = true := by
  obtain ⟨rest, is⟩ := flag.dash
  rw [is]
  rfl

/-- **The walk over the flags of a shell**: it finds the body when a flag asked for it, unless the last
flag takes the body for its value, or the body is a flag itself. -/
theorem subcommandShellBody_flags (armed : Bool) (flags : List ShellFlag) (c : Text) :
    subcommandShellBody armed (flags.map (fun flag => ⟨flag.text, false⟩) ++ [⟨c, false⟩]) =
      if (flags.getLast?.all fun flag => !isValueless flag.text) && !TianGong.SecGuard.isFlag c &&
        (armed || flags.any fun flag => carriesCommand flag.text) then some c else none := by
  induction flags generalizing armed with
  | nil =>
    cases isFlag : TianGong.SecGuard.isFlag c with
    | true => exact subcommandShellBody_flag armed isFlag
    | false =>
      refine (shellBody_word [] (by rw [show startsWith c (text "-") = false from isFlag]; rfl)).trans ?_
      simp
  | cons flag flags ih =>
    have dash : ¬ (!startsWith flag.text (text "-")) = true := by
      rw [show startsWith flag.text (text "-") = true from flag.isFlag]
      decide
    rw [map_cons, cons_append]
    -- What the last of the flags is, when this one takes nothing for its value.
    have last (attached : isValueless flag.text = false) :
        (flag :: flags).getLast?.all (fun flag => !isValueless flag.text) =
          flags.getLast?.all fun flag => !isValueless flag.text := by
      cases flags with
      | nil =>
        show (!isValueless flag.text) = true
        rw [attached]
        rfl
      | cons next more => rfl
    by_cases long : startsWith flag.text (text "--") = true
    · have uncarried : carriesCommand flag.text = false := by
        obtain ⟨rest, is⟩ := List.isPrefixOf_iff_prefix.mp long
        rw [← is]
        rfl
      by_cases assigned : flag.text.contains (unit '=') = true
      · rw [shellBody_assigned _ dash long assigned, ih, last (by rw [isValueless, assigned]; simp),
          any_cons, uncarried, Bool.false_or]
      · rw [shellBody_long _ dash long assigned]
        have valueless : isValueless flag.text = true := by
          rw [isValueless, long, Bool.true_and, not_eq_true']
          exact Bool.eq_false_iff.mpr assigned
        cases flags with
        | nil =>
          show (if startsWith c (text "-") then subcommandShellBody armed [⟨c, false⟩]
            else subcommandShellBody armed []) = _
          rw [show ([flag].getLast?.all fun flag => !isValueless flag.text) = false by
            show (!isValueless flag.text) = false
            rw [valueless]
            rfl]
          by_cases isFlag : TianGong.SecGuard.isFlag c = true
          · rw [if_pos (show startsWith c (text "-") = true from isFlag), subcommandShellBody_flag armed isFlag]
            rfl
          · rw [if_neg (show ¬ startsWith c (text "-") = true from isFlag)]
            rfl
        | cons next more =>
          show (if startsWith next.text (text "-") then subcommandShellBody armed
              (⟨next.text, false⟩ :: (more.map _ ++ [⟨c, false⟩]))
            else subcommandShellBody armed (more.map _ ++ [⟨c, false⟩])) = _
          rw [if_pos (show startsWith next.text (text "-") = true from next.isFlag)]
          refine (ih armed).trans ?_
          rw [any_cons (a := flag), uncarried, Bool.false_or]
          rfl
    · rw [shellBody_cluster _ dash long, ih, last (by rw [isValueless, Bool.eq_false_iff.mpr long]; rfl),
        any_cons, Bool.or_assoc]

/-- A token that no walk starts at is all that a stream shows bodies by, when no other is at a command
position. -/
theorem shellBodies_head (token : TgSecToken) (rest : List TgSecToken)
    (inside : ∀ other ∈ rest, other.commandPosition = false) :
    shellBodies (token :: rest) = (bodyOf token rest).toList := by
  have none (stream : List TgSecToken) (inside : ∀ other ∈ stream, other.commandPosition = false) :
      shellBodies stream = [] := by
    rw [eq_nil_iff_forall_not_mem]
    intro body member
    obtain ⟨before, shell, more, rfl, found⟩ := mem_shellBodies.mp member
    rw [bodyOf, inside shell (by simp)] at found
    cases found
  cases rest with
  | nil =>
    unfold bodyOf
    split <;> rfl
  | cons next more =>
    rw [shellBodies, none _ inside, append_nil]
    unfold bodyOf
    split <;> rfl

/-- **The body of a wrapped text** is the text, when the last flag leaves it alone and it is no flag. -/
theorem shellBodies_layer :
    shellBodies (layer.tokens c) = if layer.endsWell && !isFlag c then [c] else [] := by
  have inside : ∀ other ∈ layer.flags.map (fun flag => (⟨flag.text, false⟩ : TgSecToken)) ++ [⟨c, false⟩],
      other.commandPosition = false := by
    intro other isIn
    rcases List.mem_append.mp isIn with flag | body
    · obtain ⟨_, -, rfl⟩ := List.mem_map.mp flag
      rfl
    · rw [List.mem_singleton.mp body]
  have asked : (layer.flags.any fun flag => carriesCommand flag.text) = true := by
    obtain ⟨flag, isIn, cluster, carries⟩ := layer.armed
    refine List.any_eq_true.mpr ⟨flag, isIn, ?_⟩
    obtain ⟨rest, is⟩ := flag.dash
    rw [is] at cluster carries ⊢
    simp only [isCluster, tail_cons, and_eq_true] at cluster
    simp only [carriesCommand, tail_cons, and_eq_true]
    refine ⟨⟨rfl, cluster.2⟩, ?_⟩
    rw [contains_cons] at carries
    exact ((or_eq_true _ _).mp carries).resolve_left (by decide)
  unfold ShellLayer.tokens ShellLayer.endsWell
  rw [shellBodies_head _ _ inside, bodyOf, List.contains_iff_mem.mpr layer.isShell, Bool.and_true,
    if_pos rfl, subcommandShellBody_flags, Bool.false_or, asked, Bool.and_true]
  split <;> rfl

/-- **The streams of a wrapped text**: its own, and those of the text. -/
theorem pushStreams_wrap (depth : Nat) (layer : ShellLayer) (c : Text) :
    pushStreams (depth + 1) (layer.wrap c) =
      layer.tokens c :: if layer.endsWell && !isFlag c then pushStreams depth c else [] := by
  show streamOf (layer.wrap c) :: (shellBodies (streamOf (layer.wrap c))).flatMap _ = _
  rw [streamOf_wrap, shellBodies_layer]
  split
  · rw [flatMap_cons, flatMap_nil, append_nil]
  · rfl

/-! ### The length of a stream -/

/-- The units of the tokens. -/
def weight (stream : List TgSecToken) : Nat := (stream.map fun token => token.text.length).sum

theorem word_weight (quote : Option UInt16) (t : Text) :
    (word quote t).1.length + (word quote t).2.length ≤ t.length := by
  fun_induction word quote t <;> simp_all <;> omega

theorem turn_weight (c : UInt16) (rest : Text) :
    weight (turn position c rest).1 + (turn position c rest).2.2.length ≤ rest.length + 1 := by
  have shorter := turn_shorter position c rest
  have read := word_weight none (c :: rest)
  unfold turn at shorter ⊢
  split_ifs at shorter ⊢ <;> simp only [weight, map_nil, sum_nil, map_cons,
    sum_cons, length_cons] at shorter read ⊢ <;> omega

/-- **The tokens hold no more units than the text.** -/
theorem weight_tokens : weight (tokens position t) ≤ t.length := by
  induction length : t.length using Nat.strong_induction_on generalizing position t with
  | h n ih =>
  cases t with
  | nil => simp [weight]
  | cons c rest =>
    have taken := turn_weight position c rest
    have shorter := turn_shorter position c rest
    have later := ih _ (by rw [← length, length_cons]; omega) (turn position c rest).2.1
      (turn position c rest).2.2 rfl
    rw [tokens_cons, ← length, length_cons]
    simp only [weight, map_append, sum_append] at taken later ⊢
    omega

theorem weight_streamOf : weight (streamOf t) ≤ t.length := by
  have same : weight (streamOf t) = weight (tokenize t) := by
    have texts := texts_markWalks .none (tokenize t)
    have lengths := congrArg (fun list => (list.map List.length).sum) texts
    rw [map_map, map_map] at lengths
    rw [streamOf, withWrappersSkipped_eq]
    exact lengths
  rw [same]
  exact weight_tokens true t

/-- A shell with a text that is no shorter makes another stream. -/
theorem tokens_ne_streamOf {outer c : Text} (longer : c.length ≤ outer.length) :
    streamOf c ≠ layer.tokens outer := by
  intro same
  have light := weight_streamOf c
  have named : 1 ≤ layer.shell.length := by
    have table : ∀ shell ∈ SUBCOMMAND_SHELLS, 1 ≤ shell.length := by decide
    exact table _ layer.isShell
  rw [same] at light
  simp only [weight, ShellLayer.tokens, map_cons, map_append, sum_cons,
    sum_append, map_nil, sum_nil] at light
  omega

theorem length_quoted : c.length ≤ (quoted c).length := by
  have units : c.length ≤ (c.flatMap quotedUnit).length := by
    induction c with
    | nil => exact le_rfl
    | cons d c ih =>
      have one : 1 ≤ (quotedUnit d).length := by
        unfold quotedUnit
        split
        · decide
        · exact le_rfl
      rw [flatMap_cons, length_append, length_cons]
      omega
  rw [quoted, length_cons, length_append]
  omega

variable (layers : List ShellLayer)

theorem length_nest (c : Text) : c.length ≤ (nest layers c).length := by
  induction layers with
  | nil => exact le_rfl
  | cons layer layers ih =>
    have longer := length_quoted (nest layers c)
    show c.length ≤ (layer.wrap (nest layers c)).length
    unfold ShellLayer.wrap
    rw [length_append, length_cons]
    omega

/-! ### Fork bombs -/

/-- The blanks of a quoted text are those of the text. -/
theorem filter_quotedUnits :
    (c.flatMap quotedUnit).filter (fun d => !isSpace d) =
      (c.filter fun d => !isSpace d).flatMap quotedUnit := by
  induction c with
  | nil => rfl
  | cons d c ih =>
    rw [flatMap_cons, filter_append, ih, filter_cons]
    by_cases quote : d = unit '\''
    · subst quote
      rfl
    · rw [quotedUnit, if_neg quote, filter_cons, filter_nil]
      split
      · rw [flatMap_cons, quotedUnit, if_neg quote]
      · rfl

/-- **Quoting hides no fork bomb.** -/
theorem hitsForkBomb_quoted {c : Text} (hit : hitsForkBomb c = true) :
    hitsForkBomb (quoted c) = true := by
  rw [hitsForkBomb_iff] at hit ⊢
  obtain ⟨before, after, parts⟩ := hit
  have inside : text ":()\x7b:|:&\x7d;:" <:+: (c.flatMap quotedUnit).filter fun d => !isSpace d := by
    rw [filter_quotedUnits, ← parts]
    refine ⟨before.flatMap quotedUnit, after.flatMap quotedUnit, ?_⟩
    rw [flatMap_append, flatMap_append]
    congr 1
  have quotes : (quoted c).filter (fun d => !isSpace d) =
      [unit '\''] ++ (c.flatMap quotedUnit).filter (fun d => !isSpace d) ++ [unit '\''] := by
    rw [quoted, filter_cons, filter_append]
    rfl
  rw [quotes]
  exact inside.trans ⟨[unit '\''], [unit '\''], rfl⟩

theorem hitsForkBomb_prepend (before : Text) {c : Text} (hit : hitsForkBomb c = true) :
    hitsForkBomb (before ++ c) = true := by
  rw [hitsForkBomb_iff] at hit ⊢
  rw [filter_append]
  exact hit.trans (suffix_append _ _).isInfix

theorem hitsForkBomb_nest {c : Text} (hit : hitsForkBomb c = true) :
    hitsForkBomb (nest layers c) = true := by
  induction layers with
  | nil => exact hit
  | cons layer layers ih =>
    have body := hitsForkBomb_prepend [32] (hitsForkBomb_quoted ih)
    exact hitsForkBomb_prepend (layer.shell ++ layer.flags.flatMap fun flag => 32 :: flag.written) body

/-! ### The main result -/

theorem isFlag_nest (c : Text) : isFlag (nest (layer :: layers) c) = false := by
  have table : ∀ shell ∈ SUBCOMMAND_SHELLS, shell ≠ [] ∧ isFlag shell = false := by decide
  obtain ⟨named, word⟩ := table _ layer.isShell
  show isFlag (layer.wrap _) = false
  unfold ShellLayer.wrap
  cases shell : layer.shell with
  | nil => exact absurd shell named
  | cons d rest =>
    rw [shell] at word
    exact word

/-- Of more than one shell, the outermost finds its body when its last flag leaves it alone. -/
theorem reaches_cons (next : ShellLayer) (layers : List ShellLayer) (c : Text) :
    reaches (layer :: next :: layers) c = (layer.endsWell && reaches (next :: layers) c) := by
  simp [reaches, Bool.and_assoc]

/-- **Shells that leave their bodies alone show the streams of the text**, down to the depth that is
left. -/
theorem nest_subset {depth : Nat} {layers : List ShellLayer} {c : Text}
    (within : layers.length ≤ depth) (reached : reaches layers c = true) :
    pushStreams (depth - layers.length) c ⊆ pushStreams depth (nest layers c) := by
  induction layers generalizing depth with
  | nil => exact fun stream isIn => isIn
  | cons layer layers ih =>
    obtain ⟨depth, rfl⟩ : ∃ less, depth = less + 1 := ⟨depth - 1, by
      rw [length_cons] at within
      omega⟩
    rw [length_cons, Nat.add_sub_add_right]
    rw [length_cons, Nat.add_le_add_iff_right] at within
    show _ ⊆ pushStreams (depth + 1) (layer.wrap (nest layers c))
    rw [pushStreams_wrap]
    intro stream isIn
    cases layers with
    | nil =>
      have alone : (layer.endsWell && !isFlag c) = true := by simpa [reaches, isFlag] using reached
      rw [nest, foldr_nil, if_pos alone]
      exact mem_cons_of_mem _ isIn
    | cons next layers =>
      rw [reaches_cons, and_eq_true] at reached
      rw [isFlag_nest, reached.1, if_pos (by decide)]
      exact mem_cons_of_mem _ (ih within reached.2 isIn)

/-- A shell that takes the body for the value of a flag hides the stream of the text. -/
theorem nest_hides (depth : Nat) {layers : List ShellLayer} {c : Text}
    (missed : reaches layers c = false) : streamOf c ∉ pushStreams depth (nest layers c) := by
  induction layers generalizing depth with
  | nil => cases missed
  | cons layer layers ih =>
    have other := tokens_ne_streamOf layer (length_nest layers c)
    intro isIn
    cases depth with
    | zero =>
      have only : streamOf c = streamOf (layer.wrap (nest layers c)) := List.mem_singleton.mp isIn
      rw [streamOf_wrap] at only
      exact other only
    | succ depth =>
      change _ ∈ pushStreams (depth + 1) (layer.wrap (nest layers c)) at isIn
      rw [pushStreams_wrap] at isIn
      rcases List.mem_cons.mp isIn with own | deeper
      · exact other own
      split at deeper
      · rename_i found
        cases layers with
        | nil =>
          have alone : (layer.endsWell && !isFlag c) = false := by simpa [reaches, isFlag] using missed
          rw [nest, foldr_nil, alone] at found
          cases found
        | cons next layers =>
          rw [and_eq_true] at found
          rw [reaches_cons, found.1, Bool.true_and] at missed
          exact ih depth missed deeper
      · cases deeper

/-- The shells are unwrapped: the stream of the text is found, and what a rule of self-destruction hits
in it, or in the shells within it as deep as is left, the rule hits in the shells around it. -/
def Unwrapped (L : LowerCase) (layers : List ShellLayer) (c : Text) : Prop :=
  streamOf c ∈ pushStreams TG_SEC_SUBCOMMAND_DEPTH_LIMIT (nest layers c) ∧
    (∀ rule : TgSecCommandGroup → Bool,
      (toCommands L (pushStreams (TG_SEC_SUBCOMMAND_DEPTH_LIMIT - layers.length) c)).any rule = true →
      (toCommands L (pushStreams TG_SEC_SUBCOMMAND_DEPTH_LIMIT (nest layers c))).any rule = true) ∧
    (hitsForkBomb (L.lower c) = true → hitsForkBomb (L.lower (nest layers c)) = true)

/-- **Shell bodies are unwrapped**, up to the depth limit, exactly when no shell takes the body for the
value of its last flag, and the text is no flag itself. Lower-casing changes letters only, so it makes
and hides no fork bomb. -/
theorem nested_iff (L : LowerCase) (letters : ∀ t, hitsForkBomb (L.lower t) = hitsForkBomb t)
    {layers : List ShellLayer} (within : layers.length ≤ TG_SEC_SUBCOMMAND_DEPTH_LIMIT) (c : Text) :
    Unwrapped L layers c ↔ reaches layers c = true := by
  constructor
  · rintro ⟨found, -⟩
    by_contra missed
    exact nest_hides _ (Bool.eq_false_iff.mpr missed) found
  · intro reached
    have streams := nest_subset within reached
    have first : streamOf c ∈ pushStreams (TG_SEC_SUBCOMMAND_DEPTH_LIMIT - layers.length) c := by
      cases TG_SEC_SUBCOMMAND_DEPTH_LIMIT - layers.length with
      | zero => exact mem_cons_self
      | succ depth => exact mem_cons_self
    refine ⟨streams first, fun rule hit => ?_, fun bomb => ?_⟩
    · simp only [toCommands, any_flatMap, any_eq_true] at hit ⊢
      obtain ⟨stream, isIn, has⟩ := hit
      exact ⟨stream, streams isIn, has⟩
    · rw [letters] at bomb ⊢
      exact hitsForkBomb_nest layers bomb

/-- Lower-casing ASCII makes and hides no fork bomb. -/
theorem hitsForkBomb_ascii : hitsForkBomb (asciiLowerCase.lower t) = hitsForkBomb t := by
  rw [Bool.eq_iff_iff, hitsForkBomb_iff, hitsForkBomb_iff]
  have lowered : (asciiLowerCase.lower t).filter (fun c => !isSpace c) =
      (t.filter fun c => !isSpace c).map lowerUnit := by
    show (t.map lowerUnit).filter _ = _
    rw [filter_map]
    congr 2
    funext c
    exact congrArg not (isSpace_lowerUnit c)
  have units : ∀ c ∈ text ":()\x7b:|:&\x7d;:", isLower c = false ∧ lowerUnit c = c := by
    have every : (text ":()\x7b:|:&\x7d;:").all (fun c => !isLower c && lowerUnit c == c) = true := by
      decide
    simpa using every
  have still : (text ":()\x7b:|:&\x7d;:").map lowerUnit = text ":()\x7b:|:&\x7d;:" :=
    (map_congr_left fun c isIn => (units c isIn).2).trans (map_id _)
  rw [lowered]
  constructor
  · intro within
    obtain ⟨before, after, parts⟩ := within
    obtain ⟨first, last, parted, firstIs, -⟩ := List.map_eq_append_iff.mp parts.symm
    obtain ⟨front, bomb, split, -, bombIs⟩ := List.map_eq_append_iff.mp firstIs
    have same : bomb = text ":()\x7b:|:&\x7d;:" := by
      refine ext_getElem? fun k => ?_
      have place := congrArg (fun list => list[k]?) bombIs
      simp only [List.getElem?_map] at place
      cases found : bomb[k]? with
      | none =>
        rw [found] at place
        exact place
      | some d =>
        rw [found] at place
        rw [← place]
        exact congrArg some (lowerUnit_eq rfl (units _ (mem_of_getElem? place.symm)).1)
    refine ⟨front, last, ?_⟩
    rw [parted, split, same]
  · intro within
    have mapped := within.map lowerUnit
    rwa [still] at mapped

/-- `sh -c --`. -/
def endOfOptions : ShellLayer where
  shell := text "sh"
  isShell := by decide
  flags := [⟨text "-c", by decide⟩, ⟨text "--", by decide⟩]
  armed := ⟨⟨text "-c", by decide⟩, by simp, by decide⟩

/-- `bash --norc -lc`. -/
def loginShell : ShellLayer where
  shell := text "bash"
  isShell := by decide
  flags := [⟨text "--norc", by decide⟩, ⟨text "-lc", by decide⟩]
  armed := ⟨⟨text "-lc", by decide⟩, by simp, by decide⟩

/-- The marker that ends the options takes the body for its value: the removal of the root is not seen. -/
theorem nest_endOfOptions :
    nest [endOfOptions] (text "rm -rf /") = text "sh -c -- 'rm -rf /'" ∧
      ¬Unwrapped asciiLowerCase [endOfOptions] (text "rm -rf /") ∧
      (toCommands asciiLowerCase [streamOf (text "rm -rf /")]).any hitsRmRoot = true ∧
      (toCommands asciiLowerCase (pushStreams TG_SEC_SUBCOMMAND_DEPTH_LIMIT
        (nest [endOfOptions] (text "rm -rf /")))).any destroys = false :=
  ⟨by decide, fun unwrapped => nest_hides _ (by decide) unwrapped.1,
    by decide +kernel, by decide +kernel⟩

theorem nested_login : Unwrapped asciiLowerCase [loginShell, loginShell] (text "rm -rf /") :=
  (nested_iff asciiLowerCase hitsForkBomb_ascii (by decide) (text "rm -rf /")).mpr (by decide)

end TianGong.SecGuard
