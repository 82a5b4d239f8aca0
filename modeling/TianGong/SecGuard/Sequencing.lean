/-
**Hard deny under command sequencing.**

A destructive command `c` stays denied in `p;c`, `p && c`, `p | c`, `c;s`, `(c)`, `echo $(c)` and
`sudo c`, and on a line of its own, unless the walk over wrappers leaves `p` in a `timeout` that
lacks its duration. That walk steps over the separator and the name of `c`, and the arguments of `c`
become a command of their own.

* `hardDeny_sequenced_iff`: what precedes or follows a separator hides no destructive command exactly
  when `p` does not end in such a `timeout`, or is denied itself.
* `hardDeny_loses_sequenced`: `timeout;rm -rf /` is not denied.
-/

import TianGong.SecGuard.Streams
import TianGong.SecGuard.Wrappers

namespace TianGong.SecGuard

open TianGong.Json
open List

/-! ### A string argument -/

/-- The place of one string in an arguments tree. -/
inductive Slot where
  | here
  | item (before after : List (Json Unit)) (inner : Slot)
  | field (before after : List (Text × Json Unit)) (key : Text) (inner : Slot)

/-- The tree with a value at the place. -/
def Slot.fill : Slot → Json Unit → Json Unit
  | .here, x => x
  | .item before after inner, x => .array () (before ++ inner.fill x :: after)
  | .field before after key inner, x => .object () (before ++ (key, inner.fill x) :: after)

theorem mem_around {α : Type} {before after : List α} {a x : α} :
    x ∈ before ++ a :: after ↔ x ∈ before ++ after ∨ x = a := by
  simp only [mem_append, mem_cons]
  tauto

section Slots

variable (L : LowerCase)

theorem collectItems_append (role : ParameterRole) (first second : List (Json Unit)) :
    collectItems L role (first ++ second) = collectItems L role first ++ collectItems L role second := by
  induction first with
  | nil => rfl
  | cons x rest ih => rw [cons_append, collectItems, collectItems, ih, append_assoc]

theorem collectFields_append (first second : List (Text × Json Unit)) :
    collectFields L (first ++ second) = collectFields L first ++ collectFields L second := by
  induction first with
  | nil => rfl
  | cons field rest ih =>
    obtain ⟨key, x⟩ := field
    rw [cons_append, collectFields, collectFields, ih, append_assoc]

/-- **The strings of a tree, around one place**: the string there, with the role of its key, and others
that do not depend on it. -/
theorem collectValues_fill (role : ParameterRole) (slot : Slot) :
    ∃ before after found, ∀ t : Text,
      collectValues L role (slot.fill (.string t)) = before ++ (t, found) :: after := by
  induction slot generalizing role with
  | here => exact ⟨[], [], role, fun t => rfl⟩
  | item first last inner ih =>
    obtain ⟨before, after, found, same⟩ := ih role
    refine ⟨collectItems L role first ++ before, after ++ collectItems L role last, found, fun t => ?_⟩
    rw [Slot.fill, collectValues, collectItems_append, collectItems, same]
    simp
  | field first last key inner ih =>
    obtain ⟨before, after, found, same⟩ := ih (parameterRole L key)
    refine ⟨collectFields L first ++ before, after ++ collectFields L last, found, fun t => ?_⟩
    rw [Slot.fill, collectValues, collectFields_append, collectFields, same]
    simp

end Slots

/-! ### The fork bomb -/

theorem includes_iff (t part : Text) : includes t part = true ↔ part <:+: t := by
  unfold includes indexOf
  rw [List.find?_isSome]
  constructor
  · rintro ⟨i, -, found⟩
    exact (List.isPrefixOf_iff_prefix.mp found).isInfix.trans (drop_suffix i t).isInfix
  · rintro ⟨before, after, rfl⟩
    refine ⟨before.length, List.mem_range.mpr (by simp only [length_append]; omega), ?_⟩
    rw [List.isPrefixOf_iff_prefix, append_assoc, drop_left]
    exact prefix_append _ _

/-- A part that ends in a unit that the second text lacks is in the first. -/
theorem infix_of_last {part first second : Text} {c : UInt16} (lacks : c ∉ second)
    (inside : part ++ [c] <:+: first ++ second) : part ++ [c] <:+: first := by
  obtain ⟨before, after, same⟩ := inside
  rcases List.append_eq_append_iff.mp same with ⟨more, rfl, -⟩ | ⟨more, split, last⟩
  · exact ⟨before, more, rfl⟩
  · rcases eq_nil_or_concat more with rfl | ⟨init, d, rfl⟩
    · rw [append_nil] at split
      exact ⟨before, [], by rw [append_nil, split]⟩
    · rw [← append_assoc, concat_eq_append, ← append_assoc] at split
      obtain rfl : c = d := (append_inj' split rfl).2 |> List.singleton_inj.mp
      exact absurd (last ▸ by simp) lacks

theorem hitsForkBomb_iff (value : Text) :
    hitsForkBomb value = true ↔ text ":()\x7b:|:&\x7d;:" <:+: value.filter fun c => !isSpace c :=
  includes_iff _ _

theorem hitsForkBomb_append {value : Text} (more : Text) (hit : hitsForkBomb value = true) :
    hitsForkBomb (value ++ more) = true := by
  rw [hitsForkBomb_iff] at hit ⊢
  rw [filter_append]
  exact hit.trans (prefix_append _ _).isInfix

/-! ### The ways to put texts together -/

/-- What the texts are put together with. -/
def SEPARATORS : List Text := [";", " && ", " | ", "\n"].map text

/-- The texts a command `c` comes in, after a text `p` or before a text `s`. -/
def sequenced (p c s : Text) : List Text :=
  [p ++ text ";" ++ c, p ++ text " && " ++ c, p ++ text " | " ++ c, p ++ text "\n" ++ c,
    c ++ text ";" ++ s, text "(" ++ c ++ text ")", text "echo $(" ++ c ++ text ")",
    text "sudo " ++ c]

/-- The text ends in a `timeout` that a walk over wrappers stands on. -/
def danglingTimeout (p : Text) : Bool := (walksAfter .none (tokenize p)).beyond

variable {c p separator : Text} {stream : List TgSecToken}

theorem separates_of_mem (member : separator ∈ SEPARATORS) : Separates separator := by
  simp only [SEPARATORS, map_cons, map_nil, mem_cons, not_mem_nil, or_false]
    at member
  rcases member with rfl | rfl | rfl | rfl
  · exact separates_semicolon
  · exact separates_and
  · exact separates_pipe
  · exact separates_newline

theorem separator_uncased : ∀ separator ∈ SEPARATORS, ∃ c more, separator = c :: more ∧
    isUncased c = true := by
  intro separator member
  have table : ∀ separator ∈ SEPARATORS, separator.head?.any isUncased = true := by decide
  have first := table separator member
  cases separator with
  | nil => cases first
  | cons c more => exact ⟨c, more, rfl, first⟩

theorem opens_markWalks (walks : Walks) (opens : Opens stream) :
    Opens (markWalks walks stream) := by
  cases stream with
  | nil => exact opens
  | cons token rest =>
    intro found same
    cases same
    show (token.commandPosition || _) = true
    rw [opens token rfl, Bool.true_or]

/-- **A walk that arrives at a token at a command position changes nothing.** -/
theorem markWalks_opens (here : Bool) (opens : Opens stream) :
    markWalks ⟨here, false⟩ stream = markWalks .none stream := by
  cases stream with
  | nil => rfl
  | cons token rest =>
    have starts := opens token rfl
    have same : Walks.after ⟨here, false⟩ token = Walks.after .none token := by
      unfold Walks.after
      simp [starts, Walks.none]
    rw [markWalks, markWalks, same, starts, Bool.true_or, Bool.true_or]

theorem streamOf_eq (t : Text) : streamOf t = markWalks .none (tokenize t) :=
  withWrappersSkipped_eq (tokenize t)

theorem streamOf_opens (t : Text) : Opens (streamOf t) := by
  rw [streamOf_eq]
  exact opens_markWalks _ (tokenize_opens t)

/-- The stream of two texts put together. -/
theorem streamOf_separated (t : Text) (outside : endsOutside none p = true)
    (member : separator ∈ SEPARATORS) :
    streamOf (p ++ separator ++ t) =
      streamOf p ++ markWalks (walksAfter .none (tokenize p)) (tokenize t) := by
  rw [streamOf_eq, streamOf_eq, tokenize_separated t outside (separates_of_mem member),
    markWalks_append]

/-- **After a text with no dangling `timeout`, a text keeps its stream.** -/
theorem streamOf_separated_kept (t : Text) (outside : endsOutside none p = true)
    (member : separator ∈ SEPARATORS) (settled : danglingTimeout p = false) :
    streamOf (p ++ separator ++ t) = streamOf p ++ streamOf t := by
  have walks : walksAfter .none (tokenize p) = ⟨(walksAfter .none (tokenize p)).here, false⟩ := by
    rw [← settled]
    rfl
  rw [streamOf_separated t outside member, walks, markWalks_opens _ (tokenize_opens t), streamOf_eq t]

theorem streamOf_subshell (outside : endsOutside none c = true) :
    streamOf (text "(" ++ c ++ text ")") = streamOf c := by
  rw [streamOf, tokenize_subshell outside, streamOf]

theorem streamOf_substitution (outside : endsOutside none c = true) :
    streamOf (text "echo $(" ++ c ++ text ")") = [⟨text "echo", true⟩] ++ streamOf c := by
  have settled : walksAfter .none [⟨text "echo", true⟩] = .none := by decide
  have own : markWalks .none [⟨text "echo", true⟩] = [⟨text "echo", true⟩] := by decide
  rw [streamOf_eq, tokenize_substitution outside, ← singleton_append, markWalks_append, settled,
    own, streamOf_eq]

/-! ### Behind `sudo` -/

/-- A name a destructive command can have. -/
def destructiveName (head : Text) : Bool :=
  head = text "rm" || head = text "dd" || mkfsHead head || POWER_COMMANDS.contains head

theorem destructiveName_of_destroys {command : TgSecCommandGroup}
    (hit : destroys command = true) : destructiveName command.head = true := by
  simp only [destroys, hitsRmRoot, hitsRmHome, destructiveHead, hitsDdDevice, Bool.or_eq_true,
    Bool.and_eq_true, decide_eq_true_eq] at hit
  simp only [destructiveName, Bool.or_eq_true, decide_eq_true_eq]
  rcases hit with (root | home) | head
  · exact .inl (.inl (.inl root.1))
  · exact .inl (.inl (.inl home.1.1))
  · split_ifs at head with mkfs device power
    · exact .inl (.inr mkfs)
    · exact .inl (.inl (.inr device.1))
    · exact .inr power
    · cases head

/-- No destructive name has an equals sign. -/
theorem destructiveName_plain {head : Text} (name : destructiveName head = true) :
    unit '=' ∉ head := by
  simp only [destructiveName, Bool.or_eq_true, decide_eq_true_eq, contains_iff_mem] at name
  rcases name with ((rfl | rfl) | mkfs) | power
  · decide
  · decide
  · unfold mkfsHead at mkfs
    simp only [Bool.and_eq_true] at mkfs
    obtain ⟨rest, rfl⟩ := List.isPrefixOf_iff_prefix.mp mkfs.1
    have tail := mkfs.2
    rw [show (text "mkfs" ++ rest).drop 4 = rest from rfl] at tail
    intro member
    rcases List.mem_append.mp member with first | later
    · revert first
      decide
    · cases rest with
      | nil => cases later
      | cons c suffix =>
        simp only [Bool.and_eq_true, beq_iff_eq, all_eq_true] at tail
        rcases mem_cons.mp later with same | inside
        · rw [tail.1.1] at same
          revert same
          decide
        · exact absurd (tail.2 _ inside) (by decide)
  · have table : ∀ name ∈ POWER_COMMANDS, unit '=' ∉ name := by decide
    exact table head power

variable {t : Text} (L : LowerCase)

/-- An assignment has an equals sign. -/
theorem mem_of_assignment (assigned : assignment t = true) : unit '=' ∈ t := by
  cases t with
  | nil => cases assigned
  | cons c rest =>
    simp only [assignment, Bool.and_eq_true, beq_iff_eq] at assigned
    exact mem_cons_of_mem _ ((dropWhile_suffix isWord).subset
      (mem_of_head? assigned.2))

/-- The wrappers are ASCII and name no destructive command, and a shell is no wrapper. -/
theorem wrappers_table :
    (∀ t ∈ TIMEOUT_COMMAND :: WRAPPER_COMMANDS, t.all isAscii = true ∧
      destructiveName (t.map lowerUnit) = false) ∧
    ∀ t ∈ SUBCOMMAND_SHELLS, isPassed t = false := by
  decide +kernel

/-- **A token a walk passes over names no destructive command.** -/
theorem not_destructiveName_of_isPassed (passed : isPassed t = true) :
    destructiveName (L.lower t) = false := by
  have table := wrappers_table.1
  have listed : t ∈ TIMEOUT_COMMAND :: WRAPPER_COMMANDS → destructiveName (L.lower t) = false := by
    intro member
    rw [L.ascii t (all_eq_true.mp (table t member).1)]
    exact (table t member).2
  simp only [isPassed, isWrapper, Bool.or_eq_true, decide_eq_true_eq, contains_iff_mem] at passed
  rcases passed with rfl | wrapper | assigned
  · exact listed mem_cons_self
  · exact listed (mem_cons_of_mem _ wrapper)
  · obtain ⟨before, after, rfl⟩ := append_of_mem (mem_of_assignment assigned)
    rw [L.uncased before (unit '=') after (by decide)]
    by_contra named
    exact destructiveName_plain (by simpa using named) (by simp)

/-- A token a walk passes over is no shell. -/
theorem not_shell_of_isPassed (passed : isPassed t = true) :
    SUBCOMMAND_SHELLS.contains t = false := by
  by_contra shell
  rw [wrappers_table.2 t (by simpa using shell)] at passed
  cases passed

/-- **`sudo` before a command hides nothing destructive in it.** The walk that starts at `sudo` marks what
the walk of the command marks, apart from a wrapper the command starts with. -/
theorem textDestroys_sudo (shown : TextDestroys L (streamOf c)) :
    TextDestroys L (streamOf (text "sudo " ++ c)) := by
  have first : walksAfter .none [⟨text "sudo", true⟩] = ⟨true, false⟩ := by decide
  have own : markWalks .none [⟨text "sudo", true⟩] = [⟨text "sudo", true⟩] := by decide
  rw [streamOf_eq, tokenize_sudo, ← singleton_append, markWalks_append, first, own]
  rw [streamOf_eq] at shown
  rcases tokens_first c with ⟨opens, same | ⟨name, rest, read, joined⟩⟩
  · rw [same, markWalks_opens true opens]
    exact shows_append_right (opens_markWalks _ opens) shown
  · rw [tokenize_eq, read, markWalks] at shown
    rw [joined, markWalks]
    have walks : Walks.after ⟨true, false⟩ ⟨name, false⟩ = Walks.after .none ⟨name, true⟩ := by
      unfold Walks.after
      simp [Walks.none]
    rw [walks]
    set behind := markWalks (Walks.after .none ⟨name, true⟩) rest
    simp only [Bool.true_or, Bool.false_or, Bool.true_and] at shown ⊢
    by_cases passed : isPassed name = true
    · rw [passed, Bool.not_true]
      obtain ⟨group, groups, split⟩ := splitCommands_cons behind
      rcases shown with ⟨command, member, destroyed⟩ | ⟨body, member, destroyed⟩
      · rw [split, mem_cons] at member
        refine .inl ⟨command, ?_, destroyed⟩
        rw [singleton_append, splitCommands_join _ rfl (split ⟨name, false⟩)]
        refine mem_cons_of_mem _ (member.resolve_left ?_)
        rintro rfl
        have named := destructiveName_of_destroys destroyed
        rw [show (commandGroup L (⟨name, true⟩ :: group)).head = L.lower name from rfl,
          not_destructiveName_of_isPassed L passed] at named
        cases named
      · refine .inr ⟨body, ?_, destroyed⟩
        obtain ⟨before, token, later, same, found⟩ := mem_shellBodies.mp member
        cases before with
        | nil =>
          cases same
          rw [bodyOf, not_shell_of_isPassed passed, Bool.and_false, if_neg Bool.false_ne_true] at found
          cases found
        | cons head before =>
          obtain ⟨-, tail⟩ := List.cons.inj same
          refine mem_shellBodies.mpr ⟨⟨text "sudo", true⟩ :: ⟨name, false⟩ :: before, token, later, ?_,
            found⟩
          rw [tail]
          rfl
    · have marked : (!isPassed name) = true := by simpa using passed
      rw [marked]
      exact shows_append_right (fun token found => by cases found; rfl) shown

/-! ### A command that is lost -/

/-- The command that is lost. -/
def rmRootText : Text := text "rm -rf /"

/-- The tokens of the command. -/
def rmRootCommand : List TgSecToken := [⟨text "rm", true⟩, ⟨text "-rf", false⟩, ⟨text "/", false⟩]

variable {command : List TgSecToken} (hostAddresses : List Text)

theorem commandGroup_ascii (ascii : ∀ token ∈ command, AsciiText token.text) :
    commandGroup L command = commandGroup asciiLowerCase command := by
  unfold commandGroup
  have tokens : command.map (fun token => L.lower token.text) =
      command.map fun token => asciiLowerCase.lower token.text :=
    map_congr_left fun token member => lower_ascii L (ascii token member)
  rw [tokens]

/-- An ASCII command that contributes nothing and destroys nothing is not denied. -/
theorem not_commandDenied (ascii : ∀ token ∈ command, AsciiText token.text)
    (silent : ∀ declaredTarget, contributions asciiLowerCase declaredTarget command =
      command.map fun _ => none)
    (harmless : destroys (commandGroup asciiLowerCase command) = false) (role : ParameterRole)
    (declaredTarget : Bool) : ¬CommandDenied L hostAddresses role declaredTarget command := by
  rintro (⟨-, host, found, -⟩ | destroyed)
  · rw [contributions_ascii L declaredTarget ascii, silent] at found
    simp at found
  · rw [Destroys, commandGroup_ascii L ascii, harmless] at destroyed
    cases destroyed

/-- What is left of `rm -rf /` when a walk stepped over `rm`: a command with no arguments, and arguments
with no command. -/
def steppedOver : List TgSecToken := [⟨text "rm", true⟩, ⟨text "-rf", true⟩, ⟨text "/", false⟩]

/-- The commands that are left, and those of the bodies they could make. -/
def leftCommands : List (List TgSecToken) :=
  [[⟨text "rm", true⟩], [⟨text "-rf", true⟩, ⟨text "/", false⟩], [⟨text "/", true⟩]]

/-- How the tokenizer reads `rm -rf /`, alone and after a dangling `timeout`. -/
theorem rmRoot_tokens : endsOutside none rmRootText = true ∧ streamOf rmRootText = rmRootCommand ∧
    ∀ here, markWalks ⟨here, true⟩ (tokenize rmRootText) = steppedOver := by
  decide +kernel

set_option synthInstance.maxSize 400 in
/-- The commands that are left destroy nothing and name no host, and the bodies of what was stepped over
are among them; the whole command names no host and removes the root. -/
theorem leftCommands_table :
    (∀ command ∈ leftCommands, (∀ token ∈ command, token.text.all isAscii = true) ∧
      (∀ declaredTarget, contributions asciiLowerCase declaredTarget command =
        command.map fun _ => none) ∧
      destroys (commandGroup asciiLowerCase command) = false) ∧
    (∀ token ∈ steppedOver, startsWith token.text (text "-") = false →
      ∀ stream ∈ pushStreams 1 token.text, ∀ command ∈ splitCommands stream,
        command ∈ leftCommands) ∧
    (∀ declaredTarget, contributions asciiLowerCase declaredTarget rmRootCommand =
      rmRootCommand.map fun _ => none) ∧
    hitsRmRoot (commandGroup asciiLowerCase rmRootCommand) = true := by
  decide +kernel

theorem leftCommands_not_denied (role : ParameterRole) (declaredTarget : Bool)
    (member : command ∈ leftCommands) :
    ¬CommandDenied L hostAddresses role declaredTarget command := by
  obtain ⟨ascii, silent, harmless⟩ := leftCommands_table.1 command member
  exact not_commandDenied L hostAddresses
    (fun token inside => all_eq_true.mp (ascii token inside)) silent harmless role declaredTarget

/-- **What is left of the command adds no denial.** -/
theorem streamDenied_steppedOver (role : ParameterRole)
    (denied : StreamDenied L hostAddresses role (stream ++ steppedOver)) :
    StreamDenied L hostAddresses role stream := by
  have opens : Opens steppedOver := fun token found => by cases found; rfl
  rcases shows_append_cases opens denied with own | left | ⟨token, inside, word, body⟩
  · exact own
  · rcases left with ⟨command, member, hit⟩ | ⟨body, member, -⟩
    · have commands : splitCommands steppedOver = leftCommands.take 2 := by decide
      rw [commands] at member
      exact absurd hit (leftCommands_not_denied L hostAddresses role _ (mem_of_mem_take member))
    · have bodies : shellBodies steppedOver = [] := by decide
      rw [bodies] at member
      cases member
  · obtain ⟨deep, member, command, among, hit⟩ := body
    exact absurd hit (leftCommands_not_denied L hostAddresses role _
      (leftCommands_table.2.1 token inside word deep member command among))

/-- `rm -rf /` after a text adds no fork bomb to it. -/
theorem hitsForkBomb_rmRoot (hit : hitsForkBomb (L.lower (p ++ text ";" ++ rmRootText)) = true) :
    hitsForkBomb (L.lower p) = true := by
  have lowered : L.lower (p ++ text ";" ++ rmRootText) = L.lower p ++ (text ";" ++ rmRootText) := by
    have plain : L.lower rmRootText = rmRootText := by
      rw [L.ascii rmRootText (all_eq_true.mp (by decide))]
      decide
    rw [append_assoc]
    exact (L.uncased p (unit ';') rmRootText (by decide)).trans (by rw [plain]; rfl)
  rw [lowered, hitsForkBomb_iff, filter_append] at hit
  rw [hitsForkBomb_iff]
  exact @infix_of_last (text ":()\x7b:|:&\x7d;") _ _ (unit ':') (by decide) hit

/-! ### The main result -/

/-- The rules that are about self-destruction by a command. -/
def SELF_DESTRUCTION : List TgSecHardDenyRuleId := [.rmRoot, .rmHome, .mkfs, .ddDevice, .power]

section Main

variable (L : LowerCase) (hostAddresses : List Text)

/-- Hard deny denies the request. -/
def Denied (request : TgSecRequest) : Prop :=
  (evaluateHardDeny L request hostAddresses).isSome = true

/-- Hard deny reports a self-destruction rule. -/
def SelfDestructive (request : TgSecRequest) : Prop :=
  ∃ hit, evaluateHardDeny L request hostAddresses = some hit ∧ hit.ruleId ∈ SELF_DESTRUCTION

/-- A self-protection rule is no self-destruction rule. -/
theorem selfProtectionRule_other {host : Text} {ruleId : TgSecHardDenyRuleId}
    (hit : selfProtectionRule L host hostAddresses = some ruleId) : ruleId ∉ SELF_DESTRUCTION := by
  unfold selfProtectionRule at hit
  dsimp only at hit
  split_ifs at hit <;> cases hit <;> decide

theorem strongSelfProtection_other {targets : Targets} {hit : TgSecHardDenyHit}
    (found : strongSelfProtection L targets hostAddresses = some hit) :
    hit.ruleId ∉ SELF_DESTRUCTION := by
  obtain ⟨⟨host, ruleId⟩, first, rfl⟩ := Option.map_eq_some_iff.mp found
  obtain ⟨target, -, rule⟩ := List.exists_of_findSome?_eq_some first
  split at rule
  · obtain ⟨ruleId', hit, same⟩ := Option.map_eq_some_iff.mp rule
    cases same
    exact selfProtectionRule_other L hostAddresses hit
  · cases rule

/-- **A self-destruction rule is reported for a destructive command in a string.** -/
theorem selfDestructive_destroys {request : TgSecRequest}
    (reported : SelfDestructive L hostAddresses request) :
    ∃ entry ∈ collectValues L .commandText request.arguments, TextDestroys L (streamOf entry.1) := by
  obtain ⟨hit, found, listed⟩ := reported
  refine (commands_any_iff L destroys request).mp (List.any_eq_true.mpr ?_)
  unfold evaluateHardDeny at found
  split at found
  · rename_i protection strong
    cases found
    exact absurd listed (strongSelfProtection_other L hostAddresses strong)
  dsimp only at found
  split_ifs at found with root home bomb
  · obtain ⟨command, member, rule⟩ := List.any_eq_true.mp root
    exact ⟨command, member, by rw [destroys, rule]; rfl⟩
  · obtain ⟨command, member, rule⟩ := List.any_eq_true.mp home
    exact ⟨command, member, by rw [destroys, rule, Bool.or_true]; rfl⟩
  · cases found
    exact absurd listed (by decide)
  · obtain ⟨command, member, rule⟩ := List.exists_of_findSome?_eq_some found
    exact ⟨command, member, by rw [destroys, rule, Option.isSome_some, Bool.or_true]⟩

theorem entryDenied_of_destroys (role : ParameterRole) (shown : TextDestroys L (streamOf t)) :
    EntryDenied L hostAddresses (t, role) :=
  .inl ((streamDenied_iff L hostAddresses role (streamOf t)).mpr (.inr shown))

/-- **What a text before a separator is denied for, the whole is denied for.** -/
theorem entryDenied_separated (c : Text) (role : ParameterRole)
    (outside : endsOutside none p = true) (member : separator ∈ SEPARATORS)
    (denied : EntryDenied L hostAddresses (p, role)) :
    EntryDenied L hostAddresses (p ++ separator ++ c, role) := by
  rcases denied with stream | bomb
  · refine .inl ?_
    dsimp only at stream ⊢
    rw [streamOf_separated c outside member]
    exact shows_append_left (opens_markWalks _ (tokenize_opens c)) stream
  · obtain ⟨first, more, rfl, uncased⟩ := separator_uncased separator member
    refine .inr ?_
    dsimp only at bomb ⊢
    rw [append_assoc, cons_append, L.uncased p first (more ++ c) uncased]
    exact hitsForkBomb_append _ bomb

/-- A destructive command is shown by the texts that do not come after another. -/
theorem textDestroys_wrapped {s : Text} (outside : endsOutside none c = true)
    (shown : TextDestroys L (streamOf c))
    (member : t ∈ [c ++ text ";" ++ s, text "(" ++ c ++ text ")", text "echo $(" ++ c ++ text ")",
      text "sudo " ++ c]) :
    TextDestroys L (streamOf t) := by
  simp only [mem_cons, not_mem_nil, or_false] at member
  rcases member with rfl | rfl | rfl | rfl
  · rw [streamOf_separated s outside (by decide)]
    exact shows_append_left (opens_markWalks _ (tokenize_opens s)) shown
  · rwa [streamOf_subshell outside]
  · rw [streamOf_substitution outside]
    exact shows_append_right (streamOf_opens c) shown
  · exact textDestroys_sudo L shown

theorem mem_sequenced {s : Text} (member : t ∈ sequenced p c s) :
    (∃ separator ∈ SEPARATORS, t = p ++ separator ++ c) ∨
      t ∈ [c ++ text ";" ++ s, text "(" ++ c ++ text ")", text "echo $(" ++ c ++ text ")",
        text "sudo " ++ c] := by
  simp only [sequenced, mem_cons] at member
  rcases member with rfl | rfl | rfl | rfl | later
  · exact .inl ⟨text ";", by decide, rfl⟩
  · exact .inl ⟨text " && ", by decide, rfl⟩
  · exact .inl ⟨text " | ", by decide, rfl⟩
  · exact .inl ⟨text "\n", by decide, rfl⟩
  · exact .inr (by simpa using later)

/-- `rm -rf /` is reported, unless the request is denied for another string. -/
theorem selfDestructive_rmRoot {toolName resource : Text} {slot : Slot}
    {before after : List (Text × ParameterRole)} {role : ParameterRole}
    (collected : ∀ t, collectValues L .commandText (slot.fill (.string t)) =
      before ++ (t, role) :: after)
    (others : ∀ entry ∈ before ++ after, ¬EntryDenied L hostAddresses entry) :
    SelfDestructive L hostAddresses ⟨toolName, resource, slot.fill (.string rmRootText)⟩ := by
  have stream : streamOf rmRootText = rmRootCommand := rmRoot_tokens.2.1
  have commands : splitCommands rmRootCommand = [rmRootCommand] := by decide
  have bodies : shellBodies rmRootCommand = [] := by decide
  have table : ∀ token ∈ rmRootCommand, token.text.all isAscii = true := by decide
  have ascii : ∀ token ∈ rmRootCommand, AsciiText token.text := fun token inside =>
    all_eq_true.mp (table token inside)
  have unprotected : strongSelfProtection L (extractConnectionTargets L
      ⟨toolName, resource, slot.fill (.string rmRootText)⟩) hostAddresses = none := by
    rw [strongSelfProtection, Option.map_eq_none_iff, ← Option.not_isSome_iff_eq_none, protected_iff]
    dsimp only
    rw [collected]
    rintro ⟨entry, found, detail, shown⟩
    rcases mem_around.mp found with other | rfl
    · exact others entry other
        (.inl ((streamDenied_iff L hostAddresses entry.2 _).mpr (.inl ⟨detail, shown⟩)))
    · dsimp only at shown
      rw [stream] at shown
      rcases shown with ⟨command, member, host, contributed, -⟩ | ⟨body, member, -⟩
      · have silent := leftCommands_table.2.2.1
        rw [commands, mem_singleton] at member
        subst member
        rw [contributions_ascii L _ ascii, silent] at contributed
        simp at contributed
      · rw [bodies] at member
        cases member
  have hits : (scanTextSurface L ⟨toolName, resource, slot.fill (.string rmRootText)⟩).commands.any
      hitsRmRoot = true := by
    rw [commands_any_iff]
    refine ⟨(rmRootText, role), by rw [collected]; simp, .inl ⟨rmRootCommand, ?_, ?_⟩⟩
    · rw [stream, commands]
      exact mem_singleton_self _
    · show hitsRmRoot (commandGroup L rmRootCommand) = true
      rw [commandGroup_ascii L ascii]
      exact leftCommands_table.2.2.2
  have reported : evaluateHardDeny L ⟨toolName, resource, slot.fill (.string rmRootText)⟩
      hostAddresses =
        some ⟨.rmRoot, text "hard deny: recursive forced removal of the filesystem root"⟩ := by
    unfold evaluateHardDeny
    rw [unprotected]
    dsimp only
    rw [if_pos hits]
  exact ⟨_, reported, mem_cons_self⟩

/-- **Hard deny is closed under command sequencing, exactly when the text before the separator has no
dangling `timeout` or is denied itself.** -/
theorem hardDeny_sequenced_iff (toolName resource : Text) (slot : Slot) (p : Text)
    (outside : endsOutside none p = true) :
    (∀ c s, endsOutside none c = true → endsOutside none s = true →
        SelfDestructive L hostAddresses ⟨toolName, resource, slot.fill (.string c)⟩ →
        ∀ t ∈ sequenced p c s, Denied L hostAddresses ⟨toolName, resource, slot.fill (.string t)⟩) ↔
      danglingTimeout p = false ∨
        Denied L hostAddresses ⟨toolName, resource, slot.fill (.string p)⟩ := by
  obtain ⟨before, after, role, collected⟩ := collectValues_fill L .commandText slot
  have denied : ∀ t, Denied L hostAddresses ⟨toolName, resource, slot.fill (.string t)⟩ ↔
      (∃ entry ∈ before ++ after, EntryDenied L hostAddresses entry) ∨
        EntryDenied L hostAddresses (t, role) := by
    intro t
    rw [Denied, denied_iff]
    dsimp only
    rw [collected]
    simp only [mem_around, or_and_right, exists_or, exists_eq_left]
  constructor
  · intro closed
    by_cases settled : danglingTimeout p = false
    · exact .inl settled
    refine .inr ((denied p).mpr ?_)
    by_cases others : ∃ entry ∈ before ++ after, EntryDenied L hostAddresses entry
    · exact .inl others
    refine .inr ?_
    -- The lost command is `rm -rf /`: nothing of it is left that could be denied.
    have reported := @selfDestructive_rmRoot L hostAddresses toolName resource _ _ _ _
      collected fun entry member hit => others ⟨entry, member, hit⟩
    have first : p ++ text ";" ++ rmRootText ∈ sequenced p rmRootText [] := mem_cons_self
    have whole := (denied _).mp (closed rmRootText [] rmRoot_tokens.1 rfl reported _ first)
    rcases whole.resolve_left others with stream | bomb
    · refine .inl ?_
      have walks : walksAfter .none (tokenize p) = ⟨(walksAfter .none (tokenize p)).here, true⟩ := by
        have dangles : (walksAfter .none (tokenize p)).beyond = true :=
          (Bool.not_eq_false _).mp settled
        rw [← dangles]
      dsimp only at stream
      rw [streamOf_separated rmRootText outside (by decide), walks, rmRoot_tokens.2.2] at stream
      exact streamDenied_steppedOver L hostAddresses role stream
    · exact .inr (hitsForkBomb_rmRoot L bomb)
  · intro condition c s outsideC _ reported t member
    rw [denied]
    obtain ⟨entry, found, shown⟩ := selfDestructive_destroys L hostAddresses reported
    dsimp only at found
    rw [collected] at found
    rcases mem_around.mp found with other | rfl
    · exact .inl ⟨entry, other, entryDenied_of_destroys L hostAddresses entry.2 shown⟩
    rcases mem_sequenced member with ⟨separator, listed, rfl⟩ | wrapped
    · rcases condition with settled | deniedP
      · refine .inr (entryDenied_of_destroys L hostAddresses role ?_)
        rw [streamOf_separated_kept c outside listed settled]
        exact shows_append_right (streamOf_opens c) shown
      · refine ((denied p).mp deniedP).imp_right fun own => ?_
        exact entryDenied_separated L hostAddresses c role outside listed own
    · exact .inr (entryDenied_of_destroys L hostAddresses role
        (textDestroys_wrapped L outsideC shown wrapped))

end Main

/-- A command argument. -/
def commandSlot : Slot := .field [] [] (text "command") .here

/-- `rm -rf /` is reported, and `ls` settles what follows it, but `timeout` hides it. -/
theorem rmRoot_runs :
    evaluateHardDeny asciiLowerCase ⟨text "bash", [], commandSlot.fill (.string rmRootText)⟩ [] =
      some ⟨.rmRoot, text "hard deny: recursive forced removal of the filesystem root"⟩ ∧
    (endsOutside none (text "ls") = true ∧ danglingTimeout (text "ls") = false) ∧
    endsOutside none (text "timeout") = true ∧
    evaluateHardDeny asciiLowerCase
      ⟨text "bash", [], commandSlot.fill (.string (text "timeout" ++ text ";" ++ rmRootText))⟩ [] =
      none := by
  decide +kernel

theorem selfDestructive_rmRoot_alone : SelfDestructive asciiLowerCase []
    ⟨text "bash", [], commandSlot.fill (.string rmRootText)⟩ :=
  ⟨_, rmRoot_runs.1, mem_cons_self⟩

/-- `ls;rm -rf /` is denied. -/
theorem hardDeny_sequenced_ls :
    Denied asciiLowerCase []
      ⟨text "bash", [], commandSlot.fill (.string (text "ls" ++ text ";" ++ rmRootText))⟩ :=
  (hardDeny_sequenced_iff asciiLowerCase [] (text "bash") [] commandSlot (text "ls")
    rmRoot_runs.2.1.1).mpr (.inl rmRoot_runs.2.1.2) rmRootText [] rmRoot_tokens.1 rfl
    selfDestructive_rmRoot_alone _ mem_cons_self

/-- `rm -rf /` is reported, and `timeout;rm -rf /` is not denied. -/
theorem hardDeny_loses_sequenced :
    endsOutside none (text "timeout") = true ∧ endsOutside none rmRootText = true ∧
      SelfDestructive asciiLowerCase [] ⟨text "bash", [], commandSlot.fill (.string rmRootText)⟩ ∧
      text "timeout" ++ text ";" ++ rmRootText ∈ sequenced (text "timeout") rmRootText [] ∧
      evaluateHardDeny asciiLowerCase
        ⟨text "bash", [], commandSlot.fill (.string (text "timeout" ++ text ";" ++ rmRootText))⟩
        [] = none :=
  ⟨rmRoot_runs.2.2.1, rmRoot_tokens.1, selfDestructive_rmRoot_alone, mem_cons_self,
    rmRoot_runs.2.2.2⟩

end TianGong.SecGuard
