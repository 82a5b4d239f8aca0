/-
**What a stream shows: its commands and the bodies of its shells.**

A rule of hard deny holds of a text when it holds of a command of its stream, or of something in the
body of a shell of it. `Shows` is that, for any property of commands and any of bodies.

* `shows_append_left`, `shows_append_right`: a stream put together from two, the second of which starts
  a command, shows all that each of the two shows.
* `shows_append_cases`: and nothing else, apart from a token of the second that a shell of the first
  takes for its body.
-/

import TianGong.SecGuard.DataFlags
import TianGong.SecGuard.Tokens

namespace TianGong.SecGuard

open TianGong.Json
open List

/-! ### Commands -/

variable {second : List TgSecToken} (rest : List TgSecToken) (token : TgSecToken)

theorem splitCommands_step (next : TgSecToken) (more : List TgSecToken) :
    splitCommands (token :: next :: more) =
      match splitCommands (next :: more) with
      | group :: groups =>
        if next.commandPosition then [token] :: group :: groups else (token :: group) :: groups
      | [] => [[token]] := by
  rw [splitCommands.eq_def]
  dsimp only
  cases splitCommands (next :: more) <;> rfl

/-- A first token starts a command, or joins the first command of the rest; which of the two is a matter
of the rest. -/
theorem splitCommands_cons :
    ∃ group groups, ∀ token, splitCommands (token :: rest) = (token :: group) :: groups := by
  cases rest with
  | nil => exact ⟨[], [], fun token => rfl⟩
  | cons next more =>
    cases later : splitCommands (next :: more) with
    | nil => exact ⟨[], [], fun token => by rw [splitCommands_step, later]⟩
    | cons group groups =>
      by_cases opens : next.commandPosition = true
      · refine ⟨[], group :: groups, fun token => ?_⟩
        rw [splitCommands_step, later]
        dsimp only
        rw [if_pos opens]
      · refine ⟨group, groups, fun token => ?_⟩
        rw [splitCommands_step, later]
        dsimp only
        rw [if_neg opens]

/-- A token before a stream that starts a command is a command of its own. -/
theorem splitCommands_open {rest : List TgSecToken} (opens : Opens rest) :
    splitCommands (token :: rest) = [token] :: splitCommands rest := by
  cases rest with
  | nil => rfl
  | cons next more =>
    obtain ⟨group, groups, split⟩ := splitCommands_cons more
    rw [splitCommands_step, split next]
    dsimp only
    rw [if_pos (opens next rfl)]

/-- A token before one that starts no command joins its command. -/
theorem splitCommands_join {next : TgSecToken} {more group : List TgSecToken}
    {groups : List (List TgSecToken)} (joins : next.commandPosition = false)
    (split : splitCommands (next :: more) = group :: groups) :
    splitCommands (token :: next :: more) = (token :: group) :: groups := by
  rw [splitCommands_step, split]
  dsimp only
  rw [if_neg (by rw [joins]; decide)]

/-- **The commands of two streams, the second of which starts one.** -/
theorem splitCommands_append (first : List TgSecToken) (opens : Opens second) :
    splitCommands (first ++ second) = splitCommands first ++ splitCommands second := by
  induction first with
  | nil => rfl
  | cons token rest ih =>
    cases rest with
    | nil => exact splitCommands_open token opens
    | cons next more =>
      obtain ⟨group, groups, split⟩ := splitCommands_cons more
      rw [split next, cons_append] at ih
      by_cases starts : next.commandPosition = true
      · have head : ∀ later, Opens (next :: later) := fun later token found => by
          cases found
          exact starts
        rw [cons_append, splitCommands_open token (head more), cons_append,
          splitCommands_open token (head _), split next, cons_append, ih]
      · have joins : next.commandPosition = false := by simpa using starts
        rw [cons_append, splitCommands_join token joins (split next), cons_append,
          splitCommands_join token joins ih]
        rfl

/-! ### Bodies -/

section ShellBody

variable {armed : Bool} {token : TgSecToken}

section Flag

variable (flag : ¬(!startsWith token.text (text "-")) = true)
include flag

theorem shellBody_assigned (long : startsWith token.text (text "--") = true)
    (assigned : token.text.contains (unit '=') = true) :
    subcommandShellBody armed (token :: rest) = subcommandShellBody armed rest := by
  rw [subcommandShellBody.eq_def]
  dsimp only
  rw [if_neg flag, if_pos long, if_pos assigned]

theorem shellBody_long (long : startsWith token.text (text "--") = true)
    (assigned : ¬token.text.contains (unit '=') = true) :
    subcommandShellBody armed (token :: rest) =
      match rest with
      | [] => none
      | value :: rest' =>
        if startsWith value.text (text "-") then subcommandShellBody armed (value :: rest')
        else subcommandShellBody armed rest' := by
  rw [subcommandShellBody.eq_def]
  dsimp only
  rw [if_neg flag, if_pos long]
  refine (if_neg assigned).trans ?_
  cases rest <;> rfl

theorem shellBody_cluster (long : ¬startsWith token.text (text "--") = true) :
    subcommandShellBody armed (token :: rest) =
      subcommandShellBody (armed || carriesCommand token.text) rest := by
  rw [subcommandShellBody.eq_def]
  dsimp only
  rw [if_neg flag, if_neg long]

end Flag

end ShellBody

variable {first : List TgSecToken} {body : Text}

/-- **A shell keeps its body when more tokens follow.** -/
theorem subcommandShellBody_append {armed : Bool} (second : List TgSecToken)
    (found : subcommandShellBody armed first = some body) :
    subcommandShellBody armed (first ++ second) = some body := by
  fun_induction subcommandShellBody armed first with
  | case1 => cases found
  | case2 token rest word =>
    rw [cons_append, shellBody_word _ word]
    exact found
  | case3 => cases found
  | case4 armed token rest flag long assigned ih =>
    rw [cons_append, shellBody_assigned _ flag long assigned, ih found]
  | case5 => cases found
  | case6 armed token flag long assigned next rest another ih =>
    rw [cons_append, shellBody_long _ flag long assigned]
    dsimp only [cons_append]
    rw [if_pos another]
    exact ih found
  | case7 armed token flag long assigned next rest another ih =>
    rw [cons_append, shellBody_long _ flag long assigned]
    dsimp only [cons_append]
    rw [if_neg another]
    exact ih found
  | case8 armed token rest flag long ih =>
    rw [cons_append, shellBody_cluster _ flag long, ih found]

/-- A shell that finds a body when more tokens follow had found it before, or finds it among them. -/
theorem subcommandShellBody_append_cases {armed : Bool}
    (found : subcommandShellBody armed (first ++ second) = some body) :
    subcommandShellBody armed first = some body ∨
      ∃ token ∈ second, token.text = body ∧ startsWith body (text "-") = false := by
  fun_induction subcommandShellBody armed first with
  | case1 => exact .inr (subcommandShellBody_mem found)
  | case2 token rest word =>
    rw [cons_append, shellBody_word _ word] at found
    exact .inl found
  | case3 armed token rest word unarmed =>
    rw [cons_append, shellBody_word _ word, if_neg unarmed] at found
    cases found
  | case4 armed token rest flag long assigned ih =>
    rw [cons_append, shellBody_assigned _ flag long assigned] at found
    exact ih found
  | case5 armed token flag long assigned =>
    rw [cons_append, nil_append, shellBody_long _ flag long assigned] at found
    cases second with
    | nil => cases found
    | cons value rest =>
      dsimp only at found
      split at found
      · exact .inr (subcommandShellBody_mem found)
      · obtain ⟨other, inside, same⟩ := subcommandShellBody_mem found
        exact .inr ⟨other, mem_cons_of_mem _ inside, same⟩
  | case6 armed token flag long assigned next rest another ih =>
    rw [cons_append, shellBody_long _ flag long assigned] at found
    dsimp only [cons_append] at found
    rw [if_pos another] at found
    exact ih found
  | case7 armed token flag long assigned next rest another ih =>
    rw [cons_append, shellBody_long _ flag long assigned] at found
    dsimp only [cons_append] at found
    rw [if_neg another] at found
    exact ih found
  | case8 armed token rest flag long ih =>
    rw [cons_append, shellBody_cluster _ flag long] at found
    exact ih found

/-- The body a token takes as a shell, of those that follow. -/
def bodyOf (token : TgSecToken) (rest : List TgSecToken) : Option Text :=
  if token.commandPosition && SUBCOMMAND_SHELLS.contains token.text then
    subcommandShellBody false rest
  else none

/-- A body of a stream is that of one of its tokens. -/
theorem mem_shellBodies {stream : List TgSecToken} :
    body ∈ shellBodies stream ↔
      ∃ before token rest, stream = before ++ token :: rest ∧ bodyOf token rest = some body := by
  induction stream with
  | nil => simp [shellBodies]
  | cons token rest ih =>
    have step : body ∈ shellBodies (token :: rest) ↔
        bodyOf token rest = some body ∨ body ∈ shellBodies rest := by
      cases rest with
      | nil =>
        have nothing : bodyOf token [] = none := by
          unfold bodyOf
          split <;> rfl
        simp [shellBodies, nothing]
      | cons next more =>
        rw [shellBodies, mem_append]
        refine or_congr ?_ Iff.rfl
        unfold bodyOf
        split <;> simp
    rw [step, ih]
    constructor
    · rintro (own | ⟨before, shell, more, rfl, found⟩)
      · exact ⟨[], token, rest, rfl, own⟩
      · exact ⟨token :: before, shell, more, rfl, found⟩
    · rintro ⟨before, shell, more, same, found⟩
      cases before with
      | nil =>
        cases same
        exact .inl found
      | cons first before =>
        cases same
        exact .inr ⟨before, shell, more, rfl, found⟩

theorem bodyOf_append {token : TgSecToken} {rest : List TgSecToken} (second : List TgSecToken)
    (found : bodyOf token rest = some body) : bodyOf token (rest ++ second) = some body := by
  unfold bodyOf at found ⊢
  split at found
  · rename_i shell
    rw [if_pos shell, subcommandShellBody_append second found]
  · cases found

/-- **The bodies of two streams**: those of the first, those of the second, and tokens of the second that
are no flag. -/
theorem shellBodies_append_left (second : List TgSecToken) (member : body ∈ shellBodies first) :
    body ∈ shellBodies (first ++ second) := by
  obtain ⟨before, token, rest, rfl, found⟩ := mem_shellBodies.mp member
  exact mem_shellBodies.mpr ⟨before, token, rest ++ second, by simp, bodyOf_append second found⟩

theorem shellBodies_append_right (first : List TgSecToken) (member : body ∈ shellBodies second) :
    body ∈ shellBodies (first ++ second) := by
  obtain ⟨before, token, rest, rfl, found⟩ := mem_shellBodies.mp member
  exact mem_shellBodies.mpr ⟨first ++ before, token, rest, by simp, found⟩

theorem shellBodies_append_cases (member : body ∈ shellBodies (first ++ second)) :
    body ∈ shellBodies first ∨ body ∈ shellBodies second ∨
      ∃ token ∈ second, token.text = body ∧ startsWith body (text "-") = false := by
  obtain ⟨before, token, rest, same, found⟩ := mem_shellBodies.mp member
  rcases List.append_eq_append_iff.mp same with ⟨more, rfl, inside⟩ | ⟨more, rfl, inside⟩
  · exact .inr (.inl (mem_shellBodies.mpr ⟨more, token, rest, inside, found⟩))
  · cases more with
    | nil => exact .inr (.inl (mem_shellBodies.mpr ⟨[], token, rest, inside.symm, found⟩))
    | cons shell later =>
      obtain ⟨rfl, rfl⟩ := List.cons.inj inside
      unfold bodyOf at found
      split at found
      · rename_i shell
        rcases subcommandShellBody_append_cases found with own | among
        · refine .inl (mem_shellBodies.mpr ⟨before, token, later, rfl, ?_⟩)
          rw [bodyOf, if_pos shell, own]
        · exact .inr (.inr among)
      · cases found

/-! ### What a stream shows -/

section Shows

variable (ofCommand : List TgSecToken → Prop) (ofBody : Text → Prop)

/-- A command of the stream has the one property, or the body of a shell of it the other. -/
def Shows (stream : List TgSecToken) : Prop :=
  (∃ command ∈ splitCommands stream, ofCommand command) ∨ ∃ body ∈ shellBodies stream, ofBody body

variable {ofCommand ofBody}

theorem shows_append_left (opens : Opens second) (shown : Shows ofCommand ofBody first) :
    Shows ofCommand ofBody (first ++ second) := by
  rcases shown with ⟨command, member, has⟩ | ⟨body, member, has⟩
  · refine .inl ⟨command, ?_, has⟩
    rw [splitCommands_append first opens]
    exact mem_append_left _ member
  · exact .inr ⟨body, shellBodies_append_left second member, has⟩

theorem shows_append_right (opens : Opens second) (shown : Shows ofCommand ofBody second) :
    Shows ofCommand ofBody (first ++ second) := by
  rcases shown with ⟨command, member, has⟩ | ⟨body, member, has⟩
  · refine .inl ⟨command, ?_, has⟩
    rw [splitCommands_append first opens]
    exact mem_append_right _ member
  · exact .inr ⟨body, shellBodies_append_right first member, has⟩

/-- **A stream put together from two shows nothing new**, apart from a token of the second as a body. -/
theorem shows_append_cases (opens : Opens second)
    (shown : Shows ofCommand ofBody (first ++ second)) :
    Shows ofCommand ofBody first ∨ Shows ofCommand ofBody second ∨
      ∃ token ∈ second, startsWith token.text (text "-") = false ∧ ofBody token.text := by
  rcases shown with ⟨command, member, has⟩ | ⟨body, member, has⟩
  · rw [splitCommands_append first opens] at member
    rcases List.mem_append.mp member with before | after
    · exact .inl (.inl ⟨command, before, has⟩)
    · exact .inr (.inl (.inl ⟨command, after, has⟩))
  · rcases shellBodies_append_cases member with before | after | ⟨token, inside, rfl, word⟩
    · exact .inl (.inr ⟨body, before, has⟩)
    · exact .inr (.inl (.inr ⟨body, after, has⟩))
    · exact .inr (.inr ⟨token, inside, word, has⟩)

end Shows

/-! ### Denial, string by string -/

variable {host : Text} {out : Targets}

section Denial

variable (L : LowerCase) (hostAddresses : List Text)

/-- The command as the rules read it. -/
def commandGroup (command : List TgSecToken) : TgSecCommandGroup :=
  let tokens := command.map fun token => L.lower token.text
  ⟨tokens.headD [], tokens⟩

/-- A destructive command. -/
def Destroys (command : List TgSecToken) : Prop := destroys (commandGroup L command) = true

/-- A command with a strong target that is protected. -/
def Connects (declaredTarget : Bool) (command : List TgSecToken) : Prop :=
  ∃ host, some (host, .strong) ∈ contributions L declaredTarget command ∧
    (selfProtectionRule L host hostAddresses).isSome = true

/-- A command of a parameter that is denied. -/
def CommandDenied (role : ParameterRole) (declaredTarget : Bool) (command : List TgSecToken) : Prop :=
  role ≠ .detail ∧ Connects L hostAddresses declaredTarget command ∨ Destroys L command

/-- The body of a shell that shows a property of commands, down to the depth that is left. -/
def BodyShows (ofCommand : List TgSecToken → Prop) (depth : Nat) (body : Text) : Prop :=
  ∃ stream ∈ pushStreams depth body, ∃ command ∈ splitCommands stream, ofCommand command

/-- The stream of a string. -/
def streamOf (t : Text) : List TgSecToken := withWrappersSkipped (tokenize t)

/-- A string whose stream shows a destructive command. -/
def TextDestroys (stream : List TgSecToken) : Prop :=
  Shows (Destroys L) (BodyShows (Destroys L) 1) stream

/-- A string of a parameter that is denied for its stream. -/
def StreamDenied (role : ParameterRole) (stream : List TgSecToken) : Prop :=
  Shows (CommandDenied L hostAddresses role (role = .declaredTarget))
    (BodyShows (CommandDenied L hostAddresses role false) 1) stream

/-- A string of a parameter that is denied. -/
def EntryDenied (entry : Text × ParameterRole) : Prop :=
  StreamDenied L hostAddresses entry.2 (streamOf entry.1) ∨ hitsForkBomb (L.lower entry.1) = true

/-! The targets. -/

/-- Overwriting a target that is not strong makes no strong target but the new one. -/
theorem mem_replace {other : Text} {evidence : TgSecTargetEvidence}
    (weak : Assoc.get other out ≠ some .strong) (inside : other ∈ Assoc.keys out) :
    (host, .strong) ∈ Assoc.replace other evidence out ↔
      (host, .strong) ∈ out ∨ (other, evidence) = (host, .strong) := by
  induction out with
  | nil => cases inside
  | cons target rest ih =>
    obtain ⟨key, tier⟩ := target
    unfold Assoc.replace
    by_cases same : key = other
    · subst same
      rw [Assoc.get_cons_self] at weak
      have different : (host, TgSecTargetEvidence.strong) ≠ (key, tier) := by
        intro equal
        exact weak (congrArg some (Prod.ext_iff.mp equal).2.symm)
      rw [if_pos rfl, mem_cons, mem_cons, or_iff_right different, or_comm]
      exact or_congr_right eq_comm
    · rw [Assoc.get_cons_ne same] at weak
      have later := (mem_cons.mp inside).resolve_left fun equal => same equal.symm
      rw [if_neg same, mem_cons, mem_cons, ih weak later, or_assoc]

/-- **A strong target stays, and comes from a contribution.** -/
theorem mem_recordOption (found : Option (Text × TgSecTargetEvidence)) :
    (host, .strong) ∈ recordOption out found ↔
      (host, .strong) ∈ out ∨ found = some (host, .strong) := by
  cases found with
  | none => simp [recordOption]
  | some target =>
    obtain ⟨other, evidence⟩ := target
    unfold recordOption recordTarget
    dsimp only
    rw [Option.some.injEq]
    by_cases strong : Assoc.get other out = some .strong
    · rw [if_pos strong]
      constructor
      · exact .inl
      · rintro (there | same)
        · exact there
        · cases same
          exact Assoc.mem_of_get strong
    · rw [if_neg strong, Assoc.set]
      split
      · rename_i inside
        exact mem_replace strong (Assoc.has_iff.mp inside)
      · rw [mem_append, mem_singleton]
        exact or_congr_right eq_comm

/-- **A host that is recorded stays**, and comes from a contribution. -/
theorem keys_recordOption (found : Option (Text × TgSecTargetEvidence)) :
    host ∈ Assoc.keys (recordOption out found) ↔
      host ∈ Assoc.keys out ∨ ∃ tier, found = some (host, tier) := by
  cases found with
  | none => simp [recordOption]
  | some target =>
    obtain ⟨other, evidence⟩ := target
    have names : (∃ tier, some (other, evidence) = some (host, tier)) ↔ host = other := by
      simp [eq_comm]
    unfold recordOption recordTarget
    dsimp only
    rw [names]
    by_cases strong : Assoc.get other out = some .strong
    · rw [if_pos strong]
      constructor
      · exact .inl
      · rintro (there | rfl)
        · exact there
        · exact mem_map_of_mem (Assoc.mem_of_get strong)
    · rw [if_neg strong, Assoc.set]
      split
      · rename_i inside
        rw [Assoc.keys_replace]
        constructor
        · exact .inl
        · rintro (there | rfl)
          · exact there
          · exact Assoc.has_iff.mp inside
      · rw [Assoc.keys_append, mem_append]
        exact or_congr_right mem_singleton

/-- What each step of a fold adds, the fold adds. -/
theorem foldl_iff {State Item : Type*} (holds : State → Prop) (adds : Item → Prop)
    {f : State → Item → State} (step : ∀ state item, holds (f state item) ↔ holds state ∨ adds item)
    (state : State) (items : List Item) :
    holds (items.foldl f state) ↔ holds state ∨ ∃ item ∈ items, adds item := by
  induction items generalizing state with
  | nil => simp
  | cons item items ih => rw [foldl_cons, ih, step, or_assoc, exists_mem_cons_iff]

/-- **The targets of a request** are what the contributions of its commands add. -/
theorem connectionTargets_iff (holds : Targets → Prop)
    (adds : Option (Text × TgSecTargetEvidence) → Prop) (fresh : ¬holds [])
    (step : ∀ out found, holds (recordOption out found) ↔ holds out ∨ adds found)
    (surface : TgSecCommandSurface) :
    holds (connectionTargetsFromSurface L surface) ↔
      ∃ stream ∈ surface.targetStreams, ∃ command ∈ splitCommands stream.1,
        ∃ found ∈ contributions L stream.2 command, adds found := by
  unfold connectionTargetsFromSurface
  rw [foldl_iff holds (fun stream => ∃ command ∈ splitCommands stream.1,
    ∃ found ∈ contributions L stream.2 command, adds found), or_iff_right fresh]
  intro out stream
  refine foldl_iff holds (fun command => ∃ found ∈ contributions L stream.2 command, adds found)
    (fun out command => ?_) out _
  rw [scanCommand_eq]
  exact foldl_iff holds adds step out _

/-- **The strong targets of a request.** -/
theorem mem_connectionTargets (surface : TgSecCommandSurface) :
    (host, .strong) ∈ connectionTargetsFromSurface L surface ↔
      ∃ stream ∈ surface.targetStreams, ∃ command ∈ splitCommands stream.1,
        some (host, .strong) ∈ contributions L stream.2 command := by
  have found := connectionTargets_iff L (fun out => (host, .strong) ∈ out)
    (fun found => found = some (host, .strong)) not_mem_nil
    (fun _ found => mem_recordOption found) surface
  simpa only [exists_eq_right] using found

/-- **The hosts of a request.** -/
theorem keys_connectionTargets (surface : TgSecCommandSurface) :
    host ∈ Assoc.keys (connectionTargetsFromSurface L surface) ↔
      ∃ stream ∈ surface.targetStreams, ∃ command ∈ splitCommands stream.1, ∃ tier,
        some (host, tier) ∈ contributions L stream.2 command := by
  rw [connectionTargets_iff L (fun out => host ∈ Assoc.keys out)
    (fun found => ∃ tier, found = some (host, tier)) not_mem_nil
    (fun _ found => keys_recordOption found) surface]
  constructor
  · rintro ⟨stream, streamed, command, split, _, found, tier, rfl⟩
    exact ⟨stream, streamed, command, split, tier, found⟩
  · rintro ⟨stream, streamed, command, split, tier, found⟩
    exact ⟨stream, streamed, command, split, _, found, tier, rfl⟩

theorem firstProtected_isSome (targets : Targets) :
    (firstProtected L .strong hostAddresses targets).isSome = true ↔
      ∃ host, (host, .strong) ∈ targets ∧ (selfProtectionRule L host hostAddresses).isSome = true := by
  unfold firstProtected
  rw [List.findSome?_isSome_iff]
  constructor
  · rintro ⟨⟨host, tier⟩, member, found⟩
    dsimp only at found
    split at found
    · rename_i strong
      subst strong
      exact ⟨host, member, by simpa using found⟩
    · cases found
  · rintro ⟨host, member, found⟩
    exact ⟨(host, .strong), member, by simpa using found⟩

/-! The streams. -/

theorem pushStreams_two (t : Text) :
    pushStreams TG_SEC_SUBCOMMAND_DEPTH_LIMIT t =
      streamOf t :: (shellBodies (streamOf t)).flatMap (pushStreams 1) := rfl

/-- A property of commands holds in the streams of a string when its own stream shows it. -/
theorem shows_iff (ofCommand : List TgSecToken → Prop) (t : Text) :
    (∃ stream ∈ pushStreams TG_SEC_SUBCOMMAND_DEPTH_LIMIT t, ∃ command ∈ splitCommands stream,
        ofCommand command) ↔
      Shows ofCommand (BodyShows ofCommand 1) (streamOf t) := by
  rw [pushStreams_two]
  unfold Shows BodyShows
  constructor
  · rintro ⟨stream, member, command, inside, has⟩
    rcases mem_cons.mp member with rfl | later
    · exact .inl ⟨command, inside, has⟩
    · obtain ⟨body, found, deeper⟩ := mem_flatMap.mp later
      exact .inr ⟨body, found, stream, deeper, command, inside, has⟩
  · rintro (⟨command, inside, has⟩ | ⟨body, found, stream, deeper, command, inside, has⟩)
    · exact ⟨_, mem_cons_self, command, inside, has⟩
    · exact ⟨stream, mem_cons_of_mem _ (mem_flatMap.mpr ⟨body, found, deeper⟩), command,
        inside, has⟩

/-- The target streams of a string show what its stream shows, if its parameter is no detail. -/
theorem targets_iff (ofCommand : Bool → List TgSecToken → Prop) (t : Text) (role : ParameterRole) :
    (∃ stream ∈ valueTargetStreams (t, role), ∃ command ∈ splitCommands stream.1,
        ofCommand stream.2 command) ↔
      role ≠ .detail ∧
        Shows (ofCommand (role = .declaredTarget)) (BodyShows (ofCommand false) 1) (streamOf t) := by
  have plain : role ≠ .detail → valueTargetStreams (t, role) =
      (streamOf t, decide (role = .declaredTarget)) ::
        ((shellBodies (streamOf t)).flatMap (pushStreams 1)).map (·, false) := by
    intro other
    cases role with
    | detail => exact absurd rfl other
    | commandText => rfl
    | declaredTarget => rfl
  by_cases detail : role = .detail
  · subst detail
    simp [valueTargetStreams]
  rw [plain detail]
  unfold Shows BodyShows
  constructor
  · rintro ⟨stream, member, command, inside, has⟩
    refine ⟨detail, ?_⟩
    rcases mem_cons.mp member with rfl | later
    · exact .inl ⟨command, inside, has⟩
    · obtain ⟨deep, found, rfl⟩ := List.mem_map.mp later
      obtain ⟨body, found, deeper⟩ := mem_flatMap.mp found
      exact .inr ⟨body, found, deep, deeper, command, inside, has⟩
  · rintro ⟨-, ⟨command, inside, has⟩ | ⟨body, found, stream, deeper, command, inside, has⟩⟩
    · exact ⟨_, mem_cons_self, command, inside, has⟩
    · exact ⟨(stream, false), mem_cons_of_mem _ (mem_map_of_mem
        (mem_flatMap.mpr ⟨body, found, deeper⟩)), command, inside, has⟩

theorem bodyShows_or (first second : List TgSecToken → Prop) (depth : Nat) :
    BodyShows (fun command => first command ∨ second command) depth =
      fun body => BodyShows first depth body ∨ BodyShows second depth body := by
  funext body
  simp only [BodyShows, and_or_left, exists_or]

theorem shows_or (first second : List TgSecToken → Prop) (firstBody secondBody : Text → Prop)
    (stream : List TgSecToken) :
    Shows (fun command => first command ∨ second command) (fun body => firstBody body ∨ secondBody body)
        stream ↔ Shows first firstBody stream ∨ Shows second secondBody stream := by
  unfold Shows
  simp only [and_or_left, exists_or]
  exact or_or_or_comm

/-- **A stream is denied for a protected target or for a destructive command.** -/
theorem streamDenied_iff (role : ParameterRole) (stream : List TgSecToken) :
    StreamDenied L hostAddresses role stream ↔
      (role ≠ .detail ∧ Shows (Connects L hostAddresses (role = .declaredTarget))
        (BodyShows (Connects L hostAddresses false) 1) stream) ∨ TextDestroys L stream := by
  unfold StreamDenied TextDestroys CommandDenied
  by_cases detail : role = .detail
  · simp [detail]
  · simp only [ne_eq, detail, not_false_eq_true, true_and, bodyShows_or, shows_or]

/-- A rule about commands hits a request when the stream of one of its strings shows it. -/
theorem commands_any_iff (rule : TgSecCommandGroup → Bool) (request : TgSecRequest) :
    (scanTextSurface L request).commands.any rule = true ↔
      ∃ entry ∈ collectValues L .commandText request.arguments,
        Shows (fun command => rule (commandGroup L command) = true)
          (BodyShows (fun command => rule (commandGroup L command) = true) 1) (streamOf entry.1) := by
  simp only [← shows_iff]
  simp only [scanTextSurface, toCommands, extractCommandSurface, any_flatMap, any_map,
    any_eq_true]
  rfl

/-- A self-protection rule hits a request when the stream of one of its strings shows a target. -/
theorem protected_iff (request : TgSecRequest) :
    (firstProtected L .strong hostAddresses (extractConnectionTargets L request)).isSome = true ↔
      ∃ entry ∈ collectValues L .commandText request.arguments, entry.2 ≠ .detail ∧
        Shows (Connects L hostAddresses (entry.2 = .declaredTarget))
          (BodyShows (Connects L hostAddresses false) 1) (streamOf entry.1) := by
  rw [firstProtected_isSome]
  unfold extractConnectionTargets
  simp only [mem_connectionTargets, extractCommandSurface, mem_flatMap]
  simp only [← targets_iff fun declared => Connects L hostAddresses declared]
  constructor
  · rintro ⟨host, ⟨stream, ⟨entry, collected, member⟩, command, inside, found⟩, hit⟩
    exact ⟨entry, collected, stream, member, command, inside, host, found, hit⟩
  · rintro ⟨entry, collected, stream, member, command, inside, host, found, hit⟩
    exact ⟨host, ⟨stream, ⟨entry, collected, member⟩, command, inside, found⟩, hit⟩

/-- **A request is denied when one of the strings of its arguments is.** -/
theorem denied_iff (request : TgSecRequest) :
    (evaluateHardDeny L request hostAddresses).isSome = true ↔
      ∃ entry ∈ collectValues L .commandText request.arguments,
        EntryDenied L hostAddresses entry := by
  have destroyed : (scanTextSurface L request).commands.any destroys = true ↔
      ∃ entry ∈ collectValues L .commandText request.arguments, TextDestroys L (streamOf entry.1) :=
    commands_any_iff L destroys request
  rw [evaluateHardDeny_isSome, protected_iff, destroyed]
  simp only [EntryDenied, streamDenied_iff, scanTextSurface, extractCommandSurface, any_map,
    any_eq_true]
  grind

end Denial

end TianGong.SecGuard
