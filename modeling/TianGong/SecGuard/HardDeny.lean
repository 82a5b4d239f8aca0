/-
**Hard deny and weak self-protection.**

`hard-deny.ts`. The self-destruction rules look at commands, the self-protection rules at connection
targets: a target of strong evidence is denied, one of weak evidence is for a human.

`evaluateHardDeny_isSome` says when a request is denied: a protected target, a destructive command or
a fork bomb.
-/

import TianGong.SecGuard.CommandText

namespace TianGong.SecGuard

inductive TgSecHardDenyRuleId where
  | loopbackHostname | loopbackV4 | loopbackV6 | localInterface
  | rmRoot | rmHome | forkBomb | mkfs | ddDevice | power
  deriving DecidableEq

structure TgSecHardDenyHit where
  ruleId : TgSecHardDenyRuleId
  reason : Text
  deriving DecidableEq

structure TgSecWeakSelfProtectionHit where
  ruleId : TgSecHardDenyRuleId
  host : Text
  reason : Text

section Rules

variable (L : LowerCase)

/-! ### Self-protection -/

def selfProtectionRule (host : Text) (hostAddresses : List Text) : Option TgSecHardDenyRuleId :=
  let lowered := L.lower host
  if loopbackHostname lowered then some .loopbackHostname
  else if loopbackV4 lowered then some .loopbackV4
  else if loopbackV6 lowered then some .loopbackV6
  else if hostAddresses.any fun address => interfacePattern (L.lower address) lowered then
    some .localInterface
  else none

def selfProtectionDenyReason (ruleId : TgSecHardDenyRuleId) : Text :=
  if ruleId = .localInterface then
    text "hard deny: this machine's own interface addresses are platform self-protection"
  else text "hard deny: loopback targets are platform self-protection"

def weakSelfProtectionReason (ruleId : TgSecHardDenyRuleId) (host : Text) : Text :=
  let target := text "the connection target \"" ++ host ++ text "\""
  let mayBeThisMachine := text
    "matched on weak evidence: it may be this machine rather than a host being connected to, so a human decides"
  if ruleId = .localInterface then
    target ++ text " is one of this machine's own interface addresses, " ++ mayBeThisMachine
  else target ++ text " is a loopback address, " ++ mayBeThisMachine

/-- The first target of an evidence tier that trips a self-protection rule. -/
def firstProtected (tier : TgSecTargetEvidence) (hostAddresses : List Text) (targets : Targets) :
    Option (Text × TgSecHardDenyRuleId) :=
  targets.findSome? fun target =>
    if target.2 = tier then (selfProtectionRule L target.1 hostAddresses).map (target.1, ·)
    else none

def strongSelfProtection (targets : Targets) (hostAddresses : List Text) :
    Option TgSecHardDenyHit :=
  (firstProtected L .strong hostAddresses targets).map fun found =>
    ⟨found.2, selfProtectionDenyReason found.2⟩

def evaluateWeakSelfProtection (request : TgSecRequest) (hostAddresses : List Text) :
    Option TgSecWeakSelfProtectionHit :=
  (firstProtected L .weak hostAddresses (extractConnectionTargets L request)).map fun found =>
    ⟨found.2, found.1, weakSelfProtectionReason found.2 found.1⟩

end Rules

/-! ### Self-destruction -/

def POWER_COMMANDS : List Text := ["shutdown", "reboot", "poweroff"].map text

/-- `MKFS_HEAD`. -/
def mkfsHead (head : Text) : Bool :=
  startsWith head (text "mkfs") &&
    match head.drop 4 with
    | [] => true
    | c :: rest => c == unit '.' && rest ≠ [] && rest.all isWord

def HOME_TARGETS : List Text := ["~", "$home", "$\x7bhome\x7d"].map text

def hitsRmRoot (command : TgSecCommandGroup) : Bool :=
  command.head = text "rm" &&
    (command.tokens.contains (text "--no-preserve-root") ||
      hasForcedRecursiveFlags command.tokens &&
        (nonFlagTargets command).any fun target => target = text "/" || target = text "/*")

/-- `target.replace(/\/\*?$/, "")`. -/
def stripTrailingSlash (target : Text) : Text :=
  if (text "/*").isSuffixOf target then target.take (target.length - 2)
  else if (text "/").isSuffixOf target then target.take (target.length - 1)
  else target

def hitsRmHome (command : TgSecCommandGroup) : Bool :=
  command.head = text "rm" && hasForcedRecursiveFlags command.tokens &&
    (nonFlagTargets command).any fun target => HOME_TARGETS.contains (stripTrailingSlash target)

def BENIGN_DD_TARGETS : List Text := ["of=/dev/null", "of=/dev/zero"].map text

def hitsDdDevice (command : TgSecCommandGroup) : Bool :=
  command.head = text "dd" && command.tokens.any fun token =>
    startsWith token (text "of=/dev/") && !BENIGN_DD_TARGETS.contains token

def hitsForkBomb (value : Text) : Bool :=
  includes (value.filter fun c => !isSpace c) (text ":()\x7b:|:&\x7d;:")

def destructionHit (ruleId : TgSecHardDenyRuleId) : TgSecHardDenyHit :=
  ⟨ruleId, text "hard deny: this command is machine self-destruction"⟩

/-- The last loop of `evaluateHardDeny`, at one command. -/
def destructiveHead (command : TgSecCommandGroup) : Option TgSecHardDenyHit :=
  if mkfsHead command.head then some (destructionHit .mkfs)
  else if hitsDdDevice command then some (destructionHit .ddDevice)
  else if POWER_COMMANDS.contains command.head then some (destructionHit .power)
  else none

def evaluateHardDeny (L : LowerCase) (request : TgSecRequest) (hostAddresses : List Text) :
    Option TgSecHardDenyHit :=
  match strongSelfProtection L (extractConnectionTargets L request) hostAddresses with
  | some protection => some protection
  | none =>
    let view := scanTextSurface L request
    if view.commands.any hitsRmRoot then
      some ⟨.rmRoot, text "hard deny: recursive forced removal of the filesystem root"⟩
    else if view.commands.any hitsRmHome then
      some ⟨.rmHome, text "hard deny: recursive forced removal of the home directory"⟩
    else if view.strings.any fun value => hitsForkBomb (L.lower value) then
      some ⟨.forkBomb, text "hard deny: fork bomb"⟩
    else view.commands.findSome? destructiveHead

/-! ### When a request is denied -/

/-- A command one of the command rules hits. -/
def destroys (command : TgSecCommandGroup) : Bool :=
  hitsRmRoot command || hitsRmHome command || (destructiveHead command).isSome

/-- **A request is denied for a protected target, a destructive command or a fork bomb.** -/
theorem evaluateHardDeny_isSome (L : LowerCase) (request : TgSecRequest) (hostAddresses : List Text) :
    (evaluateHardDeny L request hostAddresses).isSome = true ↔
      (firstProtected L .strong hostAddresses (extractConnectionTargets L request)).isSome = true ∨
        (scanTextSurface L request).commands.any destroys = true ∨
        (scanTextSurface L request).strings.any (fun value => hitsForkBomb (L.lower value)) =
          true := by
  unfold evaluateHardDeny strongSelfProtection
  cases firstProtected L .strong hostAddresses (extractConnectionTargets L request) with
  | some found => simp
  | none =>
    simp only [Option.map_none, Option.isSome_none, Bool.false_eq_true, false_or]
    have any_destroys : ∀ commands : List TgSecCommandGroup, commands.any destroys = true ↔
        commands.any hitsRmRoot = true ∨ commands.any hitsRmHome = true ∨
          (commands.findSome? destructiveHead).isSome = true := by
      intro commands
      induction commands with
      | nil => simp
      | cons command rest ih =>
        simp only [List.any_cons, destroys, Bool.or_eq_true, List.findSome?_cons] at ih ⊢
        cases destructiveHead command with
        | none =>
          simp only [Option.isSome_none, Bool.false_eq_true, or_false, ih]
          grind
        | some hit => simp
    rw [any_destroys]
    split_ifs with root home bomb
    · simp [root]
    · simp [home]
    · simp [bomb]
    · simp [root, home, bomb]

end TianGong.SecGuard
