/-
**The scope registry and its resolver.**

`scope-registry.ts`, from the entries on, and `scope.ts`. An entry compiles to a test of hosts or to
the message it throws. A registry tells of a host the entry that denies it, else one that allows it.

* `compileRule`: the test of an entry.
* `findVerdict`, `createTgSecScopeResolver`: what a registry tells of a host, and of a request.
-/

import TianGong.SecGuard.Address
import TianGong.SecGuard.Guard

namespace TianGong.SecGuard

inductive TgSecScopeKind where
  | exactHost | suffixDomain | fuzzyHost | cidr4 | cidr6
  deriving DecidableEq

def TgSecScopeKind.name : TgSecScopeKind → Text
  | .exactHost => text "exact-host"
  | .suffixDomain => text "suffix-domain"
  | .fuzzyHost => text "fuzzy-host"
  | .cidr4 => text "cidr4"
  | .cidr6 => text "cidr6"

inductive TgSecScopeEffect where
  | allow | deny
  deriving DecidableEq

structure TgSecScopeRule where
  kind : TgSecScopeKind
  pattern : Text
  effect : TgSecScopeEffect
  enabled : Bool
  deriving DecidableEq

/-- What the registry tells of a host. -/
inductive TgSecScopeOutcome where
  | denied (rule : TgSecScopeRule)
  | allowed (rule : TgSecScopeRule)
  | unlisted
  deriving DecidableEq

/-! ### Entries -/

/-- `t.lastIndexOf(c)`, of one unit. -/
def lastIndexOf (c : UInt16) (t : Text) : Option Nat :=
  if t.contains c then some (t.length - 1 - (t.reverse.takeWhile (· ≠ c)).length) else none

/-- `DOMAIN_PATTERN`. -/
def domainPattern (t : Text) : Bool :=
  let labels := split (text ".") t
  2 ≤ labels.length && labels.all domainLabel

def parseCidr (kind : TgSecScopeKind) (pattern : Text) (bits : Nat) (parse : Text → Option Nat) :
    Except Text (Nat × Nat) :=
  let entry := text "scope entry \"" ++ pattern ++ text "\""
  let invalid := entry ++ text " is not a valid " ++ kind.name ++ text " CIDR"
  match lastIndexOf (unit '/') pattern with
  | none => .error invalid
  | some slash =>
    if slash = 0 || slash = pattern.length - 1 then .error invalid
    else match parse (pattern.take slash) with
      | none => .error (entry ++ text " has an invalid " ++ kind.name ++ text " base address")
      | some base =>
        let prefixText := pattern.drop (slash + 1)
        if !octet prefixText then .error (entry ++ text " has an invalid prefix length")
        else if bits < number prefixText then
          .error (entry ++ text ": prefix " ++ decimal (number prefixText) ++ text " exceeds " ++
            kind.name ++ text "'s " ++ decimal bits ++ text " bits")
        else .ok (base, number prefixText)

section Compile

variable (L : LowerCase)

def isHostToken (t : Text) : Bool :=
  if t = [] || t.contains (unit '/') || includes t (text "://") || t.any isSpace then false
  else if (ipv4Value t).isSome || (ipv6Value L t).isSome then true
  else (split (text ".") t).all domainLabel

def compileRule (rule : TgSecScopeRule) : Except Text (Text → Bool) :=
  let pattern := L.lower (trim rule.pattern)
  let invalid := text "scope entry \"" ++ rule.pattern ++ text "\" is not a valid " ++
    rule.kind.name ++ text " pattern"
  match rule.kind with
  | .exactHost =>
    if !isHostToken L pattern then .error invalid
    else .ok fun host => canonicalHost L host == canonicalHost L pattern
  | .suffixDomain =>
    if !domainPattern pattern then .error invalid
    else .ok fun host => L.lower (trim host) == pattern ||
      (text "." ++ pattern).isSuffixOf (L.lower (trim host))
  | .fuzzyHost =>
    if pattern = [] || pattern.any isSpace then .error invalid
    else .ok fun host => includes (L.lower host) pattern
  | .cidr4 => (parseCidr rule.kind pattern 32 ipv4Value).map fun network host =>
      (hostToV4 L host).any fun value => inNetwork value network.1 network.2 32
  | .cidr6 => (parseCidr rule.kind pattern 128 (ipv6Value L)).map fun network host =>
      (hostToV6 L host).any fun value => inNetwork value network.1 network.2 128

/-! ### The registry -/

/-- A compiled entry. -/
structure CompiledScopeRule where
  rule : TgSecScopeRule
  matchesHost : Text → Bool

def findVerdict (denies allows : List CompiledScopeRule) (host : Text) : TgSecScopeOutcome :=
  match denies.find? fun entry => entry.matchesHost host with
  | some entry => .denied entry.rule
  | none =>
    match allows.find? fun entry => entry.matchesHost host with
    | some entry => .allowed entry.rule
    | none => .unlisted

structure TgSecScopeRegistry where
  outcome : Text → TgSecScopeOutcome

def TgSecScopeRegistry.contains (registry : TgSecScopeRegistry) (host : Text) : Bool :=
  match registry.outcome host with
  | .allowed _ => true
  | _ => false

/-- The registry of compiled entries. -/
def registryOf (compiled : List CompiledScopeRule) : TgSecScopeRegistry :=
  let enabled := compiled.filter fun entry => entry.rule.enabled
  ⟨findVerdict (enabled.filter fun entry => entry.rule.effect = .deny)
    (enabled.filter fun entry => entry.rule.effect = .allow)⟩

def createTgSecScopeRegistry (rules : List TgSecScopeRule) : Except Text TgSecScopeRegistry := do
  let compiled ← rules.mapM fun rule => (compileRule L rule).map (CompiledScopeRule.mk rule)
  return registryOf compiled

/-! ### The resolver -/

/-- What the resolver says of one target, if the registry does not allow it. -/
def refusal (registry : TgSecScopeRegistry) (target : Text × TgSecTargetEvidence) : Option Text :=
  let named := text "the connection target \"" ++ target.1 ++ text "\" (" ++ target.2.name ++
    text " evidence)"
  match registry.outcome target.1 with
  | .allowed _ => none
  | .denied rule => some (named ++ text " is refused by the scope deny entry \"" ++ rule.pattern ++
      text "\" (" ++ rule.kind.name ++ text ")")
  | .unlisted => some (named ++ text " is not in the registered scope: no allow entry covers it")

def createTgSecScopeResolver (registry : TgSecScopeRegistry) (request : TgSecRequest) :
    TgSecScopeVerdict :=
  match (extractConnectionTargets L request).findSome? (refusal registry) with
  | some reason => ⟨false, some reason⟩
  | none => ⟨true, none⟩

end Compile

end TianGong.SecGuard
