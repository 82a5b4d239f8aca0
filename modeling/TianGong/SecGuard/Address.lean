/-
**Addresses.**

The part of `scope-registry.ts` that reads an address off a text and writes it back. Numbers of the
source that hold an address are naturals here; the shifts and masks are the source's.

* `ipv4Value`, `ipv6Value`: the value of a literal.
* `canonicalHost`: the one spelling of a host.
-/

import TianGong.SecGuard.Patterns

namespace TianGong.SecGuard

/-! ### Texts -/

/-- `t.trim()`. -/
def trim (t : Text) : Text := ((t.dropWhile isSpace).reverse.dropWhile isSpace).reverse

/-- `Number(t)` of a run of digits. -/
def number (t : Text) : Nat := t.foldl (fun n c => n * 10 + hexValue c) 0

/-- `Number.parseInt(t, 16)` of a run of lower-case digits. -/
def parseHex (t : Text) : Nat := t.foldl (fun n c => n * 16 + hexValue c) 0

/-- `n.toString(16)`. -/
def hexText (n : Nat) : Text := (Nat.toDigits 16 n).map unit

/-- `t.padStart(width, "0")`. -/
def padStart (width : Nat) (t : Text) : Text := List.replicate (width - t.length) (unit '0') ++ t

/-! ### Reading -/

def ipv4Value (t : Text) : Option Nat :=
  let parts := split (text ".") t
  if parts.length ≠ 4 then none
  else parts.foldlM (fun value part =>
    if !octet part then none
    else if 255 < number part then none
    else some (value <<< 8 ||| number part)) 0

def expandIpv6Side (mayEndInV4 : Bool) : List Text → Option (List Nat)
  | [] => some []
  | token :: rest =>
    if token.contains (unit '.') then
      if !mayEndInV4 || rest ≠ [] then none
      else match ipv4Value token with
        | none => none
        | some v4 => some [v4 >>> 16, v4 &&& 0xFFFF]
    else if !ipv6Group token then none
    else match expandIpv6Side mayEndInV4 rest with
      | none => none
      | some groups => some (parseHex token :: groups)

def groupsTo128 (groups : List Nat) : Nat := groups.foldl (fun value group => value <<< 16 ||| group) 0

/-- The tokens of a half: none, if it is empty. -/
def sideTokens (half : Text) : List Text := if half = [] then [] else split (text ":") half

/-- A unit of an IPv6 literal. -/
def isLiteralUnit (c : UInt16) : Bool :=
  isDigit c || (97 ≤ c && c ≤ 102) || c == unit ':' || c == unit '.'

/-- `ipv6Value`, of a text that is lowered. -/
def loweredIpv6Value (lower : Text) : Option Nat :=
  if lower = [] || !lower.all isLiteralUnit then none
  else match split (text "::") lower with
    | [whole] =>
      match expandIpv6Side true (sideTokens whole) with
      | none => none
      | some groups => if groups.length ≠ 8 then none else some (groupsTo128 groups)
    | [before, after] =>
      match expandIpv6Side false (sideTokens before), expandIpv6Side true (sideTokens after) with
      | some head, some tail =>
        if 7 < head.length + tail.length then none
        else some (groupsTo128 (head ++ List.replicate (8 - head.length - tail.length) 0 ++ tail))
      | _, _ => none
    | _ => none

section Host

variable (L : LowerCase)

def ipv6Value (t : Text) : Option Nat := loweredIpv6Value (L.lower t)

def isMappedV4 (value : Nat) : Bool := value >>> 32 == 0xFFFF

def MAX_IPV4 : Nat := 0xFFFFFFFF

def MAPPED_V6_PREFIX : Nat := 0xFFFF <<< 32

def hostToV4 (host : Text) : Option Nat :=
  match ipv4Value host with
  | some v4 => some v4
  | none =>
    match ipv6Value L host with
    | some v6 => if isMappedV4 v6 then some (v6 &&& MAX_IPV4) else none
    | none => none

def hostToV6 (host : Text) : Option Nat :=
  match ipv6Value L host with
  | some v6 => some v6
  | none => (ipv4Value host).map fun v4 => MAPPED_V6_PREFIX ||| v4

/-! ### Writing -/

def renderV4 (value : Nat) : Text :=
  (text ".").intercalate ([value >>> 24, (value >>> 16) &&& 0xFF, (value >>> 8) &&& 0xFF,
    value &&& 0xFF].map fun octet => decimal (octet &&& 0xFF))

def renderV6 (value : Nat) : Text :=
  (text ":").intercalate ([7, 6, 5, 4, 3, 2, 1, 0].map fun i =>
    padStart 4 (hexText ((value >>> (16 * i)) &&& 0xFFFF)))

def canonicalHost (host : Text) : Text :=
  let lower := L.lower (trim host)
  match ipv4Value lower with
  | some v4 => renderV4 v4
  | none =>
    match ipv6Value L lower with
    | none => lower
    | some v6 => if isMappedV4 v6 then renderV4 (v6 &&& MAX_IPV4) else renderV6 v6

end Host

def inNetwork (value base length bits : Nat) : Bool :=
  if length = 0 then true else value >>> (bits - length) == base >>> (bits - length)

example : ipv4Value (text "10.0.0.256") = none := by decide

example : ipv6Value asciiLowerCase (text "::FFFF:1.2.3.4") = some 0xFFFF01020304 := by decide

end TianGong.SecGuard
