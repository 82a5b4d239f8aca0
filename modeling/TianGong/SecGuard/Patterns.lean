/-
**The string functions and patterns of the guard.**

Each regular expression of the source is a function on code units here. None has the `u` flag, so
`\w`, `\d` and `\b` are about ASCII units, and `\s` is the fixed set of `isSpace`.

`LowerCase` is what the guard relies on of `String.prototype.toLowerCase`: the full Unicode table is
not spelled out, only its effect on ASCII.
-/

import TianGong.Text

namespace TianGong.SecGuard

/-! ### Units -/

def isLower (c : UInt16) : Bool := 97 ≤ c && c ≤ 122

def isUpper (c : UInt16) : Bool := 65 ≤ c && c ≤ 90

def isAlpha (c : UInt16) : Bool := isLower c || isUpper c

/-- `\w`. -/
def isWord (c : UInt16) : Bool := isAlpha c || isDigit c || c == unit '_'

/-- `\s`. -/
def isSpace (c : UInt16) : Bool :=
  (9 ≤ c && c ≤ 13) || c == 32 || c == 0xA0 || c == 0x1680 || (0x2000 ≤ c && c ≤ 0x200A) ||
    c == 0x2028 || c == 0x2029 || c == 0x202F || c == 0x205F || c == 0x3000 || c == 0xFEFF

/-- A unit that `.` does not match. -/
def isLineEnd (c : UInt16) : Bool := c == 10 || c == 13 || c == 0x2028 || c == 0x2029

def isAscii (c : UInt16) : Bool := c < 128

/-- The lower case of an ASCII unit. -/
def lowerUnit (c : UInt16) : UInt16 := if isUpper c then c + 32 else c

/-- An ASCII unit that is neither cased nor ignored by the rules on case: not a letter, and not an
apostrophe, a full stop, a colon, a circumflex or a grave accent. -/
def isUncased (c : UInt16) : Bool :=
  isAscii c && !isAlpha c && !([39, 46, 58, 94, 96] : List UInt16).contains c

/-- **`toLowerCase`**, as far as ASCII goes: an ASCII text is lowered unit by unit, and an uncased unit
stays and separates what is before it from what is after it (the lower case of a letter can depend on
its neighbours, up to such a unit). -/
structure LowerCase where
  lower : Text → Text
  ascii : ∀ t, (∀ c ∈ t, isAscii c = true) → lower t = t.map lowerUnit
  uncased : ∀ before c after, isUncased c = true →
    lower (before ++ c :: after) = lower before ++ c :: lower after

/-- The lower case that touches nothing but ASCII. -/
def asciiLowerCase : LowerCase where
  lower t := t.map lowerUnit
  ascii _ _ := rfl
  uncased before c after plain := by
    simp only [isUncased, isAlpha, Bool.and_eq_true, Bool.not_eq_true', Bool.or_eq_false_iff] at plain
    rw [List.map_append, List.map_cons, lowerUnit, plain.1.2.2, if_neg Bool.false_ne_true]

theorem lowerUnit_eq {c d : UInt16} (same : lowerUnit d = c) (letter : isLower c = false) : d = c := by
  unfold lowerUnit at same
  split at same
  · rename_i upper
    have lower : isLower (d + 32) = true := by
      simp only [isUpper, isLower, Bool.and_eq_true, decide_eq_true_eq, UInt16.le_iff_toNat_le,
        UInt16.toNat_add, UInt16.reduceToNat] at upper ⊢
      omega
    rw [same, letter] at lower
    cases lower
  · exact same

theorem isSpace_lowerUnit (c : UInt16) : isSpace (lowerUnit c) = isSpace c := by
  unfold lowerUnit
  split
  · rename_i upper
    simp only [isUpper, Bool.and_eq_true, decide_eq_true_eq, UInt16.le_iff_toNat_le,
      UInt16.reduceToNat] at upper
    have units (d : UInt16) (letter : 65 ≤ d.toNat ∧ d.toNat ≤ 122) : isSpace d = false := by
      simp only [isSpace, Bool.or_eq_false_iff, Bool.and_eq_false_iff, decide_eq_false_iff_not,
        beq_eq_false_iff_ne, ne_eq, ← UInt16.toNat_inj, UInt16.le_iff_toNat_le, UInt16.reduceToNat]
      omega
    rw [units c (by omega), units (c + 32) (by
      simp only [UInt16.toNat_add, UInt16.reduceToNat]
      omega)]
  · rfl

theorem lowerUnit_lowerUnit (c : UInt16) : lowerUnit (lowerUnit c) = lowerUnit c := by
  by_cases upper : isUpper c = true
  · have lowered : lowerUnit c = c + 32 := if_pos upper
    rw [lowered, lowerUnit, if_neg]
    simp only [isUpper, Bool.and_eq_true, decide_eq_true_eq, UInt16.le_iff_toNat_le,
      UInt16.toNat_add, UInt16.reduceToNat] at upper ⊢
    omega
  · rw [show lowerUnit c = c from if_neg upper, show lowerUnit c = c from if_neg upper]

/-! ### Searching and splitting -/

def startsWith (t head : Text) : Bool := head.isPrefixOf t

/-- `t.indexOf(head)`. -/
def indexOf (t head : Text) : Option Nat :=
  (List.range (t.length + 1)).find? fun i => head.isPrefixOf (t.drop i)

/-- `t.includes(part)`. -/
def includes (t part : Text) : Bool := (indexOf t part).isSome

/-- The units after the last occurrence of a unit, if it occurs. -/
def afterLast (c : UInt16) (t : Text) : Text :=
  if t.contains c then (t.reverse.takeWhile (· ≠ c)).reverse else t

/-- The units before the last occurrence of a unit, if it occurs. -/
def beforeLast (c : UInt16) (t : Text) : Text :=
  if t.contains c then t.take (t.length - 1 - (t.reverse.takeWhile (· ≠ c)).length) else t

/-- `t.split(sep)`, for a separator that is not empty. `fuel` bounds the number of parts; the length
of the text is enough. -/
def splitLoop (sep : Text) : Nat → Text → Text → List Text
  | 0, part, t => [part ++ t]
  | _ + 1, part, [] => [part]
  | fuel + 1, part, c :: t =>
    if sep.isPrefixOf (c :: t) then part :: splitLoop sep fuel [] ((c :: t).drop sep.length)
    else splitLoop sep fuel (part ++ [c]) t

def split (sep t : Text) : List Text := splitLoop sep t.length [] t

example : split (text "::") (text "a::b") = [text "a", text "b"] := by decide

/-! ### Shapes of hosts -/

/-- `URL_HEAD`: a scheme and `://`. -/
def urlHead : Text → Bool
  | [] => false
  | c :: rest => isAlpha c && (text "://").isPrefixOf (rest.dropWhile fun d =>
      isAlpha d || isDigit d || d == unit '+' || d == unit '.' || d == unit '-')

/-- Between one and three digits. -/
def octet (t : Text) : Bool := 1 ≤ t.length && t.length ≤ 3 && t.all isDigit

/-- `BARE_IPV4` and `IPV4_TAIL`. -/
def bareIpv4 (t : Text) : Bool :=
  let parts := split (text ".") t
  parts.length == 4 && parts.all octet

/-- `IPV6_GROUP`. -/
def ipv6Group (t : Text) : Bool :=
  1 ≤ t.length && t.length ≤ 4 && t.all fun c => isDigit c || (97 ≤ c && c ≤ 102)

def isLabelEnd (c : UInt16) : Bool := isLower c || isDigit c

/-- A domain label: letters, digits and inner hyphens. -/
def domainLabel (t : Text) : Bool :=
  t.all (fun c => isLabelEnd c || c == unit '-') && t.head?.any isLabelEnd &&
    t.getLast?.any isLabelEnd

/-- `BARE_DOMAIN`. -/
def bareDomain (t : Text) : Bool :=
  let labels := split (text ".") t
  2 ≤ labels.length && labels.dropLast.all domainLabel &&
    labels.getLast?.any fun last => 2 ≤ last.length && last.all isLower

/-- What may follow a bracketed address: nothing, or a port and then perhaps a path. -/
def portTail : Text → Bool
  | [] => true
  | c :: rest =>
    c == unit ':' && (rest.head?.any isDigit) &&
      match rest.dropWhile isDigit with
      | [] => true
      | d :: path => (d == unit '/' || d == unit '?' || d == unit '#') && path.all fun e => !isLineEnd e

/-- `bareIpv6Host` of a token without brackets. -/
def plainIpv6 (token : Text) : Bool :=
  let runs := split (text "::") token
  let groups := (runs.filter (· ≠ [])).flatMap (split (text ":"))
  let tail := groups.getLast?.any bareIpv4
  let hexGroups := if tail then groups.dropLast else groups
  let counted := hexGroups.length + if tail then 2 else 0
  token.contains (unit ':') && runs.length ≤ 2 && groups.length ≠ 0 && hexGroups.all ipv6Group &&
    if runs.length == 2 then counted < 8 else counted == 8

/-- `bareIpv6Host`. `fuel` bounds the nesting of brackets; the length of the token is enough. -/
def bareIpv6HostLoop : Nat → Text → Option Text
  | 0, _ => none
  | fuel + 1, token =>
    if startsWith token (text "[") then
      match indexOf token (text "]") with
      | none => none
      | some close =>
        if portTail (token.drop (close + 1)) then bareIpv6HostLoop fuel ((token.take close).drop 1)
        else none
    else if plainIpv6 token then some token
    else none

def bareIpv6Host (token : Text) : Option Text := bareIpv6HostLoop (token.length + 1) token

example : bareIpv6Host (text "[::1]:8080") = some (text "::1") := by decide

/-! ### Loopback patterns -/

/-- `\b` between two neighbouring units. -/
def boundary (before after : Option UInt16) : Bool := before.any isWord != after.any isWord

/-- Whether a pattern, anchored at a position with the unit before it, matches at some position. -/
def matchesAnywhere (anchored : Option UInt16 → Text → Bool) : Option UInt16 → Text → Bool
  | before, [] => anchored before []
  | before, c :: t => anchored before (c :: t) || matchesAnywhere anchored (some c) t

/-- `/\blocalhost\b/`. -/
def loopbackHostname (t : Text) : Bool :=
  matchesAnywhere (fun before t => boundary before t.head? && startsWith t (text "localhost") &&
    boundary (some (unit 't')) (t.drop 9).head?) none t

/-- `\d{1,3}` and then a test of the rest, for each number of digits it can take. -/
def digitsThen (next : Text → Bool) (t : Text) : Bool :=
  [1, 2, 3].any fun n => n ≤ t.length && (t.take n).all isDigit && next (t.drop n)

/-- A full stop and then a test of the rest. -/
def stopThen (next : Text → Bool) (t : Text) : Bool := startsWith t (text ".") && next (t.drop 1)

/-- `/\b127\.\d{1,3}\.\d{1,3}\.\d{1,3}\b/`. -/
def loopbackV4 (t : Text) : Bool :=
  matchesAnywhere (fun before t => boundary before t.head? && startsWith t (text "127.") &&
    digitsThen (stopThen (digitsThen (stopThen (digitsThen fun rest =>
      boundary (some (unit '0')) rest.head?)))) (t.drop 4)) none t

/-- `/(?:^|[^\w:])::1(?![\w:])/`. -/
def loopbackV6 (t : Text) : Bool :=
  matchesAnywhere (fun before t => (before.all fun c => !(isWord c || c == unit ':')) &&
    startsWith t (text "::1") && (t.drop 3).head?.all fun c => !(isWord c || c == unit ':')) none t

/-- `(?<![\w.])address(?![\w.])`, for the literal text of an address. -/
def interfacePattern (address t : Text) : Bool :=
  matchesAnywhere (fun before t => (before.all fun c => !(isWord c || c == unit '.')) &&
    startsWith t address &&
      (t.drop address.length).head?.all fun c => !(isWord c || c == unit '.')) none t

example : loopbackHostname (text "localhost") = true := by decide

end TianGong.SecGuard
