/-
**`diffRevisions`: a batch from two revisions.**

The recursion of the source runs over nested values (`diffValue`) and, inside two arrays, over
regions (`diffArrayRegion`). Here the region functions take the recursive call on items as an
argument (`child`), and each of the two recursions has a `fuel`: the depth of the value before, and
the size of the region.

A batch that would pass `MAX_DELTA_OPERATIONS` is marked as overflowed and takes nothing more.
-/

import TianGong.Chord.Match

namespace TianGong.Chord

open TianGong.Lib TianGong.Json

/-! ### Batches -/

def MAX_DELTA_OPERATIONS : Nat := 4096

/-- The operations so far, and whether the batch is among `overflowedBatches`. -/
structure Batch where
  operations : List (Op (Json Addr))
  overflowed : Bool

def emitOperation (batch : Batch) (operation : Op (Json Addr)) : Batch :=
  if batch.overflowed then batch
  else if batch.operations.length ≥ MAX_DELTA_OPERATIONS then { batch with overflowed := true }
  else { batch with operations := batch.operations ++ [operation] }

def emitSet (path : Path) (value : Json Addr) (batch : Batch) : Batch :=
  if path = [] then emitOperation batch (.r value) else emitOperation batch (.s path value)

/-! ### Strings -/

def DEFAULT_OVERLAP_SCAN : Nat := 65536

/-- `text.indexOf(head, position)`. -/
def indexOf (s head : Text) (position : Nat) : Option Nat :=
  ((List.range (s.length + 1)).drop position).find? fun k => head.isPrefixOf (s.drop k)

/-- The inner loop of `overlap`: at most `tries` places where the head occurs. -/
def overlapLoop (tail b head : Text) : Nat → Nat → Option Nat
  | 0, _ => none
  | tries + 1, position =>
    match indexOf tail head position with
    | none => none
    | some k =>
      let n := tail.length - k
      if n ≤ b.length ∧ tail.drop k = b.take n then some n
      else overlapLoop tail b head tries (k + 1)

/-- `overlap`: a long head first, then one character. -/
def overlap (a b : Text) (scan probe maxCandidates : Nat) : Nat :=
  if a.length = 0 ∨ b.length = 0 ∨ scan = 0 then 0
  else
    let tail := if a.length > scan then a.drop (a.length - scan) else a
    let h := min probe b.length
    match overlapLoop tail b (b.take h) maxCandidates 0 with
    | some n => n
    | none =>
      if h = 1 then 0 else (overlapLoop tail b (b.take 1) maxCandidates 0).getD 0

def emitString (before after : Text) (path : Path) (batch : Batch) : Batch :=
  if before = after then batch
  else if after.length > before.length ∧ after.take before.length = before then
    emitOperation batch (.a path (after.drop before.length))
  else
    let shared := overlap before after DEFAULT_OVERLAP_SCAN 64 8
    if shared = 0 then emitOperation batch (.s path (.string after))
    else
      let batch := emitOperation batch (.t path (before.length - shared))
      if after.length > shared then emitOperation batch (.a path (after.drop shared)) else batch

/-! ### Arrays -/

/-- `items.slice(start, end)`. -/
def slice (items : List (Json Addr)) (start stop : Nat) : List (Json Addr) :=
  (items.take stop).drop start

/-- A region of two arrays, and where it stands in the array as transformed so far. -/
structure Region where
  beforeStart : Nat
  beforeEnd : Nat
  afterStart : Nat
  afterEnd : Nat
  outputStart : Nat

/-- Equal items at the front leave the region. -/
def trimStart (before after : List (Json Addr)) : Nat → Region → Region
  | 0, r => r
  | fuel + 1, r =>
    if r.beforeStart < r.beforeEnd ∧ r.afterStart < r.afterEnd ∧
        sameValue (item before r.beforeStart) (item after r.afterStart) then
      trimStart before after fuel { r with
        beforeStart := r.beforeStart + 1
        afterStart := r.afterStart + 1
        outputStart := r.outputStart + 1 }
    else r

/-- Equal items at the back leave the region. -/
def trimEnd (before after : List (Json Addr)) : Nat → Region → Region
  | 0, r => r
  | fuel + 1, r =>
    if r.beforeStart < r.beforeEnd ∧ r.afterStart < r.afterEnd ∧
        sameValue (item before (r.beforeEnd - 1)) (item after (r.afterEnd - 1)) then
      trimEnd before after fuel { r with
        beforeEnd := r.beforeEnd - 1
        afterEnd := r.afterEnd - 1 }
    else r

/-- The recursive call on two items, at a path. -/
abbrev Child := Json Addr → Json Addr → Path → Batch → Batch

/-- The loop of `processArrayMatches`: the region before each match, the match, and at last the rest. -/
def processArrayMatches (region : Region → Batch → Batch) (child : Child)
    (before after : List (Json Addr)) (path : Path) (beforeEnd afterEnd : Nat) :
    List ArrayMatch → Nat → Nat → Nat → Batch → Batch
  | [], beforeAt, afterAt, outputAt, batch =>
    if batch.overflowed then batch else region ⟨beforeAt, beforeEnd, afterAt, afterEnd, outputAt⟩ batch
  | (b, a) :: rest, beforeAt, afterAt, outputAt, batch =>
    if batch.overflowed then batch
    else
      let batch := region ⟨beforeAt, b, afterAt, a, outputAt⟩ batch
      let outputAt := outputAt + (a - afterAt)
      let batch :=
        if sameValue (item before b) (item after a) then batch
        else child (item before b) (item after a) (path ++ [.index outputAt]) batch
      processArrayMatches region child before after path beforeEnd afterEnd rest (b + 1) (a + 1)
        (outputAt + 1) batch

/-- The first strategy that finds matches: items equal in place, a subsequence by identity, identity
anchors, a semantic subsequence. -/
def alignment (before after : List (Json Addr)) (r : Region) : List ArrayMatch :=
  let beforeCount := r.beforeEnd - r.beforeStart
  let afterCount := r.afterEnd - r.afterStart
  let positional :=
    if beforeCount = afterCount then
      positionalLoop before after beforeCount r.beforeStart r.afterStart
    else []
  if positional.length > 0 then positional
  else
    let subsequence := (identitySubsequence before r.beforeStart r.beforeEnd after r.afterStart
      r.afterEnd).getD []
    if subsequence.length > 0 then subsequence
    else
      let identity := identityAnchors before r.beforeStart r.beforeEnd after r.afterStart r.afterEnd
      if identity.length > 0 then identity
      else
        let semantic := (lcsMatches (slice before r.beforeStart r.beforeEnd)
          (slice after r.afterStart r.afterEnd) semanticallyAligned MAX_SEMANTIC_CELLS).getD []
        semantic.map fun m => (r.beforeStart + m.1, r.afterStart + m.2)

/-- `diffArrayRegion`, with the size of the region as fuel. -/
def diffArrayRegion (child : Child) (before after : List (Json Addr)) (path : Path) :
    Nat → Region → Batch → Batch
  | 0, _, batch => batch
  | fuel + 1, r, batch =>
    if batch.overflowed then batch
    else
      let r := trimStart before after (r.beforeEnd - r.beforeStart) r
      let r := trimEnd before after (r.beforeEnd - r.beforeStart) r
      let beforeCount := r.beforeEnd - r.beforeStart
      let afterCount := r.afterEnd - r.afterStart
      let spliced := emitOperation batch
        (.p path r.outputStart beforeCount (slice after r.afterStart r.afterEnd))
      if beforeCount = 0 ∧ afterCount = 0 then batch
      else if beforeCount = 0 ∨ afterCount = 0 then spliced
      else match alignment before after r with
        | [] =>
          if beforeCount = 1 ∧ afterCount = 1 then
            child (item before r.beforeStart) (item after r.afterStart)
              (path ++ [.index r.outputStart]) batch
          else spliced
        | m :: ms =>
          processArrayMatches (diffArrayRegion child before after path fuel) child before after path
            r.beforeEnd r.afterEnd (m :: ms) r.beforeStart r.afterStart r.outputStart batch

def diffArray (child : Child) (left right : Json Addr) (before after : List (Json Addr))
    (path : Path) (batch : Batch) : Batch :=
  if identical left right || equalJson left right then batch
  else
    let moved := before.length = after.length ∧ before.length > 1 ∧
      ¬ sameValue (item before 0) (item after 0) ∧
      ¬ sameValue (item before (before.length - 1)) (item after (after.length - 1))
    match if moved then permutation before after else none with
    | some order => emitOperation batch (.m path order)
    | none => diffArrayRegion child before after path (before.length + after.length + 1)
      ⟨0, before.length, 0, after.length, 0⟩ batch

/-! ### Objects -/

/-- The loop over `afterKeys`. -/
def diffKeys (child : Child) (before : List (Text × Json Addr)) (path : Path) :
    List (Text × Json Addr) → Batch → Batch
  | [], batch => batch
  | (key, value) :: rest, batch =>
    if batch.overflowed then batch
    else
      let batch := match Assoc.get key before with
        | some old => child old value (path ++ [.key key]) batch
        | none => emitSet (path ++ [.key key]) value batch
      diffKeys child before path rest batch

/-- The loop over `beforeKeys` that deletes. -/
def deleteKeys (after : List (Text × Json Addr)) (path : Path) :
    List (Text × Json Addr) → Batch → Batch
  | [], batch => batch
  | (key, _) :: rest, batch =>
    if batch.overflowed then batch
    else
      let batch :=
        if Assoc.has key after then batch else emitOperation batch (.d (path ++ [.key key]))
      deleteKeys after path rest batch

def diffObject (child : Child) (left right : Json Addr) (before after : List (Text × Json Addr))
    (path : Path) (batch : Batch) : Batch :=
  if (Assoc.keys before ++ Assoc.keys after).any fun key => reservedSegments.contains key then
    if equalJson left right then batch else emitSet path right batch
  else deleteKeys after path before (diffKeys child before path after batch)

/-! ### Values -/

mutual
/-- How deep containers are nested. -/
def depth : Json Addr → Nat
  | .array _ items => depthItems items + 1
  | .object _ fields => depthFields fields + 1
  | _ => 0

def depthItems : List (Json Addr) → Nat
  | [] => 0
  | x :: xs => max (depth x) (depthItems xs)

def depthFields : List (Text × Json Addr) → Nat
  | [] => 0
  | (_, x) :: xs => max (depth x) (depthFields xs)
end

/-- `diffValue`, with the depth of the value before as fuel. -/
def diffValue : Nat → Child
  | 0, _, _, _, batch => batch
  | fuel + 1, before, after, path, batch =>
    if identical before after || batch.overflowed then batch
    else match before, after with
      | .string old, .string new =>
        if path.length > 0 then emitString old new path batch else emitSet path after batch
      | .array _ old, .array _ new => diffArray (diffValue fuel) before after old new path batch
      | .object _ old, .object _ new => diffObject (diffValue fuel) before after old new path batch
      | _, _ => emitSet path after batch

/-! ### Costs -/

mutual
/-- `jsonCost`: the length of the value as JSON text, escapes apart. -/
def jsonCost : Json Addr → Nat
  | .null => 4
  | .string s => s.length + 2
  | .number n => n.text.length
  | .bool b => if b then 4 else 5
  | .array _ items => 2 + jsonCostItems items + (items.length - 1)
  | .object _ fields => 2 + jsonCostFields fields + (fields.length - 1)

def jsonCostItems : List (Json Addr) → Nat
  | [] => 0
  | x :: xs => jsonCost x + jsonCostItems xs

def jsonCostFields : List (Text × Json Addr) → Nat
  | [] => 0
  | (key, x) :: xs => key.length + 3 + jsonCost x + jsonCostFields xs
end

def pathCost (path : Path) : Nat :=
  2 + (path.map fun segment => match segment with
    | .key k => k.length + 2
    | .index n => (decimal n).length).sum + (path.length - 1)

def operationCost : Op (Json Addr) → Nat
  | .r value => 6 + jsonCost value
  | .s path value => 7 + pathCost path + jsonCost value
  | .d path => 6 + pathCost path
  | .a path suffix => 7 + pathCost path + suffix.length + 2
  | .t path count => 7 + pathCost path + (decimal count).length
  | .p path index remove items =>
    10 + pathCost path + (decimal index).length + (decimal remove).length + jsonCost (.array 0 items)
  | .m path permutation =>
    7 + pathCost path + jsonCost (.array 0 (permutation.map fun i => .number (.ofNat i)))

/-- **`diffRevisions`**: the delta, unless it overflowed or costs as much as the snapshot. -/
def diffRevisions (before after : Json Addr) : List (Op (Json Addr)) :=
  let batch := diffValue (depth before + 1) before after [] ⟨[], false⟩
  if batch.overflowed then [.r after]
  else if batch.operations.length = 0 ∨ isBase batch.operations then batch.operations
  else
    let deltaCost := 2 + (batch.operations.map fun operation => operationCost operation + 1).sum
    if deltaCost < 65536 then batch.operations
    else
      let snapshotCost := jsonCost after + 6
      if deltaCost ≥ snapshotCost then [.r after] else batch.operations

end TianGong.Chord
