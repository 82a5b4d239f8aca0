/-
**What the projection derives from the items of a graph.**

The second half of `projection.ts`: the chosen attack path, the statistics and the frontier.

* `sinkPriority`: how good an end of a path a node is.
* `searchPaths`: the loop of `findPaths`.
* `markRcePath`: the best path of each source, and the edges on them.
* `computeFrontier`, `computeStats`: counts.

`Locale` is what the projection takes from the runtime: `toLowerCase` and `localeCompare`.
-/

import Mathlib.Algebra.Order.BigOperators.Group.List
import Mathlib.Data.List.Sort
import Mathlib.Data.Rat.Floor
import TianGong.SecGuard.Patterns
import TianGong.SecServer.Contract

namespace TianGong.SecServer

open List
open SecGuard (isSpace isAlpha startsWith indexOf)

/-- What the projection takes from the runtime. -/
structure Locale where
  /-- `toLowerCase` -/
  lower : Text → Text
  /-- `localeCompare` -/
  compare : Text → Text → Ordering

/-! ### Texts -/

def trim (t : Text) : Text := ((t.dropWhile isSpace).reverse.dropWhile isSpace).reverse

/-- `…` -/
def ellipsis : Text := [0x2026]

def clip (t : Text) (max : Nat) : Text :=
  let value := trim t
  if value.length ≤ max then value else value.take (max - 1) ++ ellipsis

def join (separator : Text) (parts : List Text) : Text := (parts.intersperse separator).flatten

def MAX_PATH_DEPTH : Nat := 8

def MAX_PATHS_PER_SOURCE : Nat := 4096

variable (locale : Locale)

/-! ### Sinks -/

def closeableVerified (key : Text) (findings : List SecFinding) : Bool :=
  findings.any fun finding =>
    finding.node_key = key && finding.verification_status = .verified &&
      (finding.critical || SecSeverity.high.order ≤ finding.severity.order)

def sinkPriority (node : SecGraphNode) (findings : List SecFinding) : Nat :=
  let tags := node.tags.map locale.lower
  if node.type = .goal ∧ startsWith node.key (text "goal:shell") ∧ node.is_rce then 4
  else if node.type = .foothold ∧ (node.is_rce ∨ text "getshell" ∈ tags) then 3
  else if (node.type = .vuln ∨ node.type = .danger) ∧ closeableVerified node.key findings then 3
  else if node.type = .vuln ∧ node.is_rce then 2
  else if node.type = .foothold then 1
  else 0

def isSinkFindable (node : SecGraphNode) : Bool := node.type = .danger || node.type = .vuln

/-! ### Paths -/

structure AttackEdge where
  target : Text
  weight : ℚ

/-- The node of a key, in a map made from the nodes. -/
def nodeOf (nodes : List SecGraphNode) (key : Text) : Option SecGraphNode :=
  Upsert.last SecGraphNode.key key nodes

/-- An edge that no attack path takes. -/
def skipsEdge (nodes : List SecGraphNode) (edge : SecGraphEdge) : Bool :=
  edge.relation = .pivotsTo ||
    match nodeOf nodes edge.source, nodeOf nodes edge.target with
    | some source, some target =>
      let verifiedShellGoal := target.type = .goal && target.is_rce
      source.type = .target && !verifiedShellGoal &&
        (target.type = .goal || startsWith target.key (text "goal:") ||
          startsWith target.key (text "flag:"))
    | _, _ => true

def attackAdjacency (nodes : List SecGraphNode) (edges : List SecGraphEdge) :
    List (Text × List AttackEdge) :=
  edges.foldl (fun adjacency edge =>
    if skipsEdge nodes edge then adjacency
    else
      let weight := max (1 / 100) (min 1 edge.weight)
      let list := (Assoc.get edge.source adjacency).getD []
      Assoc.set edge.source (list ++ [⟨edge.target, weight⟩]) adjacency) []

def edgePair (source target : Text) : Text := source ++ [0] ++ target

/-- The weights, by pair. -/
def pairWeights (adjacency : List (Text × List AttackEdge)) : List (Text × ℚ) :=
  adjacency.foldl (fun weights e =>
    e.2.foldl (fun weights edge => Assoc.set (edgePair e.1 edge.target) edge.weight weights)
      weights) []

/-- The product of the weights along a path, from `likelihood`. -/
def likelihoodFrom (weights : List (Text × ℚ)) : ℚ → List Text → ℚ
  | likelihood, first :: second :: rest =>
    match Assoc.get (edgePair first second) weights with
    | none => 0
    | some weight => likelihoodFrom weights (likelihood * weight) (second :: rest)
  | likelihood, _ => likelihood

def pathLikelihood (path : List Text) (weights : List (Text × ℚ)) : ℚ :=
  if path.length ≤ 1 then (if path.length = 0 then 0 else 1) else likelihoodFrom weights 1 path

/-- The keys that follow a key. -/
def nextKeys (adjacency : List (Text × List AttackEdge)) (key : Text) : List Text :=
  ((Assoc.get key adjacency).getD []).map AttackEdge.target

/-- The loop of `findPaths`. The stack is kept from its top; what a path has visited is what is
on it. -/
def searchPaths (sinks : List Text) (adjacency : List (Text × List AttackEdge)) (maxDepth : Nat) :
    Nat → List (List Text) → List (List Text) → List (List Text)
  | 0, _, found => found
  | _ + 1, [], found => found
  | fuel + 1, path :: stack, found =>
    if found.length < MAX_PATHS_PER_SOURCE then
      let tail := path.getLast?.getD []
      if 1 < path.length ∧ tail ∈ sinks then
        searchPaths sinks adjacency maxDepth fuel stack (found ++ [path])
      else if maxDepth ≤ path.length then searchPaths sinks adjacency maxDepth fuel stack found
      else
        -- pushed one after the other, so that the last is on top
        let pushed := ((nextKeys adjacency tail).filter fun key => key ∉ path).map
          fun key => path ++ [key]
        searchPaths sinks adjacency maxDepth fuel (pushed.reverse ++ stack) found
    else found

/-- The rounds of a path that may grow by `depth`, where at most `width` keys follow each. -/
def searchCost (width : Nat) : Nat → Nat
  | 0 => 1
  | depth + 1 => 1 + width * searchCost width depth

/-- The number of edges. -/
def adjacencyWidth (adjacency : List (Text × List AttackEdge)) : Nat :=
  (adjacency.map fun e => e.2.length).sum

def findPaths (sources sinks : List Text) (adjacency : List (Text × List AttackEdge))
    (maxDepth : Nat) : List (List Text) :=
  sources.foldl (fun found source =>
    searchPaths sinks adjacency maxDepth (searchCost (adjacencyWidth adjacency) maxDepth)
      [[source]] found) []

def betterPath (candidate incumbent : List Text) (weights : List (Text × ℚ)) : Bool :=
  if incumbent.length = 0 then true
  else if candidate.length ≠ incumbent.length then incumbent.length < candidate.length
  else pathLikelihood incumbent weights < pathLikelihood candidate weights

def hasIncoming (key : Text) (edges : List SecGraphEdge) : Bool :=
  edges.any fun edge => edge.target = key

/-- The priority of a key, in a map made from the nodes. -/
def priorityOf (nodes : List SecGraphNode) (findings : List SecFinding) (key : Text) : Nat :=
  match nodeOf nodes key with
  | some node => sinkPriority locale node findings
  | none => 0

/-- `Math.round(x * 10000) / 10000` -/
def roundLikelihood (x : ℚ) : ℚ := ⌊x * 10000 + 1 / 2⌋ / 10000

/-- The pairs along a path. -/
def pathPairs : List Text → List Text
  | first :: second :: rest => edgePair first second :: pathPairs (second :: rest)
  | _ => []

/-- The best path of each source, in the order in which the sources got one. -/
def bestBySource (priority : Text → Nat) (weights : List (Text × ℚ)) (allPaths : List (List Text)) :
    List (Text × List Text) :=
  allPaths.foldl (fun best path =>
    let source := path.head?.getD []
    let incumbent := (Assoc.get source best).getD []
    let candidatePriority := priority (path.getLast?.getD [])
    -- no incumbent has a lower priority than any candidate
    let incumbentPriority :=
      if incumbent.length = 0 then 0 else priority (incumbent.getLast?.getD []) + 1
    if incumbentPriority < candidatePriority + 1 ∨
        (candidatePriority + 1 = incumbentPriority ∧ betterPath path incumbent weights) then
      Assoc.set source path best
    else best) []

/-- The paths, each once by its signature. -/
def distinctPaths (paths : List (List Text)) : List (List Text) :=
  (paths.foldl (fun (acc : List Text × List (List Text)) path =>
    let signature := join [0] path
    if signature ∈ acc.1 then acc else (acc.1 ++ [signature], acc.2 ++ [path])) ([], [])).2

/-- The nodes that may be sinks where there is none, the best first. -/
def rankedSinks (nodes : List SecGraphNode) : List SecGraphNode :=
  (nodes.filter isSinkFindable).insertionSort fun a b =>
    b.risk_score < a.risk_score ∨ (a.risk_score = b.risk_score ∧ locale.compare a.key b.key ≠ .gt)

def markRcePath (nodes : List SecGraphNode) (edges : List SecGraphEdge)
    (findings : List SecFinding) : List SecGraphEdge × SecRcePath :=
  let adjacency := attackAdjacency nodes edges
  let weights := pairWeights adjacency
  let priority := priorityOf locale nodes findings
  let sinks := (nodes.filter fun node => 0 < priority node.key).map SecGraphNode.key
  let frontierMode := sinks.length = 0
  let effectiveSinks :=
    if frontierMode then ((rankedSinks locale nodes).map SecGraphNode.key).take 1 else sinks
  let sources := (nodes.filter fun node => node.type = .target).map SecGraphNode.key
  let sourceList :=
    if sources.length = 0 then
      (nodes.filter fun node => !hasIncoming node.key edges).map SecGraphNode.key
    else sources
  let allPaths := findPaths sourceList effectiveSinks adjacency MAX_PATH_DEPTH
  let paths := distinctPaths ((bestBySource priority weights allPaths).map Prod.snd)
  let best := paths.foldl (fun best path => if betterPath path best weights then path else best) []
  let likelihood :=
    if best.length = 0 then 0 else roundLikelihood (pathLikelihood best weights)
  let pairs := paths.flatMap pathPairs
  (edges.map fun edge => { edge with on_rce_path := edgePair edge.source edge.target ∈ pairs },
    ⟨best, paths, likelihood, frontierMode⟩)

/-! ### The fuel -/

theorem nextKeys_length (adjacency : List (Text × List AttackEdge)) (key : Text) :
    (nextKeys adjacency key).length ≤ adjacencyWidth adjacency := by
  unfold nextKeys adjacencyWidth
  rw [length_map]
  cases found : Assoc.get key adjacency with
  | none => exact Nat.zero_le _
  | some list =>
    exact single_le_sum (fun _ _ => Nat.zero_le _) _
      (mem_map_of_mem (f := fun e : Text × List AttackEdge => e.2.length)
        (Assoc.mem_of_get found))

/-- What a stack costs. -/
def stackCost (width maxDepth : Nat) (stack : List (List Text)) : Nat :=
  (stack.map fun path => searchCost width (maxDepth - path.length)).sum

theorem searchCost_pos (width depth : Nat) : 0 < searchCost width depth := by
  cases depth with
  | zero => exact Nat.one_pos
  | succ depth =>
    unfold searchCost
    omega

theorem stackCost_pushed (width maxDepth : Nat) (path : List Text) (rest : List (List Text))
    (keys : List Text) :
    stackCost width maxDepth ((keys.map fun key => path ++ [key]).reverse ++ rest) =
      keys.length * searchCost width (maxDepth - (path.length + 1)) +
        stackCost width maxDepth rest := by
  have pushed : stackCost width maxDepth (keys.map fun key => path ++ [key]) =
      keys.length * searchCost width (maxDepth - (path.length + 1)) := by
    induction keys with
    | nil => simp [stackCost]
    | cons key keys ih =>
      simp only [stackCost, map_cons, sum_cons, length_append, length_cons,
        length_nil, Nat.zero_add, Nat.succ_mul] at ih ⊢
      rw [ih, Nat.add_comm]
  rw [← pushed]
  simp only [stackCost, map_append, map_reverse, sum_append, sum_reverse]

/-- Each path that is pushed is longer by one, and there are at most as many as edges. -/
theorem stackCost_push {adjacency : List (Text × List AttackEdge)} {maxDepth fuel : Nat}
    {path : List Text} {rest : List (List Text)} (shallow : path.length < maxDepth)
    (enough : searchCost (adjacencyWidth adjacency) (maxDepth - path.length) +
      stackCost (adjacencyWidth adjacency) maxDepth rest ≤ fuel + 1) :
    stackCost (adjacencyWidth adjacency) maxDepth
      ((((nextKeys adjacency (path.getLast?.getD [])).filter fun key => key ∉ path).map
        fun key => path ++ [key]).reverse ++ rest) ≤ fuel := by
  generalize path.getLast?.getD [] = tail
  have depth : maxDepth - path.length = maxDepth - (path.length + 1) + 1 := by omega
  rw [depth, searchCost] at enough
  rw [stackCost_pushed]
  have few : ((nextKeys adjacency tail).filter fun key => key ∉ path).length ≤
      adjacencyWidth adjacency :=
    Nat.le_trans (length_filter_le _ _) (nextKeys_length adjacency tail)
  have product := Nat.mul_le_mul_right
    (searchCost (adjacencyWidth adjacency) (maxDepth - (path.length + 1))) few
  omega

/-! ### Counts -/

def computeFrontier (intents : List SecGraphIntent) : SecFrontier :=
  let byStatus := intents.foldl (fun byStatus intent =>
    Assoc.set intent.status ((Assoc.get intent.status byStatus).getD 0 + 1) byStatus) []
  { opened := (Assoc.get .opened byStatus).getD 0 + (Assoc.get .active byStatus).getD 0
    strategies := (intents.filterMap SecGraphIntent.strategy_key).dedup.length
    by_status := byStatus }

def isLandedShell (node : SecGraphNode) : Bool :=
  let tags := node.tags.map locale.lower
  if node.type = .goal then
    node.is_rce || (node.status = text "verified" &&
      (text "getshell" ∈ tags || startsWith node.key (text "goal:shell")))
  else if node.type = .foothold then
    node.is_rce || text "getshell" ∈ tags || startsWith node.key (text "goal:shell") ||
      startsWith node.key (text "foothold:shell")
  else false

def isHostUnit (c : UInt16) : Bool := isAlpha c || isDigit c || c == unit '.' || c == unit '-'

/-- `[A-Za-z0-9][A-Za-z0-9.-]*` -/
def isHostName : Text → Bool
  | [] => false
  | c :: rest => (isAlpha c || isDigit c) && rest.all isHostUnit

/-- `/@([A-Za-z0-9][A-Za-z0-9.-]*)$/`: what it captures. -/
def hostSuffix : Text → Option Text
  | [] => none
  | c :: rest => if c = unit '@' ∧ isHostName rest then some rest else hostSuffix rest

def hostOf (node : SecGraphNode) : Text :=
  match node.tags.find? fun tag => startsWith (locale.lower tag) (text "host:") with
  | some tag => locale.lower (trim (tag.drop 5))
  | none =>
    match hostSuffix node.key with
    | some host => locale.lower host
    | none => []

def computeStats (nodes : List SecGraphNode) (edges : List SecGraphEdge)
    (findings : List SecFinding) (intents : List SecGraphIntent) : SecGraphStats :=
  let frontier := computeFrontier intents
  let landed := nodes.filter (isLandedShell locale)
  let hosts := ((landed.map (hostOf locale)).filter fun host => host ≠ []).dedup
  let pivotEdges := (edges.filter fun edge => edge.relation = .pivotsTo).length
  let severity := fun level =>
    (findings.filter fun finding => finding.severity = level).length
  { nodes := nodes.length
    services := (nodes.filter fun node => node.type = .service).length
    edges := edges.length
    findings := findings.length
    high := severity .high
    medium := severity .medium
    low := severity .low + severity .info
    critical := severity .critical
    has_shell := 0 < landed.length
    frontier_open := frontier.opened
    frontier_strategies := frontier.strategies
    lateral_active := 0 < pivotEdges || 2 ≤ hosts.length
    pivot_edges := pivotEdges
    hosts_footed := hosts.length }

end TianGong.SecServer
