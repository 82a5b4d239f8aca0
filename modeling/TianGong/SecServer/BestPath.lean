/-
**When the attack path that is shown is the best one.**

The search ends a path at the first sink, and the choice between the sources looks at length and
likelihood only. So the path that is shown is not always the best: an attack that goes on through
a sink is missed, and a longer path to a lesser sink is preferred.

* `Aligned`: no path is lost at a sink, and no source is preferred for a path to a lesser one.
* `rcePath_best_iff`: the first holds exactly if the second does.
-/

import TianGong.SecServer.PathChoice
import TianGong.SecServer.Projector

namespace TianGong.SecServer

open Maximum (firstMax foldl_eq_firstMax le_firstMax firstMax_split firstMax_mem)
open List

/-- What `markRcePath` is given. -/
structure AttackGraph where
  locale : Locale
  nodes : List SecGraphNode
  edges : List SecGraphEdge
  findings : List SecFinding

variable {e : Text × List Text}

variable {p q path : List Text} {source : Text}

namespace AttackGraph

variable (g : AttackGraph)

/-! ### Attack paths -/

/-- The sinks of `markRcePath`. -/
def sinks : List Text :=
  let sinks := (g.nodes.filter fun node => 0 < priorityOf g.locale g.nodes g.findings node.key).map
    SecGraphNode.key
  if sinks.length = 0 then ((rankedSinks g.locale g.nodes).map SecGraphNode.key).take 1 else sinks

/-- The sources of `markRcePath`. -/
def sources : List Text :=
  let sources := (g.nodes.filter fun node => node.type = .target).map SecGraphNode.key
  if sources.length = 0 then
    (g.nodes.filter fun node => !hasIncoming node.key g.edges).map SecGraphNode.key
  else sources

/-- What the search of `markRcePath` finds. -/
def found : List (List Text) :=
  findPaths g.sources g.sinks (attackAdjacency g.nodes g.edges) MAX_PATH_DEPTH

/-- What `markRcePath` makes of the edges. -/
def marked : List SecGraphEdge := (markRcePath g.locale g.nodes g.edges g.findings).1

/-- What `markRcePath` shows. -/
def shown : SecRcePath := (markRcePath g.locale g.nodes g.edges g.findings).2

/-- A simple path from a source to a sink. -/
structure AttackPath (source : Text) (path : List Text) : Prop where
  starts : source ∈ g.sources
  simple : SimplePath (AttackStep g.nodes g.edges) g.sinks MAX_PATH_DEPTH source path

/-- The tier of the sink of a path. -/
def tier (path : List Text) : Nat := priorityOf g.locale g.nodes g.findings (pathEnd path)

/-- The product of the weights along a path. -/
def likelihood (path : List Text) : ℚ :=
  pathLikelihood path (pairWeights (attackAdjacency g.nodes g.edges))

/-- A path is longer, or as long and likelier. -/
def Ahead (p q : List Text) : Prop :=
  q.length < p.length ∨ q.length = p.length ∧ g.likelihood q < g.likelihood p

/-- A path ends in a higher tier, or in the same and is ahead. -/
def Better (p q : List Text) : Prop :=
  g.tier q < g.tier p ∨ g.tier q = g.tier p ∧ g.Ahead p q

/-- A best path of a source. -/
structure BestOf (source : Text) (path : List Text) : Prop where
  attack : g.AttackPath source path
  best : ∀ q, g.AttackPath source q → ¬g.Better q path

/-- **The path that is shown is the best one.** -/
structure RcePathBest : Prop where
  /-- The chosen path is an attack path, and none is better. -/
  chosen : g.shown.path ≠ [] → (∃ source, g.AttackPath source g.shown.path) ∧
    ∀ source path, g.AttackPath source path → ¬g.Better path g.shown.path
  /-- One is chosen whenever there is one. -/
  some_chosen : (∃ source path, g.AttackPath source path) → g.shown.path ≠ []
  /-- Each source contributes its own best path. -/
  each : ∀ source path, g.AttackPath source path → ∃ best ∈ g.shown.paths, g.BestOf source best
  /-- The edges of the listed paths are marked, and no others. -/
  marks : ∀ edge ∈ g.marked, edge.on_rce_path = true ↔
    ∃ path ∈ g.shown.paths, [edge.source, edge.target] <:+: path

/-- **No path is lost at a sink, and no source is preferred for a path to a lesser one.** -/
structure Aligned : Prop where
  /-- A path is matched by one from its source that ends at its first sink and is no worse. -/
  matched : ∀ source path, g.AttackPath source path →
    ∃ q, g.AttackPath source q ∧ FirstSink g.sinks q ∧ ¬g.Better path q
  /-- A source whose best path ends in a lower tier than some path gives way to one of the highest
  tier, whose best path is ahead, or as long and likely and of an earlier source. -/
  tiers : ∀ source path, g.BestOf source path →
    (∃ s q, g.AttackPath s q ∧ g.tier path < g.tier q) →
    ∃ s q, g.BestOf s q ∧ (∀ s' r, g.AttackPath s' r → g.tier r ≤ g.tier q) ∧
      (g.Ahead q path ∨ ¬g.Ahead path q ∧ g.sources.idxOf s < g.sources.idxOf source)

/-! ### What is listed -/

/-- The best path of each source, as `markRcePath` finds it. -/
def entries : List (Text × List Text) :=
  bestBySource (priorityOf g.locale g.nodes g.findings)
    (pairWeights (attackAdjacency g.nodes g.edges)) g.found

variable {g}

theorem ahead_iff :
    g.Ahead p q ↔ lengthKey (pairWeights (attackAdjacency g.nodes g.edges)) q <
      lengthKey (pairWeights (attackAdjacency g.nodes g.edges)) p :=
  lengthKey_lt _ |>.symm

theorem better_iff (pSome : p ≠ []) (qSome : q ≠ []) :
    g.Better p q ↔
      bestKey (priorityOf g.locale g.nodes g.findings)
          (pairWeights (attackAdjacency g.nodes g.edges)) q <
        bestKey (priorityOf g.locale g.nodes g.findings)
          (pairWeights (attackAdjacency g.nodes g.edges)) p := by
  rw [bestKey_lt _ _ qSome pSome, ← ahead_iff]
  rfl

theorem AttackPath.ne_nil (attack : g.AttackPath source path) : path ≠ [] := fun none => by
  have head := attack.simple.head
  rw [none] at head
  cases head

theorem AttackPath.start (attack : g.AttackPath source path) : pathStart path = source := by
  rw [pathStart, attack.simple.head, Option.getD_some]

/-- A source is a node. -/
theorem mem_keys_of_source (starts : source ∈ g.sources) :
    source ∈ g.nodes.map SecGraphNode.key := by
  have subset : ∀ (p : SecGraphNode → Bool), ∀ key ∈ (g.nodes.filter p).map SecGraphNode.key,
      key ∈ g.nodes.map SecGraphNode.key := by
    intro p key member
    obtain ⟨node, inside, rfl⟩ := mem_map.mp member
    exact mem_map_of_mem (mem_of_mem_filter inside)
  dsimp only [sources] at starts
  split_ifs at starts
  · exact subset _ _ starts
  · exact subset _ _ starts

/-- Every key on an attack path is a node. -/
theorem AttackPath.mem_keys (attack : g.AttackPath source path) {key : Text} (member : key ∈ path) :
    key ∈ g.nodes.map SecGraphNode.key := by
  obtain ⟨rest, rfl⟩ := List.head?_eq_some_iff.mp attack.simple.head
  have first := mem_keys_of_source attack.starts
  have chain := attack.simple.chain
  clear attack
  induction rest generalizing source with
  | nil =>
    rw [List.mem_singleton.mp member]
    exact first
  | cons b rest ih =>
    rcases List.mem_cons.mp member with rfl | later
    · exact first
    · rw [isChain_cons_cons] at chain
      exact ih later chain.1.mem_keys chain.2

/-- The search stays below its cap. -/
def BelowCap (g : AttackGraph) : Prop := g.found.length < MAX_PATHS_PER_SOURCE

instance (g : AttackGraph) : Decidable g.BelowCap :=
  inferInstanceAs (Decidable (g.found.length < MAX_PATHS_PER_SOURCE))

/-- The search finds the attack paths that end at their first sink, source by source. -/
theorem found_spec (below : g.BelowCap) :
    ∃ parts, FindsFrom (AttackStep g.nodes g.edges) g.sinks MAX_PATH_DEPTH g.sources parts ∧
      g.found = (parts.map Prod.snd).flatten := by
  have steps : (fun a b => b ∈ nextKeys (attackAdjacency g.nodes g.edges) a) =
      AttackStep g.nodes g.edges :=
    funext fun a => funext fun b => propext (attackStep_iff g.nodes g.edges a b)
  rw [← steps]
  exact findPaths_spec (by decide) below

theorem mem_found_iff (below : g.BelowCap) (path : List Text) :
    path ∈ g.found ↔ ∃ source, g.AttackPath source path ∧ FirstSink g.sinks path := by
  obtain ⟨parts, finds, same⟩ := found_spec below
  rw [same, mem_flatten]
  constructor
  · rintro ⟨list, inside, member⟩
    obtain ⟨part, here, rfl⟩ := mem_map.mp inside
    obtain ⟨simple, first⟩ := (finds.mem_iff part here path).mp member
    exact ⟨part.1, ⟨finds.sources_eq ▸ mem_map_of_mem here, simple⟩, first⟩
  · rintro ⟨source, attack, first⟩
    have starts := attack.starts
    rw [← finds.sources_eq] at starts
    obtain ⟨part, here, rfl⟩ := mem_map.mp starts
    exact ⟨part.2, mem_map_of_mem here, (finds.mem_iff part here path).mpr ⟨attack.simple, first⟩⟩

/-- **What is listed**: of each source with an attack path one that ends at its first sink, and
none of these is better; in the order of the sources; the chosen path is the first that no other is
ahead of. -/
structure Listed (g : AttackGraph) : Prop where
  paths : g.shown.paths = g.entries.map Prod.snd
  path : g.shown.path = firstMax (lengthKey (pairWeights (attackAdjacency g.nodes g.edges))) []
    (g.entries.map Prod.snd)
  ordered : g.entries.Pairwise fun a b => g.sources.idxOf a.1 < g.sources.idxOf b.1
  attack : ∀ e ∈ g.entries, g.AttackPath e.1 e.2 ∧ FirstSink g.sinks e.2
  best : ∀ e ∈ g.entries, ∀ q, g.AttackPath e.1 q → FirstSink g.sinks q → ¬g.Better q e.2
  all : ∀ source path, g.AttackPath source path → ∃ e ∈ g.entries, e.1 = source

theorem listed (plain : ∀ node ∈ g.nodes, 0 ∉ node.key) (below : g.BelowCap) : g.Listed := by
  have some : ∀ path ∈ g.found, path ≠ [] := by
    intro path member
    obtain ⟨source, attack, -⟩ := (mem_found_iff below path).mp member
    exact attack.ne_nil
  obtain ⟨nodup, known⟩ := keys_bestBySource (priorityOf g.locale g.nodes g.findings)
    (pairWeights (attackAdjacency g.nodes g.edges)) some
  have kept : ∀ e ∈ g.entries, e.2 ∈ g.found ∧ pathStart e.2 = e.1 ∧
      ∀ q ∈ g.found, pathStart q = e.1 → ¬g.Better q e.2 := by
    intro e member
    have value := bestBySource_get (priorityOf g.locale g.nodes g.findings)
      (pairWeights (attackAdjacency g.nodes g.edges)) some e.1
    rw [Assoc.get_of_mem nodup member, Option.getD_some] at value
    obtain ⟨path, found, starts⟩ := (known e.1).mp (mem_map_of_mem (f := Prod.fst) member)
    have inside : path ∈ g.found.filter fun path => pathStart path = e.1 :=
      List.mem_filter.mpr ⟨found, decide_eq_true starts⟩
    have other : e.2 ≠ [] := by
      intro none
      have greatest := @le_firstMax _ _ _ (bestKey (priorityOf g.locale g.nodes g.findings)
        (pairWeights (attackAdjacency g.nodes g.edges))) [] _ _ inside
      rw [← value, none] at greatest
      exact absurd (bestKey_nil_lt _ _ (some path found)) greatest.not_gt
    obtain ⟨mine, starts⟩ := List.mem_filter.mp (value ▸ firstMax_mem (value ▸ other))
    refine ⟨mine, of_decide_eq_true starts, fun q member starts => ?_⟩
    rw [better_iff (some q member) other, not_lt, value]
    exact le_firstMax (List.mem_filter.mpr ⟨member, decide_eq_true starts⟩)
  have attack : ∀ e ∈ g.entries, g.AttackPath e.1 e.2 ∧ FirstSink g.sinks e.2 := by
    intro e member
    obtain ⟨found, starts, -⟩ := kept e member
    obtain ⟨source, attack, first⟩ := (mem_found_iff below e.2).mp found
    rw [← starts, attack.start]
    exact ⟨attack, first⟩
  have paths : g.shown.paths = g.entries.map Prod.snd := by
    rw [show g.shown.paths = distinctPaths (g.entries.map Prod.snd) from rfl]
    refine distinctPaths_eq (fun path member => ?_) ?_
    · obtain ⟨e, inside, rfl⟩ := mem_map.mp member
      rw [(kept e inside).2.1]
      obtain ⟨node, isNode, same⟩ := mem_map.mp (mem_keys_of_source (attack e inside).1.starts)
      rw [← same]
      exact plain node isNode
    · rw [map_map]
      have starts : g.entries.map (pathStart ∘ Prod.snd) = Assoc.keys g.entries :=
        map_congr_left fun e inside => (kept e inside).2.1
      rw [starts]
      exact nodup
  refine ⟨paths, ?_, ?_, attack, ?_, ?_⟩
  · have chosen : g.shown.path = g.shown.paths.foldl (fun best path =>
        if betterPath path best (pairWeights (attackAdjacency g.nodes g.edges)) then path else best)
          [] := rfl
    rw [chosen, paths]
    refine foldl_eq_firstMax fun path member best => betterPath_iff _ ?_ best
    obtain ⟨e, inside, rfl⟩ := mem_map.mp member
    exact (attack e inside).1.ne_nil
  · obtain ⟨parts, finds, same⟩ := found_spec below
    have order := finds.ordered (priorityOf g.locale g.nodes g.findings)
      (pairWeights (attackAdjacency g.nodes g.edges))
    rw [← same] at order
    exact (pairwise_map (f := Prod.fst)).mp order
  · exact fun e member q attack first => (kept e member).2.2 q
      ((mem_found_iff below q).mpr ⟨_, attack, first⟩) attack.start
  · intro source path attack
    obtain ⟨p, -, simple, first⟩ := attack.simple.exists_first
    have known' := (known source).mpr ⟨p, (mem_found_iff below p).mpr
      ⟨source, ⟨attack.starts, simple⟩, first⟩, AttackPath.start ⟨attack.starts, simple⟩⟩
    exact mem_map.mp known'

/-! ### The condition -/

theorem Better.trans_not {r : List Text} (pSome : p ≠ []) (qSome : q ≠ []) (rSome : r ≠ [])
    (first : ¬g.Better p q) (second : ¬g.Better q r) : ¬g.Better p r := by
  rw [better_iff, not_lt] at *
  · exact first.trans second
  all_goals assumption

/-- Paths neither of which is better have one tier, and neither is ahead. -/
theorem tier_eq (first : ¬g.Better p q) (second : ¬g.Better q p) :
    g.tier p = g.tier q ∧ ¬g.Ahead p q ∧ ¬g.Ahead q p := by
  have same : g.tier p = g.tier q := by
    rcases lt_trichotomy (g.tier p) (g.tier q) with less | same | more
    · exact absurd (.inl less) second
    · exact same
    · exact absurd (.inl more) first
  exact ⟨same, fun ahead => first (.inr ⟨same.symm, ahead⟩),
    fun ahead => second (.inr ⟨same, ahead⟩)⟩

theorem not_ahead_iff :
    ¬g.Ahead p q ↔ lengthKey (pairWeights (attackAdjacency g.nodes g.edges)) p ≤
      lengthKey (pairWeights (attackAdjacency g.nodes g.edges)) q := by
  rw [ahead_iff, not_lt]

/-- No path is ahead of the chosen one, and those before it are behind. -/
theorem Listed.chosen_ahead (listed : g.Listed) (member : e ∈ g.entries) :
    ¬g.Ahead e.2 g.shown.path := by
  rw [not_ahead_iff, listed.path]
  exact le_firstMax (mem_map_of_mem member)

theorem Listed.chosen_ne_nil (listed : g.Listed) (member : e ∈ g.entries) : g.shown.path ≠ [] := by
  intro none
  have some := (listed.attack e member).1.ne_nil
  refine listed.chosen_ahead member (.inl ?_)
  rw [none]
  exact length_pos_of_ne_nil some

/-- The chosen path is listed, for a source before those it only equals. -/
theorem Listed.chosen_entry (listed : g.Listed) (some : g.shown.path ≠ []) :
    ∃ source, (source, g.shown.path) ∈ g.entries ∧ ∀ e ∈ g.entries, e.1 ≠ source →
      ¬g.Ahead g.shown.path e.2 → g.sources.idxOf source < g.sources.idxOf e.1 := by
  rcases @firstMax_split _ _ _ (lengthKey (pairWeights (attackAdjacency g.nodes g.edges)))
    [] (g.entries.map Prod.snd) with none | ⟨before, after, split, behind⟩
  · exact absurd (listed.path.trans none) some
  rw [← listed.path] at split behind
  obtain ⟨earlier, rest, whole, rfl, tail⟩ := List.map_eq_append_iff.mp split
  obtain ⟨entry, later, rfl, here, rfl⟩ := List.map_eq_cons_iff.mp tail
  have member : entry ∈ g.entries := whole ▸ mem_append_right _ mem_cons_self
  refine ⟨entry.1, here ▸ member, fun e inside other level => ?_⟩
  have order := listed.ordered
  rw [whole] at inside order
  rcases List.mem_append.mp inside with front | back
  · have less := behind e.2 (mem_map_of_mem front)
    rw [← ahead_iff] at less
    exact absurd less level
  · rcases List.mem_cons.mp back with same | back
    · exact absurd (congrArg Prod.fst same) other
    · exact (List.pairwise_cons.mp (List.pairwise_append.mp order).2.1).1 e back

theorem Listed.unique (listed : g.Listed) (member : e ∈ g.entries) (shown : path ∈ g.shown.paths)
    (start : pathStart path = e.1) : path = e.2 := by
  rw [listed.paths] at shown
  obtain ⟨other, inside, rfl⟩ := mem_map.mp shown
  rw [(listed.attack other inside).1.start] at start
  have nodup : (Assoc.keys g.entries).Nodup := by
    unfold Assoc.keys
    rw [nodup_iff_pairwise_ne, pairwise_map]
    exact listed.ordered.imp fun less same => absurd (congrArg g.sources.idxOf same) less.ne
  have first := Assoc.get_of_mem nodup inside
  rw [start, Assoc.get_of_mem nodup member] at first
  exact (Option.some.inj first).symm

/-- **The edges of the listed paths are marked, and no others.** -/
theorem Listed.marks (listed : g.Listed) (plain : ∀ node ∈ g.nodes, 0 ∉ node.key) :
    ∀ edge ∈ g.marked, edge.on_rce_path = true ↔
      ∃ path ∈ g.shown.paths, [edge.source, edge.target] <:+: path := by
  intro edge member
  obtain ⟨old, -, rfl⟩ := mem_map.mp
    (show edge ∈ g.edges.map (fun edge => { edge with
      on_rce_path := edgePair edge.source edge.target ∈ g.shown.paths.flatMap pathPairs }) from
        member)
  dsimp only
  rw [decide_eq_true_iff, mem_flatMap]
  refine exists_congr fun path => and_congr_right fun shown => ?_
  rw [mem_pathPairs_iff]
  constructor
  · rintro ⟨a, b, inside, same⟩
    rw [listed.paths] at shown
    obtain ⟨e, here, rfl⟩ := mem_map.mp shown
    have key : ∀ c ∈ [a, b], 0 ∉ c := by
      intro c among
      obtain ⟨node, isNode, rfl⟩ := mem_map.mp
        ((listed.attack e here).1.mem_keys (inside.subset among))
      exact plain node isNode
    obtain ⟨rfl, rfl⟩ := edgePair_inj (key a (by simp)) (key b (by simp)) same
    exact inside
  · exact fun inside => ⟨_, _, inside, rfl⟩

/-- **The path that is shown is the best one exactly if the graph is aligned.** -/
theorem rcePath_best_iff (g : AttackGraph) (plain : ∀ node ∈ g.nodes, 0 ∉ node.key)
    (below : g.BelowCap) : g.RcePathBest ↔ g.Aligned := by
  have listed := listed plain below
  constructor
  · intro right
    have own : ∀ e ∈ g.entries, g.BestOf e.1 e.2 := by
      intro e member
      obtain ⟨best, shown, isBest⟩ := right.each e.1 e.2 (listed.attack e member).1
      rwa [listed.unique member shown isBest.attack.start] at isBest
    refine ⟨fun source path attack => ?_, fun source path isBest lower => ?_⟩
    · obtain ⟨e, member, rfl⟩ := listed.all source path attack
      exact ⟨e.2, (listed.attack e member).1, (listed.attack e member).2,
        (own e member).best path attack⟩
    · obtain ⟨s, q, attack, higher⟩ := lower
      have some := right.some_chosen ⟨s, q, attack⟩
      obtain ⟨-, greatest⟩ := right.chosen some
      obtain ⟨top, entry, first⟩ := listed.chosen_entry some
      have isTop : g.BestOf top g.shown.path := own _ entry
      refine ⟨top, g.shown.path, isTop, fun s' r attack => ?_, ?_⟩
      · exact Nat.not_lt.mp fun more => greatest s' r attack (.inl more)
      · obtain ⟨e, member, rfl⟩ := listed.all source path isBest.attack
        have equal := tier_eq (isBest.best _ (own e member).attack)
          ((own e member).best _ isBest.attack)
        by_cases ahead : g.Ahead g.shown.path path
        · exact .inl ahead
        · refine .inr ⟨?_, first e member ?_ ?_⟩
          · have level := listed.chosen_ahead member
            rw [not_ahead_iff] at level ⊢
            exact (not_ahead_iff.mp equal.2.2).trans level
          · rintro rfl
            exact isBest.best _ isTop.attack (.inl (higher.trans_le
              (Nat.not_lt.mp fun more => greatest s q attack (.inl more))))
          · rw [not_ahead_iff] at ahead ⊢
            exact ahead.trans (not_ahead_iff.mp equal.2.2)
  · intro aligned
    have own : ∀ e ∈ g.entries, g.BestOf e.1 e.2 := by
      intro e member
      have attack := (listed.attack e member).1
      refine ⟨attack, fun path other => ?_⟩
      obtain ⟨q, qAttack, first, worse⟩ := aligned.matched e.1 path other
      exact Better.trans_not other.ne_nil qAttack.ne_nil attack.ne_nil worse
        (listed.best e member q qAttack first)
    have some : (∃ source path, g.AttackPath source path) → g.shown.path ≠ [] := by
      rintro ⟨source, path, attack⟩
      obtain ⟨e, member, -⟩ := listed.all source path attack
      exact listed.chosen_ne_nil member
    refine ⟨fun chosen => ?_, some, fun source path attack => ?_, listed.marks plain⟩
    · obtain ⟨top, entry, first⟩ := listed.chosen_entry chosen
      refine ⟨⟨top, (listed.attack _ entry).1⟩, ?_⟩
      -- the tier of the chosen path is the highest
      have highest : ∀ s q, g.AttackPath s q → g.tier q ≤ g.tier g.shown.path := by
        by_contra not
        push Not at not
        obtain ⟨s, q, attack, higher⟩ := not
        obtain ⟨s', q', isBest, above, order⟩ :=
          aligned.tiers top g.shown.path (own _ entry) ⟨s, q, attack, higher⟩
        obtain ⟨e, member, rfl⟩ := listed.all s' q' isBest.attack
        have equal := tier_eq (isBest.best _ (own e member).attack)
          ((own e member).best _ isBest.attack)
        have level := listed.chosen_ahead member
        rw [not_ahead_iff] at level
        rcases order with ahead | ⟨tie, earlier⟩
        · rw [ahead_iff] at ahead
          exact absurd ((not_ahead_iff.mp equal.2.2).trans level) ahead.not_ge
        · rw [not_ahead_iff] at tie
          refine absurd (first e member ?_ ?_) earlier.not_gt
          · rintro rfl
            exact earlier.ne rfl
          · rw [not_ahead_iff]
            exact tie.trans (not_ahead_iff.mp equal.2.2)
      intro source path attack better
      obtain ⟨e, member, rfl⟩ := listed.all source path attack
      have worse : ¬g.Better e.2 g.shown.path := by
        rintro (higher | ⟨-, ahead⟩)
        · exact absurd (highest _ _ (own e member).attack) higher.not_ge
        · exact listed.chosen_ahead member ahead
      exact Better.trans_not attack.ne_nil (own e member).attack.ne_nil chosen
        ((own e member).best path attack) worse better
    · obtain ⟨e, member, rfl⟩ := listed.all source path attack
      exact ⟨e.2, listed.paths ▸ mem_map_of_mem member, own e member⟩

/-! ### A chain of footholds -/

/-- A delegated action whose intent names a foothold. -/
def footholdAction (conversation parent : Nat) : SecProjectionAction where
  conversationId := conversation
  parentConversationId := parent
  ownerTaskId := 11
  intent := text "foothold:web"
  openedAt := 20
  status := .done
  summaryRef := []

/-- A foothold that is reached through another, as the projection makes them. -/
def footholds : AttackGraph :=
  let input := demoInput [footholdAction 2 1, footholdAction 3 2]
  { locale := asciiLocale
    nodes := projectedNodes asciiLocale input
    edges := projectedEdges asciiLocale input
    findings := projectedFindings input }

/-- Its path from the root to the second foothold is an attack path; the shown one is shorter. -/
theorem footholds_shown :
    (∀ node ∈ footholds.nodes, 0 ∉ node.key) ∧ footholds.BelowCap ∧
      pathStart (footholds.nodes.map SecGraphNode.key) ∈ footholds.sources ∧
      EndsAt footholds.sinks (footholds.nodes.map SecGraphNode.key) ∧
      (footholds.nodes.map SecGraphNode.key).length = 3 ∧
      (footholds.nodes.map SecGraphNode.key).Nodup ∧
      (footholds.nodes.map SecGraphNode.key).IsChain (fun a b =>
        b ∈ nextKeys (attackAdjacency footholds.nodes footholds.edges) a) ∧
      footholds.tier footholds.shown.path = footholds.tier (footholds.nodes.map SecGraphNode.key) ∧
      footholds.shown.path.length = 2 := by
  unfold BelowCap EndsAt
  decide +kernel

theorem rcePath_best_footholds : footholds.RcePathBest ↔ footholds.Aligned :=
  rcePath_best_iff footholds footholds_shown.1 footholds_shown.2.1

/-- **An attack that goes on through a foothold is not shown.** -/
theorem footholds_not_best : footholds.BelowCap ∧ ¬footholds.RcePathBest := by
  obtain ⟨-, below, starts, ends, length, nodup, steps, same, short⟩ := footholds_shown
  refine ⟨below, fun right => ?_⟩
  generalize footholds.nodes.map SecGraphNode.key = path at *
  have attack : footholds.AttackPath (pathStart path) path := by
    refine ⟨starts, ?_, ends, by rw [length]; decide, nodup, ?_⟩
    · cases path with
      | nil => cases length
      | cons a rest => rfl
    · exact steps.imp fun a b step => (attackStep_iff _ _ a b).mp step
  have some : footholds.shown.path ≠ [] := fun none => by
    rw [none] at short
    cases short
  refine (right.chosen some).2 _ path attack (.inr ⟨same, .inl ?_⟩)
  rw [short, length]
  decide

end AttackGraph

end TianGong.SecServer
