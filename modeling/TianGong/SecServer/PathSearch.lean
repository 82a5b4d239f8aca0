/-
**What the search for attack paths finds.**

`findPaths` goes from each source depth first, ends a path at the first sink it comes to, and stops
when it has found `MAX_PATHS_PER_SOURCE` paths. Below that cap:

* `attackStep_iff`: a step of a path is an edge that attack paths may take.
* `grows_source_iff`: from a source these are the simple paths that end at their first sink.
-/

import TianGong.SecServer.RcePath
import Mathlib.Data.List.Chain

namespace TianGong.SecServer

open List

/-! ### Steps -/

/-- Attack paths may step from a key to another. -/
def AttackStep (nodes : List SecGraphNode) (edges : List SecGraphEdge) (a b : Text) : Prop :=
  ∃ edge ∈ edges, edge.source = a ∧ edge.target = b ∧ skipsEdge nodes edge = false

theorem attackStep_iff (nodes : List SecGraphNode) (edges : List SecGraphEdge) (a b : Text) :
    b ∈ nextKeys (attackAdjacency nodes edges) a ↔ AttackStep nodes edges a b := by
  unfold AttackStep
  induction edges using List.reverseRecOn with
  | nil => simp [attackAdjacency, nextKeys]
  | append_singleton edges edge ih =>
    have last : attackAdjacency nodes (edges ++ [edge]) =
        if skipsEdge nodes edge then attackAdjacency nodes edges
        else Assoc.set edge.source
          ((Assoc.get edge.source (attackAdjacency nodes edges)).getD [] ++
            [⟨edge.target, max (1 / 100) (min 1 edge.weight)⟩]) (attackAdjacency nodes edges) := by
      unfold attackAdjacency
      rw [foldl_concat]
    rw [last]
    simp only [mem_append, mem_singleton, or_and_right, exists_or, exists_eq_left, ← ih]
    cases skips : skipsEdge nodes edge with
    | true => simp
    | false =>
      rw [if_neg Bool.false_ne_true]
      unfold nextKeys
      rw [Assoc.get_set]
      by_cases source : edge.source = a
      · rw [if_pos source, source, Option.getD_some, map_append, mem_append]
        simp [eq_comm]
      · rw [if_neg source]
        simp [source]

/-- What is stepped to is a node. -/
theorem AttackStep.mem_keys {nodes : List SecGraphNode} {edges : List SecGraphEdge} {a b : Text}
    (step : AttackStep nodes edges a b) : b ∈ nodes.map SecGraphNode.key := by
  obtain ⟨edge, -, -, rfl, taken⟩ := step
  unfold skipsEdge at taken
  cases target : nodeOf nodes edge.target with
  | none =>
    rw [target] at taken
    cases nodeOf nodes edge.source <;> simp at taken
  | some node =>
    exact List.mem_map.mpr ⟨node, Upsert.mem_of_last target, Upsert.key_of_last target⟩

/-! ### Growing a path -/

section Search

variable (sinks : List Text) (adjacency : List (Text × List AttackEdge)) (maxDepth : Nat)

/-- The loop ends a path here. -/
def EndsAt (path : List Text) : Prop := 1 < path.length ∧ path.getLast?.getD [] ∈ sinks

/-- The loop makes the second path of the first. -/
inductive Grows : List Text → List Text → Prop
  | ends {path : List Text} (sink : EndsAt sinks path) : Grows path path
  | step {path q : List Text} {key : Text} (inner : ¬EndsAt sinks path)
      (shallow : path.length < maxDepth)
      (next : key ∈ nextKeys adjacency (path.getLast?.getD [])) (fresh : key ∉ path)
      (grows : Grows (path ++ [key]) q) : Grows path q

variable {sinks adjacency maxDepth}

/-- The paths that are pushed of a path. -/
theorem grows_iff_pushed {path q : List Text} (inner : ¬EndsAt sinks path)
    (shallow : path.length < maxDepth) :
    Grows sinks adjacency maxDepth path q ↔
      ∃ p ∈ (((nextKeys adjacency (path.getLast?.getD [])).filter fun key => key ∉ path).map
        fun key => path ++ [key]), Grows sinks adjacency maxDepth p q := by
  constructor
  · intro grows
    cases grows with
    | ends sink => exact absurd sink inner
    | step _ _ next fresh grows =>
      refine ⟨_, List.mem_map.mpr ⟨_, List.mem_filter.mpr ⟨next, ?_⟩, rfl⟩, grows⟩
      exact decide_eq_true fresh
  · rintro ⟨p, member, grows⟩
    obtain ⟨key, inside, rfl⟩ := List.mem_map.mp member
    obtain ⟨next, fresh⟩ := List.mem_filter.mp inside
    exact .step inner shallow next (of_decide_eq_true fresh) grows

/-- The search only adds to what it has found. -/
theorem length_le_searchPaths (fuel : Nat) (stack found : List (List Text)) :
    found.length ≤ (searchPaths sinks adjacency maxDepth fuel stack found).length := by
  induction fuel generalizing stack found with
  | zero => exact le_rfl
  | succ fuel ih =>
    cases stack with
    | nil => exact le_rfl
    | cons path stack =>
      rw [searchPaths]
      dsimp only
      split_ifs
      · refine le_trans ?_ (ih _ _)
        rw [length_append]
        exact Nat.le_add_right _ _
      · exact ih _ _
      · exact ih _ _
      · exact le_rfl

/-- **The loop finds what the paths on its stack grow to**, when it stays below the cap. -/
theorem searchPaths_spec {fuel : Nat} {stack : List (List Text)} {found : List (List Text)}
    (enough : stackCost (adjacencyWidth adjacency) maxDepth stack ≤ fuel)
    (below : (searchPaths sinks adjacency maxDepth fuel stack found).length <
      MAX_PATHS_PER_SOURCE) :
    ∃ more, searchPaths sinks adjacency maxDepth fuel stack found = found ++ more ∧
      ∀ q, q ∈ more ↔ ∃ p ∈ stack, Grows sinks adjacency maxDepth p q := by
  induction fuel generalizing stack found with
  | zero =>
    cases stack with
    | nil => exact ⟨[], (append_nil _).symm, fun q => by simp⟩
    | cons path rest =>
      have positive := searchCost_pos (adjacencyWidth adjacency) (maxDepth - path.length)
      simp only [stackCost, map_cons, sum_cons] at enough
      omega
  | succ fuel ih =>
    cases stack with
    | nil => exact ⟨[], (append_nil _).symm, fun q => by simp⟩
    | cons path rest =>
      have positive := searchCost_pos (adjacencyWidth adjacency) (maxDepth - path.length)
      have cost : stackCost (adjacencyWidth adjacency) maxDepth (path :: rest) =
          searchCost (adjacencyWidth adjacency) (maxDepth - path.length) +
            stackCost (adjacencyWidth adjacency) maxDepth rest := by
        simp only [stackCost, map_cons, sum_cons]
      rw [cost] at enough
      have room : found.length < MAX_PATHS_PER_SOURCE :=
        (length_le_searchPaths (fuel + 1) (path :: rest) found).trans_lt below
      rw [searchPaths, if_pos room] at below ⊢
      dsimp only at below ⊢
      by_cases ends : 1 < path.length ∧ path.getLast?.getD [] ∈ sinks
      · rw [if_pos ends] at below ⊢
        obtain ⟨more, same, mem⟩ := ih (by omega) below
        refine ⟨path :: more, by rw [same, append_assoc]; rfl, fun q => ?_⟩
        rw [mem_cons, mem]
        constructor
        · rintro (rfl | ⟨p, member, grows⟩)
          · exact ⟨q, mem_cons_self, .ends ends⟩
          · exact ⟨p, mem_cons_of_mem _ member, grows⟩
        · rintro ⟨p, member, grows⟩
          rcases List.mem_cons.mp member with rfl | later
          · cases grows with
            | ends => exact .inl rfl
            | step inner => exact absurd ends inner
          · exact .inr ⟨p, later, grows⟩
      · rw [if_neg ends] at below ⊢
        by_cases deep : maxDepth ≤ path.length
        · rw [if_pos deep] at below ⊢
          obtain ⟨more, same, mem⟩ := ih (by omega) below
          refine ⟨more, same, fun q => (mem q).trans ⟨?_, ?_⟩⟩
          · rintro ⟨p, member, grows⟩
            exact ⟨p, mem_cons_of_mem _ member, grows⟩
          · rintro ⟨p, member, grows⟩
            rcases List.mem_cons.mp member with rfl | later
            · cases grows with
              | ends sink => exact absurd sink ends
              | step _ shallow => exact absurd deep (Nat.not_le_of_lt shallow)
            · exact ⟨p, later, grows⟩
        · rw [if_neg deep] at below ⊢
          obtain ⟨more, same, mem⟩ :=
            ih (stackCost_push (Nat.lt_of_not_le deep) enough) below
          refine ⟨more, same, fun q => (mem q).trans ?_⟩
          have pushed := @grows_iff_pushed _ adjacency _ _ q ends (Nat.lt_of_not_le deep)
          constructor
          · rintro ⟨p, member, grows⟩
            rcases List.mem_append.mp member with new | later
            · exact ⟨path, mem_cons_self, pushed.mpr ⟨p, List.mem_reverse.mp new, grows⟩⟩
            · exact ⟨p, mem_cons_of_mem _ later, grows⟩
          · rintro ⟨p, member, grows⟩
            rcases List.mem_cons.mp member with rfl | later
            · obtain ⟨p', new, grows⟩ := pushed.mp grows
              exact ⟨p', mem_append_left _ (List.mem_reverse.mpr new), grows⟩
            · exact ⟨p, mem_append_right _ later, grows⟩

/-! ### Simple paths -/

/-- A path that visits no key twice, from a source to a sink. -/
structure SimplePath (step : Text → Text → Prop) (sinks : List Text) (maxDepth : Nat)
    (source : Text) (path : List Text) : Prop where
  head : path.head? = some source
  ends : EndsAt sinks path
  short : path.length ≤ maxDepth
  nodup : path.Nodup
  chain : path.IsChain step

/-- No sink is passed on the way. -/
def FirstSink (sinks : List Text) (path : List Text) : Prop :=
  ∀ p, p <+: path → p ≠ path → ¬EndsAt sinks p

/-- What growing keeps. -/
theorem Grows.kept {path q : List Text} (grows : Grows sinks adjacency maxDepth path q) :
    path <+: q ∧ EndsAt sinks q ∧ (path.length ≤ maxDepth → q.length ≤ maxDepth) ∧
      (path.Nodup → q.Nodup) ∧
      (path.IsChain (fun a b => b ∈ nextKeys adjacency a) →
        q.IsChain fun a b => b ∈ nextKeys adjacency a) ∧
      ∀ p, path <+: p → p <+: q → p ≠ q → ¬EndsAt sinks p := by
  induction grows with
  | ends sink =>
    refine ⟨prefix_refl _, sink, id, id, id, fun p above below other => ?_⟩
    exact absurd (below.eq_of_length (above.length_le.antisymm below.length_le).symm) other
  | @step path q key inner shallow next fresh grows ih =>
    obtain ⟨extends_, sink, depth, nodup, chain, first⟩ := ih
    have before : path <+: q := (prefix_append _ _).trans extends_
    refine ⟨before, sink, fun _ => depth ?_, fun plain => nodup ?_, fun steps => chain ?_, ?_⟩
    · rw [length_append]
      exact shallow
    · exact List.nodup_append.mpr ⟨plain, nodup_singleton _, fun a member b last => by
        rw [List.mem_singleton.mp last]
        exact fun same => fresh (same ▸ member)⟩
    · refine steps.append (isChain_singleton _) fun a last b first => ?_
      cases first
      rw [Option.mem_def] at last
      rwa [last] at next
    · intro p above below other
      rcases Nat.lt_or_ge path.length p.length with longer | same
      · refine first p ?_ below other
        refine prefix_of_prefix_length_le extends_ below ?_
        rw [length_append]
        exact longer
      · rw [← above.eq_of_length (above.length_le.antisymm same)]
        exact inner

/-- **From a source the loop makes the simple paths that end at their first sink.** -/
theorem grows_source_iff {source : Text} {q : List Text} (room : 1 ≤ maxDepth) :
    Grows sinks adjacency maxDepth [source] q ↔
      SimplePath (fun a b => b ∈ nextKeys adjacency a) sinks maxDepth source q ∧
        FirstSink sinks q := by
  constructor
  · intro grows
    obtain ⟨extends_, sink, depth, nodup, chain, first⟩ := grows.kept
    obtain ⟨rest, rfl⟩ := extends_
    refine ⟨⟨rfl, sink, depth room, nodup (nodup_singleton _),
      chain (isChain_singleton _)⟩, fun p below other ends => ?_⟩
    cases p with
    | nil => exact absurd ends.1 (Nat.not_lt_zero _)
    | cons a p =>
      obtain ⟨same, -⟩ := List.cons_prefix_cons.mp below
      exact first _ (by rw [same]; exact ⟨p, rfl⟩) below other ends
  · rintro ⟨path, first⟩
    suffices all : ∀ n p, p <+: q → p ≠ [] → q.length = p.length + n →
        Grows sinks adjacency maxDepth p q by
      obtain ⟨rest, rfl⟩ := List.head?_eq_some_iff.mp path.head
      exact all rest.length [source] ⟨rest, rfl⟩ (cons_ne_nil _ _)
        (by rw [length_cons, length_singleton, Nat.add_comm])
    intro n
    induction n with
    | zero =>
      intro p below _ length
      rw [below.eq_of_length length.symm]
      exact .ends path.ends
    | succ n ih =>
      intro p below some length
      have longer : p.length < q.length := by omega
      have inner := first p below fun same => absurd (congrArg List.length same) longer.ne
      obtain ⟨rest, rfl⟩ := below
      cases rest with
      | nil => exact absurd longer (by simp)
      | cons key rest =>
        refine @Grows.step _ _ _ _ _ key inner (longer.trans_le path.short) ?_ ?_
          (ih _ ⟨rest, by simp⟩ (by simp) (by simp at length ⊢; omega))
        · have steps := (List.isChain_append.mp path.chain).2.2
          have last := List.getLast?_eq_some_getLast some
          rw [last]
          exact steps _ last key rfl
        · exact fun inside => disjoint_of_nodup_append path.nodup inside mem_cons_self

/-! ### All sources -/

theorem searchCost_mono (width depth : Nat) :
    searchCost width (depth - 1) ≤ searchCost width depth := by
  induction depth with
  | zero => exact le_rfl
  | succ depth ih =>
    cases depth with
    | zero => exact Nat.le_add_right _ _
    | succ depth =>
      rw [Nat.add_sub_cancel] at ih ⊢
      rw [searchCost, searchCost]
      exact Nat.add_le_add_left (Nat.mul_le_mul_left _ ih) 1

/-- The paths of some sources, each with those that are found from it. -/
structure FindsFrom (step : Text → Text → Prop) (sinks : List Text) (maxDepth : Nat)
    (sources : List Text) (parts : List (Text × List (List Text))) : Prop where
  sources_eq : parts.map Prod.fst = sources
  mem_iff : ∀ part ∈ parts, ∀ q, q ∈ part.2 ↔
    SimplePath step sinks maxDepth part.1 q ∧ FirstSink sinks q

/-- **Source by source, the search finds the simple paths that end at their first sink.** -/
theorem findPaths_spec {sources : List Text} (room : 1 ≤ maxDepth)
    (below : (findPaths sources sinks adjacency maxDepth).length < MAX_PATHS_PER_SOURCE) :
    ∃ parts, FindsFrom (fun a b => b ∈ nextKeys adjacency a) sinks maxDepth sources parts ∧
      findPaths sources sinks adjacency maxDepth = (parts.map Prod.snd).flatten := by
  unfold findPaths at below ⊢
  suffices all : ∀ found : List (List Text),
      (sources.foldl (fun found source => searchPaths sinks adjacency maxDepth
        (searchCost (adjacencyWidth adjacency) maxDepth) [[source]] found) found).length <
          MAX_PATHS_PER_SOURCE →
      ∃ parts, FindsFrom (fun a b => b ∈ nextKeys adjacency a) sinks maxDepth sources parts ∧
        sources.foldl (fun found source => searchPaths sinks adjacency maxDepth
          (searchCost (adjacencyWidth adjacency) maxDepth) [[source]] found) found =
            found ++ (parts.map Prod.snd).flatten from all [] below
  clear below
  induction sources using List.reverseRecOn with
  | nil =>
    intro found _
    exact ⟨[], ⟨rfl, fun part member => by cases member⟩, (append_nil _).symm⟩
  | append_singleton sources source ih =>
    intro found below
    rw [foldl_concat] at below ⊢
    obtain ⟨parts, finds, same⟩ := ih found ((length_le_searchPaths _ _ _).trans_lt below)
    have cost : stackCost (adjacencyWidth adjacency) maxDepth [[source]] ≤
        searchCost (adjacencyWidth adjacency) maxDepth := by
      simpa [stackCost] using searchCost_mono (adjacencyWidth adjacency) maxDepth
    obtain ⟨more, rest, mem⟩ := searchPaths_spec cost below
    refine ⟨parts ++ [(source, more)], ⟨?_, fun part member q => ?_⟩, ?_⟩
    · rw [map_append, finds.sources_eq]
      rfl
    · rcases List.mem_append.mp member with earlier | last
      · exact finds.mem_iff part earlier q
      · rw [List.mem_singleton.mp last, mem, ← grows_source_iff room]
        refine ⟨?_, fun grows => ⟨_, List.mem_singleton.mpr rfl, grows⟩⟩
        rintro ⟨p, only, grows⟩
        exact List.mem_singleton.mp only ▸ grows
    · rw [rest, same, map_append, flatten_append, append_assoc]
      simp

/-- Every simple path starts with one that ends at its first sink. -/
theorem SimplePath.exists_first {step : Text → Text → Prop} {source : Text} {path : List Text}
    (simple : SimplePath step sinks maxDepth source path) :
    ∃ p, p <+: path ∧ SimplePath step sinks maxDepth source p ∧ FirstSink sinks p := by
  induction length : path.length using Nat.strong_induction_on generalizing path with
  | _ n ih =>
    by_cases first : FirstSink sinks path
    · exact ⟨path, prefix_refl _, simple, first⟩
    · unfold FirstSink at first
      push Not at first
      obtain ⟨p, below, other, ends⟩ := first
      have shorter : p.length < n := by
        rw [← length]
        exact lt_of_le_of_ne below.length_le fun same => other (below.eq_of_length same)
      have head : p.head? = some source := by
        obtain ⟨rest, rfl⟩ := below
        cases p with
        | nil => exact absurd ends.1 (Nat.not_lt_zero _)
        | cons a p => exact simple.head
      obtain ⟨q, inside, found⟩ := ih _ shorter
        ⟨head, ends, below.length_le.trans simple.short, simple.nodup.sublist below.sublist,
          simple.chain.prefix below⟩ rfl
      exact ⟨q, inside.trans below, found⟩

end Search

end TianGong.SecServer
