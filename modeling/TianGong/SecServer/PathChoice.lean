/-
**Which of the found paths are chosen.**

`markRcePath` keeps the best path of each source, by the tier of its sink, its length and its
likelihood, and then the best of these by length and likelihood alone.

* `bestBySource_get`: the first choice keeps the first greatest path of each source.
-/

import Mathlib.Data.Prod.Lex
import TianGong.Lib.Maximum
import TianGong.SecServer.PathSearch

namespace TianGong.SecServer

open Maximum (firstMax foldl_eq_firstMax firstMax_concat le_firstMax firstMax_split)
open List

variable (priority : Text → Nat) (weights : List (Text × ℚ))

/-! ### Keys -/

/-- The end of a path. -/
def pathEnd (path : List Text) : Text := path.getLast?.getD []

/-- The length and the likelihood. -/
def lengthKey (path : List Text) : ℕ ×ₗ ℚ := toLex (path.length, pathLikelihood path weights)

/-- The tier, the length and the likelihood; no path comes before every path. -/
def bestKey (path : List Text) : ℕ ×ₗ (ℕ ×ₗ ℚ) :=
  toLex (if path.length = 0 then 0 else priority (pathEnd path) + 1, lengthKey weights path)

theorem lengthKey_lt {p q : List Text} :
    lengthKey weights p < lengthKey weights q ↔ p.length < q.length ∨
      p.length = q.length ∧ pathLikelihood p weights < pathLikelihood q weights :=
  Prod.Lex.toLex_lt_toLex

theorem bestKey_lt {p q : List Text} (pSome : p ≠ []) (qSome : q ≠ []) :
    bestKey priority weights p < bestKey priority weights q ↔
      priority (pathEnd p) < priority (pathEnd q) ∨
        priority (pathEnd p) = priority (pathEnd q) ∧
          lengthKey weights p < lengthKey weights q := by
  unfold bestKey
  rw [Prod.Lex.toLex_lt_toLex, if_neg (length_pos_of_ne_nil pSome).ne',
    if_neg (length_pos_of_ne_nil qSome).ne', Nat.add_lt_add_iff_right, Nat.add_right_cancel_iff]

variable {path : List Text}

/-- `betterPath` compares lengths and likelihoods. -/
theorem betterPath_iff (some : path ≠ []) (best : List Text) :
    betterPath path best weights = true ↔ lengthKey weights best < lengthKey weights path := by
  rw [lengthKey_lt]
  unfold betterPath
  have positive := length_pos_of_ne_nil some
  split_ifs with none other
  · rw [none]
    exact iff_of_true rfl (.inl positive)
  · rw [decide_eq_true_iff]
    exact ⟨.inl, fun less => less.resolve_right fun same => other same.1.symm⟩
  · rw [not_not] at other
    rw [decide_eq_true_iff, other]
    simp

/-! ### The best of each source -/

/-- The start of a path. -/
def pathStart (path : List Text) : Text := path.head?.getD []

variable (paths : List (List Text))

theorem bestBySource_concat (some : path ≠ []) :
    bestBySource priority weights (paths ++ [path]) =
      if bestKey priority weights
          ((Assoc.get (pathStart path) (bestBySource priority weights paths)).getD []) <
            bestKey priority weights path then
        Assoc.set (pathStart path) path (bestBySource priority weights paths)
      else bestBySource priority weights paths := by
  unfold bestBySource
  rw [foldl_concat]
  refine if_congr ?_ rfl rfl
  unfold bestKey
  rw [Prod.Lex.toLex_lt_toLex, if_neg (length_pos_of_ne_nil some).ne',
    ← betterPath_iff weights some]
  exact or_congr Iff.rfl (and_congr eq_comm Iff.rfl)

/-- **The best of a source is the first greatest of its paths.** -/
theorem bestBySource_get {paths : List (List Text)} (some : ∀ path ∈ paths, path ≠ [])
    (source : Text) :
    (Assoc.get source (bestBySource priority weights paths)).getD [] =
      firstMax (bestKey priority weights) [] (paths.filter fun path => pathStart path = source) := by
  induction paths using List.reverseRecOn with
  | nil => rfl
  | append_singleton paths path ih =>
    have earlier := ih fun p member => some p (mem_append_left _ member)
    rw [bestBySource_concat priority weights paths
      (some path (mem_append_right _ (mem_singleton.mpr rfl))), filter_append]
    by_cases same : pathStart path = source
    · rw [filter_singleton, decide_eq_true same, cond_true, firstMax_concat, ← earlier, same]
      split_ifs
      · rw [Assoc.get_set_self, Option.getD_some]
      · rfl
    · rw [filter_singleton, decide_eq_false same, cond_false, append_nil, ← earlier]
      split_ifs
      · rw [Assoc.get_set_ne same]
      · rfl

/-- No path is smaller than each path. -/
theorem bestKey_nil_lt (some : path ≠ []) :
    bestKey priority weights [] < bestKey priority weights path := by
  unfold bestKey
  rw [Prod.Lex.toLex_lt_toLex, if_neg (length_pos_of_ne_nil some).ne']
  exact .inl (Nat.succ_pos _)

/-- A path makes its source known. -/
theorem keys_bestBySource_concat (some : path ≠ []) :
    Assoc.keys (bestBySource priority weights (paths ++ [path])) =
      if pathStart path ∈ Assoc.keys (bestBySource priority weights paths) then
        Assoc.keys (bestBySource priority weights paths)
      else Assoc.keys (bestBySource priority weights paths) ++ [pathStart path] := by
  rw [bestBySource_concat priority weights paths some]
  split_ifs with better known known
  · rw [Assoc.keys_set, if_pos known]
  · rw [Assoc.keys_set, if_neg known]
  · rfl
  · rw [Assoc.get_eq_none_iff.mpr known] at better
    exact absurd (bestKey_nil_lt priority weights some) better

/-- The sources of some paths are known once each, and no others. -/
theorem keys_bestBySource {paths : List (List Text)} (some : ∀ path ∈ paths, path ≠ []) :
    (Assoc.keys (bestBySource priority weights paths)).Nodup ∧
      ∀ source, source ∈ Assoc.keys (bestBySource priority weights paths) ↔
        ∃ path ∈ paths, pathStart path = source := by
  induction paths using List.reverseRecOn with
  | nil => exact ⟨nodup_nil, fun source => by simp [bestBySource, Assoc.keys]⟩
  | append_singleton paths path ih =>
    obtain ⟨nodup, mem⟩ := ih fun p member => some p (mem_append_left _ member)
    rw [keys_bestBySource_concat priority weights paths
      (some path (mem_append_right _ (mem_singleton.mpr rfl)))]
    split_ifs with known
    · refine ⟨nodup, fun source => (mem source).trans ⟨?_, ?_⟩⟩
      · rintro ⟨p, member, starts⟩
        exact ⟨p, mem_append_left _ member, starts⟩
      · rintro ⟨p, member, rfl⟩
        rcases List.mem_append.mp member with earlier | last
        · exact ⟨p, earlier, rfl⟩
        · rw [mem_singleton.mp last]
          exact (mem _).mp known
    · refine ⟨List.nodup_append.mpr ⟨nodup, nodup_singleton _, fun a member b last => ?_⟩,
        fun source => ?_⟩
      · rw [mem_singleton.mp last]
        exact fun same => known (same ▸ member)
      · rw [mem_append, mem, mem_singleton]
        constructor
        · rintro (⟨p, member, starts⟩ | rfl)
          · exact ⟨p, mem_append_left _ member, starts⟩
          · exact ⟨path, mem_append_right _ (mem_singleton.mpr rfl), rfl⟩
        · rintro ⟨p, member, rfl⟩
          rcases List.mem_append.mp member with earlier | last
          · exact .inl ⟨p, earlier, rfl⟩
          · exact .inr (by rw [mem_singleton.mp last])

/-- More paths of one source add it to the sources, unless it is known or there is none. -/
theorem keys_bestBySource_append {more : List (List Text)} {source : Text}
    (some : ∀ path ∈ more, path ≠ [] ∧ pathStart path = source) :
    Assoc.keys (bestBySource priority weights (paths ++ more)) =
      if more = [] ∨ source ∈ Assoc.keys (bestBySource priority weights paths) then
        Assoc.keys (bestBySource priority weights paths)
      else Assoc.keys (bestBySource priority weights paths) ++ [source] := by
  induction more using List.reverseRecOn with
  | nil => rw [append_nil, if_pos (.inl rfl)]
  | append_singleton more path ih =>
    obtain ⟨nonempty, starts⟩ := some path (mem_append_right _ (mem_singleton.mpr rfl))
    rw [← append_assoc, keys_bestBySource_concat priority weights _ nonempty, starts,
      ih fun p member => some p (mem_append_left _ member)]
    have last : more ++ [path] ≠ [] := by simp
    by_cases known : source ∈ Assoc.keys (bestBySource priority weights paths)
    · simp only [known, or_true, if_true]
    · by_cases none : more = []
      · simp only [none, known, true_or, if_true, if_false, nil_append, cons_ne_nil,
          or_self]
      · simp only [none, known, last, or_self, if_false, mem_append, mem_singleton,
          or_true, if_true]

section Order

variable {step : Text → Text → Prop} {sinks : List Text} {maxDepth : Nat} {sources : List Text}
  {parts : List (Text × List (List Text))}

/-- What is found from a source starts with it. -/
theorem FindsFrom.starts (finds : FindsFrom step sinks maxDepth sources parts)
    {part : Text × List (List Text)} (member : part ∈ parts) :
    ∀ path ∈ part.2, path ≠ [] ∧ pathStart path = part.1 := by
  intro path inside
  have simple := ((finds.mem_iff part member path).mp inside).1
  refine ⟨fun none => ?_, ?_⟩
  · rw [none] at simple
    cases simple.head
  · rw [pathStart, simple.head, Option.getD_some]

theorem FindsFrom.some (finds : FindsFrom step sinks maxDepth sources parts) :
    ∀ path ∈ (parts.map Prod.snd).flatten, path ≠ [] := by
  intro path member
  obtain ⟨list, inside, found⟩ := List.mem_flatten.mp member
  obtain ⟨part, here, rfl⟩ := mem_map.mp inside
  exact (finds.starts here path found).1

/-- **The sources stay in their order.** -/
theorem FindsFrom.ordered (finds : FindsFrom step sinks maxDepth sources parts) :
    (Assoc.keys (bestBySource priority weights (parts.map Prod.snd).flatten)).Pairwise fun a b =>
      sources.idxOf a < sources.idxOf b := by
  induction parts using List.reverseRecOn generalizing sources with
  | nil => exact .nil
  | append_singleton parts part ih =>
    obtain ⟨whole, mem⟩ := finds
    obtain rfl : sources = parts.map Prod.fst ++ [part.1] := by rw [← whole, map_append]; rfl
    have before : FindsFrom step sinks maxDepth (parts.map Prod.fst) parts :=
      ⟨rfl, fun other member => mem other (mem_append_left _ member)⟩
    have last : FindsFrom step sinks maxDepth (parts.map Prod.fst ++ [part.1]) (parts ++ [part]) :=
      ⟨whole, mem⟩
    have known : ∀ source ∈ Assoc.keys (bestBySource priority weights
        (parts.map Prod.snd).flatten), source ∈ parts.map Prod.fst := by
      intro source inside
      obtain ⟨path, member, rfl⟩ := ((keys_bestBySource priority weights before.some).2 source).mp
        inside
      obtain ⟨list, here, found⟩ := List.mem_flatten.mp member
      obtain ⟨other, member, rfl⟩ := mem_map.mp here
      rw [(before.starts member path found).2]
      exact mem_map_of_mem member
    have earlier := (ih before).imp_of_mem fun {a b} inA inB less => by
      show (parts.map Prod.fst ++ [part.1]).idxOf a < (parts.map Prod.fst ++ [part.1]).idxOf b
      rw [idxOf_append_of_mem (known a inA), idxOf_append_of_mem (known b inB)]
      exact less
    have member : part ∈ parts ++ [part] := mem_append_right _ (mem_singleton.mpr rfl)
    rw [map_append, flatten_append, map_singleton, flatten_singleton,
      keys_bestBySource_append priority weights _ (last.starts member)]
    split_ifs with old
    · exact earlier
    · obtain ⟨some, fresh⟩ := not_or.mp old
      -- from a source that was tried before without a path there is none now
      have new : part.1 ∉ parts.map Prod.fst := by
        intro tried
        obtain ⟨other, inside, same⟩ := mem_map.mp tried
        obtain ⟨path, found⟩ := exists_mem_of_ne_nil _ some
        have again := (mem other (mem_append_left _ inside) path).mpr
          (same ▸ (mem part member path).mp found)
        refine fresh (((keys_bestBySource priority weights before.some).2 _).mpr
          ⟨path, List.mem_flatten.mpr ⟨_, mem_map_of_mem inside, again⟩, ?_⟩)
        exact (last.starts member path found).2
      refine List.pairwise_append.mpr
        ⟨earlier, pairwise_singleton _ _, fun a inside b only => ?_⟩
      rw [mem_singleton.mp only, idxOf_append_of_mem (known a inside),
        idxOf_append_of_notMem new]
      exact (idxOf_lt_length_of_mem (known a inside)).trans_le (Nat.le_add_right _ _)

end Order

/-! ### Signatures and pairs -/

/-- A key without U+0000 is found again before the first one. -/
theorem takeWhile_zero {a : Text} (plain : 0 ∉ a) (rest : Text) :
    (a ++ 0 :: rest).takeWhile (· ≠ 0) = a := by
  have kept : ∀ c ∈ a, decide (c ≠ 0) = true := fun _ member =>
    decide_eq_true (ne_of_mem_of_not_mem member plain)
  rw [takeWhile_append_of_pos kept]
  exact append_nil a

theorem takeWhile_plain {a : Text} (plain : 0 ∉ a) : a.takeWhile (· ≠ 0) = a :=
  List.takeWhile_eq_self_iff.mpr fun _ member =>
    decide_eq_true (ne_of_mem_of_not_mem member plain)

/-- The signature of a path tells where it starts. -/
theorem takeWhile_join (plain : 0 ∉ pathStart path) :
    (join [0] path).takeWhile (· ≠ 0) = pathStart path := by
  rcases path with _ | ⟨a, _ | ⟨b, rest⟩⟩
  · rfl
  · exact (congrArg _ (append_nil a)).trans (takeWhile_plain plain)
  · exact takeWhile_zero plain _

/-- **Paths that start apart are all listed.** -/
theorem distinctPaths_eq {paths : List (List Text)} (plain : ∀ path ∈ paths, 0 ∉ pathStart path)
    (apart : (paths.map pathStart).Nodup) : distinctPaths paths = paths := by
  have both : paths.foldl (fun (acc : List Text × List (List Text)) path =>
      let signature := join [0] path
      if signature ∈ acc.1 then acc else (acc.1 ++ [signature], acc.2 ++ [path])) ([], []) =
        (paths.map (join [0]), paths) := by
    induction paths using List.reverseRecOn with
    | nil => rfl
    | append_singleton paths path ih =>
      rw [map_append, map_singleton, nodup_append] at apart
      rw [foldl_concat, ih (fun p member => plain p (mem_append_left _ member)) apart.1]
      dsimp only
      rw [if_neg, map_append, map_singleton]
      intro member
      obtain ⟨other, inside, same⟩ := mem_map.mp member
      have starts := congrArg (List.takeWhile (· ≠ 0)) same
      rw [takeWhile_join (plain other (mem_append_left _ inside)),
        takeWhile_join (plain path (mem_append_right _ (mem_singleton.mpr rfl)))] at starts
      exact apart.2.2 _ (mem_map_of_mem inside) _ (mem_singleton.mpr rfl) starts
  rw [distinctPaths, both]

theorem edgePair_inj {a b c d : Text} (plainC : 0 ∉ c) (plainD : 0 ∉ d)
    (same : edgePair a b = edgePair c d) : a = c ∧ b = d := by
  unfold edgePair at same
  rw [append_assoc, append_assoc, singleton_append, singleton_append] at same
  have counts := congrArg (List.count 0) same
  rw [count_append, count_append, count_cons_self, count_cons_self,
    count_eq_zero_of_not_mem plainC, count_eq_zero_of_not_mem plainD] at counts
  have plainA : 0 ∉ a := List.count_eq_zero.mp (by omega)
  have starts := congrArg (List.takeWhile (· ≠ 0)) same
  rw [takeWhile_zero plainA, takeWhile_zero plainC] at starts
  rw [starts] at same
  exact ⟨starts, (List.cons.inj (append_cancel_left same)).2⟩

/-- **The pairs along a path are its neighbours.** -/
theorem mem_pathPairs_iff {pair : Text} :
    pair ∈ pathPairs path ↔ ∃ a b, [a, b] <:+: path ∧ pair = edgePair a b := by
  induction path with
  | nil => simp [pathPairs]
  | cons a rest ih =>
    cases rest with
    | nil =>
      refine iff_of_false not_mem_nil ?_
      rintro ⟨a, b, inside, -⟩
      exact absurd inside.length_le (by simp)
    | cons b rest =>
      rw [pathPairs, mem_cons, ih]
      constructor
      · rintro (rfl | ⟨c, d, inside, same⟩)
        · exact ⟨a, b, ⟨[], rest, rfl⟩, rfl⟩
        · exact ⟨c, d, inside.trans (suffix_cons a _).isInfix, same⟩
      · rintro ⟨c, d, inside, rfl⟩
        rcases List.infix_cons_iff.mp inside with front | later
        · obtain ⟨first, rest⟩ := List.cons_prefix_cons.mp front
          rw [first, (List.cons_prefix_cons.mp rest).1]
          exact .inl rfl
        · exact .inr ⟨c, d, later, rfl⟩

end TianGong.SecServer
