/-
**Matching the items of two arrays.**

A list of matches pairs positions of `before` with positions of `after`. The diff needs of it that the
pairs lie in the region and ascend on both sides (`Ascends`); whether the paired items are equal only
decides how small the batch gets. Each of the source's strategies has its own fact:

* `ascends_positional`: items equal at one offset.
* `ascends_identitySubsequence`: one side is a subsequence of the other by identity.
* `ascends_identityAnchors`: a longest ascending run of identical items, or a greedy one.

`permutation_perm` and `permutation_items` are for the reordering op: the order found is a permutation
of the positions, and takes the old items to the new ones.
-/

import TianGong.Chord.Equal
import TianGong.Lib.LowerBound

namespace TianGong.Chord

open List Option
open TianGong.Lib TianGong.Json

/-- `[before, after]`. -/
abbrev ArrayMatch := Nat × Nat

/-- `items[index]!`; the indices used are in range. -/
def item (items : List (Json Addr)) (index : Nat) : Json Addr := items.getD index .null

def sameValue (left right : Json Addr) : Bool := identical left right || equalJson left right

/-- **The matches lie in the region and ascend on both sides.** -/
def Ascends : Nat → Nat → Nat → Nat → List ArrayMatch → Prop
  | _, _, _, _, [] => True
  | beforeStart, beforeEnd, afterStart, afterEnd, (b, a) :: rest =>
    beforeStart ≤ b ∧ b < beforeEnd ∧ afterStart ≤ a ∧ a < afterEnd ∧
      Ascends (b + 1) beforeEnd (a + 1) afterEnd rest

variable {ms : List ArrayMatch}

theorem Ascends.mono {bs bs' be as as' ae : Nat} (ascends : Ascends bs be as ae ms)
    (before : bs' ≤ bs) (after : as' ≤ as) : Ascends bs' be as' ae ms := by
  cases ms with
  | nil => trivial
  | cons m rest => exact ⟨before.trans ascends.1, ascends.2.1, after.trans ascends.2.2.1,
      ascends.2.2.2⟩

theorem Ascends.swap {bs be as ae : Nat} (ascends : Ascends bs be as ae ms) :
    Ascends as ae bs be (ms.map Prod.swap) := by
  induction ms generalizing bs as with
  | nil => trivial
  | cons m rest ih =>
    obtain ⟨b₁, b₂, a₁, a₂, more⟩ := ascends
    exact ⟨a₁, a₂, b₁, b₂, ih more⟩

theorem Ascends.shift {bs be as ae : Nat} (ascends : Ascends bs be as ae ms) (d e : Nat) :
    Ascends (d + bs) (d + be) (e + as) (e + ae) (ms.map fun m => (d + m.1, e + m.2)) := by
  induction ms generalizing bs as with
  | nil => trivial
  | cons m rest ih =>
    obtain ⟨b₁, b₂, a₁, a₂, more⟩ := ascends
    refine ⟨by omega, by omega, by omega, by omega, ?_⟩
    exact (ih more).mono (by omega) (by omega)

/-! ### Items at one offset -/

/-- The loop that collects `positional`. -/
def positionalLoop (before after : List (Json Addr)) : Nat → Nat → Nat → List ArrayMatch
  | 0, _, _ => []
  | count + 1, b, a =>
    let rest := positionalLoop before after count (b + 1) (a + 1)
    if sameValue (item before b) (item after a) then (b, a) :: rest else rest

theorem ascends_positional (before after : List (Json Addr)) (count b a : Nat) :
    Ascends b (b + count) a (a + count) (positionalLoop before after count b a) := by
  induction count generalizing b a with
  | zero => trivial
  | succ count ih =>
    have rest := ih (b + 1) (a + 1)
    rw [Nat.add_right_comm b, Nat.add_right_comm a] at rest
    unfold positionalLoop
    dsimp only
    split
    · exact ⟨Nat.le_refl _, by omega, Nat.le_refl _, by omega, rest⟩
    · exact rest.mono (Nat.le_succ b) (Nat.le_succ a)

/-! ### A subsequence by identity -/

/-- Advance to the next item identical to `value`. -/
def seek (items : List (Json Addr)) (value : Json Addr) : Nat → Nat → Option Nat
  | 0, _ => none
  | fuel + 1, index =>
    if identical (item items index) value then some index else seek items value fuel (index + 1)

variable {after before : List (Json Addr)} {index : Nat}

theorem seek_bounds {items : List (Json Addr)} {value : Json Addr} {fuel found : Nat}
    (sought : seek items value fuel index = some found) : index ≤ found ∧ found < index + fuel := by
  induction fuel generalizing index with
  | zero => cases sought
  | succ fuel ih =>
    unfold seek at sought
    split at sought
    · cases sought
      omega
    · have bounds := ih sought
      omega

/-- Find each item of the short side, in order, on the long side. -/
def subsequenceLoop (long : List (Json Addr)) (longEnd : Nat) (short : List (Json Addr)) :
    Nat → Nat → Nat → Option (List ArrayMatch)
  | 0, _, _ => some []
  | count + 1, l, s =>
    match seek long (item short s) (longEnd - l) l with
    | none => none
    | some found =>
      (subsequenceLoop long longEnd short count (found + 1) (s + 1)).map ((found, s) :: ·)

def identitySubsequence (before : List (Json Addr)) (beforeStart beforeEnd : Nat)
    (after : List (Json Addr)) (afterStart afterEnd : Nat) : Option (List ArrayMatch) :=
  let beforeCount := beforeEnd - beforeStart
  let afterCount := afterEnd - afterStart
  if afterCount < beforeCount then
    subsequenceLoop before beforeEnd after afterCount beforeStart afterStart
  else if beforeCount < afterCount then
    (subsequenceLoop after afterEnd before beforeCount afterStart beforeStart).map
      (List.map Prod.swap)
  else none

theorem ascends_subsequenceLoop {long short : List (Json Addr)} {longEnd count l s : Nat}
    (found : subsequenceLoop long longEnd short count l s = some ms) :
    Ascends l longEnd s (s + count) ms := by
  induction count generalizing l s ms with
  | zero =>
    cases found
    trivial
  | succ count ih =>
    unfold subsequenceLoop at found
    cases sought : seek long (item short s) (longEnd - l) l with
    | none =>
      rw [sought] at found
      cases found
    | some at_ =>
      rw [sought] at found
      obtain ⟨rest, more, rfl⟩ := Option.map_eq_some_iff.mp found
      have bounds := seek_bounds sought
      have tail := ih more
      rw [Nat.add_right_comm s] at tail
      exact ⟨bounds.1, by omega, Nat.le_refl _, by omega, tail⟩

theorem ascends_identitySubsequence {bs be as ae : Nat} (beforeOrder : bs ≤ be)
    (afterOrder : as ≤ ae) (found : identitySubsequence before bs be after as ae = some ms) :
    Ascends bs be as ae ms := by
  unfold identitySubsequence at found
  dsimp only at found
  split_ifs at found
  · have ascends := ascends_subsequenceLoop found
    rwa [Nat.add_sub_cancel' afterOrder] at ascends
  · obtain ⟨swapped, more, rfl⟩ := Option.map_eq_some_iff.mp found
    have ascends := ascends_subsequenceLoop more
    rw [Nat.add_sub_cancel' beforeOrder] at ascends
    exact ascends.swap

/-! ### Positions by identity -/

/-- A `Map` from values, by identity, to the positions where they stand. -/
abbrev Positions := List (Val × List Nat)

/-- The loop that fills `positions`. -/
def positionsLoop (items : List (Json Addr)) : Nat → Nat → Positions → Positions
  | 0, _, positions => positions
  | count + 1, index, positions =>
    let value := (item items index).val
    positionsLoop items count (index + 1)
      (Assoc.set value ((Assoc.get value positions).getD [] ++ [index]) positions)

/-- Each list names ascending positions of the region where its value stands. -/
def Located (items : List (Json Addr)) (start stop : Nat) (positions : Positions) : Prop :=
  ∀ value at_, Assoc.get value positions = some at_ →
    Ascending at_ ∧ ∀ i ∈ at_, start ≤ i ∧ i < stop ∧ (item items i).val = value

theorem located_positionsLoop {items : List (Json Addr)} {start count index : Nat}
    {positions : Positions} (order : start ≤ index) (located : Located items start index positions) :
    Located items start (index + count) (positionsLoop items count index positions) := by
  induction count generalizing index positions with
  | zero => exact located
  | succ count ih =>
    unfold positionsLoop
    dsimp only
    rw [show index + (count + 1) = index + 1 + count by omega]
    refine ih (by omega) fun value at_ found => ?_
    rw [Assoc.get_set] at found
    split_ifs at found with same
    · cases found
      subst same
      cases before : Assoc.get (item items index).val positions with
      | none =>
        refine ⟨Ascending.nil.concat (fun v member => (by cases member)), fun i member => ?_⟩
        rw [getD_none, nil_append, mem_singleton] at member
        subst member
        exact ⟨order, Nat.lt_succ_self _, rfl⟩
      | some old =>
        obtain ⟨ascending, inside⟩ := located _ _ before
        rw [getD_some]
        refine ⟨ascending.concat fun v member => (inside v member).2.1, fun i member => ?_⟩
        rcases List.mem_append.mp member with earlier | last
        · have bounds := inside i earlier
          exact ⟨bounds.1, by omega, bounds.2.2⟩
        · rw [mem_singleton] at last
          subst last
          exact ⟨order, Nat.lt_succ_self _, rfl⟩
    · obtain ⟨ascending, inside⟩ := located value at_ found
      refine ⟨ascending, fun i member => ?_⟩
      have bounds := inside i member
      exact ⟨bounds.1, by omega, bounds.2.2⟩

/-- `positions` of a region. -/
def positionsOf (items : List (Json Addr)) (start stop : Nat) : Positions :=
  positionsLoop items (stop - start) start []

theorem located_positionsOf {items : List (Json Addr)} {start stop : Nat} (order : start ≤ stop) :
    Located items start stop (positionsOf items start stop) := by
  have located := @located_positionsLoop items start (stop - start) start [] (Nat.le_refl start)
    (fun value at_ found => (by cases found))
  rwa [Nat.add_sub_cancel' order] at located

/-! ### Identical items: a longest ascending run -/

def MAX_IDENTITY_CANDIDATES : Nat := 200000

/-- A pair of identical items, and the candidate before it in the best run that ends here. -/
structure MatchCandidate where
  before : Nat
  after : Nat
  previous : Option Nat

/-- The loop of `greedyIdentityAnchors`; `next` is one past the previous match. -/
def greedyLoop (positions : Positions) (after : List (Json Addr)) :
    Nat → Nat → Nat → List ArrayMatch
  | 0, _, _ => []
  | count + 1, a, next =>
    match Assoc.get (item after a).val positions with
    | none => greedyLoop positions after count (a + 1) next
    | some candidates =>
      match candidates[lowerBound candidates next]? with
      | none => greedyLoop positions after count (a + 1) next
      | some b => (b, a) :: greedyLoop positions after count (a + 1) (b + 1)

/-- The state of the search: all candidates, and for each length the candidate that ends a run of
that length at the smallest position, with that position. -/
structure Runs where
  candidates : List MatchCandidate
  tails : List Nat
  tailValues : List Nat

/-- One candidate. -/
def Runs.place (a : Nat) (runs : Runs) (b : Nat) : Runs :=
  let at_ := lowerBound runs.tailValues b
  { candidates := runs.candidates ++
      [⟨b, a, if at_ = 0 then none else runs.tails[at_ - 1]?⟩]
    tails := setAt at_ runs.candidates.length runs.tails
    tailValues := setAt at_ b runs.tailValues }

/-- The loop over the items of `after`; the positions of one value are taken from the last. -/
def runsLoop (positions : Positions) (after : List (Json Addr)) : Nat → Nat → Runs → Runs
  | 0, _, runs => runs
  | count + 1, a, runs =>
    let at_ := (Assoc.get (item after a).val positions).getD []
    runsLoop positions after count (a + 1) (at_.reverse.foldl (Runs.place a) runs)

/-- Follow the links back from a candidate. `fuel` bounds the length of the run. -/
def backtrack (candidates : List MatchCandidate) : Nat → Option Nat → List ArrayMatch
  | 0, _ => []
  | _ + 1, none => []
  | fuel + 1, some i =>
    match candidates[i]? with
    | none => []
    | some c => (c.before, c.after) :: backtrack candidates fuel c.previous

def identityAnchors (before : List (Json Addr)) (beforeStart beforeEnd : Nat)
    (after : List (Json Addr)) (afterStart afterEnd : Nat) : List ArrayMatch :=
  let positions := positionsOf before beforeStart beforeEnd
  let counts := (List.range' afterStart (afterEnd - afterStart)).map fun a =>
    ((Assoc.get (item after a).val positions).map List.length).getD 0
  if counts.sum > MAX_IDENTITY_CANDIDATES then
    greedyLoop positions after (afterEnd - afterStart) afterStart 0
  else if counts.sum = 0 then []
  else
    let runs := runsLoop positions after (afterEnd - afterStart) afterStart ⟨[], [], []⟩
    (backtrack runs.candidates runs.candidates.length runs.tails.getLast?).reverse

theorem ascends_greedyLoop {before after : List (Json Addr)} {bs be : Nat} {positions : Positions}
    (located : Located before bs be positions) (count a next : Nat) :
    Ascends (max bs next) be a (a + count) (greedyLoop positions after count a next) := by
  induction count generalizing a next with
  | zero => trivial
  | succ count ih =>
    have rest : ∀ next, Ascends (max bs next) be (a + 1) (a + (count + 1))
        (greedyLoop positions after count (a + 1) next) := by
      intro next
      rw [show a + (count + 1) = a + 1 + count by omega]
      exact ih (a + 1) next
    unfold greedyLoop
    cases found : Assoc.get (item after a).val positions with
    | none => exact (rest next).mono (Nat.le_refl _) (Nat.le_succ a)
    | some candidates =>
      obtain ⟨ascending, inside⟩ := located _ _ found
      dsimp only
      cases at_ : candidates[lowerBound candidates next]? with
      | none => exact (rest next).mono (Nat.le_refl _) (Nat.le_succ a)
      | some b =>
        have bounds := inside b (mem_of_getElem? at_)
        have least := (lowerBound_spec ascending next).2.2 _ b (Nat.le_refl _) at_
        refine ⟨by omega, bounds.2.1, Nat.le_refl _, by omega, ?_⟩
        exact (rest (b + 1)).mono (by omega) (Nat.le_refl _)

/-- **What the search keeps.** Tail positions ascend; each tail names its candidate; the candidates lie
in the region, and a link leads to an earlier candidate smaller on both sides. While the candidates
of one item of `after` are placed, those placed already stand at `limit` or beyond. -/
structure Linked (bs be as a limit : Nat) (runs : Runs) : Prop where
  lengths : runs.tails.length = runs.tailValues.length
  ascending : Ascending runs.tailValues
  tail : ∀ i v : Nat, runs.tailValues[i]? = some v → ∃ t c, runs.tails[i]? = some t ∧
    runs.candidates[t]? = some c ∧ c.before = v ∧ (v < limit → c.after < a)
  region : ∀ (j : Nat) c, runs.candidates[j]? = some c → bs ≤ c.before ∧ c.before < be ∧
    as ≤ c.after ∧ c.after ≤ a
  link : ∀ (j : Nat) c p, runs.candidates[j]? = some c → c.previous = some p →
    ∃ d, runs.candidates[p]? = some d ∧ d.before < c.before ∧ d.after < c.after

theorem Linked.start (bs be as a limit : Nat) : Linked bs be as a limit ⟨[], [], []⟩ where
  lengths := rfl
  ascending := Ascending.nil
  tail i v found := by cases found
  region j c found := by cases found
  link j c p found := by cases found

variable {runs : Runs}

/-- A candidate below the limit keeps the search linked, and is the new limit. -/
theorem Linked.place {bs be as a limit : Nat} (linked : Linked bs be as a limit runs)
    (afterOrder : as ≤ a) {b : Nat} (inside : bs ≤ b ∧ b < be) (fresh : b < limit) :
    Linked bs be as a b (runs.place a b) := by
  obtain ⟨bound, below, above⟩ := lowerBound_spec linked.ascending b
  have old : ∀ (j : Nat) c, runs.candidates[j]? = some c → ∀ more : List MatchCandidate,
      (runs.candidates ++ more)[j]? = some c := fun j c found more => by
    rw [List.getElem?_append_left (List.getElem?_eq_some_iff.mp found).1]
    exact found
  have new : ∀ (j : Nat) c d, (runs.candidates ++ [d])[j]? = some c →
      runs.candidates[j]? = some c ∨ c = d := fun j c d found => by
    by_cases within : j < runs.candidates.length
    · rw [List.getElem?_append_left within] at found
      exact .inl found
    · rw [List.getElem?_append_right (Nat.le_of_not_lt within)] at found
      exact .inr (List.mem_singleton.mp (mem_of_getElem? found))
  refine ⟨length_setAt linked.lengths, ascending_setAt linked.ascending b, ?_, ?_, ?_⟩
  · intro i v found
    simp only [Runs.place] at found ⊢
    rw [getElem?_setAt bound] at found
    rw [getElem?_setAt (linked.lengths ▸ bound)]
    by_cases here : i = lowerBound runs.tailValues b
    · rw [if_pos here] at found ⊢
      cases found
      exact ⟨_, _, rfl, by rw [List.getElem?_append_right (Nat.le_refl _), Nat.sub_self]; rfl, rfl,
        fun less => absurd less (Nat.lt_irrefl b)⟩
    · rw [if_neg here] at found ⊢
      obtain ⟨t, c, tail, candidate, value, earlier⟩ := linked.tail i v found
      exact ⟨t, c, tail, old t c candidate _, value, fun less => earlier (less.trans fresh)⟩
  · intro j c found
    rcases new j c _ found with before | rfl
    · exact linked.region j c before
    · exact ⟨inside.1, inside.2, afterOrder, Nat.le_refl a⟩
  · intro j c p found previous
    rcases new j c _ found with before | rfl
    · obtain ⟨d, there, smaller⟩ := linked.link j c p before previous
      exact ⟨d, old p d there _, smaller⟩
    · -- The new candidate links to the tail one shorter, which ends below it.
      dsimp only at previous
      split_ifs at previous with first
      have shorter : lowerBound runs.tailValues b - 1 < runs.tailValues.length := by omega
      have value := List.getElem?_eq_getElem shorter
      obtain ⟨t, d, tail, candidate, same, earlier⟩ := linked.tail _ _ value
      have less := below _ _ (by omega : lowerBound runs.tailValues b - 1 < _) value
      rw [previous] at tail
      cases tail
      exact ⟨d, old p d candidate _, same ▸ less, earlier (less.trans fresh)⟩

/-- The candidates of one item, from the last position to the first. -/
theorem Linked.foldl {bs be as a : Nat} (afterOrder : as ≤ a) {at_ : List Nat} {limit : Nat}
    (linked : Linked bs be as a limit runs) (descending : at_.Pairwise (· > ·))
    (inside : ∀ b ∈ at_, (bs ≤ b ∧ b < be) ∧ b < limit) :
    ∃ limit', Linked bs be as a limit' (at_.foldl (Runs.place a) runs) := by
  induction at_ generalizing limit runs with
  | nil => exact ⟨limit, linked⟩
  | cons b rest ih =>
    rw [pairwise_cons] at descending
    have here := inside b mem_cons_self
    refine ih (linked.place afterOrder here.1 here.2) descending.2 fun c member => ?_
    exact ⟨(inside c (mem_cons_of_mem _ member)).1, descending.1 c member⟩

/-- Before the next item, no position is out of reach. -/
theorem Linked.next {bs be as a limit : Nat} (linked : Linked bs be as a limit runs) :
    Linked bs be as (a + 1) be runs where
  lengths := linked.lengths
  ascending := linked.ascending
  tail i v found := by
    obtain ⟨t, c, tail, candidate, value, _⟩ := linked.tail i v found
    exact ⟨t, c, tail, candidate, value, fun _ =>
      Nat.lt_succ_of_le (linked.region t c candidate).2.2.2⟩
  region j c found := by
    obtain ⟨b₁, b₂, a₁, a₂⟩ := linked.region j c found
    exact ⟨b₁, b₂, a₁, Nat.le_succ_of_le a₂⟩
  link := linked.link

theorem linked_runsLoop {before after : List (Json Addr)} {bs be as : Nat} {positions : Positions}
    (located : Located before bs be positions) {count a : Nat} (afterOrder : as ≤ a) {runs : Runs}
    (linked : Linked bs be as a be runs) :
    Linked bs be as (a + count) be (runsLoop positions after count a runs) := by
  induction count generalizing a runs with
  | zero => exact linked
  | succ count ih =>
    unfold runsLoop
    dsimp only
    rw [show a + (count + 1) = a + 1 + count by omega]
    have placed : ∃ limit, Linked bs be as a limit
        (((Assoc.get (item after a).val positions).getD []).reverse.foldl (Runs.place a) runs) := by
      cases found : Assoc.get (item after a).val positions with
      | none => exact ⟨be, linked⟩
      | some at_ =>
        obtain ⟨ascending, inside⟩ := located _ _ found
        refine linked.foldl afterOrder (List.pairwise_reverse.mpr ascending.pairwise) ?_
        intro b member
        have bounds := inside b (List.mem_reverse.mp member)
        exact ⟨⟨bounds.1, bounds.2.1⟩, bounds.2.1⟩
    obtain ⟨limit, after_⟩ := placed
    exact ih (Nat.le_succ_of_le afterOrder) after_.next

/-- **Following the links back** gives an ascending run, in front of any run it can continue. -/
theorem ascends_backtrack {bs be as a limit ae : Nat} {runs : Runs}
    (linked : Linked bs be as a limit runs) (fuel : Nat) {i : Nat} {c : MatchCandidate}
    (found : runs.candidates[i]? = some c) {rest : List ArrayMatch}
    (more : Ascends (c.before + 1) be (c.after + 1) ae rest) (last : c.after < ae) :
    Ascends bs be as ae ((backtrack runs.candidates fuel (some i)).reverse ++ rest) := by
  induction fuel generalizing i c rest with
  | zero =>
    obtain ⟨b₁, _, a₁, _⟩ := linked.region i c found
    exact more.mono (by omega) (by omega)
  | succ fuel ih =>
    obtain ⟨b₁, b₂, a₁, a₂⟩ := linked.region i c found
    have here : Ascends c.before be c.after ae ((c.before, c.after) :: rest) :=
      ⟨Nat.le_refl _, b₂, Nat.le_refl _, last, more⟩
    unfold backtrack
    rw [found]
    dsimp only
    rw [reverse_cons, append_assoc, singleton_append]
    cases previous : c.previous with
    | none =>
      have stop : backtrack runs.candidates fuel none = [] := by cases fuel <;> rfl
      rw [stop]
      exact here.mono b₁ a₁
    | some p =>
      obtain ⟨d, there, before, after⟩ := linked.link i c p found previous
      exact ih there (here.mono before after) (by omega)

/-- **The identity anchors ascend.** -/
theorem ascends_identityAnchors (before after : List (Json Addr)) {bs be as ae : Nat}
    (beforeOrder : bs ≤ be) (afterOrder : as ≤ ae) :
    Ascends bs be as ae (identityAnchors before bs be after as ae) := by
  have located := @located_positionsOf before _ _ beforeOrder
  unfold identityAnchors
  dsimp only
  split_ifs
  · have greedy := @ascends_greedyLoop _ after _ _ _ located (ae - as) as 0
    rw [Nat.add_sub_cancel' afterOrder] at greedy
    exact greedy.mono (Nat.le_max_left bs 0) (Nat.le_refl _)
  · trivial
  · have linked := @linked_runsLoop _ after _ _ _ _ located (ae - as) _ (Nat.le_refl as) _
      (Linked.start bs be as as be)
    rw [Nat.add_sub_cancel' afterOrder] at linked
    cases last : (runsLoop (positionsOf before bs be) after (ae - as) as ⟨[], [], []⟩).tails.getLast?
      with
    | none =>
      have stop : ∀ candidates fuel, backtrack candidates fuel none = [] := by
        intro candidates fuel
        cases fuel <;> rfl
      rw [stop]
      trivial
    | some t =>
      rw [List.getLast?_eq_getElem?, linked.lengths] at last
      have inside := (List.getElem?_eq_some_iff.mp last).1
      rw [linked.lengths] at inside
      obtain ⟨t', c, tail, candidate, value, earlier⟩ :=
        linked.tail _ _ (List.getElem?_eq_getElem inside)
      rw [last] at tail
      cases tail
      have bounds := linked.region t c candidate
      have run := @ascends_backtrack _ _ _ _ _ ae _ linked (runsLoop (positionsOf before bs be) after (ae - as) as
        ⟨[], [], []⟩).candidates.length _ _ candidate [] trivial (earlier (value ▸ bounds.2.1))
      rwa [append_nil] at run

/-! ### A longest common subsequence -/

def MAX_SEMANTIC_CELLS : Nat := 65536

/-- One row of `lengths`, from the row below it; a row ends with a zero. -/
def lcsRow (equal : Json Addr → Json Addr → Bool) (left : Json Addr) :
    List (Json Addr) → List Nat → List Nat
  | [], _ => [0]
  | right :: rest, below =>
    let row := lcsRow equal left rest below.tail
    (if equal left right then below.tail.headD 0 + 1 else max (below.headD 0) (row.headD 0)) :: row

/-- `lengths`, row by row from the first item of `before`. -/
def lcsTable (equal : Json Addr → Json Addr → Bool) (after : List (Json Addr)) :
    List (Json Addr) → List (List Nat)
  | [] => [List.replicate (after.length + 1) 0]
  | left :: rest =>
    let rows := lcsTable equal after rest
    lcsRow equal left after (rows.headD []) :: rows

/-- The walk that collects `matches`. `fuel` bounds the number of steps; the sum of the lengths is
enough. -/
def lcsWalk (equal : Json Addr → Json Addr → Bool) (before after : List (Json Addr))
    (lengths : Nat → Nat → Nat) : Nat → Nat → Nat → List ArrayMatch
  | 0, _, _ => []
  | fuel + 1, left, right =>
    if left < before.length ∧ right < after.length then
      if equal (item before left) (item after right) ∧
          lengths left right = lengths (left + 1) (right + 1) + 1 then
        (left, right) :: lcsWalk equal before after lengths fuel (left + 1) (right + 1)
      else if lengths (left + 1) right ≥ lengths left (right + 1) then
        lcsWalk equal before after lengths fuel (left + 1) right
      else lcsWalk equal before after lengths fuel left (right + 1)
    else []

def lcsMatches (before after : List (Json Addr)) (equal : Json Addr → Json Addr → Bool)
    (maxCells : Nat) : Option (List ArrayMatch) :=
  if before.length = 0 ∨ after.length = 0 then some []
  else if before.length * after.length > maxCells then none
  else
    let table := lcsTable equal after before
    some (lcsWalk equal before after (fun left right => (table.getD left []).getD right 0)
      (before.length + after.length) 0 0)

/-- `semanticallyAligned`: equal values, or containers of one kind that share a container. -/
def semanticallyAligned (left right : Json Addr) : Bool :=
  if sameValue left right then true
  else match left, right with
    | .array _ xs, .array _ ys =>
      xs.length == ys.length && (xs.zip ys).any fun pair => pair.1.isContainer && identical pair.1 pair.2
    | .object _ xs, .object _ ys => xs.any fun e =>
      e.2.isContainer && match Assoc.get e.1 ys with
        | some other => identical e.2 other
        | none => false
    | _, _ => false

theorem ascends_lcsWalk (equal : Json Addr → Json Addr → Bool) (before after : List (Json Addr))
    (lengths : Nat → Nat → Nat) (fuel left right : Nat) :
    Ascends left before.length right after.length
      (lcsWalk equal before after lengths fuel left right) := by
  induction fuel generalizing left right with
  | zero => trivial
  | succ fuel ih =>
    unfold lcsWalk
    split_ifs with inside
    · exact ⟨Nat.le_refl _, inside.1, Nat.le_refl _, inside.2, ih _ _⟩
    · exact (ih _ _).mono (Nat.le_succ left) (Nat.le_refl _)
    · exact (ih _ _).mono (Nat.le_refl _) (Nat.le_succ right)
    · trivial

/-- **The semantic matches ascend.** -/
theorem ascends_lcsMatches {equal : Json Addr → Json Addr → Bool} {maxCells : Nat}
    (found : lcsMatches before after equal maxCells = some ms) :
    Ascends 0 before.length 0 after.length ms := by
  unfold lcsMatches at found
  split_ifs at found
  · cases found
    trivial
  · cases found
    exact ascends_lcsWalk _ _ _ _ _ _ _

/-! ### A reordering -/

/-- One turn of the second loop of `permutation`: take the next unused position of the value. -/
def takePosition (entries : List (Val × List Nat × Nat)) (value : Val) :
    Option (Nat × List (Val × List Nat × Nat)) :=
  match Assoc.get value entries with
  | none => none
  | some (indices, used) =>
    match indices[used]? with
    | none => none
    | some index => some (index, Assoc.set value (indices, used + 1) entries)

/-- The second loop of `permutation`. -/
def permutationOf (entries : List (Val × List Nat × Nat)) : List (Json Addr) → Option (List Nat)
  | [] => some []
  | value :: rest =>
    match takePosition entries value.val with
    | none => none
    | some (index, entries') => (permutationOf entries' rest).map (index :: ·)

def permutation (before after : List (Json Addr)) : Option (List Nat) :=
  if before.length ≠ after.length then none
  else permutationOf ((positionsOf before 0 before.length).map fun e => (e.1, e.2, 0)) after

/-- The positions not taken yet. -/
def unused (entries : List (Val × List Nat × Nat)) : List Nat :=
  entries.flatMap fun e => e.2.1.drop e.2.2

variable {entries : List (Val × List Nat × Nat)} {order : List Nat}

theorem takePosition_some {entries' : List (Val × List Nat × Nat)} {value : Val}
    (took : takePosition entries value = some (index, entries')) :
    ∃ indices used, Assoc.get value entries = some (indices, used) ∧ indices[used]? = some index ∧
      Assoc.set value (indices, used + 1) entries = entries' := by
  unfold takePosition at took
  split at took
  · cases took
  · rename_i indices used found
    split at took
    · cases took
    · rename_i i next
      cases took
      exact ⟨indices, used, found, next, rfl⟩

theorem permutationOf_cons {value : Json Addr}
    (found : permutationOf entries (value :: after) = some order) :
    ∃ index entries' tail, takePosition entries value.val = some (index, entries') ∧
      permutationOf entries' after = some tail ∧ index :: tail = order := by
  unfold permutationOf at found
  split at found
  · cases found
  · rename_i index entries' took
    obtain ⟨tail, more, rfl⟩ := Option.map_eq_some_iff.mp found
    exact ⟨index, entries', tail, took, more, rfl⟩

theorem takePosition_perm {entries' : List (Val × List Nat × Nat)} {value : Val}
    (took : takePosition entries value = some (index, entries')) :
    (unused entries).Perm (index :: unused entries') := by
  obtain ⟨indices, used, found, next, rfl⟩ := takePosition_some took
  obtain ⟨before, after, rfl, replaced⟩ := Assoc.replace_of_get found (indices, used + 1)
  have inside := List.getElem?_eq_some_iff.mp next
  have present : Assoc.has value (before ++ (value, indices, used) :: after) = true := by
    rw [Assoc.has, found, isSome_some]
  rw [Assoc.set, if_pos present, replaced, unused, unused]
  simp only [flatMap_append, flatMap_cons]
  rw [drop_eq_getElem_cons inside.1, inside.2, cons_append]
  exact perm_middle

theorem permutationOf_perm (found : permutationOf entries after = some order) :
    ∃ rest, (unused entries).Perm (order ++ rest) ∧ order.length = after.length := by
  induction after generalizing entries order with
  | nil =>
    cases found
    exact ⟨unused entries, List.Perm.refl _, rfl⟩
  | cons value after ih =>
    obtain ⟨index, entries', tail, took, more, rfl⟩ := permutationOf_cons found
    obtain ⟨rest, perm, length⟩ := ih more
    refine ⟨rest, (takePosition_perm took).trans ?_, by rw [length_cons, length,
      length_cons]⟩
    exact perm.cons index

/-- All positions of the array, value by value. -/
theorem positionsLoop_perm (items : List (Json Addr)) (count index : Nat) (positions : Positions) :
    ((positionsLoop items count index positions).flatMap Prod.snd).Perm
      (positions.flatMap Prod.snd ++ List.range' index count) := by
  induction count generalizing index positions with
  | zero => simp [positionsLoop]
  | succ count ih =>
    unfold positionsLoop
    dsimp only
    refine (ih _ _).trans ?_
    have set : ((Assoc.set (item items index).val
        ((Assoc.get (item items index).val positions).getD [] ++ [index]) positions).flatMap
          Prod.snd).Perm (positions.flatMap Prod.snd ++ [index]) := by
      cases found : Assoc.get (item items index).val positions with
      | none =>
        have absent : Assoc.has (item items index).val positions = false := by
          rw [Assoc.has, found, isSome_none]
        rw [Assoc.set, if_neg (by rw [absent]; exact Bool.false_ne_true)]
        simp
      | some old =>
        have present : Assoc.has (item items index).val positions = true := by
          rw [Assoc.has, found, isSome_some]
        obtain ⟨front, back, shape, replaced⟩ := Assoc.replace_of_get found (old ++ [index])
        rw [Assoc.set, if_pos present, getD_some, replaced, shape]
        simp only [flatMap_append, flatMap_cons, append_assoc]
        refine List.Perm.append_left _ (List.Perm.append_left _ ?_)
        exact perm_append_comm
    rw [List.range'_succ, append_cons (positions.flatMap Prod.snd)]
    exact set.append_right _

/-- **The order found is a permutation of the positions.** -/
theorem permutation_perm (found : permutation before after = some order) :
    order.Perm (List.range order.length) ∧ order.length = after.length ∧
      before.length = after.length := by
  unfold permutation at found
  split_ifs at found with different
  obtain ⟨rest, perm, length⟩ := permutationOf_perm found
  have all : (unused ((positionsOf before 0 before.length).map fun e => (e.1, e.2, 0))).Perm
      (List.range before.length) := by
    rw [unused, flatMap_map]
    simp only [drop_zero]
    have loop := positionsLoop_perm before (before.length - 0) 0 []
    rw [flatMap_nil, nil_append, Nat.sub_zero, ← range_eq_range'] at loop
    exact loop
  have total := (perm.symm.trans all).length_eq
  rw [length_append, length_range, length] at total
  have none : rest = [] := List.length_eq_zero_iff.mp (by omega)
  subst none
  rw [append_nil] at perm
  refine ⟨?_, length, by omega⟩
  rw [length, ← not_not.mp different]
  exact perm.symm.trans all

/-- The positions of an entry hold its value. -/
def Stands (before : List (Json Addr)) (entries : List (Val × List Nat × Nat)) : Prop :=
  ∀ value indices used, Assoc.get value entries = some (indices, used) →
    ∀ i ∈ indices, i < before.length ∧ (item before i).val = value

theorem Stands.take {entries' : List (Val × List Nat × Nat)} {value : Val}
    (stands : Stands before entries) (took : takePosition entries value = some (index, entries')) :
    (index < before.length ∧ (item before index).val = value) ∧ Stands before entries' := by
  obtain ⟨indices, used, found, next, rfl⟩ := takePosition_some took
  have inside := stands value indices used found
  refine ⟨inside _ (mem_of_getElem? next), fun v is u got => ?_⟩
  rw [Assoc.get_set] at got
  split_ifs at got with same
  · cases got
    subst same
    exact inside
  · exact stands v is u got

theorem permutationOf_items (stands : Stands before entries)
    (found : permutationOf entries after = some order) :
    (∀ i ∈ order, i < before.length) ∧
      order.map (fun i => (item before i).val) = after.map val := by
  induction after generalizing entries order with
  | nil =>
    cases found
    exact ⟨fun _ member => (by cases member), rfl⟩
  | cons value after ih =>
    obtain ⟨index, entries', tail, took, more, rfl⟩ := permutationOf_cons found
    obtain ⟨here, stands'⟩ := stands.take took
    obtain ⟨inside, same⟩ := ih stands' more
    refine ⟨fun i member => ?_, by rw [map_cons, map_cons, here.2, same]⟩
    rcases List.mem_cons.mp member with rfl | later
    · exact here.1
    · exact inside i later

/-- **The order found takes the old items to the new ones**, by identity. -/
theorem permutation_items (found : permutation before after = some order) :
    (∀ i ∈ order, i < before.length) ∧
      order.map (fun i => (item before i).val) = after.map val := by
  unfold permutation at found
  split_ifs at found
  refine permutationOf_items (fun value indices used got => ?_) found
  rw [Assoc.get_mapValues (fun indices => (indices, 0))] at got
  obtain ⟨at_, located, same⟩ := Option.map_eq_some_iff.mp got
  obtain ⟨rfl, rfl⟩ := Prod.mk.inj same
  have bounds := (@located_positionsOf before _ _ (Nat.zero_le before.length) value at_ located).2
  exact fun i member => ⟨(bounds i member).2.1, (bounds i member).2.2⟩

end TianGong.Chord
