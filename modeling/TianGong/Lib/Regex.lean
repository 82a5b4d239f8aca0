/-
**Regular expressions that are tested.**

A place in a text is the unit before it and the text after it. `ends` are the places a match can end at,
from a place, and `test` is whether there is a match anywhere. Nothing is captured, so the order in
which matches are found does not matter.

* `holdsAt_one_seq`, `holdsAt_star_seq`: a class, or a run of one, and then something else.
* `test_start_seq`: a test that is anchored at the start.
-/

import Mathlib.Data.List.Basic

namespace TianGong.Lib

inductive Regex (α : Type) where
  /-- One unit of a class. -/
  | one (among : α → Bool)
  | empty
  | seq (first second : Regex α)
  | alt (left right : Regex α)
  | star (r : Regex α)
  /-- An edge between units of a class and others. -/
  | edge (among : α → Bool)
  /-- The start of the text. -/
  | start
  /-- The end of the text. -/
  | stop

namespace Regex

variable {α : Type}

/-- A place: the unit before it, if any, and what follows. -/
abbrev Place (α : Type) := Option α × List α

/-- The places that some rounds of a step reach, each round with progress. -/
def rounds (step : Place α → List (Place α)) : Nat → Place α → List (Place α)
  | 0, place => [place]
  | fuel + 1, place =>
    place :: ((step place).filter fun next => next.2.length < place.2.length).flatMap (rounds step fuel)

/-- The places a match ends at. -/
def ends : Regex α → Place α → List (Place α)
  | one among, (_, rest) =>
    match rest with
    | [] => []
    | c :: rest => if among c then [(some c, rest)] else []
  | empty, place => [place]
  | seq first second, place => (first.ends place).flatMap second.ends
  | alt left right, place => left.ends place ++ right.ends place
  | star r, place => rounds r.ends place.2.length place
  | edge among, (before, rest) =>
    if before.any among != rest.head?.any among then [(before, rest)] else []
  | start, (before, rest) => if before.isNone then [(before, rest)] else []
  | stop, (before, rest) => if rest.isEmpty then [(before, rest)] else []

/-- Whether a match starts at a place or behind it. -/
def testFrom (r : Regex α) : Option α → List α → Bool
  | before, [] => !(r.ends (before, [])).isEmpty
  | before, c :: rest => !(r.ends (before, c :: rest)).isEmpty || testFrom r (some c) rest

/-- `r.test(t)`. -/
def test (r : Regex α) (t : List α) : Bool := r.testFrom none t

/-! ### Derived forms -/

def opt (r : Regex α) : Regex α := alt r empty

def plus (r : Regex α) : Regex α := seq r (star r)

/-- At most so many rounds. -/
def upTo : Nat → Regex α → Regex α
  | 0, _ => empty
  | n + 1, r => opt (seq r (upTo n r))

def all (parts : List (Regex α)) : Regex α := parts.foldr seq empty

def oneOf : List (Regex α) → Regex α
  | [] => one fun _ => false
  | [r] => r
  | r :: rest => alt r (oneOf rest)

/-- The units of a text, one after another. -/
def spelled [BEq α] (t : List α) : Regex α := all (t.map fun c => one (· == c))

/-- A class is widened everywhere. -/
def widen (wider : (α → Bool) → α → Bool) : Regex α → Regex α
  | one among => one (wider among)
  | empty => empty
  | seq first second => seq (widen wider first) (widen wider second)
  | alt left right => alt (widen wider left) (widen wider right)
  | star r => star (widen wider r)
  | edge among => edge among
  | start => start
  | stop => stop

example : (seq (one (· == 'a')) (star (one (· == 'b')))).test ['c', 'a', 'b'] = true := by decide

/-! ### Anchored expressions -/

/-- Whether a match starts at a place. -/
def holdsAt (r : Regex α) (place : Place α) : Bool := !(r.ends place).isEmpty

section Anchored

variable (among : α → Bool) (r : Regex α) (before : Option α) (c : α) (rest : List α)

theorem holdsAt_one_seq :
    (seq (one among) r).holdsAt (before, c :: rest) = (among c && r.holdsAt (some c, rest)) := by
  unfold holdsAt
  cases inside : among c <;> simp [ends, inside]

theorem holdsAt_star_seq_nil :
    (seq (star (one among)) r).holdsAt (before, []) = r.holdsAt (before, []) := by
  unfold holdsAt
  simp [ends, rounds]

theorem ends_star_cons : (star (one among)).ends (before, c :: rest) =
    (before, c :: rest) :: if among c then (star (one among)).ends (some c, rest) else [] := by
  rw [ends, List.length_cons, rounds]
  cases inside : among c <;> simp [ends, inside]

/-- **A run of a class is empty, or goes on by one unit.** -/
theorem holdsAt_star_seq : (seq (star (one among)) r).holdsAt (before, c :: rest) =
    (r.holdsAt (before, c :: rest) ||
      (among c && (seq (star (one among)) r).holdsAt (some c, rest))) := by
  unfold holdsAt
  have parts (first second : List (Place α)) :
      (!(first ++ second).isEmpty) = (!first.isEmpty || !second.isEmpty) := by
    cases first <;> rfl
  rw [ends, ends_star_cons, List.flatMap_cons, parts]
  cases inside : among c with
  | false => rfl
  | true =>
    rw [Bool.true_and, if_pos rfl]
    rfl

theorem holdsAt_stop (place : Place α) : (stop : Regex α).holdsAt place = place.2.isEmpty := by
  obtain ⟨before, rest⟩ := place
  cases rest <;> rfl

/-- **An anchored test looks at the start of the text only.** -/
theorem test_start_seq (t : List α) : (seq start r).test t = r.holdsAt (none, t) := by
  have later : ∀ (d : α) (rest : List α), (seq start r).testFrom (some d) rest = false := by
    intro d rest
    induction rest generalizing d with
    | nil => rfl
    | cons e rest ih =>
      rw [testFrom, ih]
      rfl
  have here : (seq start r).ends (none, t) = r.ends (none, t) := List.append_nil _
  unfold test holdsAt
  cases t with
  | nil => rw [testFrom, here]
  | cons d rest => rw [testFrom, later, here, Bool.or_false]

end Anchored

end Regex

end TianGong.Lib
