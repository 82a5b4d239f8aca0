/-
**Texts that lost their pairs.**

A buffer that is cut inside a surrogate pair may store U+FFFD where the stream had half of the pair.
`Worn s r` says that `s` is `r` up to that. Sanitizing neither hides nor removes such a unit, so it
tells two worn texts apart.

* `worn_wellFormed`, `Worn.append`, `Worn.trans`: how worn texts arise.
* `aligned_suffix`, `aligned_prefix`: worn suffixes (or prefixes) of different lengths with the
  same sanitized text differ by control characters only.
-/

import TianGong.Output.Store

namespace TianGong.Output

open List
open Utf8 (encode decode EndsLead StartsTrail Splits)

/-- The unit stands for `v`, or is U+FFFD where `v` is a surrogate. -/
def WornUnit (u v : UInt16) : Prop := u = v ∨ u = 0xFFFD ∧ (isLead v || isTrail v) = true

/-- The text is `r`, except for surrogates that became U+FFFD. -/
def Worn (s r : Text) : Prop := List.Forall₂ WornUnit s r

theorem Worn.refl (r : Text) : Worn r r := List.forall₂_same.mpr fun _ _ => .inl rfl

theorem Worn.append {s r s' r' : Text} (first : Worn s r) (second : Worn s' r') :
    Worn (s ++ s') (r ++ r') :=
  rel_append first second

theorem Worn.trans {a b c : Text} (first : Worn a b) (second : Worn b c) : Worn a c := by
  induction first generalizing c with
  | nil => exact second
  | cons unit rest ih =>
    cases second with
    | cons unit' rest' =>
      refine .cons ?_ (ih rest')
      rcases unit with rfl | ⟨mark, lone⟩
      · exact unit'
      · rcases unit' with rfl | ⟨mark', lone'⟩
        · exact .inr ⟨mark, lone⟩
        · exact .inr ⟨mark, lone'⟩

theorem worn_markUnit (u : UInt16) : WornUnit (Utf8.markUnit u) u := by
  unfold Utf8.markUnit
  split_ifs with lone
  · exact .inr ⟨rfl, lone⟩
  · exact .inl rfl

/-- A well-formed copy is worn. -/
theorem worn_wellFormed (t : Text) : Worn (Utf8.wellFormed t) t := by
  induction t using Utf8.textInduction with
  | nil => exact .nil
  | single u =>
    rw [Utf8.wellFormed_single]
    exact .cons (worn_markUnit u) .nil
  | pair u v rest pair ih =>
    rw [Utf8.wellFormed_pair pair]
    exact .cons (.inl rfl) (.cons (.inl rfl) ih)
  | lone u v rest apart ih =>
    rw [Utf8.wellFormed_lone apart]
    exact .cons (worn_markUnit u) ih

/-- The parts of a worn text are worn. -/
theorem Worn.split {a c r : Text} (worn : Worn (a ++ c) r) :
    ∃ x y, r = x ++ y ∧ Worn a x ∧ Worn c y := by
  refine ⟨r.take a.length, r.drop a.length, (take_append_drop _ _).symm, ?_, ?_⟩
  · have front := forall₂_take a.length worn
    rwa [take_left] at front
  · have back := forall₂_drop a.length worn
    rwa [drop_left] at back

/-- A surrogate and U+FFFD are kept by sanitizing. -/
theorem WornUnit.keep {u v : UInt16} (worn : WornUnit u v) :
    INVALID_OUTPUT u = INVALID_OUTPUT v ∧ (INVALID_OUTPUT u = true → u = v) := by
  rcases worn with rfl | ⟨rfl, lone⟩
  · exact ⟨rfl, fun _ => rfl⟩
  · have keep : INVALID_OUTPUT v = false := by
      have bounds : 0xD800 ≤ v.toNat ∧ v.toNat ≤ 0xDFFF := by
        rcases Bool.or_eq_true_iff.mp lone with lead | trail
        · have := Utf8.lead_bounds lead
          omega
        · have := Utf8.trail_bounds trail
          omega
      simp only [INVALID_OUTPUT, Bool.or_eq_false_iff, Bool.and_eq_false_iff,
        decide_eq_false_iff_not, UInt16.le_iff_toNat_le, UInt16.reduceToNat]
      omega
    rw [keep]
    exact ⟨by decide, fun invalid => absurd invalid (by decide)⟩

theorem Worn.length_sanitize {s r : Text} (worn : Worn s r) :
    (sanitizeOutput s).length = (sanitizeOutput r).length := by
  induction worn with
  | nil => rfl
  | cons unit rest ih =>
    rw [sanitizeOutput, sanitizeOutput, filter_cons, filter_cons, unit.keep.1]
    split_ifs
    · rw [length_cons, length_cons]
      exact congrArg Nat.succ ih
    · exact ih

/-- **Two worn copies of one text with the same sanitized text are equal.** -/
theorem Worn.eq_of_sanitize {c d r : Text} (first : Worn c r) (second : Worn d r)
    (same : sanitizeOutput c = sanitizeOutput d) : c = d := by
  induction first generalizing d with
  | nil =>
    cases second
    rfl
  | @cons u v c r unit rest ih =>
    cases second with
    | @cons u' _ d _ unit' rest' =>
      rw [sanitizeOutput, sanitizeOutput, filter_cons, filter_cons, unit.keep.1,
        unit'.keep.1] at same
      by_cases keep : INVALID_OUTPUT v = true
      · simp only [keep, Bool.not_true, Bool.false_eq_true, if_false] at same
        rw [unit.keep.2 (unit.keep.1.trans keep), unit'.keep.2 (unit'.keep.1.trans keep),
          ih rest' same]
      · rw [Bool.not_eq_true] at keep
        simp only [keep, Bool.not_false, if_true] at same
        obtain ⟨head, tail⟩ := List.cons.inj same
        rw [head, ih rest' tail]

/-- Nothing of a worn text is left only when it is made of control characters, which do not wear. -/
theorem Worn.eq_of_sanitize_nil {a x : Text} (worn : Worn a x) (none : sanitizeOutput a = []) :
    a = x ∧ ∀ u ∈ x, INVALID_OUTPUT u = true := by
  induction worn with
  | nil => exact ⟨rfl, fun u member => by cases member⟩
  | @cons u v a x unit rest ih =>
    rw [sanitizeOutput, filter_cons] at none
    split_ifs at none with keep
    have invalid : INVALID_OUTPUT u = true := by simpa using keep
    obtain ⟨same, control⟩ := ih none
    refine ⟨by rw [unit.keep.2 invalid, same], fun w member => ?_⟩
    rcases List.mem_cons.mp member with rfl | later
    · exact unit.keep.1.symm.trans invalid
    · exact control w later

theorem sanitize_append (a b : Text) :
    sanitizeOutput (a ++ b) = sanitizeOutput a ++ sanitizeOutput b :=
  filter_append a b

/-- **Worn suffixes with the same sanitized text** differ by control characters in front. -/
theorem aligned_suffix {s t x r : Text} (long : Worn s (x ++ r)) (short : Worn t r)
    (same : sanitizeOutput s = sanitizeOutput t) :
    s = x ++ t ∧ ∀ u ∈ x, INVALID_OUTPUT u = true := by
  have cut : s = s.take x.length ++ s.drop x.length := (take_append_drop _ _).symm
  have front : Worn (s.take x.length) x := by
    have front := forall₂_take x.length long
    rwa [take_left] at front
  have back : Worn (s.drop x.length) r := by
    have back := forall₂_drop x.length long
    rwa [drop_left] at back
  rw [cut, sanitize_append] at same
  have lengths := congrArg List.length same
  rw [length_append, back.length_sanitize, short.length_sanitize] at lengths
  have none : sanitizeOutput (s.take x.length) = [] := List.length_eq_zero_iff.mp (by omega)
  rw [none, nil_append] at same
  obtain ⟨equal, control⟩ := front.eq_of_sanitize_nil none
  refine ⟨?_, control⟩
  rw [← back.eq_of_sanitize short same]
  exact cut.trans (congrArg (· ++ _) equal)

/-- **Worn prefixes with the same sanitized text** differ by control characters behind. -/
theorem aligned_prefix {s t x r : Text} (long : Worn s (r ++ x)) (short : Worn t r)
    (same : sanitizeOutput s = sanitizeOutput t) :
    s = t ++ x ∧ ∀ u ∈ x, INVALID_OUTPUT u = true := by
  have cut : s = s.take r.length ++ s.drop r.length := (take_append_drop _ _).symm
  have front : Worn (s.take r.length) r := by
    have front := forall₂_take r.length long
    rwa [take_left] at front
  have back : Worn (s.drop r.length) x := by
    have back := forall₂_drop r.length long
    rwa [drop_left] at back
  rw [cut, sanitize_append] at same
  have lengths := congrArg List.length same
  rw [length_append, front.length_sanitize, short.length_sanitize] at lengths
  have none : sanitizeOutput (s.drop r.length) = [] := List.length_eq_zero_iff.mp (by omega)
  rw [none, append_nil] at same
  obtain ⟨equal, control⟩ := back.eq_of_sanitize_nil none
  refine ⟨?_, control⟩
  rw [← front.eq_of_sanitize short same]
  exact cut.trans (congrArg (_ ++ ·) equal)

end TianGong.Output
