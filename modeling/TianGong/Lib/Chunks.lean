/-
**A reader of items from a stream that arrives in chunks.**

A machine keeps what it has not read yet, and after each chunk reads items until what it has is not
enough for one, or until it stops. What an item is must be settled by the bytes it takes.

* `Settles`, `Reader`: reads an item from the front, or refuses for good, or waits for more.
-/

import Mathlib.Data.List.Basic

namespace TianGong.Chunks

/-- What a reader makes of the front of some bytes. -/
inductive Read (B E R : Type) where
  /-- There is not enough for an item. -/
  | more
  /-- The bytes are refused, whatever follows. -/
  | stop (r : R)
  | item (e : E) (rest : List B)

/-- What is read of some bytes, of at most `size` in number, against what is read with more behind
them: a refusal and an item stay. -/
inductive Settles {B E R : Type} (size : Nat) (more : List B) :
    Read B E R → Read B E R → Prop
  | more {read : Read B E R} : Settles size more .more read
  | stop (r : R) : Settles size more (.stop r) (.stop r)
  | item (e : E) {rest : List B} (shorter : rest.length < size) :
      Settles size more (.item e rest) (.item e (rest ++ more))

/-- A reader whose answers are settled by the bytes it has seen. -/
structure Reader (B E R : Type) where
  read : List B → Read B E R
  settles : ∀ p more, Settles p.length more (read p) (read (p ++ more))

namespace Reader

variable {B E R : Type} (reader : Reader B E R) {p rest : List B} {e : E} {r : R}

theorem shorter (read : reader.read p = .item e rest) : rest.length < p.length := by
  have settles := reader.settles p []
  rw [read] at settles
  generalize reader.read (p ++ []) = read' at settles
  cases settles
  assumption

theorem item_append (read : reader.read p = .item e rest) (more : List B) :
    reader.read (p ++ more) = .item e (rest ++ more) := by
  have settles := reader.settles p more
  rw [read] at settles
  generalize reader.read (p ++ more) = read' at settles ⊢
  cases settles
  rfl

theorem stop_append (read : reader.read p = .stop r) (more : List B) :
    reader.read (p ++ more) = .stop r := by
  have settles := reader.settles p more
  rw [read] at settles
  generalize reader.read (p ++ more) = read' at settles ⊢
  cases settles
  rfl

end Reader

/-- A machine that handles the items of a reader until it is done; what is refused ends it. -/
structure Machine (B E R S : Type) where
  reader : Reader B E R
  handle : S → E → S
  refuse : S → R → S
  done : S → Bool
  done_refuse : ∀ s r, done (refuse s r) = true

variable {B E R S : Type} (m : Machine B E R S)

variable {x : S × List B}

namespace Machine

/-- Items are read until there is not enough for one, or the machine is done. -/
def drain : Nat → S × List B → S × List B
  | 0, x => x
  | fuel + 1, (s, p) =>
    match m.reader.read p with
    | .more => (s, p)
    | .stop r => (m.refuse s r, p)
    | .item e rest =>
      if m.done (m.handle s e) then (m.handle s e, rest) else drain fuel (m.handle s e, rest)

/-- A chunk arrives. -/
def feed (x : S × List B) (chunk : List B) : S × List B :=
  if m.done x.1 then x else m.drain ((x.2 ++ chunk).length + 1) (x.1, x.2 ++ chunk)

/-- **Machines stand alike**: in the same state, and with the same bytes left unless they are
done. -/
def Alike (x y : S × List B) : Prop := x.1 = y.1 ∧ (m.done x.1 = true ∨ x.2 = y.2)

variable {m}

theorem Alike.refl (x : S × List B) : m.Alike x x := ⟨rfl, .inr rfl⟩

theorem Alike.trans {y z : S × List B} (first : m.Alike x y) (second : m.Alike y z) :
    m.Alike x z := by
  refine ⟨first.1.trans second.1, ?_⟩
  rcases first.2 with stopped | same
  · exact .inl stopped
  · rw [first.1]
    exact second.2.imp_right same.trans

/-- With enough fuel for the bytes, more of it makes no difference. -/
theorem drain_fuel {fuel : Nat} {s : S} {p : List B} (enough : p.length < fuel) (more : Nat) :
    m.drain (fuel + more) (s, p) = m.drain fuel (s, p) := by
  induction fuel generalizing s p with
  | zero => exact absurd enough (Nat.not_lt_zero _)
  | succ fuel ih =>
    rw [Nat.add_right_comm, drain, drain]
    split
    · rfl
    · rfl
    · rename_i e rest read
      rw [ih (Nat.lt_of_lt_of_le (m.reader.shorter read) (Nat.le_of_lt_succ enough))]

theorem drain_fuel_eq {fuel fuel' : Nat} {s : S} {p : List B} (enough : p.length < fuel)
    (enough' : p.length < fuel') : m.drain fuel (s, p) = m.drain fuel' (s, p) := by
  rcases Nat.le_total fuel fuel' with less | less
  · obtain ⟨more, rfl⟩ := Nat.exists_eq_add_of_le less
    exact (drain_fuel enough more).symm
  · obtain ⟨more, rfl⟩ := Nat.exists_eq_add_of_le less
    exact drain_fuel enough' more

/-- **Reading can be interrupted**: what is left is read on when more has come. -/
theorem drain_append {fuel fuel' fuel'' : Nat} {s : S} {p more : List B}
    (going : m.done s = false) (enough : p.length < fuel)
    (enough' : ((m.drain fuel (s, p)).2 ++ more).length < fuel')
    (enough'' : (p ++ more).length < fuel'') :
    m.Alike (if m.done (m.drain fuel (s, p)).1 then m.drain fuel (s, p)
        else m.drain fuel' ((m.drain fuel (s, p)).1, (m.drain fuel (s, p)).2 ++ more))
      (m.drain fuel'' (s, p ++ more)) := by
  induction fuel generalizing s p fuel'' with
  | zero => exact absurd enough (Nat.not_lt_zero _)
  | succ fuel ih =>
    cases fuel'' with
    | zero => exact absurd enough'' (Nat.not_lt_zero _)
    | succ fuel'' =>
      rw [drain] at enough' ⊢
      cases read : m.reader.read p with
      | more =>
        simp only [read] at enough' ⊢
        rw [going, if_neg Bool.false_ne_true, drain_fuel_eq enough' enough'']
        exact .refl _
      | stop r =>
        simp only [read] at enough' ⊢
        rw [drain, m.reader.stop_append read more]
        have done := m.done_refuse s r
        rw [if_pos done]
        exact ⟨rfl, .inl done⟩
      | item e rest =>
        simp only [read] at enough' ⊢
        rw [drain, m.reader.item_append read more]
        by_cases done : m.done (m.handle s e)
        · simp only [done, if_true]
          exact ⟨rfl, .inl done⟩
        · rw [Bool.not_eq_true] at done
          simp only [done] at enough' ⊢
          have shorter := m.reader.shorter read
          simp only [List.length_append] at enough''
          exact ih done (by omega) enough' (by rw [List.length_append]; omega)

/-- **Two chunks are one.** -/
theorem feed_feed (x : S × List B) (a b : List B) :
    m.Alike (m.feed (m.feed x a) b) (m.feed x (a ++ b)) := by
  obtain ⟨s, p⟩ := x
  by_cases done : m.done s = true
  · unfold feed
    simp only [done, if_true]
    exact .refl _
  · rw [Bool.not_eq_true] at done
    unfold feed
    simp only [done, Bool.false_eq_true, if_false]
    rw [← List.append_assoc]
    exact drain_append done (Nat.lt_succ_self _) (Nat.lt_succ_self _) (Nat.lt_succ_self _)

/-- There is nothing to read on. -/
def Settled (m : Machine B E R S) (x : S × List B) : Prop :=
  m.done x.1 = true ∨ m.reader.read x.2 = .more

theorem Settled.drain {s : S} {p : List B} {fuel : Nat} (enough : p.length < fuel) :
    m.Settled (m.drain fuel (s, p)) := by
  induction fuel generalizing s p with
  | zero => exact absurd enough (Nat.not_lt_zero _)
  | succ fuel ih =>
    rw [Machine.drain]
    cases read : m.reader.read p with
    | more => exact .inr read
    | stop r => exact .inl (m.done_refuse s r)
    | item e rest =>
      dsimp only
      split_ifs with done
      · exact .inl done
      · exact ih (Nat.lt_of_lt_of_le (m.reader.shorter read) (Nat.le_of_lt_succ enough))

theorem Settled.feed (chunk : List B) : m.Settled (m.feed x chunk) := by
  unfold Machine.feed
  split_ifs with done
  · exact .inl done
  · exact .drain (Nat.lt_succ_self _)

theorem Settled.feed_nil (settled : m.Settled x) : m.feed x [] = x := by
  unfold Machine.feed
  rcases settled with done | read
  · rw [if_pos done]
  · rw [List.append_nil, Machine.drain, read, ite_self]

/-- **Chunks can be joined.** -/
theorem feeds_alike (settled : m.Settled x) (chunks : List (List B)) :
    m.Alike (chunks.foldl m.feed x) (m.feed x chunks.flatten) := by
  induction chunks generalizing x with
  | nil =>
    rw [List.flatten_nil, settled.feed_nil]
    exact .refl x
  | cons chunk chunks ih =>
    exact (ih (.feed chunk)).trans (feed_feed x chunk chunks.flatten)

end Machine

end TianGong.Chunks
