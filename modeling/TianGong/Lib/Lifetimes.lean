/-
**Lifetimes of scopes.**

A scope is work that may spread: tasks of it run here, peers that brought it may keep it open, it
takes hold of objects and reaches out to other peers. It is alive while a task of it runs here or a
peer keeps it open. When neither is left it ends: it lets go of its objects, and every peer it
reached is told, once.

* `life`: the life of a scope after the notes of a history, each note a thing that happened.
* `quiet`: a scope that is not alive has hold of nothing.
* `Life.waits`: the objects that someone began to wait for while the scope had hold of them, and
  which it still has not let go.
-/

import Mathlib.Data.List.Induction

set_option linter.unusedSectionVars false

namespace TianGong.Lib

/-- What happens to scopes. -/
inductive Note (S P O : Type) where
  /-- A task of a scope of our own begins. -/
  | began (scope : S)
  /-- A task of a scope begins that a peer brought. -/
  | arrived (scope : S) (peer : P)
  /-- A task of a scope settles. -/
  | settled (scope : S)
  /-- A peer lets go of a scope. -/
  | released (scope : S) (peer : P)
  /-- A peer is lost. -/
  | lost (peer : P)
  /-- A scope takes hold of an object. -/
  | touched (scope : S) (object : O)
  /-- A scope reaches a peer. -/
  | reached (scope : S) (peer : P)
  /-- Someone begins to wait for every scope that has hold of an object. -/
  | cut (object : O)
  /-- Nobody waits for an object any more. -/
  | opened (object : O)

/-- One scope. -/
structure Life (P O : Type) where
  /-- It began here: no peer keeps it open. -/
  own : Bool
  /-- Its tasks that have not settled. -/
  running : Nat
  /-- The peers that keep it open. -/
  holders : List P
  /-- The peers it reached. -/
  out : List P
  /-- The objects it has hold of. -/
  objects : List O
  /-- Of these, the ones someone waits for since before they were let go. -/
  waits : List O
  /-- The peers that were told of an end, once for each end. -/
  told : List P

namespace Life

variable {P O : Type}

/-- A scope that never began. -/
def unborn : Life P O := ⟨false, 0, [], [], [], [], []⟩

def Alive (l : Life P O) : Prop := 0 < l.running ∨ l.holders ≠ []

instance [DecidableEq P] (l : Life P O) : Decidable l.Alive :=
  inferInstanceAs (Decidable (0 < l.running ∨ l.holders ≠ []))

/-- A scope ends: it lets go of its objects, and the peers it reached are told. -/
def ended (l : Life P O) : Life P O :=
  { l with own := false, out := [], objects := [], waits := [], told := l.told ++ l.out }

variable [DecidableEq P] [DecidableEq O]

/-- A scope ends where nothing keeps it alive. -/
def finish (l : Life P O) : Life P O := if l.Alive then l else l.ended

/-- A peer lets go of a scope. -/
def release (l : Life P O) (peer : P) : Life P O :=
  if peer ∈ l.holders then { l with holders := l.holders.filter (· ≠ peer) }.finish else l

end Life

section Notes

variable {S P O : Type} [DecidableEq S] [DecidableEq P] [DecidableEq O]

/-- Adds to a set. -/
def insertOnce {A : Type} [DecidableEq A] (a : A) (set : List A) : List A :=
  if a ∈ set then set else set ++ [a]

/-- What a note says of one scope. -/
def Life.note (scope : S) (l : Life P O) : Note S P O → Life P O
  | .began s => if s = scope then { l with own := true, running := l.running + 1 } else l
  | .arrived s peer =>
    if s = scope then
      { l with
        running := l.running + 1
        holders := if l.own then l.holders else insertOnce peer l.holders }
    else l
  | .settled s => if s = scope then { l with running := l.running - 1 }.finish else l
  | .released s peer => if s = scope then l.release peer else l
  | .lost peer => { l with out := l.out.filter (· ≠ peer) }.release peer
  | .touched s object =>
    if s = scope ∧ l.Alive then { l with objects := insertOnce object l.objects } else l
  | .reached s peer => if s = scope ∧ l.Alive then { l with out := insertOnce peer l.out } else l
  | .cut object => if object ∈ l.objects then { l with waits := insertOnce object l.waits } else l
  | .opened object => { l with waits := l.waits.filter (· ≠ object) }

/-- The life of a scope after a history. -/
def life (notes : List (Note S P O)) (scope : S) : Life P O :=
  notes.foldl (Life.note scope) Life.unborn

@[simp] theorem mem_insertOnce {A : Type} [DecidableEq A] {a b : A} {set : List A} :
    b ∈ insertOnce a set ↔ b = a ∨ b ∈ set := by
  unfold insertOnce
  split_ifs with there
  · exact ⟨.inr, fun is => is.elim (fun same => same ▸ there) id⟩
  · rw [List.mem_append, List.mem_singleton, or_comm]

theorem insertOnce_ne_nil {A : Type} [DecidableEq A] (a : A) (set : List A) :
    insertOnce a set ≠ [] :=
  List.ne_nil_of_mem (mem_insertOnce.mpr (.inl rfl))

end Notes

namespace Life

variable {S P O : Type} [DecidableEq S] [DecidableEq P] [DecidableEq O]

/-- A scope that is not alive has hold of nothing, and one waits only for what scopes hold. -/
structure Quiet (l : Life P O) : Prop where
  own : ¬ l.Alive → l.own = false
  out : ¬ l.Alive → l.out = []
  objects : ¬ l.Alive → l.objects = []
  waits : ∀ object ∈ l.waits, object ∈ l.objects

theorem quiet_unborn : (unborn : Life P O).Quiet :=
  ⟨fun _ => rfl, fun _ => rfl, fun _ => rfl, fun _ member => member⟩

variable {l : Life P O}

theorem quiet_finish (waits : ∀ object ∈ l.waits, object ∈ l.objects) : l.finish.Quiet := by
  unfold finish
  split_ifs with alive
  · exact ⟨fun not => absurd alive not, fun not => absurd alive not, fun not => absurd alive not,
      waits⟩
  · exact ⟨fun _ => rfl, fun _ => rfl, fun _ => rfl, fun _ member => member⟩

theorem quiet_release (quiet : l.Quiet) (peer : P) : (l.release peer).Quiet := by
  unfold release
  split_ifs
  · exact quiet_finish quiet.waits
  · exact quiet

/-- A live scope is quiet. -/
theorem quiet_of_alive (alive : l.Alive) (waits : ∀ object ∈ l.waits, object ∈ l.objects) :
    l.Quiet :=
  ⟨fun not => absurd alive not, fun not => absurd alive not, fun not => absurd alive not, waits⟩

theorem quiet_note (scope : S) (quiet : l.Quiet) (note : Note S P O) :
    (Life.note scope l note).Quiet := by
  cases note with
  | began s =>
    dsimp only [Life.note]
    split_ifs
    · exact quiet_of_alive (.inl (Nat.succ_pos _)) quiet.waits
    · exact quiet
  | arrived s peer =>
    dsimp only [Life.note]
    split_ifs
    · exact quiet_of_alive (.inl (Nat.succ_pos _)) quiet.waits
    · exact quiet_of_alive (.inl (Nat.succ_pos _)) quiet.waits
    · exact quiet
  | settled s =>
    dsimp only [Life.note]
    split_ifs
    · exact quiet_finish quiet.waits
    · exact quiet
  | released s peer =>
    dsimp only [Life.note]
    split_ifs
    · exact quiet_release quiet peer
    · exact quiet
  | lost peer =>
    have small : ({ l with out := l.out.filter (· ≠ peer) } : Life P O).Quiet := by
      refine ⟨quiet.own, fun dead => ?_, quiet.objects, quiet.waits⟩
      show l.out.filter _ = []
      rw [quiet.out dead, List.filter_nil]
    exact quiet_release small peer
  | touched s object =>
    dsimp only [Life.note]
    split_ifs with is
    · exact quiet_of_alive is.2 fun o member => mem_insertOnce.mpr (.inr (quiet.waits o member))
    · exact quiet
  | reached s peer =>
    dsimp only [Life.note]
    split_ifs with is
    · exact quiet_of_alive is.2 quiet.waits
    · exact quiet
  | cut object =>
    dsimp only [Life.note]
    split_ifs with held
    · refine ⟨quiet.own, quiet.out, quiet.objects, fun o member => ?_⟩
      rcases mem_insertOnce.mp member with rfl | before
      · exact held
      · exact quiet.waits o before
    · exact quiet
  | opened object =>
    exact ⟨quiet.own, quiet.out, quiet.objects,
      fun o member => quiet.waits o (List.mem_filter.mp member).1⟩

/-- A scope that is not alive comes to life only where a task of it begins. -/
theorem dead_note {scope : S} (dead : ¬ l.Alive) {note : Note S P O} (began : note ≠ .began scope)
    (arrived : ∀ peer, note ≠ .arrived scope peer) : ¬ (Life.note scope l note).Alive := by
  have running : l.running = 0 := Nat.eq_zero_of_not_pos fun runs => dead (.inl runs)
  have holders : l.holders = [] := not_not.mp fun holds => dead (.inr holds)
  cases note with
  | began s =>
    have other : s ≠ scope := fun is => began (is ▸ rfl)
    rwa [Life.note, if_neg other]
  | arrived s peer =>
    have other : s ≠ scope := fun is => arrived peer (is ▸ rfl)
    rwa [Life.note, if_neg other]
  | settled s =>
    have still : ¬ ({ l with running := l.running - 1 } : Life P O).Alive := by
      rintro (runs | holds)
      · rw [running] at runs
        exact absurd runs (Nat.not_lt_zero _)
      · exact holds holders
    rw [Life.note, finish, if_neg still]
    split_ifs
    · exact still
    · exact dead
  | released s peer =>
    rw [Life.note, release, holders, if_neg List.not_mem_nil, ite_self]
    exact dead
  | lost peer =>
    have absent : peer ∉ l.holders := by
      rw [holders]
      exact List.not_mem_nil
    dsimp only [Life.note, release]
    rw [if_neg absent]
    exact dead
  | touched s object | reached s peer => rwa [Life.note, if_neg fun is => dead is.2]
  | cut object =>
    dsimp only [Life.note]
    split_ifs
    · exact dead
    · exact dead
  | opened object => exact dead

end Life

variable {S P O : Type} [DecidableEq S] [DecidableEq P] [DecidableEq O]

end TianGong.Lib
