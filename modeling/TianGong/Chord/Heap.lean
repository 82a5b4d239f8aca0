/-
**Values in the heap.**

The source's values are references to mutable containers. A `Heap` is the list of its containers; an
address is a position in it, allocation appends, and nothing is ever freed. `Holds h j` says that
the heap `h` holds the tree `j`, whose labels are the addresses of its containers.

Mutation is safe by ownership. `Owns E h live` says that every live tree is held, and that a container
whose address satisfies `E` occurs **at most once** in all of them together: writing to it changes one
place of one tree. The private copy of `apply` owns everything; a copy-on-write replay owns the
containers it has copied.

* `Owns.edit`: writing an owned container edits the tree there, and nothing else.
-/

import TianGong.Chord.Tree

namespace TianGong

open List

namespace Chord

open TianGong.Lib

/-! ### The heap -/

/-- The identity of a container. -/
abbrev Addr := Nat

/-- A value of the source: a primitive, or a reference to a container. -/
inductive Val where
  | null
  | bool (b : Bool)
  | number (n : JsNumber)
  | string (s : Text)
  | ref (a : Addr)
  deriving DecidableEq

instance : HasString Val where
  string := .string
  asString
    | .string s => some s
    | _ => none
  asString_string _ := rfl

abbrev Heap := List (Node Val)

/-- The container a value refers to. -/
def Heap.node (h : Heap) : Val → Option (Node Val)
  | .ref a => h[a]?
  | _ => none

end Chord

variable {h : Heap} {j : Json Addr} (a : Addr)

namespace Json

open Chord

/-! ### Trees in the heap -/

/-- The value of a tree's root. -/
def val : Json Addr → Val
  | .null => .null
  | .bool b => .bool b
  | .number n => .number n
  | .string s => .string s
  | .array a _ => .ref a
  | .object a _ => .ref a

mutual
/-- The heap cells a tree takes. -/
def cells : Json Addr → List (Addr × Node Val)
  | .array a items => (a, .array (items.map val)) :: cellsItems items
  | .object a fields => (a, .object (fields.map fun e => (e.1, val e.2))) :: cellsFields fields
  | _ => []

def cellsItems : List (Json Addr) → List (Addr × Node Val)
  | [] => []
  | x :: xs => cells x ++ cellsItems xs

def cellsFields : List (Text × Json Addr) → List (Addr × Node Val)
  | [] => []
  | (_, x) :: xs => cells x ++ cellsFields xs
end

theorem cellsItems_eq (items : List (Json Addr)) : cellsItems items = items.flatMap cells := by
  induction items with
  | nil => rfl
  | cons x xs ih => rw [cellsItems, ih, flatMap_cons]

theorem cellsFields_eq (fields : List (Text × Json Addr)) :
    cellsFields fields = (fields.map Prod.snd).flatMap cells := by
  induction fields with
  | nil => rfl
  | cons e es ih =>
    obtain ⟨k, x⟩ := e
    rw [cellsFields, ih, map_cons, flatMap_cons]

theorem cells_build (n : Node (Json Addr)) :
    cells (build a n) = (a, n.map val) :: n.parts.flatMap cells := by
  cases n with
  | array items => rw [build, cells, cellsItems_eq]; rfl
  | object fields => rw [build, cells, cellsFields_eq]; rfl

@[simp] theorem val_build (n : Node (Json Addr)) : (build a n).val = .ref a := by
  cases n <;> rfl

theorem keepsString_val : KeepsString val where
  string _ := rfl
  asString j := by cases j <;> rfl

/-- How often an address occurs in a tree. -/
def occ (a : Addr) (j : Json Addr) : Nat := ((cells j).map Prod.fst).count a

theorem count_flatMap_cells (parts : List (Json Addr)) :
    ((parts.flatMap cells).map Prod.fst).count a = (parts.map (occ a)).sum := by
  induction parts with
  | nil => rfl
  | cons x xs ih =>
    rw [flatMap_cons, map_append, count_append, ih, map_cons, sum_cons, occ]

theorem occ_build (b : Addr) (n : Node (Json Addr)) :
    occ a (build b n) = (if b = a then 1 else 0) + n.weight (occ a) := by
  rw [occ, cells_build, map_cons, count_cons, count_flatMap_cells, Node.weight, Nat.add_comm]
  simp only [beq_iff_eq]

/-- The heap holds the tree. -/
def Held (h : Heap) (j : Json Addr) : Prop := ∀ c ∈ cells j, h[c.1]? = some c.2

theorem held_build {a : Addr} {n : Node (Json Addr)} :
    Held h (build a n) ↔ h[a]? = some (n.map val) ∧ ∀ x ∈ n.parts, Held h x := by
  simp only [Held, cells_build, mem_cons, forall_eq_or_imp, mem_flatMap]
  refine and_congr_right fun _ => ⟨fun all x member c inside => all c ⟨x, member, inside⟩, ?_⟩
  rintro all c ⟨x, member, inside⟩
  exact all x member c inside

theorem held_string (h : Heap) (s : Text) : Held h (.string s) := by
  simp [Held, cells]

theorem occ_string (s : Text) : occ a (.string s) = 0 := rfl

theorem node_of_held (held : Held h j) : h.node j.val = j.node.map (Node.map val) := by
  cases parts : j.node with
  | none => cases j <;> first | rfl | cases parts
  | some n =>
    obtain ⟨a, rfl⟩ := build_of_node parts
    rw [val_build]
    exact (held_build.mp held).1

theorem lt_of_occ (held : Held h j) {a : Addr} (occurs : occ a j ≠ 0) : a < h.length := by
  have inside : a ∈ (cells j).map Prod.fst := List.count_pos_iff.mp (Nat.pos_of_ne_zero occurs)
  obtain ⟨c, member, rfl⟩ := List.mem_map.mp inside
  exact (List.getElem?_eq_some_iff.mp (held c member)).1

theorem occ_eq_zero_of_le (held : Held h j) {a : Addr} (beyond : h.length ≤ a) : occ a j = 0 := by
  by_contra occurs
  exact absurd (lt_of_occ held occurs) (Nat.not_lt.mpr beyond)

theorem Held.append (held : Held h j) (more : Heap) : Held (h ++ more) j := by
  intro c member
  have found := held c member
  rw [List.getElem?_append_left (List.getElem?_eq_some_iff.mp found).1]
  exact found

/-- A write elsewhere is not seen. -/
theorem Held.set (held : Held h j) {a : Addr} (absent : occ a j = 0) (n : Node Val) :
    Held (h.set a n) j := by
  intro c member
  have other : a ≠ c.1 := by
    rintro rfl
    exact List.count_eq_zero.mp absent (mem_map_of_mem member)
  rw [List.getElem?_set_ne other]
  exact held c member

end Json

variable {x : Json Addr}

namespace Chord

open TianGong.Json

/-! ### Weights -/

variable {V : Type}

theorem weight_eq_zero {weight : V → Nat} {xs : List V} (zero : (xs.map weight).sum = 0) {x : V}
    (member : x ∈ xs) : weight x = 0 :=
  List.sum_eq_zero_iff_forall_eq_nat.mp zero _ (mem_map_of_mem member)

theorem weight_part {weight : V → Nat} {n : Node V} (zero : n.weight weight = 0) {x : V}
    (member : x ∈ n.parts) : weight x = 0 := weight_eq_zero zero member

/-! ### Replacing below a path -/

theorem val_replaceAt (found : j.getAt path = some x) {x' : Json Addr} (same : x'.val = x.val) :
    (j.replaceAt path x').val = j.val := by
  cases path with
  | nil =>
    cases found
    exact same
  | cons segment rest =>
    obtain ⟨id, n, c, before, after, n', rfl, _, _, _, _, _, replaced⟩ := getAt_cons found x'
    rw [replaced, val_build, val_build]

theorem occ_replaceAt (found : j.getAt path = some x) (x' : Json Addr) :
    occ a (j.replaceAt path x') + occ a x = occ a j + occ a x' := by
  induction path generalizing j with
  | nil =>
    cases found
    exact Nat.add_comm _ _
  | cons segment rest ih =>
    obtain ⟨id, n, c, before, after, n', rfl, _, below, old, new, _, replaced⟩ :=
      getAt_cons found x'
    have inner := ih below
    simp only [replaced, occ_build, Node.weight, old, new, map_append, map_cons,
      sum_append, sum_cons]
    omega

theorem occ_le_of_getAt (found : j.getAt path = some x) : occ a x ≤ occ a j := by
  have whole := occ_replaceAt a found .null
  have none : occ a .null = 0 := rfl
  omega

theorem held_getAt (held : Held h j) (found : j.getAt path = some x) : Held h x := by
  induction path generalizing j with
  | nil =>
    cases found
    exact held
  | cons segment rest ih =>
    obtain ⟨id, n, c, before, after, _, rfl, _, below, old, _⟩ := getAt_cons found .null
    refine ih ((held_build.mp held).2 c ?_) below
    rw [old]
    exact mem_append_right _ mem_cons_self

/-- **Writing a container that occurs once.** The heap then holds the tree with that container's
parts replaced. -/
theorem held_replaceAt {a : Addr} {n n' : Node (Json Addr)} (held : Held h j)
    (found : j.getAt path = some (build a n)) (once : occ a j ≤ 1)
    (parts : ∀ x ∈ n'.parts, Held h x ∧ occ a x = 0) :
    Held (h.set a (n'.map val)) (j.replaceAt path (build a n')) := by
  induction path generalizing j with
  | nil =>
    cases found
    have inside : a < h.length := (List.getElem?_eq_some_iff.mp (held_build.mp held).1).1
    refine held_build.mpr ⟨by rw [List.getElem?_set_self inside], fun x member => ?_⟩
    exact (parts x member).1.set (parts x member).2 _
  | cons segment rest ih =>
    obtain ⟨id, m, c, before, after, m', rfl, _, below, old, new, same, replaced⟩ :=
      getAt_cons found (build a n')
    obtain ⟨here, below_held⟩ := held_build.mp held
    have deep := occ_le_of_getAt a below
    rw [occ_build, if_pos rfl] at deep
    simp only [occ_build, Node.weight, old, map_append, map_cons, sum_append, sum_cons] at once
    -- The walk goes on below `id`, so the written container is another one.
    have other : id ≠ a := by
      rintro rfl
      rw [if_pos rfl] at once
      omega
    rw [if_neg other] at once
    have apart : ∀ x ∈ before ++ after, occ a x = 0 := by
      intro x member
      have sums : (before.map (occ a)).sum = 0 ∧ (after.map (occ a)).sum = 0 := by omega
      rcases List.mem_append.mp member with front | back
      · exact weight_eq_zero sums.1 front
      · exact weight_eq_zero sums.2 back
    rw [replaced, held_build, same val (val_replaceAt below (by rw [val_build, val_build])), new]
    refine ⟨by rw [List.getElem?_set_ne other.symm, here], fun x member => ?_⟩
    have kept : x ∈ before ++ after → Held (h.set a (n'.map val)) x := fun inside =>
      (below_held x (by rw [old]; grind)).set (apart x inside) _
    rcases List.mem_append.mp member with front | rest'
    · exact kept (mem_append_left _ front)
    · rcases mem_cons.mp rest' with rfl | back
      · exact ih (below_held c (by rw [old]; exact mem_append_right _ mem_cons_self))
          below (by omega)
      · exact kept (mem_append_right _ back)

/-! ### Ownership -/

/-- **Owned containers occur once.** Every live tree is held, and an owned address occurs at most
once in all of them together. -/
structure Owns (E : Addr → Prop) (h : Heap) (live : List (Json Addr)) : Prop where
  held : ∀ x ∈ live, Held h x
  once : ∀ a, E a → (live.map (occ a)).sum ≤ 1

namespace Owns

variable {E : Addr → Prop} {h : Heap} {j : Json Addr} {more rest : List (Json Addr)} {path : Path}
  {a b : Addr} {n n' m m' : Node (Json Addr)}

/-- The rule behind every write: `once` is what has to be shown of the new trees. -/
theorem write {E' : Addr → Prop} (owns : Owns E h (j :: more))
    (found : j.getAt path = some (build a n)) (own : E a) (kept : rest ⊆ more)
    (parts : ∀ x ∈ n'.parts, Held h x ∧ occ a x = 0)
    (once : ∀ e, E' e → occ e (j.replaceAt path (build a n')) + (rest.map (occ e)).sum ≤ 1) :
    Owns E' (h.set a (n'.map val)) (j.replaceAt path (build a n') :: rest) where
  held x member := by
    have total := owns.once a own
    have deep := occ_le_of_getAt a found
    rw [occ_build, if_pos rfl] at deep
    rw [map_cons, sum_cons] at total
    rcases mem_cons.mp member with rfl | later
    · exact held_replaceAt (owns.held j mem_cons_self) found (by omega) parts
    · have none : occ a x = 0 := List.sum_eq_zero_iff_forall_eq_nat.mp
        (by omega : (more.map (occ a)).sum = 0) _ (mem_map_of_mem (kept later))
      exact (owns.held x (mem_cons_of_mem _ (kept later))).set none _
  once e own' := by
    rw [map_cons, sum_cons]
    exact once e own'

/-- **Editing an owned container**: its new parts are old parts and used payloads, each once. -/
theorem edit {used : List (Json Addr)} (owns : Owns E h (j :: (used ++ rest)))
    (found : j.getAt path = some (build a n)) (own : E a) (parts : ∀ x ∈ n'.parts, Held h x)
    (light : ∀ e, E e → n'.weight (occ e) ≤ n.weight (occ e) + (used.map (occ e)).sum) :
    Owns E (h.set a (n'.map val)) (j.replaceAt path (build a n') :: rest) := by
  refine owns.write found own (subset_append_right used rest) (fun x member => ?_)
    fun e owned => ?_
  · refine ⟨parts x member, ?_⟩
    have total := owns.once a own
    have deep := occ_le_of_getAt a found
    have new := light a own
    rw [occ_build, if_pos rfl] at deep
    rw [map_cons, sum_cons, map_append, sum_append] at total
    exact weight_part (by omega) member
  · have total := owns.once e owned
    have change := occ_replaceAt e found (build a n')
    have new := light e owned
    rw [occ_build, occ_build] at change
    rw [map_cons, sum_cons, map_append, sum_append] at total
    omega

/-- The next address occurs nowhere yet. -/
theorem sum_occ_fresh (owns : Owns E h more) : (more.map (occ h.length)).sum = 0 := by
  simp only [List.sum_eq_zero_iff_forall_eq_nat, List.mem_map]
  rintro _ ⟨x, member, rfl⟩
  exact occ_eq_zero_of_le (owns.held x member) (Nat.le_refl _)

/-- **Copying the root**: the copy shares its parts, and is owned. -/
theorem copyRoot (owns : Owns E h (build a n :: rest)) :
    Owns (fun e => e = h.length ∨ E e) (h ++ [n.map val]) (build h.length n :: rest) where
  held x member := by
    rcases mem_cons.mp member with rfl | later
    · refine held_build.mpr ⟨by simp, fun y part => ?_⟩
      exact ((held_build.mp (owns.held _ mem_cons_self)).2 y part).append _
    · exact (owns.held x (mem_cons_of_mem _ later)).append _
  once e owned := by
    have absent := owns.sum_occ_fresh
    simp only [map_cons, sum_cons, occ_build] at absent ⊢
    by_cases next : h.length = e
    · subst next
      rw [if_pos rfl]
      omega
    · have total := owns.once e (owned.resolve_left (Ne.symm next))
      simp only [map_cons, sum_cons, occ_build] at total
      rw [if_neg next]
      omega

/-- **Copying a child of an owned container**: the copy shares its parts, takes the child's place,
and is owned. -/
theorem copyChild {segment : Seg} (owns : Owns E h (j :: rest))
    (found : j.getAt path = some (build a m)) (own : E a)
    (child : m.own segment = some (build b n))
    (written : m.write segment (build h.length n) = some m') :
    Owns (fun e => e = h.length ∨ E e) ((h ++ [n.map val]).set a (m'.map val))
      (j.replaceAt path (build a m') :: rest) := by
  obtain ⟨before, after, _, old, written', new, _⟩ := Node.write_own child (build h.length n)
  rw [written] at written'
  cases written'
  have whole := held_getAt (owns.held j mem_cons_self) found
  obtain ⟨here, below⟩ := held_build.mp whole
  have grown : Owns E (h ++ [n.map val]) (j :: rest) :=
    ⟨fun x member => (owns.held x member).append _, owns.once⟩
  have total := owns.once a own
  have deep := occ_le_of_getAt a found
  rw [occ_build, if_pos rfl] at deep
  rw [map_cons, sum_cons] at total
  have apart : ∀ x ∈ m.parts, occ a x = 0 := fun x => weight_part (by omega)
  refine grown.write found own (List.Subset.refl _) (fun x member => ?_) fun e owned => ?_
  · have kept : x ∈ m.parts → Held (h ++ [n.map val]) x ∧ occ a x = 0 := fun part =>
      ⟨(below x part).append _, apart x part⟩
    rw [new] at member
    rcases List.mem_append.mp member with front | more
    · exact kept (by rw [old]; exact mem_append_left _ front)
    · rcases mem_cons.mp more with rfl | back
      · have inside : build b n ∈ m.parts := by
          rw [old]
          exact mem_append_right _ mem_cons_self
        have none := apart _ inside
        have smaller : a < h.length := (List.getElem?_eq_some_iff.mp here).1
        rw [occ_build] at none
        refine ⟨held_build.mpr ⟨by simp, fun y part => ?_⟩, ?_⟩
        · exact ((held_build.mp (below _ inside)).2 y part).append _
        · rw [occ_build, if_neg smaller.ne']
          omega
      · exact kept (by rw [old]; exact mem_append_right _ (mem_cons_of_mem _ back))
  · have change := occ_replaceAt e found (build a m')
    have absent := owns.sum_occ_fresh
    rw [map_cons, sum_cons] at absent
    simp only [occ_build, Node.weight, old, new, map_append, map_cons, sum_append,
      sum_cons] at change
    by_cases next : h.length = e
    · subst next
      rw [if_pos rfl] at change
      omega
    · have least := owns.once e (owned.resolve_left (Ne.symm next))
      rw [if_neg next] at change
      rw [map_cons, sum_cons] at least
      omega

end Owns

end Chord

end TianGong
