/-
Declarations of other names.

A declaration that is put in somewhere leaves all variants of other leaf names as they were,
and all that features come to on them. It could be felt in four ways, and the proof closes
them one by one. It takes a place of the sequence, so everything behind it moves on by one:
that changes no comparison. It may declare a member, and so end the inheritance of that
member: the walk asks for one member only, and that is the leaf name of the variant. It may
make a node for its scope: a scope without a node is read as one with an empty node. And it
may join a group of overloads: a group is of one leaf name.
-/
import Mathlib.Tactic.SplitIfs
import Overlay.Proofs.Interface.Renumbering

set_option autoImplicit false

namespace Overlay

open Feature (Operation Rearranges)
open Script (Item)

/-! ## One place more

The new place is taken by a declaration, which is no directive, so each directive is found again at
its place moved on. Order is kept, and with it all that a renumbering asks. -/

/-- The places from `n` on move on by one. -/
def makeRoom (n place : Nat) : Nat := if place < n then place else place + 1

/-- The places before stay, -/
theorem makeRoom_of_lt {n place : Nat} (h : place < n) : makeRoom n place = place := if_pos h

/-- and the others move on by one. -/
theorem makeRoom_of_le {n place : Nat} (h : n ≤ place) : makeRoom n place = place + 1 :=
  if_neg (Nat.not_lt.2 h)

/-- The order of places stays as it is. -/
theorem makeRoom_lt_iff {n i j : Nat} : makeRoom n i < makeRoom n j ↔ i < j := by
  unfold makeRoom
  split_ifs <;> omega

/-- What stood at a place stands at its new one. -/
theorem getElem?_makeRoom {α : Type} (as bs : List α) (a : α) (i : Nat) :
    (as ++ a :: bs)[makeRoom as.length i]? = (as ++ bs)[i]? := by
  rcases Nat.lt_or_ge i as.length with hi | hi
  · rw [makeRoom_of_lt hi, List.getElem?_append_left hi, List.getElem?_append_left hi]
  · have hnext : i + 1 - as.length = i - as.length + 1 := by omega
    rw [makeRoom_of_le hi, List.getElem?_append_right (by omega), List.getElem?_append_right hi,
      hnext, List.getElem?_cons_succ]

/-- A declaration that is put in rearranges the run: all directives keep their order. -/
theorem Feature.rearranges_makeRoom (as bs : List Operation) :
    Rearranges (makeRoom as.length) (as ++ bs) (as ++ .tick :: bs) := by
  refine ⟨?_, ?_, ?_, ?_⟩
  · intro i e hi
    rw [getElem?_makeRoom, hi]
  · intro j e hj
    rcases Nat.lt_trichotomy j as.length with hlt | rfl | hgt
    · refine ⟨j, ?_, makeRoom_of_lt hlt⟩
      rw [← hj, ← getElem?_makeRoom as bs .tick, makeRoom_of_lt hlt]
    · simp at hj
    · obtain ⟨i, rfl⟩ : ∃ i, j = i + 1 := ⟨j - 1, by omega⟩
      refine ⟨i, ?_, makeRoom_of_le (by omega)⟩
      rw [← hj, ← getElem?_makeRoom as bs .tick, makeRoom_of_le (by omega)]
  · intro i j e f _ _ _ _ hij
    exact makeRoom_lt_iff.2 hij
  · intro i j e _ _ _
    exact makeRoom_lt_iff

/-! ## One declaration more

What is carried over are the leaf names other than that of the new declaration. Of the graph these
see everything but the one member, and of the numbering all groups but those of the one name. -/

namespace Interface

/-- Under the other leaf names the same is registered, further on where it comes later. -/
theorem registered_insert (decl : Declaration) (xs ys : List Item) :
    (registered 0 (xs ++ .declaration decl :: ys)).filter (fun d => d.leaf ≠ decl.leaf)
      = ((registered 0 (xs ++ ys)).filter fun d => d.leaf ≠ decl.leaf).map
          (Declaration.moved (makeRoom (operations xs).length)) := by
  have hbefore : registered 0 xs
      = (registered 0 xs).map (Declaration.moved (makeRoom (operations xs).length)) :=
    registered_moved fun i hi => makeRoom_of_lt (by omega)
  have hbehind : registered ((operations xs).length + 1) ys
      = (registered (operations xs).length ys).map
          (Declaration.moved (makeRoom (operations xs).length)) :=
    registered_moved fun i _ => by rw [makeRoom_of_le (by omega)]; omega
  have hleaf : ∀ ds : List Declaration,
      (ds.map (Declaration.moved (makeRoom (operations xs).length))).filter
          (fun d => d.leaf ≠ decl.leaf)
        = (ds.filter fun d => d.leaf ≠ decl.leaf).map
            (Declaration.moved (makeRoom (operations xs).length)) :=
    fun ds => List.filter_map
  have hgone : ¬ (decl.positioned (some (operations xs).length)).leaf ≠ decl.leaf :=
    fun h => h rfl
  rw [← hleaf, registered_append, registered_append, List.map_append, Nat.zero_add,
    ← hbefore, ← hbehind]
  show (registered 0 xs ++ decl.positioned (some (operations xs).length)
    :: registered ((operations xs).length + 1) ys).filter _ = _
  rw [List.filter_append, List.filter_append, List.filter_cons_of_neg (by simpa using hgone)]

/-- **One declaration more** carries over all that is seen of other leaf names. -/
theorem carries_insert (decl : Declaration) (xs ys : List Item) :
    InterfaceDraft.Carries (makeRoom (operations xs).length) (fun leaf => leaf ≠ decl.leaf)
      (InterfaceDraft.empty.pushAll (xs ++ ys))
      (InterfaceDraft.empty.pushAll (xs ++ .declaration decl :: ys)) := by
  -- what is said by the items is said by the others, as long as the declaration does not say it
  have hsame : ∀ said : Item → Prop, ¬ said (.declaration decl) →
      ((∃ x ∈ xs ++ ys, said x) ↔ ∃ x ∈ xs ++ .declaration decl :: ys, said x) := by
    intro said hnot
    simp only [List.mem_append, List.mem_cons, or_and_right, exists_or, exists_eq_left, hnot,
      false_or]
  refine carries_of_rearranges ?_ (registered_insert decl xs ys) ?_ ?_
  · have hops : operations (xs ++ .declaration decl :: ys)
        = operations xs ++ .tick :: operations ys := operations_append xs _
    rw [hops, operations_append]
    exact Feature.rearranges_makeRoom (operations xs) (operations ys)
  · -- the declaration links nothing, and declares a member of its own name at most
    intro leaf hleaf
    refine alike_linked (fun s b => hsame (Item.Links s b) id) fun s =>
      hsame (Item.Declares s leaf) ?_
    rintro ⟨-, -, -, rfl⟩
    simp at hleaf
  · intro s
    refine targetName_linked ?_
    rw [List.filterMap_append, List.filterMap_append]
    rfl

/-- **A declaration is felt under its own leaf name only.** Put in anywhere, it leaves the
variants of all other leaf names as they were, with their arities and overload numbers, and
on each of them every feature comes to the same. -/
theorem view_insert (decl : Declaration) (xs ys : List Item) (o : Options) :
    let i := ofItems (xs ++ ys) o
    let i' := ofItems (xs ++ .declaration decl :: ys) o
    i'.view (i'.variants.filter fun v => v.leaf ≠ decl.leaf)
      = i.view (i.variants.filter fun v => v.leaf ≠ decl.leaf) :=
  (carries_insert decl xs ys).view o

end Interface

end Overlay
