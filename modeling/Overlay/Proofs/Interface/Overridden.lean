/-
Directives that a later one overrides.

A directive that is followed by another one of its key can be left out: whatever it did to
the table, the later one undoes. It may have taken a slot, or emptied one, or found nothing
to clear, and directives of the key may stand between the two. None of this has to be told
apart. What a run leaves of the operations before the directive are the entries whose key is
not touched again, and the later directive touches the key in either run; and the directive
itself does not last.

What is left out still took a place of the sequence. Behind it all places move up by one, and
as no entry stands at the place that is gone, no comparison changes.
-/
import Mathlib.Tactic.SplitIfs
import Overlay.Proofs.Feature.Revision
import Overlay.Proofs.Interface.Renumbering

set_option autoImplicit false

namespace Overlay

open Feature (Entry Operation lasting redefined)
open Script (Item)

variable {σ : Nat → Nat}

/-! ## One place less

The map of places is not injective: the gap and the place behind it go to one place. That does no
harm, as no entry that lasts stands in the gap. -/

/-- The places behind `n` move up by one. -/
def closeGap (n place : Nat) : Nat := if n < place then place - 1 else place

/-- The places up to the gap stay. -/
theorem closeGap_of_le {n place : Nat} (h : place ≤ n) : closeGap n place = place :=
  if_neg (Nat.not_lt.2 h)

/-- Those behind it move up by one. -/
theorem closeGap_succ {n place : Nat} (h : n ≤ place) : closeGap n (place + 1) = place :=
  if_pos (Nat.lt_succ_of_le h)

/-- A place that is not the one that is gone is compared as before. -/
theorem closeGap_lt_iff {n i : Nat} (hi : i ≠ n) (j : Nat) :
    closeGap n i < closeGap n j ↔ i < j := by
  unfold closeGap
  split_ifs <;> omega

/-! ## What lasts without the directive

The run without the directive is compared with the run that has it. In front of the gap the same
operations stand at the same places, behind it the same ones stand one place further up. -/

namespace Feature

/-- What lasts of operations that start at another place. -/
theorem lasting_moved {n n' : Nat} {ops : List Operation}
    (h : ∀ i < ops.length, σ (n + i) = n' + i) :
    lasting n' ops = (lasting n ops).map (Entry.moved σ) := by
  induction ops generalizing n n' with
  | nil => rfl
  | cons op ops ih =>
    have hlater : lasting (n' + 1) ops = (lasting (n + 1) ops).map (Entry.moved σ) := by
      refine ih fun i hi => ?_
      have hnext := h (i + 1) (Nat.succ_lt_succ hi)
      rw [Nat.add_right_comm, Nat.add_assoc, hnext]
      omega
    cases op with
    | tick => exact hlater
    | define e =>
      have hfirst : σ n = n' := h 0 (Nat.succ_pos _)
      rw [lasting, lasting, hlater]
      split
      · rfl
      · rw [List.map_cons]
        exact congrArg (e.placed · :: _) hfirst.symm

namespace Draft

/-- What a run leaves, cut in two: of the first operations what the others do not touch, and
what lasts of the others. -/
theorem entries_run_append (as bs : List Operation) :
    (empty.run (as ++ bs)).entries
      = ((lasting 0 as).filter fun f => !redefined bs f.key) ++ lasting as.length bs := by
  have hnext : (empty.run as).nextSequence = as.length := by
    rw [nextSequence_run]
    exact Nat.zero_add _
  rw [run_append, (coherent_empty.run as).entries_run, entries_run_empty, hnext]

variable {as bs : List Operation} {e : Entry}

/-- A directive whose key is touched again adds nothing to the table, and takes nothing from
it that would last. -/
theorem entries_run_overridden (h : redefined bs e.key = true) :
    (empty.run (as ++ .define e :: bs)).entries
      = ((lasting 0 as).filter fun f => !redefined bs f.key) ++ lasting (as.length + 1) bs := by
  -- the directive touches its own key alone, and that one is touched later anyway
  have htouched : ∀ key, redefined (.define e :: bs) key = redefined bs key := by
    intro key
    rw [redefined_define]
    by_cases hkey : e.key = key
    · rw [← hkey, h, Bool.or_true]
    · simp [hkey]
  have hgone : lasting as.length (.define e :: bs) = lasting (as.length + 1) bs := by
    rw [lasting, if_pos (.inr h)]
  rw [entries_run_append, hgone]
  simp only [htouched]

/-- No entry stands at the place of a directive whose key is touched again. -/
theorem sequence_ne_of_overridden (h : redefined bs e.key = true) {f : Entry}
    (hf : f ∈ (empty.run (as ++ .define e :: bs)).entries) : f.sequence ≠ as.length := by
  rw [entries_run_overridden h] at hf
  rcases List.mem_append.1 hf with hf | hf
  · have hbefore := (sequence_of_mem_lasting (List.mem_of_mem_filter hf)).2
    omega
  · have hbehind := (sequence_of_mem_lasting hf).1
    omega

/-- **The table without the directive.** It holds the same entries, those behind the directive
one place further up. -/
theorem entries_run_delete (h : redefined bs e.key = true) :
    (empty.run (as ++ bs)).entries
      = (empty.run (as ++ .define e :: bs)).entries.map (Entry.moved (closeGap as.length)) := by
  -- the entries before the gap stay where they are
  have hbefore : ∀ f ∈ (lasting 0 as).filter fun f => !redefined bs f.key,
      f.moved (closeGap as.length) = f := by
    intro f hf
    have hlt := (sequence_of_mem_lasting (List.mem_of_mem_filter hf)).2
    rw [Entry.moved, closeGap_of_le (by omega)]
    rfl
  have hbehind : lasting as.length bs
      = (lasting (as.length + 1) bs).map (Entry.moved (closeGap as.length)) :=
    lasting_moved fun i _ => by
      rw [Nat.add_right_comm]
      exact closeGap_succ (Nat.le_add_right _ _)
  rw [entries_run_append, entries_run_overridden h, List.map_append, ← hbehind,
    List.map_congr_left hbefore, List.map_id']

end Draft

/-- Leaving the directive out renumbers the table. -/
theorem renumbers_delete {as bs : List Operation} {e : Entry} (h : redefined bs e.key = true) :
    Renumbers (closeGap as.length) (Draft.empty.run (as ++ .define e :: bs)).freeze
      (Draft.empty.run (as ++ bs)).freeze := by
  refine ⟨?_, ?_, Draft.ascending_run _, Draft.ascending_run _⟩
  · intro f
    show f ∈ (Draft.empty.run (as ++ bs)).entries ↔ _
    rw [Draft.entries_run_delete h]
    exact List.mem_map
  · intro f hf f' _ _ _ hlt
    exact (closeGap_lt_iff (Draft.sequence_ne_of_overridden h hf) _).2 hlt

end Feature

/-! ## Leaving the directive out

That the later directive comes at all is the one condition, and it may come anywhere behind. -/

namespace Interface

/-- An item with a directive of the key redefines it. -/
theorem redefined_operations {e f : Feature.Entry} {items : List Item}
    (hf : .directive f ∈ items) (hkey : f.key = e.key) :
    redefined (operations items) e.key = true := by
  have hop : Operation.define f ∈ operations items :=
    List.mem_filterMap.2 ⟨.directive f, hf, rfl⟩
  refine List.any_eq_true.2 ⟨.define f, hop, ?_⟩
  simp [Operation.isOn, hkey]

/-- The same declarations are registered, those behind the directive one place further up. -/
theorem registered_delete (e : Feature.Entry) (xs ys : List Item) :
    registered 0 (xs ++ ys)
      = (registered 0 (xs ++ .directive e :: ys)).map
          (Declaration.moved (closeGap (operations xs).length)) := by
  have hbefore : registered 0 xs
      = (registered 0 xs).map (Declaration.moved (closeGap (operations xs).length)) :=
    registered_moved fun i hi => closeGap_of_le (by omega)
  have hbehind : registered (operations xs).length ys
      = (registered ((operations xs).length + 1) ys).map
          (Declaration.moved (closeGap (operations xs).length)) :=
    registered_moved fun i _ => by
      rw [Nat.add_right_comm]
      exact closeGap_succ (Nat.le_add_right _ _)
  rw [registered_append, registered_append, List.map_append, Nat.zero_add, ← hbefore]
  exact congrArg (registered 0 xs ++ ·) hbehind

/-- The operation of the directive stands between those of the other items. -/
theorem operations_directive (e : Feature.Entry) (xs ys : List Item) :
    operations (xs ++ .directive e :: ys) = operations xs ++ .define e :: operations ys :=
  operations_append xs _

section
variable {e f : Feature.Entry} {ys : List Item}

/-- No entry stands at the place of the overridden directive. -/
theorem sequence_ne_of_delete (hf : .directive f ∈ ys) (hkey : f.key = e.key) (xs : List Item) :
    ∀ d ∈ (InterfaceDraft.empty.pushAll (xs ++ .directive e :: ys)).table.freeze.entries,
      d.sequence ≠ (operations xs).length := by
  intro d hd
  rw [pushAll_eq, operations_directive] at hd
  exact Feature.Draft.sequence_ne_of_overridden (redefined_operations hf hkey) hd

/-- **Leaving the directive out** carries over all that is seen. -/
theorem carries_delete (hf : .directive f ∈ ys) (hkey : f.key = e.key) (xs : List Item) :
    InterfaceDraft.Carries (closeGap (operations xs).length) (fun _ => true)
      (InterfaceDraft.empty.pushAll (xs ++ .directive e :: ys))
      (InterfaceDraft.empty.pushAll (xs ++ ys)) := by
  have hplaces := sequence_ne_of_delete hf hkey xs
  have hlinked : ∀ g, linked g (xs ++ .directive e :: ys) = linked g (xs ++ ys) := by
    intro g
    rw [linked_append, linked_append]
    rfl
  rw [pushAll_eq, operations_directive, hlinked] at hplaces ⊢
  rw [pushAll_eq, operations_append]
  refine ⟨Feature.renumbers_delete (redefined_operations hf hkey), ?_, ?_,
    fun leaf _ => .refl leaf _, fun _ => rfl⟩
  · rw [List.filter_true, List.filter_true]
    exact registered_delete e xs ys
  · intro d hd _ _ _ place _
    exact closeGap_lt_iff (hplaces d hd) place

/-- **An overridden directive can be left out.** Where a directive of the same key comes later,
whatever the values of the two, the interface without the earlier one shows the same variants
apart from their positions, and every feature comes to the same on any variant, at the
position that it has after all that came behind the directive has moved up by one. -/
theorem view_delete (hf : .directive f ∈ ys) (hkey : f.key = e.key) (xs : List Item)
    (o : Options) :
    let i := ofItems (xs ++ .directive e :: ys) o
    let i' := ofItems (xs ++ ys) o
    i'.view i'.variants = i.view i.variants
      ∧ ∀ v : Variant, i'.resolve (v.moved (closeGap (operations xs).length)) = i.resolve v := by
  intro i i'
  have hcarries := carries_delete hf hkey xs
  constructor
  · exact hcarries.view_all o
  · intro v
    funext feature
    have htimely := Feature.timely_of_lt_iff (v := v) fun d hd _ place _ =>
      closeGap_lt_iff (sequence_ne_of_delete hf hkey xs d hd) place
    exact hcarries.table.resolve htimely (hcarries.alike v.leaf rfl) hcarries.names o feature

end

/-- The clear takes the global rule from `f` and leaves `g` without one; but since a later rule
replaces both, it is the same without it, and only `h` has a rule. -/
theorem view_delete_clear :
    let rule (value : Feature.Value) : Feature.Entry :=
      ⟨"except".toList, .global, value, none, .empty, 0⟩
    let decl (leaf : Char) : Item := .declaration (.named .function ⟨.global, [leaf]⟩)
    let before : List Item := [.directive (rule (.enabled ['1'])), decl 'f']
    let behind : List Item := [decl 'g', .directive (rule (.enabled ['2'])), decl 'h']
    let i := ofItems (before ++ .directive (rule .cleared) :: behind) .standard
    let i' := ofItems (before ++ behind) .standard
    .directive (rule (.enabled ['2'])) ∈ behind
      ∧ (rule (.enabled ['2'])).key = (rule .cleared).key
      ∧ (i.variants.map fun v => (i.resolve v "except".toList).active) = [false, false, true]
      ∧ i'.view i'.variants = i.view i.variants :=
  ⟨by decide, rfl, by decide,
    (view_delete (f := ⟨"except".toList, .global, .enabled ['2'], none, .empty, 0⟩)
      (by decide) rfl _ .standard).1⟩

end Interface

end Overlay
