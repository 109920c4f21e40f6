/-
What numbering does to a list of variants.

A number is told by two counts, the members of the group before a variant and those after it,
and neither of them looks at the numbers that are there already. So numbering writes numbers
and nothing else, and doing it again writes the same (`numberOverloads_numberOverloads`).

Seen by groups it says what the numbers are. Those of a group of several count up from zero in
the order of the list, and a variant that is alone in its group has none
(`overloads_of_group`). Two members of a group therefore both have a number, and the later
one the higher (`pairwise_overload`).
-/
import Mathlib.Data.List.Basic
import Overlay.Interface

set_option autoImplicit false

namespace Overlay.Variant

variable {v : Variant} {vs : List Variant} {key : ScopePath × Text}

/-- The variant apart from its number. -/
def unnumbered (v : Variant) : Variant := { v with overload := none }

/-! ## Groups

A callable shares its group with those of the same scope and leaf name. The group is told by these
two, its key, so that it can be spoken of without one of its members. -/

/-- What the callables of a group share. -/
def groupKey (v : Variant) : ScopePath × Text := (v.scope, v.leaf)

/-- The variant is one of the group. What cannot be called is in no group. -/
def inGroup (key : ScopePath × Text) (v : Variant) : Bool :=
  v.kind.isCallable && groupKey v = key

/-- The group of a callable, counted by its key. -/
theorem groupSize_eq (hv : v.kind.isCallable = true) (vs : List Variant) :
    v.groupSize vs = vs.countP (inGroup (groupKey v)) := by
  refine List.countP_congr fun w _ => ?_
  simp only [sameGroup, inGroup, groupKey, hv, Bool.true_and, Bool.and_eq_true,
    decide_eq_true_eq, Prod.mk.injEq, and_assoc]
  exact and_congr_right fun _ => and_congr eq_comm eq_comm

/-! ## Numbering writes numbers only

The pass carries the variants before it along, to count those of a group. A lemma about it is
therefore one about a list with others before it, and gets its use with none. -/

/-- What does not look at the number of a variant does not see the numbering. -/
theorem map_numberOverloads {α : Type} {f : Variant → α} (h : ∀ v, f v.unnumbered = f v)
    (vs : List Variant) : (numberOverloads vs).map f = vs.map f := by
  suffices hafter : ∀ before, (numberAfter before vs).map f = vs.map f from hafter []
  induction vs with
  | nil => intro _; rfl
  | cons v vs ih =>
    intro before
    have hnumber : ∀ number, f { v with overload := number } = f v := by
      intro number
      rw [← h v, ← h]
      rfl
    rw [numberAfter, List.map_cons, List.map_cons, hnumber, ih]

/-- The size of a group does not depend on the numbers. -/
theorem groupSize_map_unnumbered (v : Variant) (vs : List Variant) :
    v.groupSize (vs.map unnumbered) = v.groupSize vs := by
  rw [groupSize, groupSize, List.countP_map]
  rfl

/-- The sizes of groups are the same for variants that differ in their numbers alone. -/
theorem groupSize_congr {ws : List Variant} (h : ws.map unnumbered = vs.map unnumbered)
    (v : Variant) : v.groupSize ws = v.groupSize vs := by
  rw [← groupSize_map_unnumbered v ws, h, groupSize_map_unnumbered]

/-- The number of a variant where others come before the list. -/
theorem getElem?_numberAfter (before vs : List Variant) (i : Nat) :
    (numberAfter before vs)[i]?
      = vs[i]?.map fun v => { v with
          overload := v.numberAmong (v.groupSize before + v.groupSize (vs.take i))
            (v.groupSize (vs.drop (i + 1))) } := by
  induction vs generalizing before i with
  | nil => rfl
  | cons v vs ih =>
    cases i with
    | zero => rfl
    | succ i =>
      rw [numberAfter, List.getElem?_cons_succ, ih, List.getElem?_cons_succ]
      congr 1
      funext w
      have hsize : w.groupSize (v :: before) + w.groupSize (vs.take i)
          = w.groupSize before + w.groupSize (v :: vs.take i) := by
        simp only [groupSize, List.countP_cons]
        omega
      rw [hsize]
      rfl

/-- The number of a variant, by the members of its group before and after its place. -/
theorem getElem?_numberOverloads (vs : List Variant) (i : Nat) :
    (numberOverloads vs)[i]? = vs[i]?.map fun v => { v with
      overload := v.numberAmong (v.groupSize (vs.take i)) (v.groupSize (vs.drop (i + 1))) } := by
  have hnone : ∀ v : Variant, v.groupSize [] = 0 := fun _ => rfl
  rw [numberOverloads, getElem?_numberAfter]
  simp only [hnone, Nat.zero_add]

/-- A variant that is not callable is left as it is. -/
theorem getElem?_numberOverloads_of_not_callable {i : Nat} (hv : vs[i]? = some v)
    (hcallable : v.kind.isCallable = false) : (numberOverloads vs)[i]? = some v := by
  rw [getElem?_numberOverloads, hv, Option.map_some, numberAmong, if_pos hcallable]

/-- A number that is there already is not asked for, unless it is to stay. -/
theorem numberAmong_numbered (v : Variant) (earlier later : Nat) :
    ({ v with overload := v.numberAmong earlier later } : Variant).numberAmong earlier later
      = v.numberAmong earlier later := by
  have hkind : ({ v with overload := v.numberAmong earlier later } : Variant).kind = v.kind := rfl
  rw [numberAmong, hkind]
  split
  · rfl
  · rename_i hcallable
    rw [numberAmong, if_neg hcallable]

/-- Numbering again changes nothing. -/
theorem numberOverloads_numberOverloads (vs : List Variant) :
    numberOverloads (numberOverloads vs) = numberOverloads vs := by
  have hsame : (numberOverloads vs).map unnumbered = vs.map unnumbered :=
    map_numberOverloads (fun _ => rfl) vs
  refine List.ext_getElem? fun i => ?_
  have htake : ((numberOverloads vs).take i).map unnumbered = (vs.take i).map unnumbered := by
    rw [List.map_take, hsame, List.map_take]
  have hdrop : ((numberOverloads vs).drop (i + 1)).map unnumbered
      = (vs.drop (i + 1)).map unnumbered := by
    rw [List.map_drop, hsame, List.map_drop]
  rw [getElem?_numberOverloads]
  simp only [groupSize_congr htake, groupSize_congr hdrop]
  rw [getElem?_numberOverloads, Option.map_map]
  cases vs[i]? with
  | none => rfl
  | some v =>
    have hnumber := numberAmong_numbered v (v.groupSize (vs.take i)) (v.groupSize (vs.drop (i + 1)))
    exact congrArg (fun number => some { v with overload := number }) hnumber

/-! ## The numbers of a group

From here on a group is told by its key, and its numbers are read off the list that is left when
all other variants are dropped. -/

/-- The numbers of a group behind `before`, by the members that it has there and here. -/
theorem overloads_of_group_after (key : ScopePath × Text) (before vs : List Variant) :
    ((numberAfter before vs).filter (inGroup key)).map Variant.overload
      = if before.countP (inGroup key) + vs.countP (inGroup key) = 1
        then List.replicate (vs.countP (inGroup key)) none
        else (List.range' (before.countP (inGroup key)) (vs.countP (inGroup key))).map some := by
  induction vs generalizing before with
  | nil => simp [numberAfter]
  | cons v vs ih =>
    have hin : ∀ number, inGroup key { v with overload := number } = inGroup key v := fun _ => rfl
    rw [numberAfter, List.filter_cons, hin, List.countP_cons]
    by_cases hv : inGroup key v = true
    · -- the head is a member, so the rest has one more before it
      obtain ⟨hcallable, hkey⟩ : v.kind.isCallable = true ∧ groupKey v = key := by
        simpa [inGroup] using hv
      have hkind : ¬ v.kind.isCallable = false := by simp [hcallable]
      have hsize : ∀ ws : List Variant, v.groupSize ws = ws.countP (inGroup key) := by
        intro ws
        rw [groupSize_eq hcallable, hkey]
      rw [if_pos hv, if_pos hv, List.map_cons, ih, List.countP_cons, if_pos hv, numberAmong,
        if_neg hkind, hsize, hsize]
      generalize before.countP (inGroup key) = earlier
      generalize vs.countP (inGroup key) = later
      by_cases halone : earlier + later = 0
      · rw [if_pos halone, if_pos (by omega), if_pos (by omega), List.replicate_succ]
      · rw [if_neg halone, if_neg (by omega), if_neg (by omega), List.range'_succ, List.map_cons]
    · rw [if_neg hv, if_neg hv, ih, List.countP_cons, if_neg hv]
      rfl

/-- **The numbers of a group.** They count up from zero in the order of the list; a variant that
is alone in its group has none. -/
theorem overloads_of_group (key : ScopePath × Text) (vs : List Variant) :
    ((numberOverloads vs).filter (inGroup key)).map Variant.overload
      = if vs.countP (inGroup key) = 1 then [none]
        else (List.range (vs.countP (inGroup key))).map some := by
  have hgroup := overloads_of_group_after key [] vs
  rw [List.countP_nil, Nat.zero_add, ← List.range_eq_range'] at hgroup
  rw [numberOverloads, hgroup]
  split
  · rename_i hone
    rw [hone]
    rfl
  · rfl

/-- Two members of a group are both numbered, the later one with the higher number. -/
theorem pairwise_overload_of_group (key : ScopePath × Text) (vs : List Variant) :
    (numberOverloads vs).Pairwise fun v w => inGroup key v = true → inGroup key w = true →
      ∃ m n, v.overload = some m ∧ w.overload = some n ∧ m < n := by
  rw [← List.pairwise_filter]
  have hnumbers := overloads_of_group key vs
  split at hnumbers
  · -- a single member makes no pair
    obtain ⟨v, hv⟩ : ∃ v, (numberOverloads vs).filter (inGroup key) = [v] := by
      refine List.length_eq_one_iff.1 ?_
      rw [← List.length_map Variant.overload, hnumbers]
      rfl
    rw [hv]
    exact List.pairwise_singleton _ _
  · have hordered : (((numberOverloads vs).filter (inGroup key)).map Variant.overload).Pairwise
        fun a b => ∃ m n, a = some m ∧ b = some n ∧ m < n := by
      rw [hnumbers, List.pairwise_map]
      exact List.pairwise_lt_range.imp fun hlt => ⟨_, _, rfl, rfl, hlt⟩
    exact List.pairwise_map.1 hordered

/-- Two callables of one scope and leaf name are members of one group. -/
theorem pairwise_overload (vs : List Variant) :
    (numberOverloads vs).Pairwise fun v w => v.kind.isCallable = true → w.kind.isCallable = true →
      v.scope = w.scope → v.leaf = w.leaf →
      ∃ m n, v.overload = some m ∧ w.overload = some n ∧ m < n := by
  refine List.pairwise_iff_getElem.2 fun i j hi hj hij hv hw hscope hleaf => ?_
  generalize hnumbered : numberOverloads vs = ws at hi hj hv hw hscope hleaf ⊢
  have hgroup := pairwise_overload_of_group (groupKey ws[i]) vs
  rw [hnumbered] at hgroup
  have hkey : groupKey ws[j] = groupKey ws[i] := Prod.ext hscope.symm hleaf.symm
  exact List.pairwise_iff_getElem.1 hgroup i j hi hj hij (by simp [inGroup, hv])
    (by simp [inGroup, hw, hkey])

end Overlay.Variant

namespace Overlay.InterfaceDraft

/-- Numbering apart, a variant of an interface is one that its mode emits for a declaration. -/
theorem emitted_of_mem_variants {d : InterfaceDraft} {o : Options} {v : Variant}
    (h : v ∈ (d.finish o).variants) :
    v.decl ∈ d.declarations
      ∧ v.arity ∈ v.decl.arities (modeOf d.table.freeze d.scopes o v.decl) := by
  have hmem : v.unnumbered ∈ (d.finish o).variants.map Variant.unnumbered := List.mem_map_of_mem h
  rw [finish, Variant.map_numberOverloads fun _ => rfl] at hmem
  obtain ⟨w, hw, heq⟩ := List.mem_map.1 hmem
  obtain ⟨decl, hdecl, hw⟩ := List.mem_flatMap.1 hw
  obtain ⟨n, hn, rfl⟩ := List.mem_map.1 hw
  obtain rfl : decl = v.decl := congrArg Variant.decl heq
  obtain rfl : n = v.arity := congrArg Variant.arity heq
  exact ⟨hdecl, hn⟩

end Overlay.InterfaceDraft
