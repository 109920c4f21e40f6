/-
Numbers for overloads, by places.

The numbers are given in two passes. The first lists the place of every callable variant under
its scope and its leaf name. The second goes through these groups, in whatever order they come,
and writes to each of the listed places. It writes to places only, and no place twice, so the
order of the groups does not matter: what is written at a place is the number of places before
it in its group. That is what `Variant.numberOverloads` says in one pass over the variants.

The order has to be left open, because the groups are kept in a map that promises none. So the
second pass is stated for any arrangement of the groups (`numberGroups_eq`), and what it does is
told place by place: the places that are written are those of the callables (`mem_map_fst_written`),
each is written once (`nodup_written`), and with the number that the library gives the variant there
(`mem_written`).
-/
import Mathlib.Data.List.Nodup
import Overlay.Proofs.Checked.Slice
import Overlay.Proofs.Variant.Numbering
import Overlay.Registry

set_option autoImplicit false

namespace Overlay.Checked

open Variant (groupKey inGroup)

variable {ε : Type} {v : Variant} {vs : List Variant} {key : ScopePath × Text} {i n : Nat}

/-! ## The groups

The first pass is a fold over the variants with their places. What it lists under a key are the
places of the group of that key, in their order (`places`); that is said for variants that start at
any place, and on top of any groups, for the sake of the induction. -/

/-- Lists a place under the group of its variant. -/
def addPlace (groups : Registry (ScopePath × Text) (List Nat)) (v : Variant × Nat) :
    Registry (ScopePath × Text) (List Nat) :=
  if v.1.kind.isCallable then
    groups.insert (groupKey v.1) ((groups.get? (groupKey v.1)).getD [] ++ [v.2])
  else groups

def groups (vs : List Variant) : Registry (ScopePath × Text) (List Nat) :=
  vs.zipIdx.foldl addPlace .empty

/-- The places of a group among the variants `vs`, the first of which stands at `n`. -/
def places (key : ScopePath × Text) (n : Nat) (vs : List Variant) : List Nat :=
  ((vs.zipIdx n).filter fun v => inGroup key v.1).map Prod.snd

/-- A first variant adds its place if it is in the group. -/
theorem places_cons (key : ScopePath × Text) (n : Nat) (v : Variant) (vs : List Variant) :
    places key n (v :: vs)
      = if inGroup key v then n :: places key (n + 1) vs else places key (n + 1) vs := by
  rw [places, List.zipIdx_cons, List.filter_cons]
  split <;> rfl

/-- Two lists have the places of both, those of the second behind the first. -/
theorem places_append (key : ScopePath × Text) (n : Nat) (vs ws : List Variant) :
    places key n (vs ++ ws) = places key n vs ++ places key (n + vs.length) ws := by
  rw [places, List.zipIdx_append, List.filter_append, List.map_append]
  rfl

/-- A group has as many places as members. -/
theorem length_places (key : ScopePath × Text) (n : Nat) (vs : List Variant) :
    (places key n vs).length = vs.countP (inGroup key) := by
  induction vs generalizing n with
  | nil => rfl
  | cons v vs ih =>
    rw [places_cons, List.countP_cons]
    split
    · rw [List.length_cons, ih]
    · rw [ih]
      rfl

/-- The places of a group are those where its members stand. -/
theorem mem_places : i ∈ places key 0 vs ↔ ∃ v, vs[i]? = some v ∧ inGroup key v = true := by
  simp only [places, List.mem_map, List.mem_filter, List.mem_zipIdx_iff_getElem?, Prod.exists]
  constructor
  · rintro ⟨v, _, ⟨hv, hkey⟩, rfl⟩
    exact ⟨v, hv, hkey⟩
  · rintro ⟨v, hv, hkey⟩
    exact ⟨v, i, ⟨hv, hkey⟩, rfl⟩

/-- No place is listed twice. -/
theorem nodup_places (key : ScopePath × Text) (n : Nat) (vs : List Variant) :
    (places key n vs).Nodup := by
  have hsub : (places key n vs).Sublist ((vs.zipIdx n).map Prod.snd) := List.filter_sublist.map _
  rw [List.zipIdx_map_snd] at hsub
  exact List.Nodup.sublist hsub List.nodup_range'

/-- The first pass lists the places of each group that has any. -/
theorem get?_foldl_addPlace (r : Registry (ScopePath × Text) (List Nat)) (n : Nat)
    (vs : List Variant) (key : ScopePath × Text) :
    ((vs.zipIdx n).foldl addPlace r).get? key
      = if places key n vs = [] then r.get? key
        else some ((r.get? key).getD [] ++ places key n vs) := by
  induction vs generalizing n r with
  | nil => rfl
  | cons v vs ih =>
    have hadd : (addPlace r (v, n)).get? key
        = if inGroup key v then some ((r.get? key).getD [] ++ [n]) else r.get? key := by
      rw [addPlace, inGroup]
      cases v.kind.isCallable with
      | false => rfl
      | true =>
        rw [if_pos rfl, Registry.get?_insert, Bool.true_and]
        by_cases hkey : key = groupKey v
        · rw [if_pos hkey, if_pos (decide_eq_true hkey.symm), hkey]
        · rw [if_neg hkey, if_neg (by simpa using Ne.symm hkey)]
    rw [List.zipIdx_cons, List.foldl_cons, ih, hadd, places_cons]
    by_cases hv : inGroup key v = true
    · rw [if_pos hv, if_pos hv, if_neg (List.cons_ne_nil _ _)]
      split
      · rename_i hnil
        rw [hnil]
      · simp
    · rw [if_neg hv, if_neg hv]

/-- The groups are kept under their keys, each with all of its places, and none of them is empty. -/
theorem mem_groups {members : List Nat} :
    (key, members) ∈ (groups vs).entries ↔ members = places key 0 vs ∧ members ≠ [] := by
  rw [← Registry.get?_eq_some_iff, groups, get?_foldl_addPlace]
  by_cases hnil : places key 0 vs = []
  · rw [if_pos hnil, hnil]
    simp
  · rw [if_neg hnil]
    simp only [Registry.get?_empty, Option.getD_none, List.nil_append, Option.some.injEq]
    constructor
    · rintro rfl
      exact ⟨rfl, hnil⟩
    · rintro ⟨rfl, -⟩
      rfl

/-! ## Writing numbers

A place that is not there would be a crash. No place is taken away or added by writing, so a place
that was there at the start is there at every step. -/

/-- Gives the variant at a place its number. -/
def setOverload (vs : List Variant) (place : Nat × Option Nat) : Checked ε (List Variant) :=
  match vs[place.1]? with
  | some v => .ok (vs.set place.1 { v with overload := place.2 })
  | none => crash .index

/-- The places of a group with their numbers. -/
def numbers (members : List Nat) : List (Nat × Option Nat) :=
  members.zipIdx.map fun m => (m.1, if members.length = 1 then none else some m.2)

def numberGroup (vs : List Variant) (members : List Nat) : Checked ε (List Variant) :=
  (numbers members).foldlM setOverload vs

def numberOverloads (vs : List Variant) : Checked ε (List Variant) :=
  (groups vs).entries.foldlM (fun vs group => numberGroup vs group.2) vs

/-- `setOverload` where there is such a place. -/
def numbered (vs : List Variant) (place : Nat × Option Nat) : List Variant :=
  vs.modify place.1 fun v => { v with overload := place.2 }

/-- Writing to places that are there does not crash. -/
theorem foldlM_setOverload (ps : List (Nat × Option Nat)) (vs : List Variant)
    (h : ∀ p ∈ ps, p.1 < vs.length) :
    (ps.foldlM setOverload vs : Checked ε _) = .ok (ps.foldl numbered vs) := by
  induction ps generalizing vs with
  | nil => rfl
  | cons p ps ih =>
    have hp := h p List.mem_cons_self
    have hset : (setOverload vs p : Checked ε _) = .ok (numbered vs p) := by
      rw [setOverload, List.getElem?_eq_getElem hp, numbered, List.modify_eq_set_getElem?]
      simp [hp]
    rw [List.foldlM_cons, hset, List.foldl_cons]
    refine ih _ fun q hq => ?_
    rw [numbered, List.length_modify]
    exact h q (List.mem_cons_of_mem p hq)

/-- The places that are written for a group are its places. -/
theorem map_fst_numbers (members : List Nat) : (numbers members).map Prod.fst = members := by
  rw [numbers, List.map_map]
  exact List.zipIdx_map_fst 0 members

/-- Writing keeps the number of variants. -/
theorem length_foldl_numbered (ps : List (Nat × Option Nat)) (vs : List Variant) :
    (ps.foldl numbered vs).length = vs.length := by
  induction ps generalizing vs with
  | nil => rfl
  | cons p ps ih => rw [List.foldl_cons, ih, numbered, List.length_modify]

/-- Going through the groups is writing all of their numbers, one after the other. -/
theorem foldlM_numberGroup (order : List (List Nat)) (vs : List Variant)
    (h : ∀ members ∈ order, ∀ i ∈ members, i < vs.length) :
    (order.foldlM numberGroup vs : Checked ε _)
      = .ok ((order.flatMap numbers).foldl numbered vs) := by
  induction order generalizing vs with
  | nil => rfl
  | cons members order ih =>
    have hmembers : ∀ p ∈ numbers members, p.1 < vs.length := by
      intro p hp
      refine h members List.mem_cons_self p.1 ?_
      rw [← map_fst_numbers members]
      exact List.mem_map_of_mem hp
    rw [List.foldlM_cons, numberGroup, foldlM_setOverload _ _ hmembers, List.flatMap_cons,
      List.foldl_append]
    refine ih _ fun members' hmem i hi => ?_
    rw [length_foldl_numbered]
    exact h members' (List.mem_cons_of_mem members hmem) i hi

/-- Writing changes the one place. -/
theorem getElem?_numbered (vs : List Variant) (p : Nat × Option Nat) (i : Nat) :
    (numbered vs p)[i]?
      = if p.1 = i then vs[i]?.map fun v => { v with overload := p.2 } else vs[i]? := by
  rw [numbered, List.getElem?_modify]
  split
  · rfl
  · exact Option.map_id'

/-- Where nothing is written nothing changes. -/
theorem getElem?_foldl_numbered_of_not_mem {ps : List (Nat × Option Nat)}
    (h : i ∉ ps.map Prod.fst) (vs : List Variant) :
    (ps.foldl numbered vs)[i]? = vs[i]? := by
  induction ps generalizing vs with
  | nil => rfl
  | cons p ps ih =>
    rw [List.map_cons, List.mem_cons, not_or] at h
    rw [List.foldl_cons, ih h.2, getElem?_numbered, if_neg (Ne.symm h.1)]

/-- What is written at a place once is there in the end. -/
theorem getElem?_foldl_numbered {ps : List (Nat × Option Nat)} {number : Option Nat}
    (hps : (ps.map Prod.fst).Nodup) (h : (i, number) ∈ ps) (vs : List Variant) :
    (ps.foldl numbered vs)[i]? = vs[i]?.map fun v => { v with overload := number } := by
  induction ps generalizing vs with
  | nil => exact absurd h List.not_mem_nil
  | cons p ps ih =>
    rw [List.map_cons, List.nodup_cons] at hps
    rw [List.foldl_cons]
    rcases List.mem_cons.1 h with rfl | h
    · rw [getElem?_foldl_numbered_of_not_mem hps.1, getElem?_numbered, if_pos rfl]
    · have hi : i ∈ ps.map Prod.fst := List.mem_map_of_mem h
      have hne : p.1 ≠ i := fun heq => hps.1 (heq ▸ hi)
      rw [ih hps.2 h, getElem?_numbered, if_neg hne]

/-! ## Both passes

The groups together list each callable once. A place is in one group only, as its variant has one
key. -/

/-- All that is written by the second pass. -/
def written (vs : List Variant) : List (Nat × Option Nat) :=
  (groups vs).entries.flatMap fun group => numbers group.2

/-- The places that are written are those that are listed. -/
theorem map_fst_written (vs : List Variant) :
    (written vs).map Prod.fst = (groups vs).entries.flatMap Prod.snd := by
  simp only [written, List.map_flatMap, map_fst_numbers]

/-- They are the places of the callables. -/
theorem mem_map_fst_written :
    i ∈ (written vs).map Prod.fst ↔ ∃ v, vs[i]? = some v ∧ v.kind.isCallable = true := by
  rw [map_fst_written, List.mem_flatMap]
  constructor
  · rintro ⟨⟨key, members⟩, hmem, hi⟩
    rw [(mem_groups.1 hmem).1] at hi
    obtain ⟨v, hv, hkey⟩ := mem_places.1 hi
    rw [inGroup, Bool.and_eq_true] at hkey
    exact ⟨v, hv, hkey.1⟩
  · rintro ⟨v, hv, hcallable⟩
    have hi : i ∈ places (groupKey v) 0 vs := mem_places.2 ⟨v, hv, by simp [inGroup, hcallable]⟩
    exact ⟨(groupKey v, _), mem_groups.2 ⟨rfl, List.ne_nil_of_mem hi⟩, hi⟩

/-- No place is written twice. -/
theorem nodup_written (vs : List Variant) : ((written vs).map Prod.fst).Nodup := by
  rw [map_fst_written, List.nodup_flatMap]
  constructor
  · rintro ⟨key, members⟩ hmem
    rw [(mem_groups.1 hmem).1]
    exact nodup_places key 0 vs
  -- a place in two groups would be a variant with two keys
  · have hkeys := List.pairwise_map.1 (groups vs).distinct
    refine hkeys.imp_of_mem ?_
    rintro ⟨key, members⟩ ⟨key', members'⟩ hmem hmem' hne i hi hi'
    rw [(mem_groups.1 hmem).1] at hi
    rw [(mem_groups.1 hmem').1] at hi'
    obtain ⟨v, hv, hkey⟩ := mem_places.1 hi
    obtain ⟨v', hv', hkey'⟩ := mem_places.1 hi'
    obtain rfl := Option.some.inj (hv.symm.trans hv')
    simp only [inGroup, Bool.and_eq_true, decide_eq_true_eq] at hkey hkey'
    exact hne (hkey.2.symm.trans hkey'.2)

/-- The number that a variant gets is told by those of its group before it and after it. -/
theorem mem_written (hv : vs[i]? = some v) (hcallable : v.kind.isCallable = true) :
    (i, v.numberAmong (v.groupSize (vs.take i)) (v.groupSize (vs.drop (i + 1))))
      ∈ written vs := by
  obtain ⟨hi, rfl⟩ := List.getElem?_eq_some_iff.1 hv
  generalize hkey : groupKey vs[i] = key
  have hsize := fun ws => Variant.groupSize_eq hcallable ws
  rw [hkey] at hsize
  have hmembers : places key 0 vs
      = places key 0 (vs.take i) ++ i :: places key (i + 1) (vs.drop (i + 1)) := by
    have hin : inGroup key vs[i] = true := by simp [inGroup, hcallable, hkey]
    have hlen : 0 + (vs.take i).length = i := by
      rw [List.length_take, Nat.min_eq_left (Nat.le_of_lt hi), Nat.zero_add]
    have hsplit := places_append key 0 (vs.take i) (vs.drop i)
    rwa [List.take_append_drop, List.drop_eq_getElem_cons hi, places_cons, if_pos hin, hlen]
      at hsplit
  have hmem : (key, places key 0 vs) ∈ (groups vs).entries :=
    mem_groups.2 ⟨rfl, by rw [hmembers]; simp⟩
  refine List.mem_flatMap.2
    ⟨_, hmem, List.mem_map.2 ⟨(i, (places key 0 (vs.take i)).length), ?_, ?_⟩⟩
  · rw [hmembers, List.zipIdx_append, List.zipIdx_cons, Nat.zero_add]
    exact List.mem_append_right _ List.mem_cons_self
  · have hkind : ¬ vs[i].kind.isCallable = false := by simp [hcallable]
    rw [Variant.numberAmong, if_neg hkind, hsize, hsize, hmembers, List.length_append,
      List.length_cons, length_places, length_places]
    generalize (vs.take i).countP (inGroup key) = earlier
    generalize (vs.drop (i + 1)).countP (inGroup key) = later
    by_cases halone : earlier + later = 0
    · rw [if_pos halone, if_pos (by omega)]
    · rw [if_neg halone, if_neg (by omega)]

/-- **The groups can come in any order.** Whichever is visited first, each of the numbers is
written where it belongs. -/
theorem numberGroups_eq {order : List (List Nat)}
    (h : order.Perm ((groups vs).entries.map Prod.snd)) :
    (order.foldlM numberGroup vs : Checked ε _) = .ok (Variant.numberOverloads vs) := by
  have hplaces : ∀ members ∈ order, ∀ i ∈ members, i < vs.length := by
    intro members hmem i hi
    obtain ⟨group, hgroup, rfl⟩ := List.mem_map.1 (h.mem_iff.1 hmem)
    rw [(mem_groups.1 hgroup).1] at hi
    obtain ⟨v, hv, -⟩ := mem_places.1 hi
    exact (List.getElem?_eq_some_iff.1 hv).1
  -- in another order the same is written
  have hwritten : (order.flatMap numbers).Perm (written vs) := by
    have hperm := h.flatMap_right numbers
    rwa [List.flatMap_map] at hperm
  have hnodup : ((order.flatMap numbers).map Prod.fst).Nodup :=
    (hwritten.map Prod.fst).nodup_iff.2 (nodup_written vs)
  have hmem : ∀ {i}, i ∈ (order.flatMap numbers).map Prod.fst
      ↔ ∃ v, vs[i]? = some v ∧ v.kind.isCallable = true := by
    intro i
    rw [(hwritten.map Prod.fst).mem_iff, mem_map_fst_written]
  rw [foldlM_numberGroup _ _ hplaces]
  -- place by place, since the order of the groups says nothing
  refine congrArg Except.ok (List.ext_getElem? fun i => ?_)
  rw [Variant.getElem?_numberOverloads]
  cases hv : vs[i]? with
  | none =>
    have hnot : i ∉ (order.flatMap numbers).map Prod.fst := by
      rw [hmem, hv]
      simp
    rw [getElem?_foldl_numbered_of_not_mem hnot, hv]
    rfl
  | some v =>
    rw [Option.map_some]
    cases hcallable : v.kind.isCallable with
    | true =>
      have hnumber := hwritten.mem_iff.2 (mem_written hv hcallable)
      rw [getElem?_foldl_numbered hnodup hnumber, hv]
      rfl
    | false =>
      have hnot : i ∉ (order.flatMap numbers).map Prod.fst := by
        rw [hmem, hv]
        simp [hcallable]
      rw [getElem?_foldl_numbered_of_not_mem hnot, hv, Variant.numberAmong, if_pos hcallable]

/-- So both passes together give the numbers of the library. -/
theorem numberOverloads_eq (vs : List Variant) :
    (numberOverloads vs : Checked ε _) = .ok (Variant.numberOverloads vs) := by
  rw [numberOverloads, ← List.foldlM_map]
  exact numberGroups_eq (.refl _)

end Overlay.Checked
