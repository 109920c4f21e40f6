/-
Dictionaries and their entries.

A dictionary that is put together from a list of entries holds these entries, if no key
stands in the list twice. As dictionaries are sorted, any order of the list gives the same one:
a dictionary can be listed in whatever order and is read back from it.

The induction is over the list, with the dictionary that was there before. What is inserted takes
the place of an entry of its key; since no key comes twice, and none is there already, there never
is one. -/
import Overlay.Dictionary

set_option autoImplicit false

namespace Overlay.Dictionary

variable {α : Type}

/-- Placing under a new key adds one entry and keeps the others. -/
theorem perm_place {key : Text} {es : List (Text × α)} (h : key ∉ es.map Prod.fst) (value : α) :
    (place key value es).Perm ((key, value) :: es) := by
  induction es with
  | nil => exact .refl _
  | cons e es ih =>
    rw [List.map_cons, List.mem_cons, not_or] at h
    rw [place, if_neg h.1]
    by_cases hlt : key < e.1
    · rw [if_pos hlt]
    · rw [if_neg hlt]
      exact ((ih h.2).cons e).trans (.swap (key, value) e es)

/-- Inserting entries of new keys adds them to what is there. -/
theorem perm_entries_foldl_insert {d : Dictionary α} {es : List (Text × α)}
    (h : (d.keys ++ es.map Prod.fst).Nodup) :
    (es.foldl (fun d e => d.insert e.1 e.2) d).entries.Perm (d.entries ++ es) := by
  induction es generalizing d with
  | nil =>
    rw [List.append_nil]
    exact .refl _
  | cons e es ih =>
    have hperm : (d.insert e.1 e.2).entries.Perm (e :: d.entries) := by
      refine perm_place ?_ e.2
      intro hmem
      exact (List.nodup_append.1 h).2.2 e.1 hmem e.1 (by simp) rfl
    have hkeys : ((d.insert e.1 e.2).keys ++ es.map Prod.fst).Nodup := by
      refine (List.Perm.nodup_iff ?_).1 h
      refine (List.perm_middle (a := e.1)).trans ?_
      exact ((hperm.map Prod.fst).symm.append_right _)
    refine (ih hkeys).trans ?_
    exact (hperm.append_right es).trans List.perm_middle.symm

/-- Entries that are in ascending order of their keys are determined by which they are. -/
theorem eq_of_perm_entries {d d' : Dictionary α} (h : d.entries.Perm d'.entries) : d = d' := by
  have hlist : d.entries = d'.entries := by
    refine List.Perm.eq_of_pairwise ?_ (List.pairwise_map.1 d.sorted)
      (List.pairwise_map.1 d'.sorted) h
    intro e e' _ _ hlt hgt
    exact absurd hgt (List.lt_asymm hlt)
  cases d
  cases d'
  cases hlist
  rfl

/-- A dictionary has each key once. -/
theorem nodup_keys (d : Dictionary α) : d.keys.Nodup := by
  refine List.Pairwise.imp ?_ d.sorted
  rintro key _ hlt rfl
  exact List.lt_irrefl key hlt

/-- Any listing of a dictionary gives it back. -/
theorem ofList_of_perm {d : Dictionary α} {es : List (Text × α)} (h : es.Perm d.entries) :
    ofList es = d := by
  refine eq_of_perm_entries (List.Perm.trans ?_ h)
  refine perm_entries_foldl_insert (d := empty) ?_
  exact ((h.map Prod.fst).nodup_iff).2 d.nodup_keys

end Overlay.Dictionary
