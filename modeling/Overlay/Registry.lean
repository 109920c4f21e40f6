/-
Registries: values under keys of any kind.

A registry holds at most one value under a key. Unlike a dictionary it keeps its keys in
no order that anything may rely on: it is only read by key, and counted. What stands under
a key after a change is said by `get?_insert` and `get?_erase`, and no other module looks
at the list behind.
-/
set_option autoImplicit false

namespace Overlay

/-- Values under keys, each key once. -/
structure Registry (κ α : Type) where
  entries : List (κ × α)
  distinct : (entries.map Prod.fst).Nodup
  deriving DecidableEq

namespace Registry

variable {κ α : Type}

def empty : Registry κ α := ⟨[], .nil⟩

def length (r : Registry κ α) : Nat := r.entries.length

def isEmpty (r : Registry κ α) : Bool := r.entries.isEmpty

def keys (r : Registry κ α) : List κ := r.entries.map Prod.fst

variable [DecidableEq κ]

def get? (r : Registry κ α) (key : κ) : Option α :=
  (r.entries.find? fun e => e.1 = key).map Prod.snd

def erase (r : Registry κ α) (key : κ) : Registry κ α :=
  ⟨r.entries.filter fun e => e.1 ≠ key, r.distinct.sublist (List.filter_sublist.map Prod.fst)⟩

theorem not_mem_keys_erase (r : Registry κ α) (key : κ) : key ∉ (r.erase key).keys := by
  intro h
  obtain ⟨e, he, rfl⟩ := List.mem_map.1 h
  simpa using (List.mem_filter.1 he).2

/-- Puts a value under a key, in place of the one that stood there. -/
def insert (r : Registry κ α) (key : κ) (value : α) : Registry κ α :=
  ⟨(key, value) :: (r.erase key).entries,
    List.nodup_cons.2 ⟨r.not_mem_keys_erase key, (r.erase key).distinct⟩⟩

/-! ## Reading by key -/

/-- A value stands under a key exactly if the two stand together in the list. -/
theorem get?_eq_some_iff {r : Registry κ α} {key : κ} {value : α} :
    r.get? key = some value ↔ (key, value) ∈ r.entries := by
  obtain ⟨es, hes⟩ := r
  show (es.find? fun e => e.1 = key).map Prod.snd = some value ↔ (key, value) ∈ es
  induction es with
  | nil => simp
  | cons e es ih =>
    obtain ⟨hnot, hes⟩ := List.nodup_cons.1 hes
    rw [List.find?_cons, List.mem_cons]
    by_cases h : e.1 = key
    · -- the key stands here, so it stands nowhere behind
      have hout : (key, value) ∉ es := by
        intro hmem
        exact hnot (List.mem_map.2 ⟨(key, value), hmem, h.symm⟩)
      simp [h, hout, Prod.ext_iff, eq_comm]
    · have hne : (key, value) ≠ e := by
        intro heq
        exact h (heq ▸ rfl)
      simp only [h, decide_false, hne, false_or]
      exact ih hes

@[simp] theorem get?_empty (key : κ) : (empty : Registry κ α).get? key = none := rfl

/-- To erase a key changes what is found for that key alone. -/
theorem get?_erase (r : Registry κ α) (key k : κ) :
    (r.erase key).get? k = if k = key then none else r.get? k := by
  refine Option.ext fun value => ?_
  rw [get?_eq_some_iff]
  by_cases h : k = key
  · simp [erase, h]
  · rw [if_neg h, get?_eq_some_iff]
    simp [erase, h]

/-- After an insertion the key has its new value and all other keys what they had. -/
theorem get?_insert (r : Registry κ α) (key k : κ) (value : α) :
    (r.insert key value).get? k = if k = key then some value else r.get? k := by
  by_cases h : k = key
  · subst h
    simp [insert, get?]
  · have hne : ¬ key = k := fun heq => h heq.symm
    have herase := r.get?_erase key k
    rw [if_neg h] at herase
    rw [if_neg h, ← herase]
    simp [insert, get?, hne]

/-- A second insertion under a key takes the place of the first. -/
theorem insert_insert (r : Registry κ α) (key : κ) (a b : α) :
    (r.insert key a).insert key b = r.insert key b := by
  have herase : ((r.insert key a).erase key).entries = (r.erase key).entries := by
    simp [insert, erase]
  simp only [insert] at herase ⊢
  simp only [herase]

/-- The keys are those for which something is found. -/
theorem mem_keys {r : Registry κ α} {key : κ} :
    key ∈ r.keys ↔ ∃ value, r.get? key = some value := by
  simp only [get?_eq_some_iff, keys, List.mem_map, Prod.exists, exists_and_right,
    exists_eq_right]

end Registry

end Overlay
