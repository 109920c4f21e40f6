/-
Dictionaries: values under texts, sorted by text.

A dictionary is a list of keys with their values, the keys in strictly ascending order
of their characters. So each key stands once, two dictionaries that hold the same are
equal, and listing one needs no sorting. Inserting puts the value in its place, or puts
it where the key already stood.

What a dictionary holds is read by `get?`; `get?_insert` is the one law that its users
need.
-/
import Overlay.Text.Blank

set_option autoImplicit false

namespace Overlay

/-- Values under texts, in ascending order of the texts. -/
structure Dictionary (α : Type) where
  entries : List (Text × α)
  sorted : (entries.map Prod.fst).Pairwise (· < ·)
  deriving DecidableEq

namespace Dictionary

variable {α : Type}

def empty : Dictionary α := ⟨[], .nil⟩

/-! ## Lists of entries -/

/-- Puts a value in its place among sorted entries. -/
def place (key : Text) (value : α) : List (Text × α) → List (Text × α)
  | [] => [(key, value)]
  | e :: r =>
    if key = e.1 then (key, value) :: r
    else if key < e.1 then (key, value) :: e :: r
    else e :: place key value r

def find (key : Text) : List (Text × α) → Option α
  | [] => none
  | e :: r => if key = e.1 then some e.2 else find key r

/-- Placing adds the key and no other. -/
theorem mem_keys_place {key k : Text} {value : α} {es : List (Text × α)} :
    k ∈ (place key value es).map Prod.fst ↔ k = key ∨ k ∈ es.map Prod.fst := by
  induction es with
  | nil => simp [place]
  | cons e r ih =>
    rw [place]
    split
    · rename_i h
      subst h
      simp
    · split
      · simp
      · rw [List.map_cons, List.mem_cons, ih, List.map_cons, List.mem_cons]
        exact or_left_comm

theorem sorted_place {key : Text} {value : α} {es : List (Text × α)}
    (h : (es.map Prod.fst).Pairwise (· < ·)) :
    ((place key value es).map Prod.fst).Pairwise (· < ·) := by
  induction es with
  | nil => simp [place]
  | cons e r ih =>
    rw [List.map_cons, List.pairwise_cons] at h
    rw [place]
    split
    · rename_i heq
      subst heq
      exact List.pairwise_cons.2 h
    · rename_i hne
      split
      · rename_i hlt
        refine List.pairwise_cons.2 ⟨?_, List.pairwise_cons.2 h⟩
        intro k hk
        rw [List.map_cons, List.mem_cons] at hk
        rcases hk with rfl | hk
        · exact hlt
        · exact List.lt_trans hlt (h.1 k hk)
      · rename_i hge
        refine List.pairwise_cons.2 ⟨?_, ih h.2⟩
        intro k hk
        rcases mem_keys_place.1 hk with rfl | hk
        · exact (List.le_iff_lt_or_eq.1 (List.not_lt.1 hge)).resolve_right (Ne.symm hne)
        · exact h.1 k hk

/-- A placed value is found under its key, and what is found elsewhere stays. -/
theorem find_place (key k : Text) (value : α) (es : List (Text × α)) :
    find k (place key value es) = if k = key then some value else find k es := by
  induction es with
  | nil => simp [place, find]
  | cons e r ih =>
    rw [place]
    split
    · rename_i h
      subst h
      by_cases hk : k = e.1 <;> simp [find, hk]
    · rename_i hne
      split
      · by_cases hk : k = key <;> simp [find, hk]
      · rw [find, ih, find]
        by_cases hk : k = e.1
        · simp [hk, Ne.symm hne]
        · simp [hk]

/-! ## Dictionaries -/

def get? (d : Dictionary α) (key : Text) : Option α := find key d.entries

def insert (d : Dictionary α) (key : Text) (value : α) : Dictionary α :=
  ⟨place key value d.entries, sorted_place d.sorted⟩

def ofList (es : List (Text × α)) : Dictionary α :=
  es.foldl (fun d e => d.insert e.1 e.2) empty

def keys (d : Dictionary α) : List Text := d.entries.map Prod.fst

@[simp] theorem get?_empty (key : Text) : (empty : Dictionary α).get? key = none := rfl

/-- After an insertion the key has its new value and all other keys what they had. -/
theorem get?_insert (d : Dictionary α) (key k : Text) (value : α) :
    (d.insert key value).get? k = if k = key then some value else d.get? k :=
  find_place key k value d.entries

theorem mem_keys_insert {d : Dictionary α} {key k : Text} {value : α} :
    k ∈ (d.insert key value).keys ↔ k = key ∨ k ∈ d.keys :=
  mem_keys_place

end Dictionary

end Overlay
