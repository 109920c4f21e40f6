/-
Tables and queries, with their places and arities.

A table that is written holds slots, and a registry says which slot is emptied. A finished one
holds entries, and an index says at which places the candidates of a query stand. A variant takes
the first parameters of its declaration, as many as its arity says; the arity is asserted to be
one that the defaults allow where a variant is made, and bounds a slice of the parameters
wherever they are asked for.

None of these can go wrong: the registry agrees with the slots (`Draft.Coherent`), the index with
the entries (`Table.indexed`), and an arity that is emitted lies within its bounds.
-/
import Overlay.Proofs.Checked.Slice
import Overlay.Proofs.Feature.History
import Overlay.Proofs.Feature.Precedence

set_option autoImplicit false

namespace Overlay.Checked

open Feature (Draft Entry Key Rank Table)

variable {ε : Type} {v : Variant}

/-! ## Recording

A directive that was given before under the same key leaves its slot empty. The slot is found by the
key, so it must be one of the slots: that is what coherence promises. -/

/-- Empties a slot, which must be there. -/
def vacate (d : Draft) (key : Key) (slot : Nat) : Checked ε Draft :=
  if slot < d.slots.length then .ok (d.vacate key slot) else crash .index

def define (d : Draft) (e : Entry) : Checked ε Draft :=
  let placed := e.placed d.nextSequence
  match d.live.get? e.key with
  | some slot => do
    let vacated ← vacate d.tick e.key slot
    if e.value = .cleared then return vacated else return vacated.occupy placed
  | none =>
    if e.value = .cleared then .ok (d.tick.complain placed) else .ok (d.tick.occupy placed)

/-- In a coherent draft the slot that a directive leaves is there. -/
theorem define_eq {d : Draft} (h : d.Coherent) (e : Entry) :
    (define d e : Checked ε _) = .ok (d.define e) := by
  rw [define, Draft.define, Draft.record]
  cases hlive : d.live.get? e.key with
  | none =>
    by_cases hclear : e.value = .cleared
    · simp only [if_pos hclear]
    · simp only [if_neg hclear]
  | some slot =>
    obtain ⟨held, hheld, -⟩ := (h e.key slot).1 hlive
    have hslot : slot < d.tick.slots.length := (List.getElem?_eq_some_iff.1 hheld).1
    simp only [vacate, if_pos hslot, ok_bind]
    by_cases hclear : e.value = .cleared
    · simp only [if_pos hclear]
      rfl
    · simp only [if_neg hclear]
      rfl

/-! ## Variants

The number of parameters is the arity of the full form. Whoever makes a variant asserts that its
arity is none that the declaration does not have. -/

/-- A form of a declaration, which must take the required parameters and no more than all. -/
def newVariant (d : Declaration) (arity : Nat) : Checked ε Variant :=
  if arity ≤ d.arity ∧ d.params.required ≤ arity then .ok (.ofArity d arity) else crash .arity

/-- The full form can always be made. -/
theorem newVariant_full (d : Declaration) : (newVariant d d.arity : Checked ε _) = .ok (.full d) :=
  if_pos ⟨Nat.le_refl _, d.params.required_le⟩

/-- The forms of a declaration. -/
def variants (d : Declaration) (mode : DefaultMode) : Checked ε (List Variant) :=
  (d.arities mode).mapM (newVariant d)

/-- The arities of a declaration are within its parameters, so each of them can be made. -/
theorem variants_eq (d : Declaration) (mode : DefaultMode) :
    (variants d mode : Checked ε _) = .ok (d.variants mode) := by
  refine mapM_eq_ok fun n hn => ?_
  obtain ⟨hrequired, harity⟩ := Declaration.bounds_of_mem_arities hn
  exact if_pos ⟨harity, hrequired⟩

/-- The parameters of a variant: a slice of those of its declaration. -/
def signature (v : Variant) : Checked ε (List Parameter) :=
  if v.arity ≤ v.decl.arity then .ok (v.decl.params.items.take v.arity) else crash .slice

def types (v : Variant) : Checked ε (List CType) :=
  (signature v).map fun ps => ps.map Parameter.type

/-- The parameters of a variant are the first ones of its declaration, and there are as many. -/
theorem types_eq (hv : v.arity ≤ v.decl.arity) : (types v : Checked ε _) = .ok v.types := by
  rw [types, signature, if_pos hv]
  rfl

/-! ## Matching

A signature without defaults is compared with the types of a variant, for which the parameters are
sliced. Otherwise nothing here can go wrong but a place in the index that is not in the table. -/

def agrees (s : Signature) (v : Variant) : Checked ε Bool :=
  if v.kind.isCallable && s.isConst == v.decl.isConst then
    if s.params.hasDefaults then .ok (s.params = v.decl.params)
    else if s.params.items.length = v.arity then do
      let ts ← types v
      return s.params.types = ts
    else .ok false
  else .ok false

def depth? (p : Pattern) (v : Variant) (g : ScopeGraph) : Checked ε (Option Nat) :=
  match p with
  | .global => .ok (some 0)
  | .named limit leaf signature =>
    if leaf = v.leaf then do
      let agreed ← match signature with
        | some s => agrees s v
        | none => .ok true
      if agreed then return limit.depth? leaf v g else return none
    else .ok none

def rank? (e : Entry) (v : Variant) (g : ScopeGraph) : Checked ε (Option Rank) :=
  if e.inTimeFor v then
    (depth? e.pattern v g).map fun depth =>
      depth.map fun depth => ⟨e.pattern.specificity, depth, e.sequence⟩
  else .ok none

/-- The entry at a place and its rank for a variant. -/
def ranked (t : Table) (v : Variant) (g : ScopeGraph) (place : Nat) :
    Checked ε (Option (Rank × Entry)) :=
  match t.entries[place]? with
  | some e => (rank? e v g).map fun rank => rank.map fun rank => (rank, e)
  | none => crash .index

def bestMatch (t : Table) (feature : Text) (v : Variant) (g : ScopeGraph) :
    Checked ε (Option Entry) := do
  let competing ← (t.index.candidates feature v.leaf).mapM (ranked t v g)
  return ((competing.filterMap id).foldl Entry.better none).map Prod.snd

/-- Where the arities differ the types do as well. -/
theorem agrees_eq (hv : v.arity ≤ v.decl.arity) (s : Signature) :
    (agrees s v : Checked ε _) = .ok (s.agrees v) := by
  rw [agrees, Signature.agrees]
  by_cases hkind : (v.kind.isCallable && s.isConst == v.decl.isConst) = true
  · rw [if_pos hkind, hkind, Bool.true_and]
    by_cases hdefaults : s.params.hasDefaults = true
    · rw [if_pos hdefaults, if_pos hdefaults]
    · rw [if_neg hdefaults, if_neg hdefaults]
      by_cases hlen : s.params.items.length = v.arity
      · rw [if_pos hlen, types_eq hv]
        rfl
      -- the arities are compared first here, which `Signature.agrees` leaves to the types
      · have hne : s.params.types ≠ v.types := by
          intro heq
          have hlength := congrArg List.length heq
          rw [ParameterList.types, Variant.types, Variant.signature, List.length_map,
            List.length_map, List.length_take] at hlength
          exact hlen (hlength.trans (Nat.min_eq_left hv))
        rw [if_neg hlen, decide_eq_false hne]
  · rw [if_neg hkind, Bool.eq_false_iff.2 hkind, Bool.false_and]

/-- A pattern asks for the types of a variant only through its signature. -/
theorem depth?_eq (hv : v.arity ≤ v.decl.arity) (p : Pattern) (g : ScopeGraph) :
    (depth? p v g : Checked ε _) = .ok (p.depth? v g) := by
  cases p with
  | global => rfl
  | named limit leaf signature =>
    rw [depth?, Pattern.depth?]
    by_cases hleaf : leaf = v.leaf
    · rw [if_pos hleaf]
      cases signature with
      | none =>
        rw [if_pos ⟨hleaf, rfl⟩]
        rfl
      | some s =>
        simp only [agrees_eq hv, ok_bind]
        by_cases hagrees : s.agrees v = true
        · rw [if_pos hagrees, if_pos ⟨hleaf, hagrees⟩]
          rfl
        · rw [if_neg hagrees, if_neg fun h => hagrees h.2]
          rfl
    · rw [if_neg hleaf, if_neg fun h => hleaf h.1]

/-- An entry has a rank if its pattern matches. -/
theorem rank?_eq (hv : v.arity ≤ v.decl.arity) (e : Entry) (g : ScopeGraph) :
    (rank? e v g : Checked ε _) = .ok (e.rank? v g) := by
  rw [rank?, Entry.rank?, depth?_eq hv]
  exact (apply_ite Except.ok _ _ _).symm

/-- **What wins is found without a crash.** The index lists places of the table, so every entry that
it lists is there. -/
theorem bestMatch_eq (hv : v.arity ≤ v.decl.arity) (t : Table) (feature : Text)
    (g : ScopeGraph) :
    (bestMatch t feature v g : Checked ε _) = .ok (t.bestMatch feature v g) := by
  -- the index lists places of the table only, so each candidate is there
  have hranked : ∀ place ∈ t.index.candidates feature v.leaf,
      (ranked t v g place : Checked ε _)
        = .ok (t.entries[place]?.bind fun e => (e.rank? v g).map fun rank => (rank, e)) := by
    intro place hplace
    rw [t.indexed] at hplace
    obtain ⟨e, he, -⟩ := (Feature.Index.mem_candidates_ofEntries _ _ _ _).1 hplace
    rw [ranked, he]
    simp only [rank?_eq hv]
    rfl
  rw [bestMatch, mapM_eq_ok hranked, ok_bind, Table.bestMatch, Entry.best, Table.candidates,
    List.filterMap_filterMap, List.filterMap_map]
  rfl

end Overlay.Checked
