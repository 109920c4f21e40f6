/-
Parameter lists.

A parameter list belongs to a declaration, or to a pattern that names one by its
signature. Both promise the same two things, and the type carries them: no parameter
has an empty type, and once one parameter has a default all later ones have one too.
`ParameterList.push` is the only way to grow a list, and it says which promise would
break.

A list is also read from text, between its parentheses. Reading has its own two
faults, worded for the writer of the text; what it accepts always keeps the promises,
but that is a law about reading and not a part of it, so reading yields plain
parameters.
-/
import Overlay.Parameter

set_option autoImplicit false

namespace Overlay

/-! ## Lists that keep their promises -/

/-- The promise of a parameter list that one more parameter would break. -/
inductive ParameterFault where
  | emptyType
  | requiredAfterDefault
  deriving DecidableEq, Repr

/-- Parameters with non-empty types, of which the defaulted ones stand last. -/
structure ParameterList where
  items : List Parameter
  typed : ∀ p ∈ items, p.type.isEmpty = false
  trailing : items.Pairwise fun p q => p.default.isSome = true → q.default.isSome = true
  deriving DecidableEq

namespace ParameterList

def empty : ParameterList := ⟨[], by simp, .nil⟩

/-- The last of some parameters has a default. -/
def endsInDefault (ps : List Parameter) : Bool := ps.getLast?.any fun p => p.default.isSome

/-- In a list whose defaults stand last, a default anywhere is one at the end. -/
theorem endsInDefault_of_mem {ps : List Parameter} {p : Parameter}
    (hps : ps.Pairwise fun p q => p.default.isSome = true → q.default.isSome = true)
    (hp : p ∈ ps) (hd : p.default.isSome = true) : endsInDefault ps = true := by
  obtain ⟨qs, q, rfl⟩ : ∃ qs q, ps = qs ++ [q] :=
    ⟨_, _, (List.dropLast_concat_getLast (List.ne_nil_of_mem hp)).symm⟩
  simp only [endsInDefault, List.getLast?_concat, Option.any_some]
  rw [List.pairwise_append] at hps
  rw [List.mem_append, List.mem_singleton] at hp
  rcases hp with hp | rfl
  · exact hps.2.2 p hp q (by simp) hd
  · exact hd

/-- Adds a parameter at the end, if the promises stay. -/
def push (ps : ParameterList) (p : Parameter) : Except ParameterFault ParameterList :=
  if ht : p.type.isEmpty = true then .error .emptyType
  else if hd : p.default.isNone = true ∧ endsInDefault ps.items = true then
    .error .requiredAfterDefault
  else
    .ok ⟨ps.items ++ [p],
      by
        intro q hq
        rw [List.mem_append, List.mem_singleton] at hq
        rcases hq with hq | rfl
        · exact ps.typed q hq
        · simpa using ht,
      by
        refine List.pairwise_append.2 ⟨ps.trailing, by simp, ?_⟩
        intro q hq r hr hqd
        rw [List.mem_singleton] at hr
        subst hr
        have hend := endsInDefault_of_mem ps.trailing hq hqd
        simpa [hend, Option.isNone_iff_eq_none, Option.isSome_iff_ne_none] using hd⟩

/-- A parameter that is added comes last. -/
theorem items_of_push {ps qs : ParameterList} {p : Parameter} (h : ps.push p = .ok qs) :
    qs.items = ps.items ++ [p] := by
  simp only [push] at h
  split at h
  · simp at h
  · split at h
    · simp at h
    · simp only [Except.ok.injEq] at h
      rw [← h]

/-- The number of parameters without a default; they stand first. -/
def required (ps : ParameterList) : Nat :=
  (ps.items.takeWhile fun p => p.default.isNone).length

def hasDefaults (ps : ParameterList) : Bool := ps.items.any fun p => p.default.isSome

def types (ps : ParameterList) : List CType := ps.items.map Parameter.type

/-- Not more parameters are required than there are. -/
theorem required_le (ps : ParameterList) : ps.required ≤ ps.items.length :=
  (List.takeWhile_sublist _).length_le

end ParameterList

/-! ## Reading a list -/

inductive ListingFault where
  /-- A parameter of the list `list` has no type, or no default after its `=`. -/
  | emptyParameter (list : Text)
  /-- A parameter of type `type` has no default, and the one before it has. -/
  | requiredAfterDefault (type : CType)
  deriving DecidableEq, Repr

namespace ListingFault

def message : ListingFault → Text
  | emptyParameter list => "empty parameter in `(".toList ++ list ++ ")`".toList
  | requiredAfterDefault type =>
    "parameter `".toList ++ type.text ++ "` follows a defaulted parameter".toList

end ListingFault

namespace Parameter

/-- Reads the written parameters `pieces` of the list `list`. `afterDefault` tells whether the
parameter before them has a default. -/
def readPieces (list : Text) (afterDefault : Bool) :
    List Text → Except ListingFault (List Parameter)
  | [] => .ok []
  | piece :: rest =>
    match parse piece with
    | none => .error (.emptyParameter list)
    | some p =>
      if p.default.isNone && afterDefault then .error (.requiredAfterDefault p.type)
      else (readPieces list p.default.isSome rest).map (p :: ·)

/-- Reads what stands between the parentheses of a parameter list. Nothing and `void` are
the empty list. -/
def readList (t : Text) : Except ListingFault (List Parameter) :=
  let list := Text.trim t
  if list = [] ∨ list = "void".toList then .ok []
  else readPieces list false (Text.splitCommas list)

end Parameter

end Overlay
