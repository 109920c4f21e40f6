/-
Variants: what is emitted for a declaration.

A parameter with a default can be left out, and since defaults stand last, so can any
number of them from the end. Each number of parameters that remains is one variant of
the declaration, its arity. Emission goes from the full list down to the parameters
that have no default, or stops at the full list in compact mode.

A variant keeps its declaration, so that everything else about it (types, kind, scope)
is a view on that.
-/
import Overlay.Declaration

set_option autoImplicit false

namespace Overlay

/-- One emitted form of a declaration. -/
structure Variant where
  decl : Declaration
  arity : Nat
  /-- The number among the overloads of the same name, where there are several. -/
  overload : Option Nat
  deriving DecidableEq

namespace Variant

/-- The form of a declaration that takes the parameters up to `arity`. -/
def ofArity (d : Declaration) (arity : Nat) : Variant := ⟨d, arity, none⟩

/-- The form that takes all parameters. -/
def full (d : Declaration) : Variant := ofArity d d.arity

def kind (v : Variant) : DeclKind := v.decl.kind

def leaf (v : Variant) : Text := v.decl.leaf

def scope (v : Variant) : ScopePath := v.decl.scope

def position (v : Variant) : Option Nat := v.decl.position

def signature (v : Variant) : List Parameter := v.decl.params.items.take v.arity

def types (v : Variant) : List CType := v.signature.map Parameter.type

def isReduced (v : Variant) : Bool := v.arity < v.decl.arity

/-- The form is one that the defaults of `d` give rise to. -/
def isDefaultFormOf (v : Variant) (d : Declaration) : Bool :=
  d.params.hasDefaults && v.decl = d

end Variant

/-! ## Emission -/

/-- How the defaults of a declaration are emitted. -/
inductive DefaultMode where
  | expand
  | compact
  deriving DecidableEq, Repr

namespace Declaration

/-- The arities to emit, in order. -/
def arities (d : Declaration) (mode : DefaultMode) : List Nat :=
  if mode = .compact ∨ d.params.hasDefaults = false then [d.arity]
  else (List.range' d.params.required (d.arity + 1 - d.params.required)).reverse

def variants (d : Declaration) (mode : DefaultMode) : List Variant :=
  (d.arities mode).map (Variant.ofArity d)

theorem required_eq_arity (d : Declaration) (h : d.params.hasDefaults = false) :
    d.params.required = d.arity := by
  have hall : ∀ p ∈ d.params.items, p.default.isNone = true := by
    simpa [ParameterList.hasDefaults] using h
  simp only [ParameterList.required, arity]
  generalize d.params.items = ps at hall
  induction ps with
  | nil => rfl
  | cons p ps ih =>
    have hp : p.default.isNone = true := hall p List.mem_cons_self
    have hps := ih fun q hq => hall q (List.mem_cons_of_mem p hq)
    rw [List.takeWhile_cons, if_pos hp, List.length_cons, List.length_cons, hps]

/-- Every emitted arity lies between the required parameters and all of them. -/
theorem bounds_of_mem_arities {d : Declaration} {mode : DefaultMode} {n : Nat}
    (h : n ∈ d.arities mode) : d.params.required ≤ n ∧ n ≤ d.arity := by
  have hle : d.params.required ≤ d.arity := d.params.required_le
  rw [arities] at h
  split at h
  · rw [List.mem_singleton] at h
    omega
  · rw [List.mem_reverse, List.mem_range'_1] at h
    omega

end Declaration

end Overlay
