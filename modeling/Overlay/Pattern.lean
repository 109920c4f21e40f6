/-
Patterns: which declarations a directive is about.

The global pattern is about all of them. Any other names a leaf and may say more: the
scope the leaf must stand in, and the signature it must have. A bare name and `*::name`
are about the same declarations, yet they are two patterns: patterns are compared by
what was written, not by what they match.

A signature is a parameter list and a `const`. With defaults it is the declared form of
a callable and stands for every variant of that; without, it is one arity.

How much a pattern says is its specificity. Of several patterns for one variant the most
specific wins: scope before signature, signature before name, name before nothing.
-/
import Overlay.Violation

set_option autoImplicit false

namespace Overlay

/-! ## Signatures -/

structure Signature where
  params : ParameterList
  isConst : Bool
  deriving DecidableEq

namespace Signature

def pushAll (params : ParameterList) (index : Nat) :
    List Parameter → Except Violation ParameterList
  | [] => .ok params
  | p :: ps =>
    match params.push p with
    | .ok params' => pushAll params' (index + 1) ps
    | .error fault => .error (.signatureParameter index fault)

def ofParameters (ps : List Parameter) (isConst : Bool) : Except Violation Signature :=
  (pushAll .empty 0 ps).map fun params => ⟨params, isConst⟩

def display (s : Signature) : Text :=
  "(".toList ++ ", ".toList.intercalate (s.params.items.map Parameter.display) ++ ")".toList
    ++ (if s.isConst then " const".toList else [])

end Signature

/-! ## Patterns -/

/-- How a pattern limits the scope. -/
inductive ScopeLimit where
  | unqualified
  | wildcard
  /-- One scope, or one that inherits the member from it. -/
  | exact (scope : ScopePath)
  deriving DecidableEq, Repr

/-- What a directive is about. -/
inductive Pattern where
  | global
  /-- The declarations of one leaf name, within the limits given. -/
  | named (limit : ScopeLimit) (leaf : Text) (signature : Option Signature)
  deriving DecidableEq

namespace Pattern

def ofName (leaf : Text) : Pattern := named .unqualified leaf none

def ofWildcard (leaf : Text) : Pattern := named .wildcard leaf none

def ofScoped (scope : ScopePath) (leaf : Text) : Pattern := named (.exact scope) leaf none

/-- Gives a pattern a signature, which the global pattern cannot have. -/
def withSignature (p : Pattern) (s : Signature) : Except Violation Pattern :=
  match p with
  | global => .error .signatureOnGlobal
  | named limit leaf _ => .ok (named limit leaf (some s))

def isGlobal : Pattern → Bool
  | global => true
  | named .. => false

def leaf? : Pattern → Option Text
  | global => none
  | named _ leaf _ => some leaf

def displayLimit : ScopeLimit → Text
  | .unqualified => []
  | .wildcard => "*::".toList
  | .exact scope => scope.display ++ "::".toList

def display : Pattern → Text
  | global => "<global>".toList
  | named limit leaf signature =>
    displayLimit limit ++ leaf ++ (signature.map Signature.display).getD []

/-! ## Specificity -/

/-- How much a pattern says, from least to most. -/
inductive Specificity where
  | global
  | name
  | nameSignature
  | scopedName
  | scopedNameSignature
  deriving DecidableEq, Repr

namespace Specificity

def level : Specificity → Nat
  | global => 0
  | name => 1
  | nameSignature => 2
  | scopedName => 3
  | scopedNameSignature => 4

theorem level_injective {a b : Specificity} (h : a.level = b.level) : a = b := by
  cases a <;> cases b <;> first | rfl | simp [level] at h

end Specificity

def specificity : Pattern → Specificity
  | global => .global
  | named (.exact _) _ (some _) => .scopedNameSignature
  | named (.exact _) _ none => .scopedName
  | named _ _ (some _) => .nameSignature
  | named _ _ none => .name

/-- Only the global pattern is of the lowest class. -/
theorem specificity_eq_global_iff {p : Pattern} : p.specificity = .global ↔ p = .global := by
  cases p with
  | global => simp [specificity]
  | named limit leaf signature =>
    cases limit <;> cases signature <;> simp [specificity]

end Pattern

end Overlay
