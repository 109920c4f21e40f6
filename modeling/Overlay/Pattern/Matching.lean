/-
When a pattern matches a variant.

A match has a depth. It is zero for a direct match: the global pattern, a pattern that
leaves the scope open, or one that names the variant's own scope. A pattern that names
another scope matches a member that the variant's scope inherits from there, and then
the depth is the distance to that base.

A signature must agree with the variant as well. Only callables have one, and the
`const` must be the same. A signature with defaults must be the declared parameter list,
defaults included; one without must have the types of the parameters that the variant
takes.
-/
import Overlay.Pattern
import Overlay.ScopeGraph.Provider
import Overlay.Variant

set_option autoImplicit false

namespace Overlay

namespace Signature

/-- The signature agrees with a variant. -/
def agrees (s : Signature) (v : Variant) : Bool :=
  v.kind.isCallable && s.isConst == v.decl.isConst
    && (if s.params.hasDefaults then s.params = v.decl.params else s.params.types = v.types)

/-- A signature with defaults does not look at the arity: it agrees with all variants of a
declaration or with none. -/
theorem agrees_ofArity_of_hasDefaults {s : Signature} (h : s.params.hasDefaults = true)
    (d : Declaration) (m n : Nat) :
    s.agrees (.ofArity d m) = s.agrees (.ofArity d n) := by
  rw [agrees, agrees, if_pos h, if_pos h]
  rfl

end Signature

namespace ScopeLimit

/-- The depth at which a variant, named `leaf`, is within the limit. -/
def depth? (limit : ScopeLimit) (leaf : Text) (v : Variant) (g : ScopeGraph) : Option Nat :=
  match limit with
  | unqualified | wildcard => some 0
  | exact scope =>
    if scope = v.scope then some 0
    else if v.kind.isMember then
      ((g.providers v.scope leaf).find? fun provider => provider.1 = scope).map Prod.snd
    else none

end ScopeLimit

namespace Pattern

/-- The depth at which a pattern matches a variant; `none` if it does not. -/
def depth? (p : Pattern) (v : Variant) (g : ScopeGraph) : Option Nat :=
  match p with
  | global => some 0
  | named limit leaf signature =>
    if leaf = v.leaf ∧ signature.all (·.agrees v) = true then limit.depth? leaf v g else none

/-- A match of a named pattern is a match of its name. -/
theorem leaf_eq_of_depth?_eq_some {limit : ScopeLimit} {leaf : Text} {signature : Option Signature}
    {v : Variant} {g : ScopeGraph} {depth : Nat}
    (h : (named limit leaf signature).depth? v g = some depth) : leaf = v.leaf := by
  rw [depth?] at h
  split at h
  · rename_i hl
    exact hl.1
  · simp at h

end Pattern

end Overlay
