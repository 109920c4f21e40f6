/-
Numbers for overloads.

Callables that share scope and leaf name form a group. In a group of several, each
variant gets its place in the group as its number; a variant that is alone under its
name gets none. Variants that are not callable are left as they are.
-/
import Overlay.Variant

set_option autoImplicit false

namespace Overlay.Variant

/-- Both variants are callable, and share scope and leaf name. -/
def sameGroup (v w : Variant) : Bool :=
  v.kind.isCallable && w.kind.isCallable && v.scope = w.scope && v.leaf = w.leaf

def groupSize (v : Variant) (vs : List Variant) : Nat := vs.countP (v.sameGroup ·)

/-- The number of a variant with so many members of its group before and after it. -/
def numberAmong (v : Variant) (earlier later : Nat) : Option Nat :=
  if v.kind.isCallable = false then v.overload
  -- alone under its name
  else if earlier + later = 0 then none
  else some earlier

/-- Numbers the variants `vs`, which follow the variants `before`. -/
def numberAfter (before : List Variant) : List Variant → List Variant
  | [] => []
  | v :: after =>
    { v with overload := v.numberAmong (v.groupSize before) (v.groupSize after) }
      :: numberAfter (v :: before) after

def numberOverloads (vs : List Variant) : List Variant := numberAfter [] vs

theorem length_numberOverloads (vs : List Variant) :
    (numberOverloads vs).length = vs.length := by
  suffices h : ∀ before, (numberAfter before vs).length = vs.length from h []
  induction vs with
  | nil => intro _; rfl
  | cons v vs ih => intro before; simp [numberAfter, ih]

end Overlay.Variant
