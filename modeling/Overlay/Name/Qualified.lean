/-
Qualified names: a scope path and the leaf name in it.

Of a written name the last segment is the leaf, and it may be empty; the others make the
scope as in any path. So `::f` and `f` are the same name.
-/
import Overlay.Name.Scope

set_option autoImplicit false

namespace Overlay

/-- A leaf name in a scope. -/
structure QualifiedName where
  scope : ScopePath
  leaf : Text
  deriving DecidableEq, Repr

namespace QualifiedName

def parse (t : Text) : QualifiedName :=
  let segments := Text.splitScopes (Text.trim t)
  ⟨⟨segments.dropLast.filter fun s => !s.isEmpty⟩, segments.getLast?.getD []⟩

def display (n : QualifiedName) : Text :=
  if n.scope.isGlobal then n.leaf else n.scope.display ++ "::".toList ++ n.leaf

theorem display_of_isGlobal (n : QualifiedName) (h : n.scope.isGlobal = true) :
    n.display = n.leaf := by
  simp [display, h]

end QualifiedName

end Overlay
