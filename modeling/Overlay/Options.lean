/-
What can be chosen about an interface: whether default arguments are expanded, and how
the names of wrappers and overloads start.
-/
import Overlay.Text.Blank

set_option autoImplicit false

namespace Overlay

structure Options where
  /-- Emit the full parameter list alone. -/
  compactDefaults : Bool
  /-- What the name of a wrapper starts with. -/
  wrapperLead : Text
  /-- What stands between the name of an overload and its number. -/
  overloadLead : Text
  deriving DecidableEq, Repr

namespace Options

def standard : Options := ⟨false, "_wrap_".toList, "__SWIG_".toList⟩

end Options

end Overlay
