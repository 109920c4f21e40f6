/-
Broken promises of the builders.

Declarations and patterns can be built piece by piece. Each builder promises something
about its result, and refuses a piece that would break the promise. A violation names
the refusal; it is a fault of the caller, and readers of text never cause one.
-/
import Overlay.Name.Qualified
import Overlay.Parameter.Listing

set_option autoImplicit false

namespace Overlay

inductive Violation where
  /-- A parameter of the declaration `name` breaks the promises of a parameter list. -/
  | declarationParameter (name : QualifiedName) (fault : ParameterFault)
  /-- The parameter at `index` of a signature breaks the promises of a parameter list. -/
  | signatureParameter (index : Nat) (fault : ParameterFault)
  /-- The global pattern was given a signature, but has no name to go with it. -/
  | signatureOnGlobal
  deriving DecidableEq, Repr

namespace Violation

def message : Violation → Text
  | declarationParameter name .emptyType =>
    "parameter of `".toList ++ name.display ++ "` has an empty type".toList
  | declarationParameter name .requiredAfterDefault =>
    "`".toList ++ name.display ++ "`: only trailing parameters may have defaults".toList
  | signatureParameter index .emptyType =>
    "malformed signature: parameter ".toList ++ Nat.toDigits 10 index
      ++ " has an empty type".toList
  | signatureParameter index .requiredAfterDefault =>
    "malformed signature: parameter ".toList ++ Nat.toDigits 10 index
      ++ " follows a defaulted parameter".toList
  | signatureOnGlobal => "a global pattern cannot carry a signature".toList

end Violation

end Overlay
