/-
Aliases of directives.

An alias is a directive of its own name that stands for a fixed feature and a fixed way
to set it: to one value, to the empty value, or to a body. An alias of the last kind
enables the feature with the body that follows it, and clears it if none follows; the
others take no body.
-/
import Overlay.Text.Blank

set_option autoImplicit false

namespace Overlay

/-- How an alias sets its feature. -/
inductive AliasValue where
  | set (token : Text)
  | clear
  | body
  deriving DecidableEq, Repr

/-- A directive that stands for a feature and a value. -/
structure Alias where
  directive : Text
  feature : Text
  value : AliasValue
  deriving DecidableEq, Repr

/-- The feature that keeps the default arguments of a declaration together. -/
def compactFeature : Text := "compactdefaultargs".toList

namespace Alias

/-- All aliases, in ascending order of their directives. -/
def all : List Alias :=
  [⟨"allowexception".toList, "except:allowed".toList, .set ['1']⟩,
   ⟨"clearallowexception".toList, "except:allowed".toList, .clear⟩,
   ⟨"clearcompactdefaultargs".toList, compactFeature, .clear⟩,
   ⟨"cleardelobject".toList, "del".toList, .clear⟩,
   ⟨"clearexception".toList, "except".toList, .clear⟩,
   ⟨"clearnewobject".toList, "new".toList, .clear⟩,
   ⟨"compactdefaultargs".toList, compactFeature, .set ['1']⟩,
   ⟨"delobject".toList, "del".toList, .set ['1']⟩,
   ⟨"exception".toList, "except".toList, .body⟩,
   ⟨"immutable".toList, "immutable".toList, .set ['1']⟩,
   ⟨"mutable".toList, "immutable".toList, .clear⟩,
   ⟨"newobject".toList, "new".toList, .set ['1']⟩,
   ⟨"nocompactdefaultargs".toList, compactFeature, .set ['0']⟩,
   ⟨"nodelobject".toList, "del".toList, .set ['0']⟩,
   ⟨"noexception".toList, "except".toList, .set ['0']⟩,
   ⟨"nonewobject".toList, "new".toList, .set ['0']⟩]

def ofDirective? (directive : Text) : Option Alias := all.find? fun a => a.directive == directive

def takesBody (a : Alias) : Bool := a.value = .body

/-- The value that the alias stands for, with or without a body behind it. -/
def token (a : Alias) (hasBody : Bool) : Text :=
  match a.value with
  | .set t => t
  | .clear => []
  | .body => if hasBody then ['1'] else []

/-- The directives of the aliases are in ascending order, so each occurs once. -/
theorem directives_sorted : (all.map directive).Pairwise (· < ·) := by
  decide

end Alias

end Overlay
