/-
Reports on an interface.

A report resolves a selection of features on every variant. It lists a feature under a
variant if an entry wins there and either enables the feature or disabled features are
wanted as well; and it lists a variant if it has a feature to list, or if variants
without one are wanted. An empty selection stands for all features of the table.
-/
import Overlay.Interface

set_option autoImplicit false

namespace Overlay

structure Selection where
  /-- The features to resolve; none stands for all of the table. -/
  features : List Text
  /-- List disabled features as well. -/
  inactive : Bool
  /-- List variants without a listed feature as well. -/
  unmatched : Bool
  deriving DecidableEq, Repr

structure ReportedVariant where
  decl : Text
  wrapperName : Text
  overloadSuffix : Text
  isReduced : Bool
  /-- The listed features with what they come to. -/
  features : List (Text × Resolution)
  deriving DecidableEq

structure Report where
  variants : List ReportedVariant
  diagnostics : List Text
  /-- The number of variants of the interface. -/
  variantCount : Nat
  /-- The number of pairs of a variant and a feature that were looked at. -/
  queries : Nat
  deriving DecidableEq

namespace Interface

/-- The features that a selection stands for. -/
def selected (i : Interface) (s : Selection) : List Text :=
  if s.features = [] then i.table.featureNames else s.features

/-- The entry of a feature under a variant, if it is listed. -/
def listed? (i : Interface) (s : Selection) (v : Variant) (feature : Text) :
    Option (Text × Resolution) :=
  match i.resolver.matched v feature with
  | none => none
  | some _ =>
    let resolution := i.resolve v feature
    if resolution.active || s.inactive then some (feature, resolution) else none

/-- The entry of a variant, if it is listed. -/
def reported? (i : Interface) (s : Selection) (v : Variant) : Option ReportedVariant :=
  let features := (i.selected s).filterMap (i.listed? s v)
  if features = [] ∧ s.unmatched = false then none
  else
    let facts := i.resolver.facts v
    some ⟨facts.decl, facts.wrapperName, facts.overloadSuffix, v.isReduced, features⟩

def report (i : Interface) (s : Selection) : Report where
  variants := i.variants.filterMap (i.reported? s)
  diagnostics := i.table.diagnostics.map Feature.Diagnostic.message
  variantCount := i.variants.length
  queries := i.variants.length * (i.selected s).length

end Interface

end Overlay
