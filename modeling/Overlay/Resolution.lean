/-
Resolving a feature on a variant.

The winning entry decides. If it enables the feature, the feature is active and its body
is expanded with the facts; if it disables it, the body stays as it was written; and if
no entry wins, the feature is inactive and there is nothing else to say. The attributes
of the winning entry come along in either case.

The facts are those of the variant itself, unless others are supplied. They are only
asked for where the body has a placeholder.
-/
import Overlay.FactSheet.Derived
import Overlay.Feature.Table

set_option autoImplicit false

namespace Overlay

structure Resolution where
  active : Bool
  body : Option Text
  attributes : Dictionary Text
  deriving DecidableEq

/-- The answer where no entry wins. -/
def Resolution.inactive : Resolution := ⟨false, none, .empty⟩

structure Resolver where
  table : Feature.Table
  scopes : ScopeGraph
  options : Options
  deriving DecidableEq

namespace Resolver

/-- The winning entry for a feature, whether it enables it or not. -/
def matched (r : Resolver) (v : Variant) (feature : Text) : Option Feature.Entry :=
  r.table.bestMatch feature v r.scopes

def facts (r : Resolver) (v : Variant) : FactSheet := .ofVariant v r.scopes r.options

/-- The body of an enabled entry. Facts are only asked for where there is a placeholder. -/
def enabledBody (r : Resolver) (v : Variant) (supplied : Option FactSheet) (body : Template) :
    Text :=
  if body.placeholders = [] then body.text
  else
    match supplied with
    | some facts => body.expand facts
    | none => body.expand (r.facts v)

def resolveBy (r : Resolver) (v : Variant) (supplied : Option FactSheet)
    (winner : Option Feature.Entry) : Resolution :=
  match winner with
  | none => .inactive
  | some e =>
    if e.value.isActive then ⟨true, e.body.map (r.enabledBody v supplied), e.attributes⟩
    else ⟨false, e.body.map Template.text, e.attributes⟩

/-- What a winner comes to is seen through the facts of the variant alone. -/
theorem resolveBy_congr {r r' : Resolver} {v v' : Variant} (h : r'.facts v' = r.facts v)
    (winner : Option Feature.Entry) :
    r'.resolveBy v' none winner = r.resolveBy v none winner := by
  have hbody : r'.enabledBody v' none = r.enabledBody v none := by
    funext body
    rw [enabledBody, enabledBody, h]
  cases winner with
  | none => rfl
  | some e => rw [resolveBy, resolveBy, hbody]

def resolve (r : Resolver) (v : Variant) (feature : Text) : Resolution :=
  r.resolveBy v none (r.matched v feature)

def resolveWithFacts (r : Resolver) (v : Variant) (feature : Text) (facts : FactSheet) :
    Resolution :=
  r.resolveBy v (some facts) (r.matched v feature)

/-- The features of the table that are active on a variant, in ascending order. -/
def activeFeatures (r : Resolver) (v : Variant) : List Text :=
  r.table.featureNames.filter fun feature =>
    (r.matched v feature).any fun e => e.value.isActive

end Resolver

end Overlay
