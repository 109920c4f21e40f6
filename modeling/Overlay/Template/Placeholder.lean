/-
The placeholders of a template, and the facts that fill them.

There are nine placeholders, each written as `$` and a word. A fact sheet has one text
for each of them, so that filling in is total: there is no placeholder without a fact
and no fact without a placeholder.
-/
import Overlay.Text.Cut

set_option autoImplicit false

namespace Overlay

/-- What a template can ask for. -/
inductive Placeholder where
  /-- The invocation of this very overload. -/
  | action
  | name
  | symname
  /-- The suffix that tells overloads apart; empty where there are none. -/
  | overname
  | wrapname
  | decl
  | fulldecl
  | parentclassname
  | parentclasssymname
  deriving DecidableEq, Repr

namespace Placeholder

def all : List Placeholder :=
  [action, name, symname, overname, wrapname, decl, fulldecl, parentclassname,
   parentclasssymname]

def word : Placeholder → Text
  | action => "action".toList
  | name => "name".toList
  | symname => "symname".toList
  | overname => "overname".toList
  | wrapname => "wrapname".toList
  | decl => "decl".toList
  | fulldecl => "fulldecl".toList
  | parentclassname => "parentclassname".toList
  | parentclasssymname => "parentclasssymname".toList

def ofWord? (w : Text) : Option Placeholder := all.find? fun p => p.word == w

/-- The placeholder of a whole token, `$` included. -/
def ofToken? : Text → Option Placeholder
  | '$' :: w => ofWord? w
  | _ => none

theorem mem_all (p : Placeholder) : p ∈ all := by
  cases p <;> decide

/-- A word belongs to a placeholder exactly if it is that placeholder's word. -/
theorem ofWord?_eq_some_iff {w : Text} {p : Placeholder} : ofWord? w = some p ↔ p.word = w := by
  constructor
  · intro h
    simpa using List.find?_some h
  · rintro rfl
    cases p <;> decide

end Placeholder

/-- The facts about a variant that a template can ask for. -/
structure FactSheet where
  action : Text
  name : Text
  symbol : Text
  overloadSuffix : Text
  wrapperName : Text
  decl : Text
  fullDecl : Text
  parentClass : Text
  parentClassTarget : Text
  deriving DecidableEq, Repr

namespace FactSheet

def get (f : FactSheet) : Placeholder → Text
  | .action => f.action
  | .name => f.name
  | .symname => f.symbol
  | .overname => f.overloadSuffix
  | .wrapname => f.wrapperName
  | .decl => f.decl
  | .fulldecl => f.fullDecl
  | .parentclassname => f.parentClass
  | .parentclasssymname => f.parentClassTarget

/-- The fact for a whole token, if it is a placeholder. -/
def get? (f : FactSheet) (token : Text) : Option Text :=
  (Placeholder.ofToken? token).map f.get

end FactSheet

end Overlay
