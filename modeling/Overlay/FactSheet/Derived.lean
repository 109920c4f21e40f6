/-
The facts about a variant.

Every fact is derived from the variant, the scope graph and the options. For the variant
`char * Special::something(char const *)` the action is

  result = (char *)Special::something(arg1);

The wrapper is named by the scopes, from the outermost in. The innermost scope goes by
its target name, the scopes around it are mangled; so is no other part of the name.
-/
import Overlay.Options
import Overlay.ScopeGraph
import Overlay.Template.Placeholder
import Overlay.Variant

set_option autoImplicit false

namespace Overlay

namespace Variant

/-! ## The invocation -/

/-- The names of `count` wrapper arguments, the first of them with number `first`. -/
def argumentNames (first count : Nat) : List Text :=
  (List.range' first count).map fun i => "arg".toList ++ Nat.toDigits 10 i

/-- The arguments that are passed on. The object of an instance member is the first argument
of its wrapper, and is not passed on. -/
def arguments (v : Variant) : Text :=
  let names := argumentNames (if v.kind.hasReceiver then 2 else 1) v.arity
  "(".toList ++ ", ".toList.intercalate names ++ ")".toList

def invocation (v : Variant) : Text :=
  match v.kind with
  | .method => "(arg1)->".toList ++ v.leaf ++ v.arguments
  | .memberVariable => "(arg1)->".toList ++ v.leaf
  | .function | .staticMethod => v.decl.name.display ++ v.arguments
  | .freeVariable => v.decl.name.display

/-- The statement around the expression, which keeps the result if there is one. -/
def action (v : Variant) : Text :=
  match v.decl.returns with
  | some type =>
    if type.isVoid then v.invocation ++ ";".toList
    else "result = (".toList ++ type.text ++ ")".toList ++ v.invocation ++ ";".toList
  | none => v.invocation ++ ";".toList

/-! ## The written declaration -/

def declText (v : Variant) : Text :=
  if v.kind.isCallable then
    v.decl.name.display ++ "(".toList ++ ", ".toList.intercalate (v.types.map CType.text)
      ++ ")".toList ++ (if v.decl.isConst then " const".toList else [])
  else v.decl.name.display

def fullDeclText (v : Variant) : Text :=
  match v.decl.returns with
  | some type => type.text ++ " ".toList ++ v.declText
  | none => v.declText

/-! ## Names -/

def overloadSuffix (v : Variant) (o : Options) : Text :=
  match v.overload with
  | some n => o.overloadLead ++ Nat.toDigits 10 n
  | none => []

def scopedSymbol (v : Variant) (g : ScopeGraph) : Text :=
  match v.scope.parent? with
  | none => v.decl.symbol
  | some outer =>
    (if outer.isGlobal then [] else outer.mangled ++ "_".toList)
      ++ g.targetName v.scope ++ "_".toList ++ v.decl.symbol

def wrapperName (v : Variant) (g : ScopeGraph) (o : Options) : Text :=
  o.wrapperLead ++ v.scopedSymbol g ++ v.overloadSuffix o

def hasParentClass (v : Variant) : Bool := v.kind.isMember && !v.scope.isGlobal

end Variant

namespace FactSheet

def ofVariant (v : Variant) (g : ScopeGraph) (o : Options) : FactSheet where
  action := v.action
  name := v.decl.name.display
  symbol := v.decl.symbol
  overloadSuffix := v.overloadSuffix o
  wrapperName := v.wrapperName g o
  decl := v.declText
  fullDecl := v.fullDeclText
  parentClass := if v.hasParentClass then v.scope.display else []
  parentClassTarget := if v.hasParentClass then g.targetName v.scope else []

end FactSheet

end Overlay
