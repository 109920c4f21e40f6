/-
Declarations.

A declaration is one unit of the interface: its kind, its qualified name, its parameter
list with the trailing defaults, and what else was said of it. It is built from a kind
and a name by adding one thing at a time. Adding a parameter can fail, since the
parameter list keeps its promises; all else always succeeds.

Once a declaration is part of an interface it has a position, the place in the stream
of declarations and directives where it was registered.
-/
import Overlay.Violation

set_option autoImplicit false

namespace Overlay

/-! ## Kinds -/

inductive DeclKind where
  | function
  | method
  | staticMethod
  | freeVariable
  | memberVariable
  deriving DecidableEq, Repr

namespace DeclKind

/-- The kinds with a parameter list. -/
def isCallable : DeclKind → Bool
  | function | method | staticMethod => true
  | freeVariable | memberVariable => false

/-- The kinds that a scope can inherit from its bases. -/
def isMember : DeclKind → Bool
  | method | staticMethod | memberVariable => true
  | function | freeVariable => false

/-- The kinds whose wrapper takes the object as its first argument. -/
def hasReceiver : DeclKind → Bool
  | method | memberVariable => true
  | function | staticMethod | freeVariable => false

def keyword : DeclKind → Text
  | function => "function".toList
  | method => "method".toList
  | staticMethod => "static".toList
  | freeVariable => "variable".toList
  | memberVariable => "member".toList

def all : List DeclKind := [function, method, staticMethod, freeVariable, memberVariable]

def ofKeyword (word : Text) : Option DeclKind := all.find? fun kind => kind.keyword == word

theorem ofKeyword_keyword (kind : DeclKind) : ofKeyword kind.keyword = some kind := by
  cases kind <;> decide

end DeclKind

/-! ## Declarations -/

structure Declaration where
  kind : DeclKind
  name : QualifiedName
  params : ParameterList
  returns : Option CType
  /-- The name in the target language, where it differs from the leaf name. -/
  targetName : Option Text
  isConst : Bool
  /-- The member was copied into its scope from a base. -/
  isInherited : Bool
  /-- The place in the stream of declarations and directives, once registered. -/
  position : Option Nat
  deriving DecidableEq

namespace Declaration

def named (kind : DeclKind) (name : QualifiedName) : Declaration :=
  ⟨kind, name, .empty, none, none, false, false, none⟩

/-- Adds a parameter at the end, if the promises of the parameter list stay. -/
def withParameter (d : Declaration) (p : Parameter) : Except Violation Declaration :=
  match d.params.push p with
  | .ok params => .ok { d with params := params }
  | .error fault => .error (.declarationParameter d.name fault)

def withParameters (d : Declaration) : List Parameter → Except Violation Declaration
  | [] => .ok d
  | p :: ps =>
    match d.withParameter p with
    | .ok d' => d'.withParameters ps
    | .error violation => .error violation

def leaf (d : Declaration) : Text := d.name.leaf

def scope (d : Declaration) : ScopePath := d.name.scope

/-- The name in the target language. -/
def symbol (d : Declaration) : Text := d.targetName.getD d.leaf

def arity (d : Declaration) : Nat := d.params.items.length

end Declaration

end Overlay
