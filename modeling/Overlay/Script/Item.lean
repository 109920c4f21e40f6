/-
What an interface script says, and what can be wrong with one.

A script is a sequence of items: scopes, declarations and directives, in the order in
which they are written. A text that is no script has an error: a line, counted from one,
and a cause. The causes are told apart by what they are about; their wording is in
`message`, one function for each type of cause.
-/
import Overlay.Feature.Entry
import Overlay.Pattern.Reader
import Overlay.Declaration

set_option autoImplicit false

namespace Overlay.Script

/-! ## Items -/

inductive Item where
  /-- A class with its bases and, if it was given one, its name in the target language. -/
  | scope (path : ScopePath) (bases : List ScopePath) (target : Option Text)
  | declaration (decl : Declaration)
  | directive (entry : Feature.Entry)
  deriving DecidableEq

/-! ## Causes of errors -/

/-- What can begin in a script and never end. -/
inductive Construct where
  | comment
  | statement
  | arguments
  | verbatimBody
  | bracedBody
  deriving DecidableEq, Repr

namespace Construct

def display : Construct → Text
  | comment => "comment".toList
  | statement => "statement (missing `;`)".toList
  | arguments => "`%feature(...)` argument list".toList
  | verbatimBody => "`%\x7b` body".toList
  | bracedBody => "`\x7b` body".toList

end Construct

/-- What is wrong with the form of a directive. -/
inductive DirectiveFault where
  | unnamed
  | noArguments
  | noFeature
  | strayValue (part feature : Text)
  | notAttribute (part : Text)
  | badAttribute (part : Text)
  | noEnd
  | strayBody (directive : Text)
  deriving DecidableEq, Repr

namespace DirectiveFault

def message : DirectiveFault → Text
  | unnamed => "expected a directive name after `%`".toList
  | noArguments => "expected `(` after `%feature`".toList
  | noFeature => "`%feature` needs a quoted feature name".toList
  | strayValue part feature =>
    "unexpected value `".toList ++ part ++ "` in `%feature(\"".toList ++ feature ++ "\")`".toList
  | notAttribute part => "expected `key=\"value\"`, found `".toList ++ part ++ "`".toList
  | badAttribute part => "malformed attribute `".toList ++ part ++ "`".toList
  | noEnd => "directive must end with `;` or a body".toList
  | strayBody directive => "`%".toList ++ directive ++ "` does not take a body".toList

end DirectiveFault

/-- What is wrong with the form of a class or a declaration. -/
inductive StatementFault where
  | empty
  | unknownKeyword (word : Text)
  | notInheritable (keyword : Text)
  /-- The parameter list is never closed; `text` holds it. -/
  | unclosed (text : Text)
  | strayParameters (keyword : Text)
  | trailing (rest name : Text)
  | badName (name : Text)
  | unscoped (keyword leaf : Text)
  | strayConst (name : Text)
  | unnamedClass
  | emptyBase (name : Text)
  deriving DecidableEq, Repr

namespace StatementFault

def message : StatementFault → Text
  | empty => "empty statement".toList
  | unknownKeyword word => "expected a declaration, found `".toList ++ word ++ "`".toList
  | notInheritable keyword =>
    "only members can be inherited, not a `".toList ++ keyword ++ "`".toList
  | unclosed text => "unbalanced parentheses in `".toList ++ text ++ "`".toList
  | strayParameters keyword =>
    "a `".toList ++ keyword ++ "` takes no parameter list".toList
  | trailing rest name =>
    "unexpected `".toList ++ rest ++ "` after `".toList ++ name ++ "`".toList
  | badName name => "`".toList ++ name ++ "` is not a declaration name".toList
  | unscoped keyword leaf =>
    "a `".toList ++ keyword ++ "` needs a scoped name such as `Class::".toList ++ leaf
      ++ "`".toList
  | strayConst name => "only methods can be `const`, not `".toList ++ name ++ "`".toList
  | unnamedClass => "class without a name".toList
  | emptyBase name => "empty base in `class ".toList ++ name ++ "`".toList

end StatementFault

/-- Why a text is no script. -/
inductive Cause where
  | directive (fault : DirectiveFault)
  | statement (fault : StatementFault)
  | unknownDirective (name : Text)
  | unterminated (what : Construct)
  | parameters (name : Text) (fault : ListingFault)
  | pattern (malformed : Pattern.Malformed)
  /-- A builder refused the declaration. -/
  | refused (violation : Violation)
  deriving DecidableEq, Repr

namespace Cause

def message : Cause → Text
  | directive fault => fault.message
  | statement fault => fault.message
  | unknownDirective name => "unknown directive `%".toList ++ name ++ "`".toList
  | unterminated what => "unterminated ".toList ++ what.display
  | parameters name fault =>
    "invalid parameter list for `".toList ++ name ++ "`: ".toList ++ fault.message
  | pattern malformed => malformed.message
  | refused violation => violation.message

end Cause

structure Error where
  /-- The line of the error; the first is line one. -/
  line : Nat
  cause : Cause
  deriving DecidableEq, Repr

def Error.message (e : Error) : Text :=
  "line ".toList ++ Nat.toDigits 10 e.line ++ ": ".toList ++ e.cause.message

end Overlay.Script
