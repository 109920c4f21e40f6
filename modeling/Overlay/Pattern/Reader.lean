/-
Reading patterns.

The empty text is the global pattern. Otherwise the text is a name, perhaps with a
parameter list and `const` behind it. The name starts with `*::` for any scope, with
`::` for the global scope, or is a qualified name; a qualified name without scope leaves
the scope open. The leaf must be one that a declaration can have: an identifier, perhaps
after `~` and perhaps with template arguments, or an operator.

A text that is no pattern has one of four faults, and of several the first in reading
order counts: the parentheses, the parameters, what follows them, the leaf.
-/
import Overlay.Name.Applied
import Overlay.Pattern

set_option autoImplicit false

namespace Overlay.Pattern

/-! ## Faults -/

inductive Fault where
  /-- The parameter list is never closed; `text` holds it. -/
  | unclosed (text : Text)
  | parameters (fault : ListingFault)
  | trailing (rest : Text)
  | leaf (name : Text)
  | refused (violation : Violation)
  deriving DecidableEq, Repr

namespace Fault

def message : Fault → Text
  | unclosed text => "unbalanced parentheses in `".toList ++ text ++ "`".toList
  | parameters fault => fault.message
  | trailing rest => "unexpected `".toList ++ rest ++ "` after the parameter list".toList
  | leaf name => "`".toList ++ name ++ "` is not a declaration name".toList
  | refused violation => violation.message

end Fault

/-- A text that is no pattern, without the blanks around it, and why. -/
structure Malformed where
  text : Text
  fault : Fault
  deriving DecidableEq, Repr

def Malformed.message (m : Malformed) : Text :=
  "malformed pattern `".toList ++ m.text ++ "`: ".toList ++ m.fault.message

/-! ## Leaf names -/

/-- The text is empty, or template arguments: it runs from `<` to a final `>` on one line. -/
def isTemplateTail : Text → Bool
  | [] => true
  | c :: r => c == '<' && r.getLast? == some '>' && !r.contains '\n'

def isPlainLeaf (t : Text) : Bool := (Text.cutIdentifier t).any fun parts => isTemplateTail parts.2

/-- The keyword `operator` and, perhaps after blanks, its symbol on one line. -/
def isOperatorLeaf (t : Text) : Bool :=
  match Text.dropPiece AppliedName.keyword t with
  | none => false
  | some after =>
    match Text.trimStart after with
    | [] => false
    | _ :: rest => !rest.contains '\n'

def isLeaf (t : Text) : Bool :=
  isPlainLeaf ((Text.dropPiece ['~'] t).getD t) || isOperatorLeaf t

/-! ## Reading -/

/-- Reads the name of a pattern: the limit of the scope and the leaf. -/
def readName (t : Text) : ScopeLimit × Text :=
  match Text.dropPiece "*::".toList t with
  | some rest => (.wildcard, Text.trim rest)
  | none =>
    match Text.dropPiece "::".toList t with
    | some rest => (.exact .global, Text.trim rest)
    | none =>
      let name := QualifiedName.parse t
      (if name.scope.isGlobal then .unqualified else .exact name.scope, name.leaf)

/-- Reads what follows the parameter list: nothing, or `const`. -/
def readConst (rest : Text) : Except Fault Bool :=
  let tail := Text.trim rest
  if tail = [] then .ok false
  else if tail = "const".toList then .ok true
  else .error (.trailing tail)

def readSignature (params rest : Text) : Except Fault Signature := do
  let ps ← (Parameter.readList params).mapError Fault.parameters
  let isConst ← readConst rest
  (Signature.ofParameters ps isConst).mapError Fault.refused

/-- Puts the name to a signature that was already read. -/
def ofParts (name : Text) (signature : Option Signature) : Except Fault Pattern :=
  let parts := readName (Text.trim name)
  if isLeaf parts.2 then .ok (.named parts.1 parts.2 signature) else .error (.leaf parts.2)

def readNamed (t : Text) : Except Fault Pattern :=
  match AppliedName.split t with
  | .bare => ofParts t none
  | .unclosed => .error (.unclosed t)
  | .applied name params rest => do
    let signature ← readSignature params rest
    ofParts name (some signature)

def parse (t : Text) : Except Malformed Pattern :=
  let text := Text.trim t
  if text = [] then .ok .global
  else (readNamed text).mapError fun fault => ⟨text, fault⟩

theorem parse_of_trim_eq_nil {t : Text} (h : Text.trim t = []) : parse t = .ok .global := by
  simp [parse, h]

end Overlay.Pattern
