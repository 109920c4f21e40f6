/-
Reading classes and declarations.

A statement is the text up to a `;` outside parentheses. Its first word says what it is.
A class has a name, perhaps bases behind a `:`, and perhaps a target name. A declaration
has a name; a callable may have parameters, `const` and a type behind `->`, a variable a
type behind a `:`. The word `inherited` in front marks a member that was copied in from
a base.

A target name stands last, behind the word `as`.
-/
import Overlay.Name.Applied
import Overlay.Script.Item

set_option autoImplicit false

namespace Overlay.Script

/-! ## Words and target names -/

/-- The first word of a text, and the text behind it without leading blanks. -/
def splitWord (t : Text) : Text × Text :=
  let s := Text.trimStart t
  (s.takeWhile fun c => !Text.isBlank c,
    Text.trimStart (s.dropWhile fun c => !Text.isBlank c))

/-- The text before a final ` as ` of a text that is given backwards without its last word;
`none` if the text does not end so. -/
def dropAs (backwards : Text) : Option Text :=
  match Text.trimStart backwards with
  | 's' :: 'a' :: c :: r =>
    if Text.isBlank c then some (Text.trimStart r).reverse else none
  | _ => none

/-- Splits off a target name: an identifier at the end, behind the word `as`. -/
def splitTargetName (t : Text) : Text × Option Text :=
  -- read from the end: the name, then a blank, then the word
  let backwards := Text.trimStart t.reverse
  let name := (backwards.takeWhile Text.isIdentChar).reverse
  let before := backwards.dropWhile Text.isIdentChar
  if Text.isIdentifier name && before.head?.any Text.isBlank then
    match dropAs before with
    | some head => (head, some name)
    | none => (t, none)
  else (t, none)

/-! ## Classes -/

def baseSpecifiers : List Text :=
  ["public".toList, "protected".toList, "private".toList, "virtual".toList]

/-- The text behind one specifier and the blanks that follow it, if it starts with one. -/
def dropSpecifier (t : Text) : Option Text :=
  (baseSpecifiers.findSome? fun word => Text.dropPiece word t).bind fun r =>
    if r.head?.any Text.isBlank then some (Text.trimStart r) else none

theorem length_lt_of_dropSpecifier {t r : Text} (h : dropSpecifier t = some r) :
    r.length < t.length := by
  simp only [dropSpecifier, Option.bind_eq_some_iff, List.findSome?_eq_some_iff] at h
  obtain ⟨s, ⟨_, word, _, _, hs, _⟩, h⟩ := h
  split at h
  · rename_i hb
    simp only [Option.some.injEq] at h
    subst h
    rw [Text.dropPiece_eq_some_iff] at hs
    cases s with
    | nil => simp at hb
    | cons c s =>
      simp only [List.head?_cons, Option.any_some] at hb
      have := Text.length_trimStart_le s
      have hlen := congrArg List.length hs
      simp only [List.length_append, List.length_cons] at hlen
      rw [Text.trimStart, List.dropWhile_cons_of_pos hb]
      simp only [Text.trimStart] at this
      omega
  · simp at h

def dropSpecifiers (t : Text) : Text :=
  match _h : dropSpecifier t with
  | some r => dropSpecifiers r
  | none => t
termination_by t.length
decreasing_by exact length_lt_of_dropSpecifier _h

def readBase (name t : Text) : Except StatementFault ScopePath :=
  let base := dropSpecifiers (Text.trim t)
  if base = [] then .error (.emptyBase name) else .ok (.parse base)

def readClass (t : Text) : Except StatementFault Item :=
  let (head, target) := splitTargetName t
  let (name, bases) := match Text.cut .angled .colon head with
    | some (name, bases) => (Text.trim name, Text.splitCommas bases)
    | none => (Text.trim head, [])
  if name = [] then .error .unnamedClass
  else (bases.mapM (readBase name)).map fun paths => .scope (.parse name) paths target

/-! ## Declarations -/

/-- What is written of a declaration behind its keyword, the target name apart. -/
structure Written where
  name : Text
  /-- What stands between the parentheses, if there are any. -/
  params : Option Text
  isConst : Bool
  /-- The type, which may be empty. -/
  returns : Option Text
  deriving DecidableEq, Repr

def readTail (name : Text) (params : Option Text) (t : Text) : Except StatementFault Written :=
  let tail := Text.trim t
  let words := splitWord tail
  let isConst := words.1 = "const".toList
  let rest := if isConst then words.2 else tail
  if rest = [] then .ok ⟨name, params, isConst, none⟩
  else
    match Text.dropPiece "->".toList rest with
    | some type => .ok ⟨name, params, isConst, some (Text.trim type)⟩
    | none => .error (.trailing rest name)

/-- Reads a callable: `name[(params)] [const] [-> type]`. -/
def readCallable (t : Text) : Except StatementFault Written :=
  match AppliedName.split t with
  | .applied name params rest => readTail (Text.trim name) (some params) rest
  | .unclosed => .error (.unclosed (Text.trim t))
  -- without parameters the name runs up to the arrow
  | .bare =>
    match Text.breakOn "->".toList t with
    | some (name, type) => readTail (Text.trim name) none ("->".toList ++ type)
    | none => readTail (Text.trim t) none []

/-- Reads a variable: `name [: type]`. -/
def readVariable (kind : DeclKind) (t : Text) : Except StatementFault Written :=
  let (name, type) := match Text.cut .angled .colon t with
    | some (name, type) => (name, some (Text.trim type))
    | none => (t, none)
  if name.contains '(' then .error (.strayParameters kind.keyword)
  else .ok ⟨Text.trim name, none, false, type⟩

/-- Checks a written declaration against its kind. -/
def checkWritten (kind : DeclKind) (w : Written) : Except StatementFault Unit :=
  let name := QualifiedName.parse w.name
  if name.leaf = [] ∨ name.leaf.any Text.isBlank = true then .error (.badName w.name)
  else if kind.isMember && name.scope.isGlobal then .error (.unscoped kind.keyword name.leaf)
  else if w.isConst && kind != .method then .error (.strayConst w.name)
  else .ok ()

/-- The declaration that was written, once it is checked. -/
def declare (kind : DeclKind) (isInherited : Bool) (w : Written) (target : Option Text) :
    Except Cause Declaration := do
  let params ← match w.params with
    | some params => (Parameter.readList params).mapError (Cause.parameters w.name)
    | none => .ok []
  let named := Declaration.named kind (.parse w.name)
  let d ← (named.withParameters params).mapError Cause.refused
  return { d with
    returns := (w.returns.filter fun type => !type.isEmpty).map CType.parse
    targetName := target
    isConst := w.isConst
    isInherited := isInherited }

def readDeclaration (kind : DeclKind) (isInherited : Bool) (t : Text) :
    Except Cause Declaration := do
  if isInherited && !kind.isMember then throw (.statement (.notInheritable kind.keyword))
  let (head, target) := splitTargetName t
  let written ← (if kind.isCallable then readCallable head else readVariable kind head).mapError
    Cause.statement
  (checkWritten kind written).mapError Cause.statement
  declare kind isInherited written target

/-! ## Statements -/

def classKeywords : List Text := ["class".toList, "struct".toList]

def readStatement (t : Text) : Except Cause Item :=
  let text := Text.trim t
  let first := splitWord text
  let isInherited : Bool := first.1 = "inherited".toList
  let (keyword, rest) := splitWord (if isInherited then first.2 else text)
  -- after `inherited` the word of a class is an unknown keyword
  if !isInherited && classKeywords.contains keyword then
    (readClass rest).mapError Cause.statement
  else if keyword = [] then .error (.statement .empty)
  else
    match DeclKind.ofKeyword keyword with
    | none => .error (.statement (.unknownKeyword keyword))
    | some kind => (readDeclaration kind isInherited rest).map Item.declaration

end Overlay.Script
