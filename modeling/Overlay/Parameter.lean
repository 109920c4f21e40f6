/-
One parameter of a callable: a type and, where one is written, a default expression.

The name of a parameter never takes part in anything, so reading one drops it. Whether
the last token of the written type is a name is decided by the tokens: it must be an
identifier that is no built-in word, what stands before it must not claim it (`::` and
`struct` do), and there must be a type left to name, either a second word outside
template arguments and parentheses or an indirection just before it.

The default is what follows the first `=` outside brackets that belongs to no
comparison. It is kept as text, with the blanks squeezed.
-/
import Overlay.CType

set_option autoImplicit false

namespace Overlay

/-- A type and an optional default expression. -/
structure Parameter where
  type : CType
  default : Option Text
  deriving DecidableEq, Repr

namespace Parameter

open CType (Token tokenize)

/-! ## The name at the end -/

/-- The words that are part of a type wherever they stand. -/
def builtinWords : List Text :=
  ["void".toList, "bool".toList, "char".toList, "wchar_t".toList, "char16_t".toList,
   "char32_t".toList, "short".toList, "int".toList, "long".toList, "float".toList,
   "double".toList, "signed".toList, "unsigned".toList, "const".toList, "volatile".toList,
   "struct".toList, "class".toList, "enum".toList, "union".toList, "typename".toList]

/-- The words that announce the name of a type. -/
def typeKeywords : List Text :=
  ["struct".toList, "class".toList, "enum".toList, "union".toList, "typename".toList]

/-- The token claims the identifier after it for the type. -/
def claimsNext : Token → Bool
  | .scope => true
  | .word w => w ∈ typeKeywords
  | _ => false

def isTypeWord : Token → Bool
  | .word w => !(Token.word w).isQualifier
  | _ => false

/-- The number of words outside template arguments and parentheses, qualifiers apart. -/
def typeWords (depth : Nat) : List Token → Nat
  | [] => 0
  | t :: r => (if depth = 0 ∧ isTypeWord t = true then 1 else 0) + typeWords (t.step depth) r

/-- The last token is the name of the parameter. -/
def endsInName (ts : List Token) : Bool :=
  match ts.reverse with
  -- `before` is given backwards, so its head stands just before the last token
  | .word w :: before =>
    !(w ∈ builtinWords) && !before.head?.any claimsNext
      && (2 ≤ typeWords 0 ts || before.head?.any Token.isIndirection)
  | _ => false

def stripName (ts : List Token) : List Token :=
  if endsInName ts then ts.dropLast else ts

/-- A name is only dropped where more than the name is written. -/
theorem stripName_ne_nil (ts : List Token) (h : ts ≠ []) : stripName ts ≠ [] := by
  rw [stripName]
  split
  · rename_i hn
    obtain ⟨us, u, rfl⟩ : ∃ us u, ts = us ++ [u] := ⟨_, _, (List.dropLast_concat_getLast h).symm⟩
    rw [List.dropLast_concat]
    rintro rfl
    -- a lone token is no name: it is not a second word, and nothing stands before it
    cases u <;> simp [endsInName, typeWords] at hn
    · split at hn <;> simp at hn
  · exact h

/-! ## Reading and writing -/

def plain (type : Text) : Parameter := ⟨CType.parse type, none⟩

def defaulted (type expr : Text) : Parameter := ⟨CType.parse type, some (Text.squeeze expr)⟩

/-- The written type and the written default, if there is one. -/
def splitDefault (t : Text) : Text × Option Text :=
  match Text.cut .all .assign t with
  | some (type, expr) => (type, some expr)
  | none => (t, none)

/-- Reads a parameter; `none` if it has no type, or an `=` with nothing after it. -/
def parse (t : Text) : Option Parameter :=
  let parts := splitDefault t
  let tokens := stripName (tokenize parts.1)
  if tokens = [] then none
  else
    match parts.2 with
    | none => some ⟨CType.ofTokens tokens, none⟩
    | some expr =>
      if expr.all Text.isBlank then none
      else some ⟨CType.ofTokens tokens, some (Text.squeeze expr)⟩

def display (p : Parameter) : Text :=
  match p.default with
  | some expr => p.type.text ++ " = ".toList ++ expr
  | none => p.type.text

end Parameter

end Overlay
