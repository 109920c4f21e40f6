/-
The tokens of a C or C++ type.

A type is read as a sequence of tokens: `::`, `&&` and `...` are one token each, an
identifier or a run of digits is one token, and every other character that is not blank
stands for itself. Of several tokens that could start at one place the first of this
list is taken, and identifiers and digit runs are as long as they can be. Blanks
separate tokens and are otherwise dropped, so two spellings of a type that differ in
spacing have the same tokens.

`tokenize` reads, `Token.text` writes one token back, and `spell` writes a sequence with
the spacing of a normalised type: no blank inside template arguments, parentheses and
subscripts, none around `::`, one between all others.
-/
import Overlay.Text.Cut

set_option autoImplicit false

namespace Overlay.CType

open Text (isBlank isLetter isIdentChar)

inductive Token where
  /-- The separator `::`. -/
  | scope
  /-- The reference `&&`. -/
  | rvalue
  | ellipsis
  | word (text : Text)
  | number (text : Text)
  /-- Any other character that is not blank. -/
  | mark (c : Char)
  deriving DecidableEq, Repr

namespace Token

/-! ## Writing a token -/

def text : Token → Text
  | scope => [':', ':']
  | rvalue => ['&', '&']
  | ellipsis => ['.', '.', '.']
  | word t => t
  | number t => t
  | mark c => [c]

/-! ## Kinds of tokens -/

def isQualifier (t : Token) : Bool :=
  t = word "const".toList || t = word "volatile".toList

/-- The tokens that make an indirection: `*`, `&` and `&&`. -/
def isIndirection (t : Token) : Bool := t = mark '*' || t = mark '&' || t = rvalue

/-- The tokens that end the base type and start the declarator. -/
def startsDeclarator (t : Token) : Bool := t.isIndirection || t = mark '['

/-- The number of open template arguments and parentheses after one more token. -/
def step (depth : Nat) : Token → Nat
  | mark c => Text.Brackets.angled.step depth c
  | _ => depth

def isTightAfter (t : Token) : Bool :=
  t = scope || t = mark '<' || t = mark '(' || t = mark '['

def isTightBefore (t : Token) : Bool :=
  t = scope || t = mark '<' || t = mark '>' || t = mark ',' || t = mark ')' || t = mark '['
    || t = mark ']'

/-- A space is written between two neighbours unless one of them is tight on that side, or
they are `**` or `)(`. -/
def spaced (left right : Token) : Bool :=
  !(left.isTightAfter || right.isTightBefore || (left = mark '*' && right = mark '*')
    || (left = mark ')' && right = mark '('))

end Token

/-! ## Reading -/

def tokenize : Text → List Token
  | [] => []
  | ':' :: ':' :: r => .scope :: tokenize r
  | '&' :: '&' :: r => .rvalue :: tokenize r
  | '.' :: '.' :: '.' :: r => .ellipsis :: tokenize r
  | c :: r =>
    if isLetter c then .word (c :: r.takeWhile isIdentChar) :: tokenize (r.dropWhile isIdentChar)
    else if c.isDigit then
      .number (c :: r.takeWhile Char.isDigit) :: tokenize (r.dropWhile Char.isDigit)
    else if isBlank c then tokenize r
    else .mark c :: tokenize r
termination_by t => t.length
decreasing_by
  all_goals simp only [List.length_cons]
  · omega
  · omega
  · omega
  · exact Nat.lt_succ_of_le (List.dropWhile_sublist _).length_le
  · exact Nat.lt_succ_of_le (List.dropWhile_sublist _).length_le
  · omega
  · omega

/-! ## Writing -/

/-- The tokens in order, with a space where two neighbours are spaced. -/
def spell : List Token → Text
  | [] => []
  | [t] => t.text
  | t :: u :: r => t.text ++ (if t.spaced u then ' ' :: spell (u :: r) else spell (u :: r))

@[simp] theorem tokenize_nil : tokenize [] = [] := by simp [tokenize]

@[simp] theorem spell_nil : spell [] = [] := rfl

@[simp] theorem spell_singleton (t : Token) : spell [t] = t.text := rfl

theorem spell_cons_cons (t u : Token) (r : List Token) :
    spell (t :: u :: r)
      = t.text ++ (if t.spaced u then ' ' :: spell (u :: r) else spell (u :: r)) := rfl

end Overlay.CType
