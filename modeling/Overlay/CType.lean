/-
Normalised C and C++ types.

A type is compared as text, so that text has one normal form per type as far as spacing
and the place of a leading qualifier go: `const char*` and `char  const *` are both
`char const *`. Normalising reads the tokens, moves the leading block of `const` and
`volatile` behind the base type, and writes the tokens with fixed spacing.

Where the base type ends is decided by the tokens alone: at the first `*`, `&`, `&&` or
`[` outside template arguments and parentheses, or at the end. The move is uniform: with
no leading qualifier, or with nothing but qualifiers before the declarator, it changes
nothing, and needs no case of its own.
-/
import Overlay.CType.Token

set_option autoImplicit false

namespace Overlay

structure CType where
  text : Text
  deriving DecidableEq, Repr

namespace CType

/-! ## Moving the leading qualifiers -/

/-- The tokens of the base type and those of the declarator that follows it. -/
def splitDeclarator (depth : Nat) : List Token → List Token × List Token
  | [] => ([], [])
  | t :: r =>
    if depth = 0 ∧ t.startsDeclarator = true then ([], t :: r)
    else (t :: (splitDeclarator (t.step depth) r).1, (splitDeclarator (t.step depth) r).2)

theorem splitDeclarator_append (depth : Nat) (ts : List Token) :
    (splitDeclarator depth ts).1 ++ (splitDeclarator depth ts).2 = ts := by
  induction ts generalizing depth with
  | nil => rfl
  | cons t r ih =>
    rw [splitDeclarator]
    split
    · rfl
    · simp [ih]

/-- Moves the leading qualifiers, in their order, behind the base type. -/
def hoist (ts : List Token) : List Token :=
  -- both sides of the move keep their own order
  let qualifiers := ts.takeWhile Token.isQualifier
  let parts := splitDeclarator 0 (ts.dropWhile Token.isQualifier)
  parts.1 ++ (qualifiers ++ parts.2)

/-- Hoisting only moves tokens: the leading qualifiers go to one later place. -/
theorem hoist_eq (ts : List Token) :
    ∃ base declarator, ts = ts.takeWhile Token.isQualifier ++ (base ++ declarator) ∧
      hoist ts = base ++ (ts.takeWhile Token.isQualifier ++ declarator) := by
  refine ⟨(splitDeclarator 0 (ts.dropWhile Token.isQualifier)).1,
    (splitDeclarator 0 (ts.dropWhile Token.isQualifier)).2, ?_, rfl⟩
  rw [splitDeclarator_append, List.takeWhile_append_dropWhile]

theorem hoist_eq_self (ts : List Token) (h : ts.takeWhile Token.isQualifier = []) :
    hoist ts = ts := by
  obtain ⟨base, declarator, hts, hh⟩ := hoist_eq ts
  rw [h, List.nil_append] at hts hh
  rw [hh, ← hts]

/-! ## Normalising -/

def ofTokens (ts : List Token) : CType := ⟨spell (hoist ts)⟩

def parse (t : Text) : CType := ofTokens (tokenize t)

def isVoid (ty : CType) : Bool := ty.text = "void".toList

def isEmpty (ty : CType) : Bool := ty.text.isEmpty

end CType

end Overlay
