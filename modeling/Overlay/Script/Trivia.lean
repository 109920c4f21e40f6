/-
What may stand between the items of a script, and the counting of lines.

Blanks, comments and stray semicolons mean nothing between items. A comment runs from
`//` or `#` to the end of its line, or from `/*` to the next `*/`. Only a comment of the
second kind can be left open, and then the place where it was opened is the error.

A place in a script is known by the text that is left there. Its line is one more than
the line breaks passed, which is the line breaks of the whole script less those left.
-/
import Overlay.Text.Blank

set_option autoImplicit false

namespace Overlay.Script

/-! ## Trivia -/

inductive Skip where
  | gap
  | line
  /-- A comment that ends with `*/`; it opened where the text `opening` was left. -/
  | block (opening : Text)
  deriving DecidableEq, Repr

/-- The text from the next item on, or the text from a comment on that is left open. -/
def skipTrivia : Skip → Text → Except Text Text
  | .gap, [] => .ok []
  | .gap, '/' :: '/' :: r => skipTrivia .line r
  | .gap, '/' :: '*' :: r => skipTrivia (.block ('/' :: '*' :: r)) r
  | .gap, c :: r =>
    if c = '#' then skipTrivia .line r
    else if c = ';' ∨ Text.isBlank c = true then skipTrivia .gap r
    else .ok (c :: r)
  | .line, [] => .ok []
  | .line, c :: r => if c = '\n' then skipTrivia .gap r else skipTrivia .line r
  | .block opening, [] => .error opening
  | .block _, '*' :: '/' :: r => skipTrivia .gap r
  | .block opening, _ :: r => skipTrivia (.block opening) r

theorem length_le_of_skipTrivia {s : Skip} {t r : Text} (h : skipTrivia s t = .ok r) :
    r.length ≤ t.length := by
  fun_induction skipTrivia s t <;> simp_all <;> omega

/-! ## Lines -/

def lineBreaks (t : Text) : Nat := t.count '\n'

/-- The line of the place in a script where the text `rest` is left. -/
def lineAt (script rest : Text) : Nat := lineBreaks script - lineBreaks rest + 1

theorem lineAt_bounds (script rest : Text) :
    1 ≤ lineAt script rest ∧ lineAt script rest ≤ lineBreaks script + 1 := by
  rw [lineAt]
  omega

end Overlay.Script
