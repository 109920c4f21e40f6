/-
Templates: texts with placeholders.

A text is read as a sequence of pieces. A token is a `$` and the longest identifier that
follows it; every other character is a piece of its own. Expanding writes the pieces one
after the other, with the fact in place of each token that is a placeholder. All other
tokens stay as they are, and a fact is never read again.

A template carries the placeholders that its text holds. If there are none, expanding
leaves the text alone without looking at it.
-/
import Overlay.Template.Placeholder

set_option autoImplicit false

namespace Overlay

namespace Template

/-! ## Pieces -/

inductive Piece where
  /-- A character that is part of no token. -/
  | plain (c : Char)
  /-- The token of this identifier, which follows a `$`. -/
  | token (name : Text)
  deriving DecidableEq, Repr

/-- What follows an identifier is no longer than the text it was cut from. -/
theorem length_lt_of_cutIdentifier {t p r : Text} (h : Text.cutIdentifier t = some (p, r)) :
    r.length < t.length := by
  have hlen := congrArg List.length (Text.eq_of_cutIdentifier h)
  have hp := Text.isIdentifier_of_cutIdentifier h
  cases p with
  | nil => simp [Text.isIdentifier] at hp
  | cons c p =>
    simp only [List.length_append, List.length_cons] at hlen
    omega

def pieces : Text → List Piece
  | [] => []
  | c :: r =>
    if c = '$' then
      match _h : Text.cutIdentifier r with
      | some (name, rest) => .token name :: pieces rest
      | none => .plain c :: pieces r
    else .plain c :: pieces r
termination_by t => t.length
decreasing_by
  · have := length_lt_of_cutIdentifier _h
    simp only [List.length_cons]
    omega
  · simp
  · simp

namespace Piece

def text : Piece → Text
  | plain c => [c]
  | token name => '$' :: name

def placeholder? : Piece → Option Placeholder
  | plain _ => none
  | token name => Placeholder.ofWord? name

def fill (facts : FactSheet) (p : Piece) : Text :=
  match p.placeholder? with
  | some placeholder => facts.get placeholder
  | none => p.text

end Piece

@[simp] theorem pieces_nil : pieces [] = [] := by simp [pieces]

/-- The pieces make up the text. -/
theorem flatMap_text_pieces (t : Text) : (pieces t).flatMap Piece.text = t := by
  fun_induction pieces t with
  | case1 => rfl
  | case2 r name rest h ih =>
    rw [List.flatMap_cons, ih, Text.eq_of_cutIdentifier h]
    rfl
  | case3 r h ih =>
    rw [List.flatMap_cons, ih]
    rfl
  | case4 c r hc ih =>
    rw [List.flatMap_cons, ih]
    rfl

/-- The placeholders that occur in a text, in the order of all placeholders. -/
def scan (t : Text) : List Placeholder :=
  Placeholder.all.filter fun p => (pieces t).any fun piece => piece.placeholder? == some p

def substitute (t : Text) (facts : FactSheet) : Text := (pieces t).flatMap (Piece.fill facts)

end Template

/-! ## Templates -/

structure Template where
  text : Text
  placeholders : List Placeholder
  scanned : placeholders = Template.scan text
  deriving DecidableEq

namespace Template

def ofText (t : Text) : Template := ⟨t, scan t, rfl⟩

/-- The template with all placeholders filled in. A text without placeholders is its own
expansion. -/
def expand (tpl : Template) (facts : FactSheet) : Text :=
  if tpl.placeholders = [] then tpl.text else substitute tpl.text facts

end Template

end Overlay
