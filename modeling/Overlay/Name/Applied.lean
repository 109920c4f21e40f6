/-
Names with a parameter list behind them: `name(params) rest`.

The list starts at the first parenthesis after the declared name, and ends at the
parenthesis that closes it. The name is that of an operator if the keyword `operator`
stands in the text as a word of its own, at the start, after `::` or after a blank; then
the search for the list starts behind the keyword. If `()` follows the keyword, they
belong to the name of the call operator and the search starts behind them.

`AppliedName.split` tells apart three cases: no parenthesis at all, a list that is never
closed, and the three parts.
-/
import Overlay.Text.Cut

set_option autoImplicit false

namespace Overlay

/-- A text seen as a name with a parameter list. -/
inductive AppliedName where
  | bare
  | unclosed
  /-- The name, what stands between the parentheses, and what follows them. -/
  | applied (name params rest : Text)
  deriving DecidableEq, Repr

namespace AppliedName

/-! ## The keyword of an operator -/

def keyword : Text := "operator".toList

/-- A name can start after the text `before`, which is given backwards: at the start, after
`::`, or after a blank. -/
def opensName : Text → Bool
  | [] => true
  | ':' :: ':' :: _ => true
  | c :: _ => Text.isBlank c

/-- The text after the keyword at the front of `t`, if the keyword ends there. -/
def dropKeyword (t : Text) : Option Text :=
  (Text.dropPiece keyword t).filter Text.endsWord

/-- Cuts a text behind the first keyword `operator` in it that is a word where a name can
start. `before` is the text already passed, backwards. -/
def cutOperator (before : Text) : Text → Option (Text × Text)
  | [] => none
  | c :: r =>
    match if opensName before then dropKeyword (c :: r) else none with
    | some after => some (before.reverse ++ keyword, after)
    | none => cutOperator (c :: before) r

/-- The two sides of the cut are the text. -/
theorem eq_of_cutOperator {before t p r : Text} (h : cutOperator before t = some (p, r)) :
    before.reverse ++ t = p ++ r := by
  induction t generalizing before with
  | nil => simp [cutOperator] at h
  | cons c t ih =>
    rw [cutOperator] at h
    split at h
    · rename_i after ha
      simp only [Option.some.injEq, Prod.mk.injEq] at h
      obtain ⟨rfl, rfl⟩ := h
      split at ha
      · simp only [dropKeyword, Option.filter_eq_some_iff, Text.dropPiece_eq_some_iff] at ha
        rw [ha.1, List.append_assoc]
      · simp at ha
    · have := ih h
      simpa using this

/-! ## The parameter list -/

/-- The declared name as far as it is certain to hold no parameter list, and the text after
it: all up to the keyword `operator`, and the `()` of the call operator. -/
def searchStart (t : Text) : Text × Text :=
  match cutOperator [] t with
  | none => ([], t)
  | some (head, after) =>
    -- the `()` of the call operator would be taken for an empty parameter list
    match Text.dropPiece "()".toList (Text.trimStart after) with
    | some rest => (head ++ after.takeWhile Text.isBlank ++ "()".toList, rest)
    | none => (head, after)

theorem searchStart_append (t : Text) : (searchStart t).1 ++ (searchStart t).2 = t := by
  rw [searchStart]
  split
  · rfl
  · rename_i head after h
    have hcut := eq_of_cutOperator h
    rw [List.reverse_nil, List.nil_append] at hcut
    split
    · rename_i rest hr
      rw [Text.dropPiece_eq_some_iff] at hr
      have hblank := Text.takeWhile_append_trimStart after
      rw [hr] at hblank
      rw [hcut]
      simp only [List.append_assoc, hblank]
    · exact hcut.symm

/-- Splits a text at its parameter list. -/
def split (t : Text) : AppliedName :=
  let start := searchStart t
  match Text.breakOn ['('] start.2 with
  | none => .bare
  | some (name, inside) =>
    match Text.closing '(' ')' 0 inside with
    | none => .unclosed
    | some (params, rest) => .applied (start.1 ++ name) params rest

end AppliedName

end Overlay
