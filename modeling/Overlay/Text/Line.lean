/-
The lines of a text.

A line ends at a line break, and a carriage return just before the break belongs to the
ending. What follows the last break is a line of its own, unless it is empty.
-/
import Overlay.Text.Blank

set_option autoImplicit false

namespace Overlay.Text

/-- The lines of a text, without their endings. -/
def lines : Text → List Text
  | [] => []
  | '\r' :: '\n' :: r => [] :: lines r
  | c :: r => if c = '\n' then [] :: lines r else extend c (lines r)

theorem lines_of_not_mem {t : Text} (h : t ≠ []) (hn : '\n' ∉ t) : lines t = [t] := by
  induction t with
  | nil => exact absurd rfl h
  | cons c r ih =>
    rw [List.mem_cons, not_or] at hn
    have hr : lines r = if r = [] then [] else [r] := by
      split
      · rename_i he
        rw [he, lines]
      · rename_i he
        exact ih he hn.2
    have hc : lines (c :: r) = extend c (lines r) := by
      rw [lines.eq_def]
      split
      · rename_i he
        simp at he
      · rename_i he
        simp only [List.cons.injEq] at he
        exact absurd (he.2 ▸ List.mem_cons_self) hn.2
      · rename_i d s _ he
        simp only [List.cons.injEq] at he
        rw [he.1] at hn
        rw [if_neg (Ne.symm hn.1), he.1, he.2]
    rw [hc, hr]
    split
    · rename_i he
      rw [he, extend]
    · rw [extend]

end Overlay.Text
