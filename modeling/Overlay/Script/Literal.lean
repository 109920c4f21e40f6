/-
String literals in the arguments of a directive.

Between its parentheses a directive has arguments, parted by commas. Quotes start and
end a literal, and inside one a backslash takes the next character along; commas and
parentheses inside a literal are part of it. `Quoting` is that reading, character by
character, and both the end of the arguments and the commas are found with it.

A literal is written with a quote on either side. Its text is what stands between, with
the escapes `\n` and `\t` as line break and tab, and a backslash before anything else
dropped.
-/
import Overlay.Text.Cut

set_option autoImplicit false

namespace Overlay.Script

/-! ## Inside and outside of literals -/

inductive Quoting where
  | outside
  | inside
  /-- Inside a literal, behind a backslash. -/
  | escaped
  deriving DecidableEq, Repr

def Quoting.next : Quoting → Char → Quoting
  | outside, c => if c = '"' then inside else outside
  | inside, c => if c = '\\' then escaped else if c = '"' then outside else inside
  | escaped, _ => inside

/-- Cuts the text behind an opening parenthesis at the one that closes it, literals being
skipped. `depth` counts the further parentheses that are open. -/
def closeArguments (q : Quoting) (depth : Nat) : Text → Option (Text × Text)
  | [] => none
  | c :: r =>
    if q = .outside ∧ c = ')' then
      if depth = 0 then some ([], r)
      else (closeArguments .outside (depth - 1) r).map (Text.consFst c)
    else if q = .outside ∧ c = '(' then
      (closeArguments .outside (depth + 1) r).map (Text.consFst c)
    else (closeArguments (q.next c) depth r).map (Text.consFst c)

theorem eq_of_closeArguments {q : Quoting} {depth : Nat} {t p r : Text}
    (h : closeArguments q depth t = some (p, r)) : t = p ++ ')' :: r := by
  induction t generalizing q depth p with
  | nil => simp [closeArguments] at h
  | cons c t ih =>
    have key : ∀ {q' : Quoting} {depth' : Nat},
        (closeArguments q' depth' t).map (Text.consFst c) = some (p, r) →
          c :: t = p ++ ')' :: r := by
      intro q' depth' hk
      obtain ⟨p, hp, rfl⟩ := Text.map_consFst_eq_some_iff.1 hk
      rw [ih hp]
      rfl
    rw [closeArguments] at h
    split at h
    · rename_i hc
      split at h
      · simp only [Option.some.injEq, Prod.mk.injEq] at h
        obtain ⟨rfl, rfl⟩ := h
        rw [hc.2]
        rfl
      · exact key h
    · split at h
      · exact key h
      · exact key h

/-- The parts between the commas outside of literals. -/
def splitArguments (q : Quoting) : Text → List Text
  | [] => [[]]
  | c :: r =>
    if q = .outside ∧ c = ',' then [] :: splitArguments .outside r
    else Text.extend c (splitArguments (q.next c) r)

/-! ## The text of a literal -/

def escape (c : Char) : Char := if c = 'n' then '\n' else if c = 't' then '\t' else c

/-- The text with its escapes resolved; `none` if a backslash ends it. -/
def unescape : Text → Option Text
  | [] => some []
  | '\\' :: [] => none
  | '\\' :: c :: r => (unescape r).map (escape c :: ·)
  | c :: r => (unescape r).map (c :: ·)

def unquote : Text → Option Text
  | '"' :: r => if r.getLast? = some '"' then unescape r.dropLast else none
  | _ => none

end Overlay.Script
