/-
Reading interface scripts.

A script is read item by item: skip what means nothing, then read a directive if a `%`
comes next, else a statement up to its `;`. Every item takes at least one character, so
reading ends; the first error ends it early.

An error is on the line where its item starts, except for a comment that is left open,
which is on the line where it opens.
-/
import Overlay.Script.Directive
import Overlay.Script.Statement
import Overlay.Script.Trivia

set_option autoImplicit false

namespace Overlay.Script

def readItem : Text → Except Cause (Item × Text)
  | '%' :: r => (readDirective r).map fun parts => (.directive parts.1, parts.2)
  | t =>
    match Text.cut .round (.char ';') t with
    | none => .error (.unterminated .statement)
    | some (statement, rest) => (readStatement statement).map fun item => (item, rest)

/-- An item takes at least one character of the text. -/
theorem length_lt_of_readItem {t r : Text} {item : Item} (h : readItem t = .ok (item, r)) :
    r.length < t.length := by
  rw [readItem.eq_def] at h
  split at h
  · rename_i s
    cases hd : readDirective s with
    | error c => simp [hd, Except.map] at h
    | ok parts =>
      obtain ⟨entry, rest⟩ := parts
      simp only [hd, Except.map, Except.ok.injEq, Prod.mk.injEq] at h
      have := length_lt_of_readDirective hd
      rw [← h.2, List.length_cons]
      omega
  · split at h
    · simp at h
    · rename_i statement rest hc
      cases hs : readStatement statement with
      | error c => simp [hs, Except.map] at h
      | ok it =>
        simp only [hs, Except.map, Except.ok.injEq, Prod.mk.injEq] at h
        rw [← h.2]
        exact Text.length_lt_of_cut hc

def readFrom (script t : Text) : Except Error (List Item) :=
  match _hs : skipTrivia .gap t with
  -- the place of the error is where the comment opens, not where the gap starts
  | .error opening => .error ⟨lineAt script opening, .unterminated .comment⟩
  | .ok [] => .ok []
  | .ok (c :: r) =>
    match _hr : readItem (c :: r) with
    | .error cause => .error ⟨lineAt script (c :: r), cause⟩
    | .ok (item, rest) => (readFrom script rest).map (item :: ·)
termination_by t.length
decreasing_by
  have h1 := length_le_of_skipTrivia _hs
  have h2 := length_lt_of_readItem _hr
  omega

def parse (script : Text) : Except Error (List Item) := readFrom script script

end Overlay.Script
