/-
Directives as entries.

A directive gives a feature a value on the declarations of a pattern, and may bring a
body and attributes. Its value is written as text: the empty text clears, `0` disables,
and all else enables. Disabling is not clearing: a disabled entry still takes part when
entries compete, and wins as one that is switched off.

The key of an entry is its feature and its pattern; value, body and attributes play no
part in it. Patterns are compared as they were written, so `foo` and `*::foo` make two
keys.
-/
import Overlay.Dictionary
import Overlay.Pattern
import Overlay.Template

set_option autoImplicit false

namespace Overlay.Feature

/-! ## Values -/

inductive Value where
  | enabled (token : Text)
  | disabled
  | cleared
  deriving DecidableEq, Repr

namespace Value

/-- The value that is written so. -/
def ofToken (t : Text) : Value :=
  if t = [] then cleared else if t = ['0'] then disabled else enabled t

def token : Value → Text
  | enabled t => t
  | disabled => ['0']
  | cleared => []

def isActive : Value → Bool
  | enabled _ => true
  | disabled | cleared => false

/-- A value is written as it was read. -/
theorem token_ofToken (t : Text) : (ofToken t).token = t := by
  rw [ofToken]
  split
  · rename_i h
    exact h.symm
  · split
    · rename_i h
      exact h.symm
    · rfl

end Value

/-! ## Entries -/

/-- What tells entries apart. -/
structure Key where
  feature : Text
  pattern : Pattern
  deriving DecidableEq

structure Entry where
  feature : Text
  pattern : Pattern
  value : Value
  body : Option Template
  attributes : Dictionary Text
  /-- The place in the stream of declarations and directives, once recorded. -/
  sequence : Nat
  deriving DecidableEq

namespace Entry

def key (e : Entry) : Key := ⟨e.feature, e.pattern⟩

def placed (e : Entry) (place : Nat) : Entry := { e with sequence := place }

@[simp] theorem key_placed (e : Entry) (place : Nat) : (e.placed place).key = e.key := rfl

end Entry

end Overlay.Feature
