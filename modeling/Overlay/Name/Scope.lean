/-
Scope paths such as `ns::Outer::Inner`.

A path is its segments, from the outermost; the path without segments is the global
scope. Written text is cut at each `::` outside template arguments and parentheses, the
segments are trimmed, and empty ones are dropped, so a leading `::` says nothing. A
path made from given segments keeps them as they are.
-/
import Overlay.Text.Cut

set_option autoImplicit false

namespace Overlay

/-- The segments of a scope, outermost first. -/
structure ScopePath where
  segments : List Text
  deriving DecidableEq, Repr

namespace ScopePath

def global : ScopePath := ⟨[]⟩

def parse (t : Text) : ScopePath := ⟨(Text.splitScopes t).filter fun s => !s.isEmpty⟩

def isGlobal (p : ScopePath) : Bool := p.segments.isEmpty

def last? (p : ScopePath) : Option Text := p.segments.getLast?

def parent? (p : ScopePath) : Option ScopePath :=
  if p.isGlobal then none else some ⟨p.segments.dropLast⟩

def display (p : ScopePath) : Text := "::".toList.intercalate p.segments

/-! ## Enclosing scopes -/

/-- The first `n` scopes on the way out, the global scope left out. -/
def enclosing (segments : List Text) : Nat → List ScopePath
  | 0 => []
  | n + 1 => ⟨segments.take (n + 1)⟩ :: enclosing segments n

/-- The scope and the scopes around it, innermost first, without the global scope. -/
def chain (p : ScopePath) : List ScopePath := enclosing p.segments p.segments.length

theorem length_enclosing (segments : List Text) (n : Nat) :
    (enclosing segments n).length = n := by
  induction n with
  | zero => rfl
  | succ n ih => simp [enclosing, ih]

theorem length_chain (p : ScopePath) : p.chain.length = p.segments.length :=
  length_enclosing _ _

/-! ## Segments as identifiers -/

/-- A segment with an underscore for every character that an identifier cannot hold. -/
def mangleSegment (s : Text) : Text := s.map fun c => if Text.isIdentChar c then c else '_'

/-- The mangled segments, joined with underscores. -/
def mangled (p : ScopePath) : Text := ['_'].intercalate (p.segments.map mangleSegment)

theorem all_mangleSegment (s : Text) : (mangleSegment s).all Text.isIdentChar = true := by
  rw [List.all_eq_true]
  intro c hc
  simp only [mangleSegment, List.mem_map] at hc
  obtain ⟨d, _, rfl⟩ := hc
  by_cases hd : Text.isIdentChar d = true
  · simp [hd]
  · rw [if_neg hd]
    decide

end ScopePath

end Overlay
