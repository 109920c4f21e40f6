/-
The table of entries while it is written.

Directives are recorded one after the other. Each entry that is recorded takes a slot
behind those that are taken. At most one entry of a key is live: a directive empties the
slot of the live entry of its key before it takes one itself, and a clearing directive
only empties it. A clearing directive without a live entry of its key does nothing but
leave a diagnostic. Which slot holds the live entry of a key is kept in a registry, so that
no slot has to be searched for.

Everything recorded takes the next place of one sequence, which declarations share. That
is how an entry can tell whether it came before a declaration.
-/
import Overlay.Feature.Entry
import Overlay.Registry

set_option autoImplicit false

namespace Overlay.Feature

/-! ## Diagnostics -/

/-- A clearing directive that found no live entry of its key. -/
structure Diagnostic where
  feature : Text
  /-- The pattern as it is shown. -/
  pattern : Text
  sequence : Nat
  deriving DecidableEq

def Diagnostic.message (d : Diagnostic) : Text :=
  "clear of feature \"".toList ++ d.feature ++ "\" on `".toList ++ d.pattern
    ++ "` (directive #".toList ++ Nat.toDigits 10 d.sequence
    ++ ") matches no live entry; ignored".toList

/-! ## Recording -/

inductive Outcome where
  | inserted
  | replaced
  | cleared
  | clearIgnored
  deriving DecidableEq, Repr

/-- The slots of the entries, the slot of each live key, and what else was recorded. -/
structure Draft where
  /-- The entries in the order of definition; the slot of an entry that is gone is empty. -/
  slots : List (Option Entry)
  live : Registry Key Nat
  nextSequence : Nat
  diagnostics : List Diagnostic
  deriving DecidableEq

namespace Draft

def empty : Draft := ⟨[], .empty, 0, []⟩

def size (d : Draft) : Nat := d.live.length

def isEmpty (d : Draft) : Bool := d.live.isEmpty

def tick (d : Draft) : Draft := { d with nextSequence := d.nextSequence + 1 }

/-- Empties the slot of a live entry. -/
def vacate (d : Draft) (key : Key) (slot : Nat) : Draft :=
  { d with slots := d.slots.set slot none, live := d.live.erase key }

/-- Gives an entry the next slot, as the live one of its key. -/
def occupy (d : Draft) (e : Entry) : Draft :=
  { d with
    slots := d.slots ++ [some e]
    live := d.live.insert e.key d.slots.length }

def complain (d : Draft) (e : Entry) : Draft :=
  { d with diagnostics := d.diagnostics ++ [⟨e.feature, e.pattern.display, e.sequence⟩] }

/-- Records a directive at the next place of the sequence, and tells what that did. -/
def record (d : Draft) (e : Entry) : Outcome × Draft :=
  let placed := e.placed d.nextSequence
  match d.live.get? e.key with
  | some slot =>
    if e.value = .cleared then (.cleared, d.tick.vacate e.key slot)
    else (.replaced, (d.tick.vacate e.key slot).occupy placed)
  | none =>
    if e.value = .cleared then (.clearIgnored, d.tick.complain placed)
    else (.inserted, d.tick.occupy placed)

def outcome (d : Draft) (e : Entry) : Outcome := (d.record e).1

def define (d : Draft) (e : Entry) : Draft := (d.record e).2

end Draft

end Overlay.Feature
