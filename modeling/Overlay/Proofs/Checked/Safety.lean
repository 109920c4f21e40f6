/-
No text stops the program.

The files before this one write the program once more, with everything that could stop it: every
slice of a text at an offset in bytes, every count that goes down, every place of a list, every
assertion of a builder and of a variant, and every loop. Here that is put together for a whole
run, from the text of a script to a report.

Reading ends with items or with an error, whatever the text is. It never crashes, in particular
it never stands still: each item moves the cursor forward, and it stays in the script. An error is
on a line of the script. And where there are items, an interface can be put together from them
and reported on, with any options and any selection, and nothing is asserted there that does not
hold.

Not crashing would be little if the checked program were another one. So each half says as well
what is computed: the items, the errors and the report of the library.
-/
import Overlay.Proofs.Checked.Interface
import Overlay.Proofs.Checked.Reader

set_option autoImplicit false

namespace Overlay

namespace Script

/-- An error is on the line of a place in the script. -/
theorem exists_line_of_readFrom {script t : Text} {e : Error} (h : readFrom script t = .error e) :
    ∃ rest, e.line = lineAt script rest := by
  induction hn : t.length using Nat.strongRecOn generalizing t with
  | ind n ih =>
    cases hskip : skipTrivia .gap t with
    | error opening =>
      rw [readFrom_of_open hskip] at h
      exact ⟨opening, (Except.error.inj h) ▸ rfl⟩
    | ok rest =>
      cases rest with
      | nil =>
        rw [readFrom_of_end hskip] at h
        simp at h
      | cons c s =>
        cases hitem : readItem (c :: s) with
        | error cause =>
          rw [readFrom_of_fault hskip hitem] at h
          exact ⟨c :: s, (Except.error.inj h) ▸ rfl⟩
        | ok parts =>
          obtain ⟨item, r⟩ := parts
          have hshort : r.length < t.length :=
            Nat.lt_of_lt_of_le (length_lt_of_readItem hitem) (length_le_of_skipTrivia hskip)
          rw [readFrom_of_item hskip hitem] at h
          cases hrest : readFrom script r with
          | error e' =>
            rw [hrest] at h
            obtain rfl := Except.error.inj h
            -- the error comes from a later item, behind which less is left
            exact ih r.length (hn ▸ hshort) hrest rfl
          | ok items =>
            rw [hrest] at h
            simp [Except.map] at h

end Script

namespace Checked

open Script (Error Item)

variable {ε : Type} {script t : Text} {pos next : Nat}

/-! ## The cursor moves on

An item is a step forward that stays in the script. This is what keeps the loop from being stuck,
and it is stated by itself, for any place from which an item is read. -/

/-- An item that is read moves the cursor forward, and leaves it in the script. -/
theorem lt_of_nextItem {item : Item} (h : nextItem script pos = .ok (some (item, next))) :
    pos < next ∧ next ≤ script.size := by
  cases hslice : (sliceFrom script pos : Checked Error Text) with
  | error stop =>
    rw [nextItem, skip, hslice] at h
    simp at h
  | ok t =>
    obtain ⟨ht, rfl⟩ := suffix_of_sliceFrom hslice
    rw [nextItem_eq ht] at h
    cases hskip : Script.skipTrivia .gap t with
    | error opening => simp [hskip] at h
    | ok rest =>
      cases rest with
      | nil => simp [hskip] at h
      | cons c s =>
        cases hitem : Script.readItem (c :: s) with
        | error cause => simp [hskip, hitem] at h
        | ok parts =>
          obtain ⟨item', r⟩ := parts
          simp only [hskip, hitem, Except.ok.injEq, Option.some.injEq, Prod.mk.injEq] at h
          obtain ⟨-, rfl⟩ := h
          exact (offset_lt_of_readItem ht hskip hitem).2.2

/-! ## Whole runs

Reading and reporting share nothing but the items, so each half is stated for itself. -/

/-- **No text stops the program.** Reading a script comes to items or to an error, as in the
library, and never to a crash: it takes no slice outside of the text or inside a character, lets
no count fall below zero, gives the builders nothing that they refuse, and each item moves the
cursor forward. An error is on one of the lines of the script. From items an interface is
put together, finished and reported on without a crash as well. -/
theorem parse_and_report_safe (script : Text) :
    (parse script = ofExcept (Script.parse script)
        ∧ ∀ c : Crash, parse script ≠ .error (.crash c))
      ∧ (∀ (pos : Nat) (item : Item) (next : Nat),
          nextItem script pos = .ok (some (item, next)) → pos < next ∧ next ≤ script.size)
      ∧ (∀ e : Error, parse script = .error (.fault e) →
          1 ≤ e.line ∧ e.line ≤ Script.lineBreaks script + 1)
      ∧ ∀ items : List Item, parse script = .ok items →
          ∀ (options : Options) (selection : Selection),
            (ofItems items options >>= fun i => report i selection : Checked Error Report)
              = .ok ((Interface.ofItems items options).report selection) := by
  have hparse := parse_eq script
  refine ⟨⟨hparse, fun c => hparse ▸ ofExcept_ne_crash _ c⟩, fun pos item next => lt_of_nextItem,
    ?_, ?_⟩
  · intro e he
    rw [hparse] at he
    cases hread : Script.parse script with
    | ok items => simp [hread] at he
    | error e' =>
      simp only [hread, ofExcept_error, Except.error.injEq, Stop.fault.injEq] at he
      obtain ⟨rest, hline⟩ := Script.exists_line_of_readFrom hread
      rw [← he, hline]
      exact Script.lineAt_bounds script rest
  · intro items _ options selection
    rw [ofItems_eq, ok_bind, report_eq]

/-- Behind a class whose name has two bytes stands a function, or a `%` that begins nothing. -/
theorem parse_and_report_safe_umlaut :
    let readable := "class Ä;\nfunction f();".toList
    let broken := "class Ä;\n%".toList
    let scope : Item := .scope (.parse ['Ä']) [] none
    let items : List Item := [scope, .declaration (.named .function ⟨.global, ['f']⟩)]
    let e : Error := ⟨2, .directive .unnamed⟩
    let all : Selection := ⟨[], true, true⟩
    nextItem broken 0 = .ok (some (scope, 9)) ∧ 9 ≤ Text.size broken
      ∧ parse broken = .error (.fault e) ∧ e.line ≤ Script.lineBreaks broken + 1
      ∧ parse readable = .ok items
      ∧ (ofItems items .standard >>= fun i => report i all : Checked Error Report)
        = .ok ((Interface.ofItems items .standard).report all) := by
  intro readable broken scope items e all
  have hnext : nextItem broken 0 = .ok (some (scope, 9)) := by decide +kernel
  have hbroken : parse broken = .error (.fault e) := by decide +kernel
  have hreadable : parse readable = .ok items := by decide +kernel
  obtain ⟨-, hmoves, hlines, -⟩ := parse_and_report_safe broken
  exact ⟨hnext, (hmoves 0 scope 9 hnext).2, hbroken, (hlines e hbroken).2, hreadable,
    (parse_and_report_safe readable).2.2.2 items hreadable .standard all⟩

end Checked

end Overlay
