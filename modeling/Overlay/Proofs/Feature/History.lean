/-
What a run leaves in the draft of a table.

A draft keeps its entries twice over: in slots, some of them empty, and in a registry that
leads from a key to the slot of its live entry. The first half of this file is about one
step. It says that slots and registry are in one-to-one correspondence (`Coherent`), that
every operation keeps that, and what the operation does to `Draft.entries`, the list of
what the slots still hold. Nothing after that looks at a slot.

The second half is about runs. What is live after a run can be told from the operations
alone: the directives that do not clear and whose key no later directive has (`lasting`).
The induction is over the operations from the front, with the draft as it stands: an entry
of that draft survives if no operation of the rest has its key, and the rest adds what
lasts of it. Everything else that a run shows, the answers of its directives and the
diagnostics, is decided by what was live just before (`events`).
-/
import Mathlib.Data.List.Basic
import Mathlib.Data.List.Perm.Basic
import Overlay.Feature.Table

set_option autoImplicit false

namespace Overlay.Feature

/-! ## Slots and registry

A slot is never taken away and never used again, so the place of an entry in the list is fixed when
it is recorded. The registry is the only thing that leads to it. Two primitive steps touch both,
giving a slot and emptying one, and for each it is shown that it keeps the two in step; a directive
is put together from these. -/

namespace Draft

/-- **The correspondence.** The registry leads from a key to a slot exactly if the slot holds
an entry of that key. In particular no two slots hold entries of one key, and no entry is
left in a slot that the registry has forgotten. -/
def Coherent (d : Draft) : Prop :=
  ∀ (key : Key) (slot : Nat),
    d.live.get? key = some slot ↔ ∃ e, d.slots[slot]? = some (some e) ∧ e.key = key

/-- An empty draft has neither slots nor keys. -/
theorem coherent_empty : empty.Coherent := by
  intro key slot
  simp [empty]

/-- The place of the sequence is in neither, so taking one changes nothing. -/
theorem Coherent.tick {d : Draft} (h : d.Coherent) : d.tick.Coherent := h

/-- Emptying the slot of a live entry keeps the correspondence: its key is gone on both
sides, and no other key led to that slot. -/
theorem Coherent.vacate {d : Draft} {key : Key} {slot : Nat} (h : d.Coherent)
    (hlive : d.live.get? key = some slot) : (d.vacate key slot).Coherent := by
  obtain ⟨held, hheld, hkey⟩ := (h key slot).1 hlive
  intro k i
  have hget : (d.slots.set slot none)[i]?
      = if i = slot then (d.slots[i]?).map fun _ => none else d.slots[i]? := by
    rw [List.getElem?_set']
    by_cases hi : slot = i
    · subst hi; simp; rfl
    · rw [if_neg hi, if_neg (Ne.symm hi)]
  show (d.live.erase key).get? k = some i
    ↔ ∃ e, (d.slots.set slot none)[i]? = some (some e) ∧ e.key = k
  rw [Registry.get?_erase, hget]
  by_cases hi : i = slot
  · -- the emptied slot holds nothing, and only `key` led there
    subst hi
    rw [if_pos rfl, hheld]
    by_cases hk : k = key
    · simp [hk]
    · rw [if_neg hk]
      constructor
      · intro hki
        obtain ⟨e, he, hek⟩ := (h k i).1 hki
        rw [hheld] at he
        obtain rfl : held = e := by simpa using he
        exact absurd (hek.symm.trans hkey) hk
      · rintro ⟨e, he, -⟩
        simp at he
  · rw [if_neg hi]
    by_cases hk : k = key
    · -- a second slot of `key` would be the one that it leads to
      subst hk
      rw [if_pos rfl]
      constructor
      · intro hki
        simp at hki
      · rintro ⟨e, he, hek⟩
        have hsome : d.live.get? k = some i := (h k i).2 ⟨e, he, hek⟩
        rw [hlive, Option.some_inj] at hsome
        exact absurd hsome.symm hi
    · rw [if_neg hk]
      exact h k i

/-- Giving an entry a slot keeps the correspondence if its key is not live. -/
theorem Coherent.occupy {d : Draft} {e : Entry} (h : d.Coherent)
    (hfree : d.live.get? e.key = none) : (d.occupy e).Coherent := by
  intro k i
  show (d.live.insert e.key d.slots.length).get? k = some i
    ↔ ∃ f, (d.slots ++ [some e])[i]? = some (some f) ∧ f.key = k
  rw [Registry.get?_insert]
  rcases Nat.lt_trichotomy i d.slots.length with hi | rfl | hi
  · rw [List.getElem?_append_left hi]
    by_cases hk : k = e.key
    · subst hk
      rw [if_pos rfl, ← h e.key i, hfree]
      simp [Nat.ne_of_gt hi]
    · rw [if_neg hk]
      exact h k i
  · -- the new slot, to which only the key of the entry leads
    rw [List.getElem?_append_right (Nat.le_refl _), Nat.sub_self]
    by_cases hk : k = e.key
    · subst hk
      simp
    · rw [if_neg hk, h k d.slots.length]
      simp [Ne.symm hk]
  · -- past the end there is no slot
    have hnone : (d.slots ++ [some e])[i]? = none :=
      List.getElem?_eq_none (by simp; omega)
    have hold : d.slots[i]? = none := List.getElem?_eq_none (by omega)
    rw [hnone]
    by_cases hk : k = e.key
    · simp [hk, Nat.ne_of_lt hi]
    · rw [if_neg hk, h k i, hold]

/-! ## What the slots hold

The entries of a draft are the slots that are not empty, in order. Here the two primitive steps are
told on that list: one drops the entry of a key, the other puts an entry at the end. -/

/-- An entry of a draft is what some slot holds. -/
theorem mem_entries {d : Draft} {e : Entry} :
    e ∈ d.entries ↔ ∃ slot : Nat, d.slots[slot]? = some (some e) := by
  rw [entries, List.mem_filterMap]
  constructor
  · rintro ⟨o, ho, rfl⟩
    exact List.mem_iff_getElem?.1 ho
  · rintro ⟨slot, hslot⟩
    exact ⟨some e, List.mem_iff_getElem?.2 ⟨slot, hslot⟩, rfl⟩

/-- A key is live exactly if an entry has it. -/
theorem Coherent.isSome_live_iff {d : Draft} (h : d.Coherent) (key : Key) :
    (d.live.get? key).isSome = true ↔ ∃ e ∈ d.entries, e.key = key := by
  rw [Option.isSome_iff_exists]
  constructor
  · rintro ⟨slot, hslot⟩
    obtain ⟨e, he, hek⟩ := (h key slot).1 hslot
    exact ⟨e, mem_entries.2 ⟨slot, he⟩, hek⟩
  · rintro ⟨e, he, hek⟩
    obtain ⟨slot, hslot⟩ := mem_entries.1 he
    exact ⟨slot, (h key slot).2 ⟨e, hslot, hek⟩⟩

/-- Emptying the one slot whose entry fails a test drops that entry. -/
theorem filterMap_set_none {keep : Entry → Bool} {slots : List (Option Entry)} {slot : Nat}
    (h : ∀ (i : Nat) (e : Entry), slots[i]? = some (some e) → (keep e = false ↔ i = slot)) :
    (slots.set slot none).filterMap id = (slots.filterMap id).filter keep := by
  induction slots generalizing slot with
  | nil => rfl
  | cons o os ih =>
    cases slot with
    | zero =>
      -- none of the others fails the test
      have hrest : (os.filterMap id).filter keep = os.filterMap id := by
        rw [List.filter_eq_self]
        intro e he
        obtain ⟨o', ho', rfl⟩ := List.mem_filterMap.1 he
        obtain ⟨i, hi⟩ := List.mem_iff_getElem?.1 ho'
        have hne := (h (i + 1) e hi).not
        simpa using hne
      rw [List.set_cons_zero, List.filterMap_cons_none rfl]
      cases o with
      | none => rw [List.filterMap_cons_none rfl, hrest]
      | some e =>
        have he : keep e = false := (h 0 e rfl).2 rfl
        rw [List.filterMap_cons_some (f := id) rfl, List.filter_cons_of_neg (by simp [he]), hrest]
    | succ slot =>
      have hos : (os.set slot none).filterMap id = (os.filterMap id).filter keep := by
        refine ih fun i e hi => ?_
        rw [h (i + 1) e hi, Nat.add_right_cancel_iff]
      rw [List.set_cons_succ]
      cases o with
      | none => rw [List.filterMap_cons_none rfl, List.filterMap_cons_none rfl, hos]
      | some e =>
        -- its place is not the one that is emptied
        have he : keep e = true := by simpa using (h 0 e rfl).not
        rw [List.filterMap_cons_some (f := id) rfl, List.filterMap_cons_some (f := id) rfl,
          List.filter_cons_of_pos he, hos]

/-- Vacating the slot of a live key leaves the entries of all other keys. -/
theorem Coherent.entries_vacate {d : Draft} {key : Key} {slot : Nat} (h : d.Coherent)
    (hlive : d.live.get? key = some slot) :
    (d.vacate key slot).entries = d.entries.filter fun e => e.key ≠ key := by
  refine filterMap_set_none fun i e hi => ?_
  have hek : d.live.get? e.key = some i := (h e.key i).2 ⟨e, hi, rfl⟩
  constructor
  · intro hkey
    obtain rfl : e.key = key := by simpa using hkey
    rw [hlive, Option.some_inj] at hek
    exact hek.symm
  · rintro rfl
    obtain ⟨f, hf, hfk⟩ := (h key i).1 hlive
    rw [hi] at hf
    obtain rfl : e = f := by simpa using hf
    simpa using hfk

/-- An entry that was given a slot comes last. -/
theorem entries_occupy (d : Draft) (e : Entry) : (d.occupy e).entries = d.entries ++ [e] := by
  simp [entries, occupy]

/-- Where a key is not live, the entries of all other keys are all. -/
theorem Coherent.entries_of_not_live {d : Draft} {key : Key} (h : d.Coherent)
    (hfree : d.live.get? key = none) : (d.entries.filter fun e => e.key ≠ key) = d.entries := by
  rw [List.filter_eq_self]
  intro e he
  have hkey : e.key ≠ key := by
    intro heq
    have hsome := (h.isSome_live_iff key).2 ⟨e, he, heq⟩
    rw [hfree] at hsome
    simp at hsome
  simpa using hkey

/-- The keys of the entries are distinct. -/
theorem Coherent.nodup_keys {d : Draft} (h : d.Coherent) : (d.entries.map Entry.key).Nodup := by
  rw [List.Nodup, List.pairwise_map, entries, List.pairwise_filterMap, List.pairwise_iff_getElem]
  intro i j hi hj hij e he f hf heq
  have hei : d.live.get? e.key = some i :=
    (h e.key i).2 ⟨e, List.getElem?_eq_some_iff.2 ⟨hi, he⟩, rfl⟩
  have hfj : d.live.get? f.key = some j :=
    (h f.key j).2 ⟨f, List.getElem?_eq_some_iff.2 ⟨hj, hf⟩, rfl⟩
  rw [heq, hfj, Option.some_inj] at hei
  omega

/-- There are as many live keys as entries. -/
theorem Coherent.size_eq {d : Draft} (h : d.Coherent) : d.size = d.entries.length := by
  have hperm : d.live.keys.Perm (d.entries.map Entry.key) := by
    refine (List.perm_ext_iff_of_nodup d.live.distinct h.nodup_keys).2 fun key => ?_
    show key ∈ d.live.keys ↔ key ∈ d.entries.map Entry.key
    rw [Registry.mem_keys, ← Option.isSome_iff_exists, h.isSome_live_iff, List.mem_map]
  have hlen := hperm.length_eq
  rwa [Registry.keys, List.length_map, List.length_map] at hlen

/-! ## One directive

`record` asks the registry once and then goes one of four ways. The lemmas here say what
each way comes to on the entries; they are all that runs need. -/

/-- Recording a directive keeps the correspondence. -/
theorem Coherent.define {d : Draft} (h : d.Coherent) (e : Entry) : (d.define e).Coherent := by
  rw [Draft.define, record]
  cases hlive : d.live.get? e.key with
  | none =>
    dsimp only
    split
    · exact h
    · exact h.tick.occupy hlive
  | some slot =>
    have hvacated := h.tick.vacate hlive
    have hfree : (d.tick.vacate e.key slot).live.get? e.key = none := by
      rw [Draft.vacate, Registry.get?_erase, if_pos rfl]
    dsimp only
    split
    · exact hvacated
    · exact hvacated.occupy hfree

/-- A directive drops the entry of its key and, unless it clears, comes last itself. -/
theorem Coherent.entries_define {d : Draft} (h : d.Coherent) (e : Entry) :
    (d.define e).entries = (d.entries.filter fun f => f.key ≠ e.key)
      ++ (if e.value = .cleared then [] else [e.placed d.nextSequence]) := by
  rw [Draft.define, record]
  cases hlive : d.live.get? e.key with
  | none =>
    rw [h.entries_of_not_live hlive]
    dsimp only
    split
    · rw [List.append_nil]
      rfl
    · rw [entries_occupy]
      rfl
  | some slot =>
    have hvacated := h.tick.entries_vacate hlive
    dsimp only
    split
    · rw [hvacated, List.append_nil]
      rfl
    · rw [entries_occupy, hvacated]
      rfl

/-- A directive takes one place of the sequence, whatever it does. -/
theorem nextSequence_define (d : Draft) (e : Entry) :
    (d.define e).nextSequence = d.nextSequence + 1 := by
  rw [define, record]
  split <;> split <;> rfl

end Draft

/-- What a directive is answered, by whether it clears and whether its key is live. -/
def Outcome.of (clears live : Bool) : Outcome :=
  match clears, live with
  | true, true => cleared
  | true, false => clearIgnored
  | false, true => replaced
  | false, false => inserted

namespace Draft

/-- A directive is answered by its value and by what is live. -/
theorem Coherent.outcome_eq {d : Draft} (h : d.Coherent) (e : Entry) :
    d.outcome e = .of (e.value = .cleared) (d.entries.any fun f => f.key = e.key) := by
  have hany : (d.entries.any fun f => decide (f.key = e.key)) = (d.live.get? e.key).isSome := by
    rw [Bool.eq_iff_iff, h.isSome_live_iff, List.any_eq_true]
    simp only [decide_eq_true_eq]
  rw [hany, outcome, record]
  cases d.live.get? e.key <;> by_cases hc : e.value = .cleared <;> simp [hc, Outcome.of]

/-- Only a clear that found nothing leaves a diagnostic. -/
theorem diagnostics_define (d : Draft) (e : Entry) :
    (d.define e).diagnostics = d.diagnostics
      ++ (if d.outcome e = .clearIgnored then [⟨e.feature, e.pattern.display, d.nextSequence⟩]
        else []) := by
  rw [define, outcome, record]
  cases d.live.get? e.key <;> by_cases hc : e.value = .cleared
    <;> simp [hc, tick, vacate, occupy, complain, Entry.placed]

end Draft

/-! ## Runs

A run is a list of operations, each of which takes one place of the sequence. Where it is said that
a declaration ticks, that is all that it does to the table. -/

/-- One use of the sequence: by a declaration, or by a directive. -/
inductive Operation where
  | tick
  | define (entry : Entry)
  deriving DecidableEq

/-- The operation is a directive of this key. -/
def Operation.isOn (key : Key) : Operation → Bool
  | tick => false
  | define e => e.key = key

/-- A directive of this key is among the operations. -/
def redefined (ops : List Operation) (key : Key) : Bool := ops.any (Operation.isOn key)

namespace Draft

/-- The draft after one operation. -/
def step (d : Draft) : Operation → Draft
  | .tick => d.tick
  | .define e => d.define e

/-- The draft after some operations. -/
def run (d : Draft) (ops : List Operation) : Draft := ops.foldl step d

/-- The answers that the directives of a run get, in order. -/
def answers (d : Draft) : List Operation → List Outcome
  | [] => []
  | .tick :: ops => d.tick.answers ops
  | .define e :: ops => d.outcome e :: (d.define e).answers ops

/-- A run can be broken off anywhere and gone on with. -/
theorem run_append (d : Draft) (xs ys : List Operation) :
    d.run (xs ++ ys) = (d.run xs).run ys :=
  List.foldl_append

end Draft

/-! ## What lasts

This is a definition by recursion from the front, as the induction over a run needs it. That it is
what one would write down by places, a directive that no later one has the key of, is `mem_lasting`.
-/

/-- The entries of the operations `ops` that are live when these are over, where `n` places of
the sequence were taken before. A directive lasts if it does not clear and no later one has
its key. -/
def lasting (n : Nat) : List Operation → List Entry
  | [] => []
  | .tick :: ops => lasting (n + 1) ops
  | .define e :: ops =>
    if e.value = .cleared ∨ redefined ops e.key = true then lasting (n + 1) ops
    else e.placed n :: lasting (n + 1) ops

/-- Nothing redefines a key where no operation is left. -/
@[simp] theorem redefined_nil (key : Key) : redefined [] key = false := rfl

/-- A directive redefines its own key. -/
theorem redefined_define (e : Entry) (ops : List Operation) (key : Key) :
    redefined (.define e :: ops) key = (decide (e.key = key) || redefined ops key) :=
  rfl

/-- What lasts is the first directive, if none of the rest has its key, or lasts of the rest. -/
theorem mem_lasting_cons {n : Nat} {op : Operation} {ops : List Operation} {e : Entry} :
    e ∈ lasting n (op :: ops)
      ↔ (∃ f, op = .define f ∧ f.value ≠ .cleared ∧ redefined ops f.key = false ∧ e = f.placed n)
        ∨ e ∈ lasting (n + 1) ops := by
  cases op with
  | tick => simp [lasting]
  | define f =>
    rw [lasting]
    by_cases hvalue : f.value = .cleared
    · simp [hvalue]
    · cases hlast : redefined ops f.key <;> simp [hvalue, hlast]

/-- **What lasts, told by places.** The operation at the place is a directive that does not
clear, and no directive behind it has its key. -/
theorem mem_lasting {n : Nat} {ops : List Operation} {e : Entry} :
    e ∈ lasting n ops ↔ ∃ i f, ops[i]? = some (.define f) ∧ f.value ≠ .cleared
      ∧ redefined (ops.drop (i + 1)) f.key = false ∧ e = f.placed (n + i) := by
  induction ops generalizing n with
  | nil => simp [lasting]
  | cons op ops ih =>
    have hplace : ∀ i, n + 1 + i = n + (i + 1) := fun i => by omega
    rw [mem_lasting_cons, ih]
    simp only [hplace]
    constructor
    · rintro (⟨f, rfl, hrest⟩ | ⟨i, f, hrest⟩)
      · exact ⟨0, f, rfl, hrest⟩
      · exact ⟨i + 1, f, hrest⟩
    · rintro ⟨i, f, hi, hrest⟩
      cases i with
      | zero => exact .inl ⟨f, Option.some_inj.1 hi, hrest⟩
      | succ i => exact .inr ⟨i, f, hi, hrest⟩

/-- No directive behind a place has the key. -/
theorem redefined_drop_eq_false_iff {ops : List Operation} {key : Key} {i : Nat} :
    redefined (ops.drop (i + 1)) key = false
      ↔ ∀ (j : Nat) (f : Entry), i < j → ops[j]? = some (.define f) → f.key ≠ key := by
  rw [redefined, List.any_eq_false]
  constructor
  · intro h j f hij hj hkey
    have hbehind : (ops.drop (i + 1))[j - (i + 1)]? = some (.define f) := by
      rw [List.getElem?_drop, ← hj]
      congr 1
      omega
    refine h (.define f) (List.mem_of_getElem? hbehind) ?_
    simp [Operation.isOn, hkey]
  · intro h op hop
    obtain ⟨j, hj⟩ := List.mem_iff_getElem?.1 hop
    rw [List.getElem?_drop] at hj
    cases op with
    | tick => simp [Operation.isOn]
    | define f => simpa [Operation.isOn] using h (i + 1 + j) f (by omega) hj

/-- The places of what lasts are those that the operations took, and they ascend. -/
theorem sequence_of_mem_lasting {n : Nat} {ops : List Operation} {e : Entry}
    (h : e ∈ lasting n ops) : n ≤ e.sequence ∧ e.sequence < n + ops.length := by
  obtain ⟨i, f, hi, -, -, rfl⟩ := mem_lasting.1 h
  have hlt : i < ops.length := (List.getElem?_eq_some_iff.1 hi).1
  show n ≤ n + i ∧ n + i < n + ops.length
  omega

/-- What lasts is listed in the order of the sequence, and no place comes twice. -/
theorem lasting_ascending (n : Nat) (ops : List Operation) :
    (lasting n ops).Pairwise fun e f => e.sequence < f.sequence := by
  induction ops generalizing n with
  | nil => exact .nil
  | cons op ops ih =>
    cases op with
    | tick => exact ih (n + 1)
    | define e =>
      rw [lasting]
      split
      · exact ih (n + 1)
      · refine List.pairwise_cons.2 ⟨?_, ih (n + 1)⟩
        intro f hf
        exact (sequence_of_mem_lasting hf).1

namespace Draft

/-- A run keeps the correspondence of slots and registry. -/
theorem Coherent.run {d : Draft} (h : d.Coherent) (ops : List Operation) :
    (d.run ops).Coherent := by
  induction ops generalizing d with
  | nil => exact h
  | cons op ops ih =>
    cases op with
    | tick => exact ih h.tick
    | define e => exact ih (h.define e)

/-- A run takes a place of the sequence for each operation. -/
theorem nextSequence_run (d : Draft) (ops : List Operation) :
    (d.run ops).nextSequence = d.nextSequence + ops.length := by
  induction ops generalizing d with
  | nil => rfl
  | cons op ops ih =>
    have hstep : (d.step op).nextSequence = d.nextSequence + 1 := by
      cases op with
      | tick => rfl
      | define e => exact d.nextSequence_define e
    show ((d.step op).run ops).nextSequence = _
    rw [ih, hstep, List.length_cons]
    omega

/-- **What a run leaves.** The entries that were there and whose key the run does not touch,
and then what lasts of the run itself. -/
theorem Coherent.entries_run {d : Draft} (h : d.Coherent) (ops : List Operation) :
    (d.run ops).entries = (d.entries.filter fun e => !redefined ops e.key)
      ++ lasting d.nextSequence ops := by
  induction ops generalizing d with
  | nil =>
    show d.entries = _
    simp [lasting]
  | cons op ops ih =>
    cases op with
    | tick => exact ih h.tick
    | define e =>
      show ((d.define e).run ops).entries = _
      rw [ih (h.define e), h.entries_define e, nextSequence_define, List.filter_append,
        List.filter_filter, List.append_assoc]
      congr 1
      · refine List.filter_congr fun f _ => ?_
        rw [redefined_define, Bool.not_or, Bool.and_comm]
        simp [eq_comm]
      · rw [lasting]
        by_cases hc : e.value = .cleared
        · simp [hc]
        · by_cases hr : redefined ops e.key = true
          · simp [hc, hr]
          · simp [hc, hr]

/-- **The entries of a run** are what lasts of its operations. -/
theorem entries_run_empty (ops : List Operation) : (empty.run ops).entries = lasting 0 ops := by
  rw [coherent_empty.entries_run]
  rfl

end Draft

/-! ## Answers and diagnostics

Both are told by events, one for each directive, with what was live when it came. As what was live
is itself told by `lasting`, an event depends on the operations before it and on no draft. -/

/-- A directive of a run: its place, the entry as it was given, and its answer. -/
structure Event where
  place : Nat
  entry : Entry
  answer : Outcome
  deriving DecidableEq

/-- The diagnostic that the directive leaves, if it leaves one. -/
def Event.diagnostic? (event : Event) : Option Diagnostic :=
  if event.answer = .clearIgnored then
    some ⟨event.entry.feature, event.entry.pattern.display, event.place⟩
  else none

/-- The directives among the operations that follow `before`. A directive is answered by its
value, and by whether something of its key lasts of the operations before it. -/
def events (before : List Operation) : List Operation → List Event
  | [] => []
  | .tick :: ops => events (before ++ [.tick]) ops
  | .define e :: ops =>
    ⟨before.length, e,
        .of (e.value = .cleared) ((lasting 0 before).any fun f => f.key = e.key)⟩
      :: events (before ++ [.define e]) ops

namespace Draft

/-- The answer to a directive is told by its value and by what lasts of the operations before it. -/
theorem outcome_run (before : List Operation) (e : Entry) :
    (empty.run before).outcome e
      = .of (e.value = .cleared) ((lasting 0 before).any fun f => f.key = e.key) := by
  rw [(coherent_empty.run before).outcome_eq, entries_run_empty]

/-- The answers of a run are those of its events. -/
theorem answers_run (before ops : List Operation) :
    (empty.run before).answers ops = (events before ops).map Event.answer := by
  induction ops generalizing before with
  | nil => rfl
  | cons op ops ih =>
    -- the draft after one more operation is that of the longer past
    have hstep : (empty.run before).step op = empty.run (before ++ [op]) :=
      (run_append empty before [op]).symm
    cases op with
    | tick =>
      show ((empty.run before).step .tick).answers ops = _
      rw [hstep, ih]
      rfl
    | define e =>
      show (empty.run before).outcome e :: ((empty.run before).step (.define e)).answers ops = _
      rw [hstep, ih, outcome_run]
      rfl

/-- Its diagnostics are those of its events as well, behind the ones that were there. -/
theorem diagnostics_run (before ops : List Operation) :
    (empty.run (before ++ ops)).diagnostics
      = (empty.run before).diagnostics ++ (events before ops).filterMap Event.diagnostic? := by
  induction ops generalizing before with
  | nil => simp [events]
  | cons op ops ih =>
    have happ : before ++ op :: ops = (before ++ [op]) ++ ops := by simp
    have hstep : empty.run (before ++ [op]) = (empty.run before).step op :=
      run_append empty before [op]
    rw [happ, ih, hstep]
    cases op with
    | tick => rfl
    | define e =>
      have hplace : (empty.run before).nextSequence = before.length := by
        rw [nextSequence_run]
        exact Nat.zero_add _
      show ((empty.run before).define e).diagnostics ++ _ = _
      rw [diagnostics_define, hplace, outcome_run, events, List.filterMap_cons, List.append_assoc]
      congr 1
      simp only [Event.diagnostic?]
      split <;> simp

/-- **A draft is what its history says.** After any run from the empty draft the table holds
what lasts, at the places where it was recorded; as many keys are live as entries last; every
directive was answered by what was live just before it; and the diagnostics are those of the
clears that found nothing, in order. -/
theorem run_eq_history (ops : List Operation) :
    (empty.run ops).freeze.entries = lasting 0 ops
      ∧ (empty.run ops).size = (lasting 0 ops).length
      ∧ empty.answers ops = (events [] ops).map Event.answer
      ∧ (empty.run ops).freeze.diagnostics = (events [] ops).filterMap Event.diagnostic? := by
  refine ⟨entries_run_empty ops, ?_, answers_run [] ops, diagnostics_run [] ops⟩
  rw [(coherent_empty.run ops).size_eq, entries_run_empty]

end Draft

end Overlay.Feature
