/-
What one directive does to the winner.

A directive removes by key, and the winner is found by matching. So a directive could, by the
entry that it removes, bring up an entry that it does not name, or hide one. This file says
how far that goes. On a query that its pattern has no part in, a directive does nothing. If
the winner is of another key, it stays, or the directive itself comes to stand above it. And
if the winner is of its own key, a directive that neither clears nor is global takes the
winner's place, since it is as specific, matches at the same depth and comes later. A global
one need not: it may come too late for the variant.

All of it follows from two facts on tables. Tables that have the same eligible entries have
the same winner (`bestMatch_congr`). And where entries were removed and one was added, but
the winner is still there, no third entry can win (`bestMatch_of_rivals`).
-/
import Overlay.Proofs.Feature.Precedence

set_option autoImplicit false

namespace Overlay.Feature

variable {t t' : Table} {feature : Text} {v : Variant} {g : ScopeGraph}

/-! ## Tables and winners

Two tables are compared on one query. That their places ascend is asked of both, as it is what makes
a winner strictly best; tables of runs have it. -/

/-- What is level with a rank but later is above all that the rank is above. -/
theorem Rank.Above.later {r s : Rank} (h : r.Above s) {place : Nat} (hplace : r.sequence < place) :
    ({ r with sequence := place } : Rank).Above s := by
  unfold Above at *
  dsimp only
  omega

/-- The entries stand in the order of their places. -/
def Table.Ascending (t : Table) : Prop :=
  t.entries.Pairwise fun e f => e.sequence < f.sequence

/-- The tables of runs are ascending. -/
theorem Draft.ascending_run (ops : List Operation) : (empty.run ops).freeze.Ascending := by
  have hentries : (empty.run ops).freeze.entries = lasting 0 ops := entries_run_empty ops
  rw [Table.Ascending, hentries]
  exact lasting_ascending 0 ops

/-- What wins wins in every table that has the same eligible entries. -/
theorem Table.Wins.congr {e : Entry} (h : t.Wins e feature v g)
    (hsame : ∀ f depth, f.Eligible feature v g depth → (f ∈ t.entries ↔ f ∈ t'.entries)) :
    t'.Wins e feature v g := by
  obtain ⟨hmem, depth, helig, hwins⟩ := h
  refine ⟨(hsame e depth helig).1 hmem, depth, helig, ?_⟩
  intro f hf hne depth' helig'
  exact hwins f ((hsame f depth' helig').2 hf) hne depth' helig'

/-- Tables that have the same eligible entries have the same winner. -/
theorem Table.bestMatch_congr (ht : t.Ascending) (ht' : t'.Ascending)
    (hsame : ∀ f depth, f.Eligible feature v g depth → (f ∈ t.entries ↔ f ∈ t'.entries)) :
    t.bestMatch feature v g = t'.bestMatch feature v g := by
  refine Option.ext fun e => ?_
  rw [bestMatch_eq_some_iff ht, bestMatch_eq_some_iff ht']
  exact ⟨fun h => h.congr hsame, fun h => h.congr fun f depth hf => (hsame f depth hf).symm⟩

/-- Where the winner is still there and only `x` was added, the winner stays or `x` wins: any
other entry lost against the winner before, and still does. -/
theorem Table.bestMatch_of_rivals {x : Entry} (ht : t.Ascending) (ht' : t'.Ascending)
    (hrivals : ∀ f ∈ t'.entries, f = x ∨ f ∈ t.entries)
    (hwinner : ∀ w, t.bestMatch feature v g = some w → w ∈ t'.entries) :
    t'.bestMatch feature v g = t.bestMatch feature v g ∨ t'.bestMatch feature v g = some x := by
  cases hnew : t'.bestMatch feature v g with
  | none =>
    left
    cases hold : t.bestMatch feature v g with
    | none => rfl
    | some w =>
      -- the winner is still eligible
      obtain ⟨-, depth, helig, -⟩ := (bestMatch_eq_some_iff ht).1 hold
      exact absurd helig (bestMatch_eq_none_iff.1 hnew w (hwinner w hold) depth)
  | some y =>
    by_cases hyx : y = x
    · exact .inr (congrArg some hyx)
    · left
      obtain ⟨hy, depth, hyelig, hywins⟩ := (bestMatch_eq_some_iff ht').1 hnew
      have hyold : y ∈ t.entries := (hrivals y hy).resolve_left hyx
      cases hold : t.bestMatch feature v g with
      | none => exact absurd hyelig (bestMatch_eq_none_iff.1 hold y hyold depth)
      | some w =>
        obtain ⟨-, depth', hwelig, hwwins⟩ := (bestMatch_eq_some_iff ht).1 hold
        by_contra hne
        have hyw : y ≠ w := fun heq => hne (congrArg some heq)
        -- each of the two would stand above the other
        have habove := hywins w (hwinner w hold) hyw.symm depth' hwelig
        have hbelow := hwwins y hyold hyw depth hyelig
        exact Rank.Above.irrefl _ (habove.trans hbelow)

/-! ## The table after a directive

The entries of other keys stay as they are. There is a new one unless the directive clears, and it
comes last. -/

namespace Draft

/-- The draft after a directive is that of a run with one operation more. -/
theorem define_run (ops : List Operation) (e : Entry) :
    (empty.run ops).define e = empty.run (ops ++ [.define e]) :=
  (run_append empty ops [.define e]).symm

/-- The places of the entries ascend after one directive more. -/
theorem ascending_define (ops : List Operation) (e : Entry) :
    ((empty.run ops).define e).freeze.Ascending := by
  rw [define_run]
  exact ascending_run _

/-- What is there after a directive: the entries of other keys, and the directive unless it
clears. -/
theorem mem_entries_define {ops : List Operation} {e f : Entry} :
    f ∈ ((empty.run ops).define e).freeze.entries
      ↔ (f ∈ (empty.run ops).freeze.entries ∧ f.key ≠ e.key)
        ∨ (e.value ≠ .cleared ∧ f = e.placed (empty.run ops).nextSequence) := by
  show f ∈ ((empty.run ops).define e).entries ↔ (f ∈ (empty.run ops).entries ∧ _) ∨ _
  rw [(coherent_empty.run ops).entries_define e, List.mem_append, List.mem_filter]
  by_cases hvalue : e.value = .cleared
  · simp [hvalue]
  · simp [hvalue]

/-- The places of the entries were taken before the next one. -/
theorem sequence_lt_nextSequence {ops : List Operation} {f : Entry}
    (hf : f ∈ (empty.run ops).freeze.entries) : f.sequence < (empty.run ops).nextSequence := by
  have hlasting : f ∈ lasting 0 ops := entries_run_empty ops ▸ hf
  have hlt := (sequence_of_mem_lasting hlasting).2
  have hnext : (empty.run ops).nextSequence = 0 + ops.length := nextSequence_run empty ops
  omega

end Draft

/-- An entry that is eligible where the directive has no part is of another key. -/
theorem Entry.Eligible.key_ne {e f : Entry} {depth : Nat} (hf : f.Eligible feature v g depth)
    (h : feature ≠ e.feature ∨ e.pattern.depth? v g = none) : f.key ≠ e.key := by
  intro hkey
  obtain ⟨hfeature, hdepth, -⟩ := hf
  obtain ⟨hfe, hpattern⟩ := Key.mk.inj hkey
  rcases h with hne | hnone
  · exact hne (hfeature.symm.trans hfe)
  · rw [hpattern, hnone] at hdepth
    simp at hdepth

/-! ## The winner after a directive

There are three cases, a query that the directive has no part in, a winner of another key, and a
winner of its own key. -/

section
variable {ops : List Operation} {e : Entry}

/-- Where a directive has no part, it does nothing. -/
theorem bestMatch_define_of_no_part
    (h : feature ≠ e.feature ∨ e.pattern.depth? v g = none) :
    ((Draft.empty.run ops).define e).freeze.bestMatch feature v g
      = (Draft.empty.run ops).freeze.bestMatch feature v g := by
  refine Table.bestMatch_congr (Draft.ascending_define ops e) (Draft.ascending_run ops) ?_
  intro f depth hf
  rw [Draft.mem_entries_define]
  constructor
  · rintro (⟨hmem, -⟩ | ⟨-, rfl⟩)
    · exact hmem
    · exact absurd rfl (hf.key_ne h)
  · intro hmem
    exact .inl ⟨hmem, hf.key_ne h⟩

/-- A winner of another key stays, or the directive wins. -/
theorem bestMatch_define_of_key_ne
    (h : ∀ w, (Draft.empty.run ops).freeze.bestMatch feature v g = some w → w.key ≠ e.key) :
    ((Draft.empty.run ops).define e).freeze.bestMatch feature v g
        = (Draft.empty.run ops).freeze.bestMatch feature v g
      ∨ ((Draft.empty.run ops).define e).freeze.bestMatch feature v g
        = some (e.placed (Draft.empty.run ops).nextSequence) := by
  refine Table.bestMatch_of_rivals (Draft.ascending_run ops) (Draft.ascending_define ops e) ?_ ?_
  · intro f hf
    rcases Draft.mem_entries_define.1 hf with ⟨hmem, -⟩ | ⟨-, rfl⟩
    · exact .inr hmem
    · exact .inl rfl
  · intro w hw
    obtain ⟨hmem, -⟩ := (Table.bestMatch_eq_some_iff (Draft.ascending_run ops)).1 hw
    exact Draft.mem_entries_define.2 (.inl ⟨hmem, h w hw⟩)

/-- A clearing directive never wins. -/
theorem bestMatch_define_ne_of_cleared (hvalue : e.value = .cleared) :
    ((Draft.empty.run ops).define e).freeze.bestMatch feature v g
      ≠ some (e.placed (Draft.empty.run ops).nextSequence) := by
  intro hwins
  obtain ⟨hmem, -⟩ := (Table.bestMatch_eq_some_iff (Draft.ascending_define ops e)).1 hwins
  rcases Draft.mem_entries_define.1 hmem with ⟨-, hkey⟩ | ⟨hset, -⟩
  · exact hkey rfl
  · exact hset hvalue

/-- A directive that neither clears nor is global takes the place of a winner of its key. -/
theorem bestMatch_define_of_key_eq {w : Entry}
    (hw : (Draft.empty.run ops).freeze.bestMatch feature v g = some w) (hkey : w.key = e.key)
    (hvalue : e.value ≠ .cleared) (hlocal : e.pattern.isGlobal = false) :
    ((Draft.empty.run ops).define e).freeze.bestMatch feature v g
      = some (e.placed (Draft.empty.run ops).nextSequence) := by
  obtain ⟨hmem, depth, ⟨hfeature, hdepth, -⟩, hwins⟩ :=
    (Table.bestMatch_eq_some_iff (Draft.ascending_run ops)).1 hw
  obtain ⟨hfe, hpattern⟩ := Key.mk.inj hkey
  have helig : (e.placed (Draft.empty.run ops).nextSequence).Eligible feature v g depth :=
    ⟨hfe ▸ hfeature, hpattern ▸ hdepth, .inl hlocal⟩
  refine (Table.bestMatch_eq_some_iff (Draft.ascending_define ops e)).2
    ⟨Draft.mem_entries_define.2 (.inr ⟨hvalue, rfl⟩), depth, helig, ?_⟩
  intro f hf hne depth' hfelig
  rcases Draft.mem_entries_define.1 hf with ⟨hfmem, hfkey⟩ | ⟨-, rfl⟩
  · -- the winner was above `f`, and the directive is level with it but later
    have hfw : f ≠ w := by
      rintro rfl
      exact hfkey hkey
    have habove := hwins f hfmem hfw depth' hfelig
    have hlater := Draft.sequence_lt_nextSequence hmem
    have hlevel : (e.placed (Draft.empty.run ops).nextSequence).rankAt depth
        = { w.rankAt depth with sequence := (Draft.empty.run ops).nextSequence } := by
      rw [Entry.rankAt, Entry.rankAt, hpattern]
      rfl
    rw [hlevel]
    exact habove.later hlater
  · exact absurd rfl hne

end

/-- **What one directive does to the winner.** On a query of another feature, or on a variant
that its pattern does not match, a directive does nothing. If the winner is not of its key
(or there is none), the winner stays or the directive wins, and a clearing one does not. If
the winner is of its key, a directive that neither clears nor is global wins. -/
theorem bestMatch_define (ops : List Operation) (e : Entry) (feature : Text) (v : Variant)
    (g : ScopeGraph) :
    let d := Draft.empty.run ops
    let old := d.freeze.bestMatch feature v g
    let new := (d.define e).freeze.bestMatch feature v g
    let placed := e.placed d.nextSequence
    (feature ≠ e.feature ∨ e.pattern.depth? v g = none → new = old)
      ∧ ((∀ w, old = some w → w.key ≠ e.key) →
        (e.value ≠ .cleared → new = old ∨ new = some placed) ∧ (e.value = .cleared → new = old))
      ∧ ∀ w, old = some w → w.key = e.key → e.value ≠ .cleared → e.pattern.isGlobal = false →
        new = some placed := by
  intro d old new placed
  refine ⟨bestMatch_define_of_no_part, fun hother => ⟨?_, ?_⟩, ?_⟩
  · intro _
    exact bestMatch_define_of_key_ne hother
  · intro hvalue
    exact (bestMatch_define_of_key_ne hother).resolve_right (bestMatch_define_ne_of_cleared hvalue)
  · intro w hw hkey hvalue hlocal
    exact bestMatch_define_of_key_eq hw hkey hvalue hlocal

/-- A rule for `f` wins there. A rule for `g` has no part in it and a global clear leaves it where
it is, but a second rule for `f` takes its place. -/
theorem bestMatch_define_secondRule :
    let rule (pattern : Pattern) (value : Value) : Entry :=
      ⟨"except".toList, pattern, value, none, .empty, 0⟩
    let f : Variant := .full (.named .function ⟨.global, ['f']⟩)
    let first := rule (.ofName ['f']) (.enabled ['1'])
    let d := Draft.empty.run [.define first]
    let winner (d : Draft) := d.freeze.bestMatch "except".toList f .empty
    winner d = some first
      ∧ (Pattern.ofName ['g']).depth? f .empty = none
      ∧ winner (d.define (rule (.ofName ['g']) .disabled)) = winner d
      ∧ first.key ≠ (rule .global .cleared).key
      ∧ winner (d.define (rule .global .cleared)) = winner d
      ∧ winner (d.define (rule (.ofName ['f']) .disabled))
        = some { rule (.ofName ['f']) .disabled with sequence := 1 } := by
  intro rule f first d winner
  have hfirst : winner d = some first := by decide
  have hother : (Pattern.ofName ['g']).depth? f .empty = none := by decide
  have hkey : first.key ≠ (rule .global .cleared).key := by decide
  have hkeys : ∀ w, winner d = some w → w.key ≠ (rule .global .cleared).key := by
    intro w hw
    rw [hfirst] at hw
    obtain rfl := Option.some.inj hw
    exact hkey
  exact ⟨hfirst, hother, (bestMatch_define _ _ _ f .empty).1 (.inr hother), hkey,
    ((bestMatch_define _ _ _ f .empty).2.1 hkeys).2 rfl,
    (bestMatch_define _ _ _ f .empty).2.2 first hfirst rfl (by decide) rfl⟩

end Overlay.Feature
