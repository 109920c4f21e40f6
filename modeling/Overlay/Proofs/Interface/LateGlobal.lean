/-
A global directive at the end.

A global directive applies to the declarations that come after it, so one at the very end
applies to none. It is not without effect, though. It has the key of every other global
directive of its feature, and takes the place of the one that is live: the declarations
between the two lose that one, and are too early for the new one. So at the end of an
interface a global directive does exactly what a clear of its key does, be it even the same
directive over again.

What is felt of that is told by the winners. A declaration comes before the new entry, which
is therefore not eligible on it. So a winner of another key stays, and where no global entry
of the feature is live nothing changes at all.
-/
import Overlay.Proofs.Feature.Revision
import Overlay.Proofs.Interface.Stream

set_option autoImplicit false

namespace Overlay

open Feature (Entry Operation)
open Script (Item)

/-! ## Directives that come too late

An entry that is not eligible on a query has no part in it. So adding it does nothing, and recording
it does what clearing its key does. -/

namespace Feature

/-- The variant has a position among the operations, and so before what comes after them. -/
def Before (v : Variant) (ops : List Operation) : Prop :=
  ∃ place, v.position = some place ∧ place < ops.length

variable {ops : List Operation} {e : Entry} {feature : Text} {v : Variant} {g : ScopeGraph}

/-- A global directive is not eligible on a variant before it. -/
theorem not_eligible_of_before (hglobal : e.pattern = .global) (hv : Before v ops) (depth : Nat) :
    ¬ (e.placed (Draft.empty.run ops).nextSequence).Eligible feature v g depth := by
  rintro ⟨-, -, hlocal | hfree | ⟨place, hplace, hlt⟩⟩
  · simp [Entry.placed, hglobal, Pattern.isGlobal] at hlocal
  · obtain ⟨place, hplace, -⟩ := hv
    simp [hfree] at hplace
  · obtain ⟨place', hplace', hlt'⟩ := hv
    obtain rfl : place = place' := by simpa [hplace] using hplace'
    have hnext : (Draft.empty.run ops).nextSequence = 0 + ops.length :=
      Draft.nextSequence_run .empty ops
    simp only [Entry.placed] at hlt
    omega

/-- On a variant before it a global directive only takes the entry of its key away. -/
theorem mem_entries_define_of_before (hglobal : e.pattern = .global) (hv : Before v ops)
    {f : Entry} {depth : Nat} (hf : f.Eligible feature v g depth) :
    f ∈ ((Draft.empty.run ops).define e).freeze.entries
      ↔ f ∈ (Draft.empty.run ops).freeze.entries ∧ f.key ≠ e.key := by
  rw [Draft.mem_entries_define]
  constructor
  · rintro (h | ⟨-, rfl⟩)
    · exact h
    · exact absurd hf (not_eligible_of_before hglobal hv depth)
  · exact .inl

/-- On a variant before them, two global directives of one key do the same. -/
theorem bestMatch_define_of_before {e' : Entry} (hglobal : e.pattern = .global)
    (hkey : e'.key = e.key) (hv : Before v ops) :
    ((Draft.empty.run ops).define e).freeze.bestMatch feature v g
      = ((Draft.empty.run ops).define e').freeze.bestMatch feature v g := by
  have hglobal' : e'.pattern = .global := (Key.mk.inj hkey).2.trans hglobal
  refine Table.bestMatch_congr (Draft.ascending_define ops e) (Draft.ascending_define ops e') ?_
  intro f depth hf
  rw [mem_entries_define_of_before hglobal hv hf, mem_entries_define_of_before hglobal' hv hf,
    hkey]

/-- On a variant before it, a global directive leaves a winner of another key. -/
theorem bestMatch_define_of_before_of_key_ne (hglobal : e.pattern = .global) (hv : Before v ops)
    (h : ∀ w, (Draft.empty.run ops).freeze.bestMatch feature v g = some w → w.key ≠ e.key) :
    ((Draft.empty.run ops).define e).freeze.bestMatch feature v g
      = (Draft.empty.run ops).freeze.bestMatch feature v g := by
  refine (bestMatch_define_of_key_ne h).resolve_right fun hwins => ?_
  obtain ⟨-, depth, helig, -⟩ :=
    (Table.bestMatch_eq_some_iff (Draft.ascending_define ops e)).1 hwins
  exact not_eligible_of_before hglobal hv depth helig

end Feature

/-! ## Interfaces that differ in the table

What an interface is seen to be depends on its table through the winners alone. -/

namespace InterfaceDraft

variable {t t' : Feature.Draft} {scopes : ScopeGraph} {decls : List Declaration}

/-- The same variants are emitted if the same entries keep declarations to their full form. -/
theorem variants_congr (h : ∀ decl ∈ decls,
      t'.freeze.bestMatch compactFeature (.full decl) scopes
        = t.freeze.bestMatch compactFeature (.full decl) scopes) (o : Options) :
    (finish ⟨t', scopes, decls⟩ o).variants = (finish ⟨t, scopes, decls⟩ o).variants := by
  have hmode : ∀ decl ∈ decls,
      modeOf t'.freeze scopes o decl = modeOf t.freeze scopes o decl := by
    intro decl hdecl
    rw [modeOf, modeOf, compactRequested, compactRequested, h decl hdecl]
  refine congrArg Variant.numberOverloads (List.flatMap_congr fun decl hdecl => ?_)
  exact congrArg decl.variants (hmode decl hdecl)

/-- A feature comes to the same on a variant where the same entry wins. -/
theorem resolve_congr {v : Variant} {feature : Text}
    (h : t'.freeze.bestMatch feature v scopes = t.freeze.bestMatch feature v scopes)
    (o : Options) :
    (finish ⟨t', scopes, decls⟩ o).resolve v feature
      = (finish ⟨t, scopes, decls⟩ o).resolve v feature := by
  show Resolver.resolveBy _ v none (t'.freeze.bestMatch feature v scopes)
    = Resolver.resolveBy _ v none (t.freeze.bestMatch feature v scopes)
  rw [h]
  exact Resolver.resolveBy_congr rfl _

/-- All that is seen of the declarations is the same if the same entries win on them. -/
theorem finish_congr (h : ∀ v : Variant, v.decl ∈ decls → ∀ feature,
      t'.freeze.bestMatch feature v scopes = t.freeze.bestMatch feature v scopes) (o : Options) :
    (finish ⟨t', scopes, decls⟩ o).variants = (finish ⟨t, scopes, decls⟩ o).variants
      ∧ ∀ v : Variant, v.decl ∈ decls →
        (finish ⟨t', scopes, decls⟩ o).resolve v = (finish ⟨t, scopes, decls⟩ o).resolve v := by
  constructor
  · exact variants_congr (fun decl hdecl => h (.full decl) hdecl compactFeature) o
  · intro v hv
    funext feature
    exact resolve_congr (h v hv feature) o

end InterfaceDraft

/-! ## A global directive at the end

Three statements about one and the same directive, from the general one to the one that is easiest
to use: it is a clear of its key, it does nothing where the winner is of another key, and it does
nothing at all where no global entry of the feature is live. -/

namespace Interface

variable {items : List Item} {e : Feature.Entry}

/-- The interface of some items, read off them. -/
theorem ofItems_eq (items : List Item) (o : Options) :
    ofItems items o = InterfaceDraft.finish
      ⟨.run .empty (operations items), linked .empty items, registered 0 items⟩ o := by
  rw [ofItems, pushAll_eq]
  rfl

/-- A directive at the end changes the table alone. -/
theorem ofItems_directive (items : List Item) (e : Feature.Entry) (o : Options) :
    ofItems (items ++ [.directive e]) o = InterfaceDraft.finish
      ⟨(Feature.Draft.empty.run (operations items)).define e, linked .empty items,
        registered 0 items⟩ o := by
  rw [ofItems, InterfaceDraft.pushAll_append]
  show ((InterfaceDraft.empty.pushAll items).define e).finish o = _
  rw [pushAll_eq]
  rfl

/-- The variants of the declarations stand before what comes at the end. -/
theorem before_of_mem_registered {v : Variant} (h : v.decl ∈ registered 0 items) :
    Feature.Before v (operations items) := by
  obtain ⟨i, hi, hposition⟩ := tick_of_mem_registered h
  exact ⟨0 + i, hposition, by simpa using (List.getElem?_eq_some_iff.1 hi).1⟩

/-- **A global directive at the end.** On the declarations before it, it does what a clear of
its key does. What a feature comes to on a variant stays where the winner is not of that key;
and where no entry of that key is live, everything stays as it is without the directive. -/
theorem append_global (hglobal : e.pattern = .global) (items : List Item) (o : Options) :
    let i := ofItems items o
    let i' := ofItems (items ++ [.directive e]) o
    let cleared := ofItems (items ++ [.directive { e with value := .cleared }]) o
    (i'.variants = cleared.variants
        ∧ ∀ v : Variant, v.decl ∈ i.declarations → i'.resolve v = cleared.resolve v)
      ∧ (∀ v : Variant, v.decl ∈ i.declarations → ∀ feature,
        (∀ w, i.resolver.matched v feature = some w → w.key ≠ e.key) →
          i'.resolve v feature = i.resolve v feature)
      ∧ ((∀ f ∈ i.table.entries, f.key ≠ e.key) →
        i'.variants = i.variants
          ∧ ∀ v : Variant, v.decl ∈ i.declarations → i'.resolve v = i.resolve v) := by
  intro i i' cleared
  have hi : i = _ := ofItems_eq items o
  have hi' : i' = _ := ofItems_directive items e o
  have hcleared : cleared = _ := ofItems_directive items { e with value := .cleared } o
  rw [hi, hi', hcleared]
  refine ⟨?_, ?_, ?_⟩
  · refine InterfaceDraft.finish_congr (fun v hv feature => ?_) o
    exact Feature.bestMatch_define_of_before hglobal rfl (before_of_mem_registered hv)
  · intro v hv feature hother
    refine InterfaceDraft.resolve_congr ?_ o
    exact Feature.bestMatch_define_of_before_of_key_ne hglobal (before_of_mem_registered hv) hother
  · intro hnone
    refine InterfaceDraft.finish_congr (fun v hv feature => ?_) o
    refine Feature.bestMatch_define_of_before_of_key_ne hglobal (before_of_mem_registered hv) ?_
    intro w hw
    exact hnone w (Feature.Table.mem_candidates.1 (Feature.Entry.best_spec hw).1).1

/-- The rule again, at the end, is a clear for `f`; a rule of a name is not touched. -/
theorem append_global_again :
    let rule : Feature.Entry := ⟨"except".toList, .global, .enabled ['1'], none, .empty, 0⟩
    let named : Feature.Entry := ⟨"except".toList, .ofName ['f'], .disabled, none, .empty, 0⟩
    let decl : Item := .declaration (.named .function ⟨.global, ['f']⟩)
    let i := ofItems [.directive rule, decl] .standard
    let i' := ofItems ([.directive rule, decl] ++ [.directive rule]) .standard
    let cleared := ofItems ([.directive rule, decl] ++ [.directive { rule with value := .cleared }])
      .standard
    let j := ofItems [.directive named, decl] .standard
    let j' := ofItems ([.directive named, decl] ++ [.directive rule]) .standard
    rule.pattern = .global
      ∧ (∀ v : Variant, v.decl ∈ i.declarations → i'.resolve v = cleared.resolve v)
      ∧ (∀ f ∈ j.table.entries, f.key ≠ rule.key)
      ∧ ∀ v : Variant, v.decl ∈ j.declarations → j'.resolve v = j.resolve v := by
  intro rule named decl i i' cleared j j'
  have hother : ∀ f ∈ j.table.entries, f.key ≠ rule.key := by decide
  exact ⟨rfl, (append_global rfl [.directive rule, decl] .standard).1.2, hother,
    ((append_global rfl [.directive named, decl] .standard).2.2 hother).2⟩

/-- **A rule is lost to the same rule.** The function comes after a global rule that is active
on it, and before the same rule once more. The second one takes the place of the first and
comes too late for the function, on which the feature is then inactive. -/
theorem rule_lost_to_same_rule :
    let rule : Item := .directive ⟨"except".toList, .global, .enabled ['1'], none, .empty, 0⟩
    let decl : Declaration := .named .function ⟨.global, ['f']⟩
    let v : Variant := .full (decl.positioned (some 1))
    let i := ofItems [rule, .declaration decl] .standard
    let i' := ofItems ([rule, .declaration decl] ++ [rule]) .standard
    i.variants = [v] ∧ i'.variants = [v]
      ∧ (i.resolve v "except".toList).active = true
      ∧ (i'.resolve v "except".toList).active = false := by
  decide

end Interface

end Overlay
