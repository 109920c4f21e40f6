/-
Three views of what an interface answers.

A feature can be asked for on a variant, all active features of a variant can be listed, and a
report lists the selected features under every variant. The three look at different things. The
list goes through the features of the table alone; that is enough, since a feature without an
entry has no winner (`mem_featureNames`). A report looks for a winner before it resolves, and
then drops a feature that is not active or a variant without a feature; both steps together
come to one test on what the winner is (`lists`).

A report is made in one walk over the variants and, under each, over the names, which counts the
look-ups (`tally`). The walk is told by what it has after some of the names (`foldl_lookUp`) and
after some of the variants (`foldl_visit`), whatever it had before.

Features are in the order of their bytes, be it in the table or in a list.
-/
import Overlay.Interface.Report
import Overlay.Proofs.Interface.Answers
import Overlay.Proofs.Text.ByteOrder

set_option autoImplicit false

namespace Overlay

/-! ## The features of a table

The index of a table has a bucket for each feature that some entry is of, and for no other. -/

namespace Feature

variable {t : Table} {feature : Text}

/-- Adding an entry adds its feature to the names. -/
theorem Index.mem_keys_add {index : Index} {e : Entry} {place : Nat} :
    feature ∈ (index.add e place).keys ↔ feature = e.feature ∨ feature ∈ index.keys :=
  Dictionary.mem_keys_insert

/-- The index has a bucket for the features of the entries that were added, and no other. -/
theorem Index.mem_keys_foldl {placed : List (Entry × Nat)} {index : Index} :
    feature ∈ (placed.foldl (fun index e => index.add e.1 e.2) index).keys
      ↔ feature ∈ index.keys ∨ ∃ e ∈ placed, e.1.feature = feature := by
  induction placed generalizing index with
  | nil => simp
  | cons head placed ih =>
    rw [List.foldl_cons, ih, Index.mem_keys_add, or_comm (a := feature = head.1.feature), or_assoc,
      List.exists_mem_cons_iff, eq_comm]

/-- The features of a table are those of its entries. -/
theorem Table.mem_featureNames :
    feature ∈ t.featureNames ↔ ∃ e ∈ t.entries, e.feature = feature := by
  rw [featureNames, t.indexed, Index.ofEntries, Index.mem_keys_foldl]
  constructor
  · rintro (hempty | ⟨⟨e, place⟩, he, hfeature⟩)
    · exact absurd hempty List.not_mem_nil
    · exact ⟨e, List.fst_mem_of_mem_zipIdx he, hfeature⟩
  · rintro ⟨e, he, hfeature⟩
    obtain ⟨place, hplace⟩ := List.mem_iff_getElem?.1 he
    exact .inr ⟨(e, place), List.mem_zipIdx_iff_getElem?.2 hplace, hfeature⟩

/-- The features are in the order of their bytes, so each of them stands once. -/
theorem Table.featureNames_ascending (t : Table) :
    t.featureNames.Pairwise fun f g => Text.utf8 f < Text.utf8 g :=
  t.index.sorted.imp Text.utf8_lt_iff.2

/-- What wins is an entry of the feature. -/
theorem Table.mem_featureNames_of_bestMatch {v : Variant} {g : ScopeGraph} {e : Entry}
    (h : t.bestMatch feature v g = some e) : feature ∈ t.featureNames := by
  obtain ⟨he, -⟩ := Entry.best_spec h
  obtain ⟨hmem, hfeature, -⟩ := mem_candidates.1 he
  exact mem_featureNames.2 ⟨e, hmem, hfeature⟩

end Feature

namespace Interface

variable (i : Interface) (s : Selection) (v : Variant)

/-! ## Active features

The list is made of the names in the table. It is a list of all active features nevertheless, since
on a name that is not there nothing wins. -/

/-- A feature is active if it has a winner and that is active. -/
theorem active_resolve (feature : Text) :
    (i.resolve v feature).active
      = (i.resolver.matched v feature).any fun e => e.value.isActive := by
  have houtcome : i.resolve v feature
      = Resolution.outcome (i.resolver.facts v) (i.resolver.matched v feature) :=
    i.resolver.resolve_eq v feature
  rw [houtcome]
  cases i.resolver.matched v feature with
  | none => rfl
  | some e =>
    rw [Resolution.outcome, Option.any_some]
    cases e.value <;> rfl

/-- The listed features are all that are active, whether the table has them or not. -/
theorem mem_activeFeatures {feature : Text} :
    feature ∈ i.resolver.activeFeatures v ↔ (i.resolve v feature).active = true := by
  rw [active_resolve, Resolver.activeFeatures, List.mem_filter]
  -- what is active has a winner, and a winner is an entry of the table
  refine and_iff_right_of_imp fun hactive => ?_
  obtain ⟨e, he, -⟩ := (Option.any_eq_true _ _).1 hactive
  exact Feature.Table.mem_featureNames_of_bestMatch he

/-! ## Reports

A row has the features that are listed, in the order of the selection. A variant without any has a
row only if such variants are wanted. -/

/-- The feature is listed under the variant: it resolves active, or its winner is inactive and
inactive features are wanted. -/
def lists (feature : Text) : Bool :=
  (i.resolve v feature).active
    || (s.inactive && (i.resolver.matched v feature).any fun e => !e.value.isActive)

/-- What a report has for a variant. -/
def row (names : List Text) : ReportedVariant where
  decl := (i.resolver.facts v).decl
  wrapperName := (i.resolver.facts v).wrapperName
  overloadSuffix := (i.resolver.facts v).overloadSuffix
  isReduced := v.isReduced
  features := (names.filter (i.lists s v)).map fun feature => (feature, i.resolve v feature)

/-- Looking for a winner first changes nothing. -/
theorem listed?_eq_ite (feature : Text) :
    i.listed? s v feature
      = if i.lists s v feature then some (feature, i.resolve v feature) else none := by
  have hactive := i.active_resolve v feature
  unfold listed? lists
  cases hmatched : i.resolver.matched v feature with
  | none =>
    rw [hmatched, Option.any_none] at hactive
    simp [hactive]
  | some e =>
    rw [hmatched, Option.any_some] at hactive
    simp only [Option.any_some, hactive]
    cases s.inactive <;> cases e.value.isActive <;> rfl

/-- Looking up and dropping what is not listed is choosing the names first. -/
theorem filterMap_listed? (names : List Text) :
    names.filterMap (i.listed? s v)
      = (names.filter (i.lists s v)).map fun feature => (feature, i.resolve v feature) := by
  induction names with
  | nil => rfl
  | cons feature names ih =>
    rw [List.filterMap_cons, listed?_eq_ite, ih, List.filter_cons]
    cases i.lists s v feature <;> rfl

/-- Whether a variant has a row is told by the test on its features. -/
theorem reported?_eq_ite :
    i.reported? s v
      = if s.unmatched || (i.selected s).any (i.lists s v) then some (i.row s v (i.selected s))
        else none := by
  have hnone : (i.selected s).filterMap (i.listed? s v) = []
      ↔ (i.selected s).any (i.lists s v) = false := by
    rw [filterMap_listed?, List.map_eq_nil_iff, List.filter_eq_nil_iff, List.any_eq_false]
  rw [reported?]
  simp only [hnone]
  rw [filterMap_listed?]
  cases s.unmatched <;> cases (i.selected s).any (i.lists s v) <;> rfl

/-- The rows of a report are those of the variants that pass the test. -/
theorem variants_report :
    (i.report s).variants
      = (i.variants.filter fun v => s.unmatched || (i.selected s).any (i.lists s v)).map
        fun v => i.row s v (i.selected s) := by
  show i.variants.filterMap (i.reported? s) = _
  rw [← List.filterMap_eq_map, List.filterMap_filter]
  refine List.filterMap_congr fun v _ => ?_
  rw [reported?_eq_ite]
  rfl

/-! ## The walk that makes a report

The count goes up by one for each look-up, whatever comes of it. So it ends at the number of
variants times the number of names. -/

/-- A report while it is made: the look-ups so far, and the variants that are listed. -/
structure Tally where
  queries : Nat
  variants : List ReportedVariant

/-- Looks up one feature under a variant, after some that were counted and listed. -/
def lookUp (sofar : Nat × List (Text × Resolution)) (feature : Text) :
    Nat × List (Text × Resolution) :=
  match i.resolver.matched v feature with
  | none => (sofar.1 + 1, sofar.2)
  | some _ =>
    let resolution := i.resolve v feature
    if resolution.active || s.inactive then
      (sofar.1 + 1, sofar.2 ++ [(feature, resolution)])
    else (sofar.1 + 1, sofar.2)

/-- Looks up all names under one variant, and lists it if there is something to list. -/
def visit (names : List Text) (sofar : Tally) (v : Variant) : Tally :=
  let found := names.foldl (i.lookUp s v) (sofar.queries, [])
  if found.2.isEmpty && !s.unmatched then { sofar with queries := found.1 }
  else
    let facts := i.resolver.facts v
    ⟨found.1, sofar.variants
      ++ [⟨facts.decl, facts.wrapperName, facts.overloadSuffix, v.isReduced, found.2⟩]⟩

def tally : Tally := i.variants.foldl (i.visit s (i.selected s)) ⟨0, []⟩

/-- One look-up counts one, and adds the feature if it is listed. -/
theorem lookUp_eq (sofar : Nat × List (Text × Resolution)) (feature : Text) :
    i.lookUp s v sofar feature
      = (sofar.1 + 1, sofar.2 ++ (i.listed? s v feature).toList) := by
  unfold lookUp listed?
  cases i.resolver.matched v feature with
  | none => simp
  | some e =>
    dsimp only
    split <;> simp

/-- Every name is counted, and those that are listed are appended. -/
theorem foldl_lookUp (names : List Text) (sofar : Nat × List (Text × Resolution)) :
    names.foldl (i.lookUp s v) sofar
      = (sofar.1 + names.length, sofar.2 ++ names.filterMap (i.listed? s v)) := by
  induction names generalizing sofar with
  | nil => simp
  | cons feature names ih =>
    rw [List.foldl_cons, ih, lookUp_eq, List.length_cons, List.filterMap_cons]
    refine Prod.ext ?_ ?_
    · show sofar.1 + 1 + names.length = _
      omega
    · cases i.listed? s v feature <;> simp

/-- One variant counts all names of the selection, and adds its row if it has one. -/
theorem visit_eq (sofar : Tally) :
    i.visit s (i.selected s) sofar v
      = ⟨sofar.queries + (i.selected s).length,
        sofar.variants ++ (i.reported? s v).toList⟩ := by
  unfold visit reported?
  rw [foldl_lookUp]
  cases (i.selected s).filterMap (i.listed? s v) <;> cases s.unmatched <;> simp

/-- Every variant counts all names, and those that are reported are appended. -/
theorem foldl_visit (vs : List Variant) (sofar : Tally) :
    vs.foldl (i.visit s (i.selected s)) sofar
      = ⟨sofar.queries + vs.length * (i.selected s).length,
        sofar.variants ++ vs.filterMap (i.reported? s)⟩ := by
  induction vs generalizing sofar with
  | nil => simp
  | cons v vs ih =>
    rw [List.foldl_cons, ih, visit_eq, List.length_cons, List.filterMap_cons, Nat.succ_mul]
    congr 1
    · show sofar.queries + _ + _ = _
      omega
    · cases i.reported? s v <;> simp

/-- The report is what the walk ends with. -/
theorem tally_eq : i.tally s = ⟨(i.report s).queries, (i.report s).variants⟩ := by
  rw [tally, foldl_visit, Nat.zero_add]
  rfl

/-- **The views agree.** The active features of a variant are all names that resolve active on it,
in the order of their bytes. The names of a report are those of the selection, or the features of
all entries in the order of their bytes if it has none. The report lists, in the order of
emission, the variants that have a listed feature, or all if these are wanted, and under each
the listed ones of the names in their order, with what they resolve to. It is what the walk
over all variants and names ends with, and so has looked up each of the names under each of
the variants. -/
theorem views_agree (i : Interface) (s : Selection) :
    (∀ v, (i.resolver.activeFeatures v).Pairwise (fun f g => Text.utf8 f < Text.utf8 g)
        ∧ ∀ feature, feature ∈ i.resolver.activeFeatures v
          ↔ (i.resolve v feature).active = true)
      ∧ (s.features ≠ [] → i.selected s = s.features)
      ∧ (s.features = [] →
        (i.selected s).Pairwise (fun f g => Text.utf8 f < Text.utf8 g)
          ∧ ∀ feature, feature ∈ i.selected s ↔ ∃ e ∈ i.table.entries, e.feature = feature)
      ∧ (i.report s).variants
        = ((i.variants.filter fun v => s.unmatched || (i.selected s).any (i.lists s v)).map
          fun v => i.row s v (i.selected s))
      ∧ (i.report s).queries = i.variants.length * (i.selected s).length
      ∧ i.tally s = ⟨(i.report s).queries, (i.report s).variants⟩ := by
  refine ⟨fun v => ⟨?_, fun feature => i.mem_activeFeatures v⟩, ?_, ?_, i.variants_report s, rfl,
    i.tally_eq s⟩
  · exact i.table.featureNames_ascending.filter _
  · intro hsome
    exact if_neg hsome
  · intro hnone
    have hall : i.selected s = i.table.featureNames := if_pos hnone
    rw [hall]
    exact ⟨i.table.featureNames_ascending, fun feature => Feature.Table.mem_featureNames⟩

/-- A rule for `f` enables one feature and a global one disables another, on `f` and `g`. A
selection without names stands for both features. -/
theorem views_agree_twoRules :
    let enabled : Feature.Entry := ⟨['b'], .ofName ['f'], .enabled ['1'], none, .empty, 0⟩
    let disabled : Feature.Entry := ⟨['a'], .global, .disabled, none, .empty, 0⟩
    let decl (leaf : Char) : Script.Item := .declaration (.named .function ⟨.global, [leaf]⟩)
    let i := ofItems [.directive enabled, .directive disabled, decl 'f', decl 'g'] .standard
    let one : Selection := ⟨[['b']], false, false⟩
    let all : Selection := ⟨[], false, true⟩
    i.selected one = [['b']]
      ∧ i.selected all = [['a'], ['b']]
      ∧ (['a'] ∈ i.selected all ↔ ∃ e ∈ i.table.entries, e.feature = ['a'])
      ∧ (i.report one).variants.map (fun row => row.features.map Prod.fst) = [[['b']]]
      ∧ i.tally all = ⟨4, (i.report all).variants⟩ := by
  intro enabled disabled decl i one all
  have hnames : i.selected all = [['a'], ['b']] := by decide
  have hrows : (i.report one).variants.map (fun row => row.features.map Prod.fst) = [[['b']]] := by
    decide
  have hqueries : (i.report all).queries = 4 := by decide
  obtain ⟨-, hone, -⟩ := views_agree i one
  obtain ⟨-, -, hall, -, -, htally⟩ := views_agree i all
  rw [hqueries] at htally
  exact ⟨hone (List.cons_ne_nil _ _), hnames, (hall rfl).2 ['a'], hrows, htally⟩

end Interface

end Overlay
