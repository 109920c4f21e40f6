/-
Renumbering the sequence.

What is recorded has a place in one sequence, and places are compared in two ways only: of
two matching entries of one feature and one specificity the later one wins, and a global
entry must come before the declaration. So the places themselves are never seen. If the
entries of a table are given other places, and both comparisons come out as before, then the
same entries win, with their new places (`Renumbers.bestMatch`).

From there it goes through the whole interface. The mode of a declaration is decided by an
entry that wins, a variant carries the position of its declaration along but does not look at
it, overloads are numbered within one leaf name, and facts and bodies know nothing of places.
So what is seen of an interface under some leaf names is the same whenever the table is
renumbered, the declarations of these names are the same up to their positions, and the graphs
are alike for them (`Carries.view`).
-/
import Overlay.Proofs.Feature.Precedence
import Overlay.Proofs.Interface.Stream
import Overlay.Proofs.Variant.Numbering

set_option autoImplicit false

namespace Overlay

open Feature (Entry Operation Table)
open Script (Item)

variable {σ : Nat → Nat}

/-! ## Positions of variants

A variant has the position of its declaration, and nothing that is known of the variant depends on
it but whether a global entry comes in time. So pattern, facts and names are the same at any
position. -/

namespace Variant

/-- The variant of the declaration at another position, or at none. -/
def positioned (v : Variant) (position : Option Nat) : Variant :=
  { v with decl := v.decl.positioned position }

/-- The variant apart from its position. -/
def unplaced (v : Variant) : Variant := v.positioned none

/-- The variant at the position that `σ` gives it. -/
def moved (σ : Nat → Nat) (v : Variant) : Variant := v.positioned (v.position.map σ)

end Variant

/-- The declaration at the position that `σ` gives it. -/
def Declaration.moved (σ : Nat → Nat) (d : Declaration) : Declaration :=
  d.positioned (d.position.map σ)

/-- The entry at the place that `σ` gives it. -/
def Feature.Entry.moved (σ : Nat → Nat) (e : Entry) : Entry := e.placed (σ e.sequence)

/-- A pattern does not look at the position of a variant. -/
theorem Pattern.depth?_positioned (p : Pattern) (v : Variant) (position : Option Nat)
    (g : ScopeGraph) : p.depth? (v.positioned position) g = p.depth? v g := by
  cases p with
  | global => rfl
  | named limit leaf signature => cases limit <;> rfl

/-- Nor do the facts, which look at the graph for the target names of scopes alone. -/
theorem FactSheet.ofVariant_positioned (v : Variant) (position : Option Nat) {g g' : ScopeGraph}
    (o : Options) (hnames : ∀ s, g'.targetName s = g.targetName s) :
    FactSheet.ofVariant (v.positioned position) g' o = FactSheet.ofVariant v g o := by
  have hsymbol : (v.positioned position).scopedSymbol g' = v.scopedSymbol g := by
    have hscope : (v.positioned position).scope = v.scope := rfl
    rw [Variant.scopedSymbol, Variant.scopedSymbol, hscope, hnames]
    rfl
  -- all other facts are about the declaration apart from its position
  rw [ofVariant, ofVariant, Variant.wrapperName, hsymbol, hnames]
  rfl

/-! ## The winner is renumbered

The entries are compared by their ranks, and a rank has the place in it. What is asked of the new
places is as little as the comparison of two ranks needs. Whether an entry comes in time is asked
apart (`Timely`), since it concerns one variant, and that variant may be renumbered in its own way.
-/

namespace Feature

/-- The entries of `t'` are those of `t` at the places that `σ` gives them, and `σ` keeps the
order of any two that could be level but for their places. -/
structure Renumbers (σ : Nat → Nat) (t t' : Table) : Prop where
  mem_entries : ∀ e, e ∈ t'.entries ↔ ∃ f ∈ t.entries, f.moved σ = e
  order : ∀ e ∈ t.entries, ∀ f ∈ t.entries, e.feature = f.feature →
    e.pattern.specificity = f.pattern.specificity → e.sequence < f.sequence →
    σ e.sequence < σ f.sequence
  ascending : t.entries.Pairwise fun e f => e.sequence < f.sequence
  ascending' : t'.entries.Pairwise fun e f => e.sequence < f.sequence

/-- The entries of `t` come in time for `v` exactly if they do so at their new places for the
variant at its new position. -/
def Timely (σ : Nat → Nat) (t : Table) (v : Variant) (position : Option Nat) : Prop :=
  ∀ e ∈ t.entries, (e.moved σ).inTimeFor (v.positioned position) = e.inTimeFor v

section
variable {t t' : Table} {v : Variant} {position : Option Nat} {g g' : ScopeGraph}

/-- Places are compared for a global entry and a variant that has a position, and for no
others. -/
theorem timely_of_lt_iff {move : Nat → Nat}
    (h : ∀ e ∈ t.entries, e.pattern.isGlobal = true → ∀ place, v.position = some place →
      (σ e.sequence < move place ↔ e.sequence < place)) :
    Timely σ t v (v.position.map move) := by
  intro e he
  rw [Entry.inTimeFor, Entry.inTimeFor]
  show (!e.pattern.isGlobal || (v.position.map move).all fun place => σ e.sequence < place) = _
  cases hglobal : e.pattern.isGlobal with
  | false => rfl
  | true =>
    cases hplace : v.position with
    | none => rfl
    | some place => simp [h e he hglobal place hplace]

/-- An entry is eligible at its new place if it was at its old one. -/
theorem Timely.eligible_iff (h : Timely σ t v position) (hg : ScopeGraph.Alike v.leaf g g')
    {e : Entry} (he : e ∈ t.entries) (feature : Text) (depth : Nat) :
    (e.moved σ).Eligible feature (v.positioned position) g' depth
      ↔ e.Eligible feature v g depth := by
  unfold Entry.Eligible
  rw [← Entry.inTimeFor_iff, ← Entry.inTimeFor_iff, h e he, Pattern.depth?_positioned,
    e.pattern.depth?_of_alike v hg]
  rfl

/-- A strictly higher rank is so after the renumbering. -/
theorem Renumbers.above (h : Renumbers σ t t') {e f : Entry} (he : e ∈ t.entries)
    (hf : f ∈ t.entries) (hfeature : f.feature = e.feature) {depth depth' : Nat}
    (habove : (e.rankAt depth).Above (f.rankAt depth')) :
    ((e.moved σ).rankAt depth).Above ((f.moved σ).rankAt depth') := by
  rcases habove with hlevel | ⟨hlevel, hdepth | ⟨hdepth, hseq⟩⟩
  · exact .inl hlevel
  · exact .inr ⟨hlevel, .inl hdepth⟩
  · -- the one case in which places are asked for
    have hspecificity := Pattern.Specificity.level_injective hlevel
    exact .inr ⟨hlevel, .inr ⟨hdepth, h.order f hf e he hfeature hspecificity hseq⟩⟩

/-- **The winner is renumbered.** -/
theorem Renumbers.bestMatch (h : Renumbers σ t t') (htimely : Timely σ t v position)
    (hg : ScopeGraph.Alike v.leaf g g') (feature : Text) :
    t'.bestMatch feature (v.positioned position) g'
      = (t.bestMatch feature v g).map (Entry.moved σ) := by
  cases hbest : t.bestMatch feature v g with
  | none =>
    have hnone := Table.bestMatch_eq_none_iff.1 hbest
    refine Table.bestMatch_eq_none_iff.2 ?_
    intro e' he' depth
    obtain ⟨e, he, rfl⟩ := (h.mem_entries e').1 he'
    rw [htimely.eligible_iff hg he]
    exact hnone e he depth
  | some e =>
    obtain ⟨he, depth, helig, hwins⟩ := (Table.bestMatch_eq_some_iff h.ascending).1 hbest
    refine (Table.bestMatch_eq_some_iff h.ascending').2 ?_
    refine ⟨(h.mem_entries _).2 ⟨e, he, rfl⟩, depth, (htimely.eligible_iff hg he _ _).2 helig, ?_⟩
    intro f' hf' hne depth' helig'
    obtain ⟨f, hf, rfl⟩ := (h.mem_entries f').1 hf'
    -- two entries at different places come from two entries
    have hfe : f ≠ e := fun heq => hne (heq ▸ rfl)
    have hfelig := (htimely.eligible_iff hg hf feature depth').1 helig'
    exact h.above he hf (hfelig.1.trans helig.1.symm) (hwins f hf hfe depth' hfelig)

/-- What a feature comes to is the same after the renumbering. -/
theorem Renumbers.resolve (h : Renumbers σ t t') (htimely : Timely σ t v position)
    (hg : ScopeGraph.Alike v.leaf g g') (hnames : ∀ s, g'.targetName s = g.targetName s)
    (o : Options) (feature : Text) :
    Resolver.resolve ⟨t', g', o⟩ (v.positioned position) feature
      = Resolver.resolve ⟨t, g, o⟩ v feature := by
  have hfacts : Resolver.facts ⟨t', g', o⟩ (v.positioned position)
      = Resolver.facts ⟨t, g, o⟩ v := FactSheet.ofVariant_positioned v position o hnames
  rw [Resolver.resolve, Resolver.resolve, Resolver.matched, Resolver.matched,
    h.bestMatch htimely hg]
  cases t.bestMatch feature v g with
  | none => rfl
  | some e =>
    -- the place of the winner plays no part in what it comes to
    exact Resolver.resolveBy_congr hfacts (some e)

end

end Feature

/-! ## Numbers of overloads

Numbering goes through all variants, and what is to be compared are those of some leaf names only.
As groups do not cross leaf names, the others can be left out before numbering as well as after it.
-/

namespace Variant

/-- The size of a group is the same when variants of other leaf names are left out. -/
theorem groupSize_filter {p : Text → Bool} {v : Variant} (hv : p v.leaf = true)
    (vs : List Variant) : v.groupSize (vs.filter fun w => p w.leaf) = v.groupSize vs := by
  rw [groupSize, groupSize, List.countP_filter]
  refine List.countP_congr fun w _ => ?_
  constructor
  · intro h
    exact (Bool.and_eq_true_iff.1 h).1
  · -- a member of the group has the leaf name of `v`, so it was not filtered out
    intro h
    have hleaf : v.leaf = w.leaf := by
      simp only [sameGroup, Bool.and_eq_true, decide_eq_true_eq] at h
      exact h.2
    rw [h, ← hleaf, hv]
    rfl

/-- Numbering under some leaf names does not see the other ones. -/
theorem filter_numberAfter (p : Text → Bool) (before vs : List Variant) :
    (numberAfter before vs).filter (fun v => p v.leaf)
      = numberAfter (before.filter fun v => p v.leaf) (vs.filter fun v => p v.leaf) := by
  induction vs generalizing before with
  | nil => rfl
  | cons v vs ih =>
    have hleaf : ∀ n, ({ v with overload := n } : Variant).leaf = v.leaf := fun _ => rfl
    have hih := ih (v :: before)
    rw [List.filter_cons] at hih
    rw [numberAfter, List.filter_cons, List.filter_cons, hleaf, hih]
    by_cases hv : p v.leaf = true
    · rw [if_pos hv, if_pos hv, if_pos hv, numberAfter, groupSize_filter hv, groupSize_filter hv]
    · rw [if_neg hv, if_neg hv, if_neg hv]

/-- Numbering does not look at positions. -/
theorem numberAfter_map_moved (before vs : List Variant) :
    numberAfter (before.map (moved σ)) (vs.map (moved σ))
      = (numberAfter before vs).map (moved σ) := by
  have hsize : ∀ (v : Variant) (ws : List Variant),
      (v.moved σ).groupSize (ws.map (moved σ)) = v.groupSize ws := by
    intro v ws
    rw [groupSize, groupSize, List.countP_map]
    rfl
  induction vs generalizing before with
  | nil => rfl
  | cons v vs ih =>
    rw [List.map_cons, numberAfter, numberAfter, List.map_cons, hsize, hsize]
    exact congrArg _ (ih (v :: before))

end Variant

/-! ## What is seen of an interface

The view is a list of variants without positions, each with what every feature comes to on it. Two
drafts with the same view cannot be told apart by what is emitted. -/

namespace Interface

/-- What is seen of some variants: each apart from its position, and what every feature comes
to on it. -/
def view (i : Interface) (vs : List Variant) : List (Variant × (Text → Resolution)) :=
  vs.map fun v => (v.unplaced, i.resolve v)

end Interface

namespace InterfaceDraft

/-- The draft `d'` is `d` renumbered by `σ`, as far as the leaf names of `p` go. -/
structure Carries (σ : Nat → Nat) (p : Text → Bool) (d d' : InterfaceDraft) : Prop where
  table : Feature.Renumbers σ d.table.freeze d'.table.freeze
  declarations : d'.declarations.filter (fun decl => p decl.leaf)
    = (d.declarations.filter fun decl => p decl.leaf).map (Declaration.moved σ)
  /-- A global entry comes before a declaration exactly if it did so. -/
  inTime : ∀ e ∈ d.table.entries, e.pattern.isGlobal = true → ∀ decl ∈ d.declarations,
    ∀ place, decl.position = some place → (σ e.sequence < σ place ↔ e.sequence < place)
  alike : ∀ leaf, p leaf = true → ScopeGraph.Alike leaf d.scopes d'.scopes
  names : ∀ s, d'.scopes.targetName s = d.scopes.targetName s

variable {p : Text → Bool} {d d' : InterfaceDraft}

/-- Each declaration moves with the entries that must come before it. -/
theorem Carries.timely (h : Carries σ p d d') {v : Variant} (hv : v.decl ∈ d.declarations) :
    Feature.Timely σ d.table.freeze v (v.position.map σ) :=
  Feature.timely_of_lt_iff fun e he hglobal place hplace =>
    h.inTime e he hglobal v.decl hv place hplace

/-- So the mode of a declaration is what it was: it is decided by whether some entry wins, and not
by which place that has. -/
theorem Carries.modeOf (h : Carries σ p d d') (o : Options) {decl : Declaration}
    (hdecl : decl ∈ d.declarations) (hp : p decl.leaf = true) :
    InterfaceDraft.modeOf d'.table.freeze d'.scopes o (decl.moved σ)
      = InterfaceDraft.modeOf d.table.freeze d.scopes o decl := by
  have hbest : d'.table.freeze.bestMatch compactFeature (.full (decl.moved σ)) d'.scopes
      = (d.table.freeze.bestMatch compactFeature (.full decl) d.scopes).map (Entry.moved σ) :=
    h.table.bestMatch (v := .full decl) (h.timely hdecl) (h.alike _ hp) compactFeature
  rw [InterfaceDraft.modeOf, InterfaceDraft.modeOf, compactRequested, compactRequested, hbest,
    Option.any_map]
  rfl

/-- The variants under the leaf names of `p`, before and after: emission goes declaration by
declaration, and numbering leaf by leaf. -/
theorem Carries.variants (h : Carries σ p d d') (o : Options) :
    (d'.finish o).variants.filter (fun v => p v.leaf)
      = ((d.finish o).variants.filter fun v => p v.leaf).map (Variant.moved σ) := by
  -- under the names of `p` emission is that of the declarations of these names
  have hemit : ∀ (decls : List Declaration) (mode : Declaration → DefaultMode),
      (decls.flatMap fun decl => decl.variants (mode decl)).filter (fun v => p v.leaf)
        = (decls.filter fun decl => p decl.leaf).flatMap fun decl => decl.variants (mode decl) := by
    intro decls mode
    induction decls with
    | nil => rfl
    | cons decl decls ih =>
      rw [List.flatMap_cons, List.filter_append, ih]
      have hleaf : ∀ v ∈ decl.variants (mode decl), v.leaf = decl.leaf := by
        intro v hv
        obtain ⟨n, -, rfl⟩ := List.mem_map.1 hv
        rfl
      rw [List.filter_cons]
      by_cases hp : p decl.leaf = true
      · rw [if_pos hp, List.flatMap_cons, List.filter_eq_self.2]
        intro v hv
        rw [hleaf v hv, hp]
      · rw [if_neg hp, List.filter_eq_nil_iff.2, List.nil_append]
        intro v hv
        rw [hleaf v hv]
        exact hp
  show (Variant.numberAfter [] _).filter _ = ((Variant.numberAfter [] _).filter _).map _
  rw [Variant.filter_numberAfter, Variant.filter_numberAfter, ← Variant.numberAfter_map_moved,
    hemit, hemit, h.declarations]
  -- the lists to be numbered are the same up to positions, declaration by declaration
  refine congrArg (Variant.numberAfter []) ?_
  rw [List.flatMap_map, List.map_flatMap]
  refine List.flatMap_congr fun decl hdecl => ?_
  obtain ⟨hmem, hp⟩ := List.mem_filter.1 hdecl
  rw [h.modeOf o hmem hp, Declaration.variants, Declaration.variants, List.map_map]
  rfl

/-- A variant is one of a declaration that was recorded. -/
theorem decl_of_mem_variants {o : Options} {v : Variant} (h : v ∈ (d.finish o).variants) :
    v.decl ∈ d.declarations :=
  (emitted_of_mem_variants h).1

/-- **What is seen is carried over.** -/
theorem Carries.view (h : Carries σ p d d') (o : Options) :
    (d'.finish o).view ((d'.finish o).variants.filter fun v => p v.leaf)
      = (d.finish o).view ((d.finish o).variants.filter fun v => p v.leaf) := by
  rw [Interface.view, Interface.view, h.variants, List.map_map]
  refine List.map_congr_left fun v hv => ?_
  obtain ⟨hmem, hp⟩ := List.mem_filter.1 hv
  refine Prod.ext rfl ?_
  funext feature
  exact h.table.resolve (h.timely (decl_of_mem_variants hmem)) (h.alike _ hp) h.names o feature

/-- Where all leaf names are carried over, everything that is seen is. -/
theorem Carries.view_all (h : Carries σ (fun _ => true) d d') (o : Options) :
    (d'.finish o).view (d'.finish o).variants = (d.finish o).view (d.finish o).variants := by
  have hview := h.view o
  rw [List.filter_true, List.filter_true] at hview
  exact hview

/-- A variant that stays at its position sees the same, if no global entry was moved past that.
The other entries may move as they like: they are never asked whether they come in time. -/
theorem Carries.resolve (h : Carries σ p d d') (o : Options) {v : Variant}
    (hp : p v.leaf = true)
    (hstays : ∀ place, v.position = some place → ∀ e ∈ d.table.freeze.entries,
      e.pattern.isGlobal = true → (σ e.sequence < place ↔ e.sequence < place)) :
    (d'.finish o).resolve v = (d.finish o).resolve v := by
  funext feature
  have htimely : Feature.Timely σ d.table.freeze v (v.position.map id) :=
    Feature.timely_of_lt_iff fun e he hglobal place hplace => hstays place hplace e he hglobal
  rw [Option.map_id_apply] at htimely
  exact h.table.resolve htimely (h.alike v.leaf hp) h.names o feature

end InterfaceDraft

/-! ## Rearranging a run

Where the drafts come from two lists of items, all that is needed can be said of the operations:
where each directive went, and that what is compared stays in order. This is what the files that
exchange, insert or leave out items have to show, and nothing about tables comes up in them. -/

namespace Feature

/-- The run `ops'` has the directives of `ops` at the places that `σ` gives them, and `σ` keeps
what is compared: the order of two directives of one feature and one specificity, and of a
global directive and a declaration. -/
structure Rearranges (σ : Nat → Nat) (ops ops' : List Operation) : Prop where
  moves : ∀ i e, ops[i]? = some (.define e) → ops'[σ i]? = some (.define e)
  covers : ∀ j e, ops'[j]? = some (.define e) → ∃ i, ops[i]? = some (.define e) ∧ σ i = j
  order : ∀ i j e f, ops[i]? = some (.define e) → ops[j]? = some (.define f) →
    e.feature = f.feature → e.pattern.specificity = f.pattern.specificity → i < j → σ i < σ j
  inTime : ∀ i j e, ops[i]? = some (.define e) → e.pattern.isGlobal = true →
    ops[j]? = some .tick → (σ i < σ j ↔ i < j)

section
variable {ops ops' : List Operation}

/-- Directives of one key are of one feature and one specificity, so `σ` keeps their order. -/
theorem Rearranges.order_iff (h : Rearranges σ ops ops') {i j : Nat} {e f : Entry}
    (hi : ops[i]? = some (.define e)) (hj : ops[j]? = some (.define f)) (hkey : e.key = f.key) :
    σ i < σ j ↔ i < j := by
  have hfeature : e.feature = f.feature := congrArg Key.feature hkey
  have hspecificity : e.pattern.specificity = f.pattern.specificity :=
    congrArg (fun key : Key => key.pattern.specificity) hkey
  constructor
  · -- backwards, since `σ` keeps the order of the two either way round
    intro hlt
    rcases Nat.lt_trichotomy i j with hij | rfl | hji
    · exact hij
    · exact absurd hlt (Nat.lt_irrefl _)
    · have hback := h.order j i f e hj hi hfeature.symm hspecificity.symm hji
      omega
  · exact h.order i j e f hi hj hfeature hspecificity

/-- What lasts of the one run lasts of the other, at its new place. -/
theorem Rearranges.mem_lasting (h : Rearranges σ ops ops') (e : Entry) :
    e ∈ lasting 0 ops' ↔ ∃ f ∈ lasting 0 ops, f.moved σ = e := by
  -- a directive is the last one of its key in both runs or in none
  have hlast : ∀ i f, ops[i]? = some (.define f) →
      (redefined (ops'.drop (σ i + 1)) f.key = false
        ↔ redefined (ops.drop (i + 1)) f.key = false) := by
    intro i f hi
    rw [redefined_drop_eq_false_iff, redefined_drop_eq_false_iff]
    constructor
    · intro hnone j f' hij hj hkey
      exact hnone (σ j) f' ((h.order_iff hi hj hkey.symm).2 hij) (h.moves j f' hj) hkey
    · intro hnone j' f' hij hj' hkey
      obtain ⟨j, hj, rfl⟩ := h.covers j' f' hj'
      exact hnone j f' ((h.order_iff hi hj hkey.symm).1 hij) hj hkey
  constructor
  · intro he
    obtain ⟨j, f, hj, hvalue, hnone, rfl⟩ := Feature.mem_lasting.1 he
    obtain ⟨i, hi, rfl⟩ := h.covers j f hj
    refine ⟨f.placed (0 + i), ?_, by simp [Entry.moved, Entry.placed]⟩
    exact Feature.mem_lasting.2 ⟨i, f, hi, hvalue, (hlast i f hi).1 hnone, rfl⟩
  · rintro ⟨e', he', rfl⟩
    obtain ⟨i, f, hi, hvalue, hnone, rfl⟩ := Feature.mem_lasting.1 he'
    exact Feature.mem_lasting.2 ⟨σ i, f, h.moves i f hi, hvalue, (hlast i f hi).2 hnone,
      by simp [Entry.moved, Entry.placed]⟩

/-- The tables of the two runs are renumbered. -/
theorem Rearranges.renumbers (h : Rearranges σ ops ops') :
    Renumbers σ (Draft.empty.run ops).freeze (Draft.empty.run ops').freeze := by
  have hentries : ∀ ops, (Draft.empty.run ops).freeze.entries = lasting 0 ops :=
    Draft.entries_run_empty
  refine ⟨?_, ?_, ?_, ?_⟩
  · intro e
    rw [hentries, hentries]
    exact h.mem_lasting e
  · intro e he f hf hfeature hspecificity hlt
    rw [hentries] at he hf
    obtain ⟨i, e, hi, -, -, rfl⟩ := Feature.mem_lasting.1 he
    obtain ⟨j, f, hj, -, -, rfl⟩ := Feature.mem_lasting.1 hf
    have hij : i < j := by simpa [Entry.placed] using hlt
    simpa [Entry.placed] using h.order i j e f hi hj hfeature hspecificity hij
  · rw [hentries]
    exact lasting_ascending 0 ops
  · rw [hentries]
    exact lasting_ascending 0 ops'

end

end Feature

namespace Interface

open Feature (Rearranges)

/-- What is registered from another place on. -/
theorem registered_moved {n n' : Nat} {items : List Item}
    (h : ∀ i < (operations items).length, σ (n + i) = n' + i) :
    registered n' items = (registered n items).map (Declaration.moved σ) := by
  induction items generalizing n n' with
  | nil => rfl
  | cons item items ih =>
    have hlater : ∀ op, (∀ i < (op :: operations items).length, σ (n + i) = n' + i) →
        registered (n' + 1) items = (registered (n + 1) items).map (Declaration.moved σ) := by
      intro op hop
      refine ih fun i hi => ?_
      have hnext := hop (i + 1) (Nat.succ_lt_succ hi)
      rw [Nat.add_right_comm, Nat.add_assoc, hnext]
      omega
    cases item with
    | scope path bases target => exact ih h
    | declaration d =>
      have hfirst : σ n = n' := h 0 (Nat.succ_pos _)
      show d.positioned (some n') :: registered (n' + 1) items
        = d.positioned (some (σ n)) :: (registered (n + 1) items).map (Declaration.moved σ)
      rw [hlater .tick h, hfirst]
    | directive e => exact hlater (.define e) h

/-- **Rearranged items.** What two lists of items come to is carried over if their operations
are rearranged, their declarations under the leaf names of `p` are the same up to position,
and their graphs are alike for these names. -/
theorem carries_of_rearranges {p : Text → Bool} {xs ys : List Item}
    (hops : Rearranges σ (operations xs) (operations ys))
    (hdecls : (registered 0 ys).filter (fun d => p d.leaf)
      = ((registered 0 xs).filter fun d => p d.leaf).map (Declaration.moved σ))
    (halike : ∀ leaf, p leaf = true →
      ScopeGraph.Alike leaf (linked .empty xs) (linked .empty ys))
    (hnames : ∀ s, (linked .empty ys).targetName s = (linked .empty xs).targetName s) :
    InterfaceDraft.Carries σ p (InterfaceDraft.empty.pushAll xs)
      (InterfaceDraft.empty.pushAll ys) := by
  rw [pushAll_eq, pushAll_eq]
  refine ⟨hops.renumbers, hdecls, ?_, halike, hnames⟩
  intro e he hglobal d hd place hplace
  have hlasting : e ∈ Feature.lasting 0 (operations xs) :=
    Feature.Draft.entries_run_empty (operations xs) ▸ he
  obtain ⟨i, f, hi, -, -, rfl⟩ := Feature.mem_lasting.1 hlasting
  have hregistered : d ∈ registered 0 xs := hd
  obtain ⟨j, hj, hposition⟩ := tick_of_mem_registered hregistered
  obtain rfl : j = place := by simpa [hplace] using hposition.symm
  simpa [Entry.placed] using hops.inTime i j f hi hglobal hj

end Interface

end Overlay
