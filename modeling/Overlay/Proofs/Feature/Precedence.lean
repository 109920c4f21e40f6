/-
The entry that wins, told without the index.

A query looks up the places of the entries that can match, ranks what stands there, and
keeps the best by one pass over the list. This file shows that this is the same as looking
at all entries of the table: an entry wins exactly if it is eligible and stands strictly
above every other eligible entry (`Table.Wins`).

There are three parts. The ranks are a lexicographic order, so that the pass over the list
ends with an entry that none of the list is above (`best_spec`). The index leaves no
candidate out, and lists nothing that is none: this is an induction over the entries that
are added to it (`mem_candidates`). And in the table of a run no two entries have the same
place in the sequence, so that of two eligible entries one is always strictly above the
other. That is why the order in which candidates are listed can never be observed.
-/
import Mathlib.Data.List.Pairwise
import Overlay.Proofs.Feature.History

set_option autoImplicit false

namespace Overlay.Feature

/-! ## The order of ranks

Three numbers are compared one after the other. The second is compared the other way round, since
the nearer match wins. Everything that is needed of the order is linear arithmetic over the three.
-/

namespace Rank

/-- The rank `r` is strictly above `s`: by specificity, then by the smaller depth, then by the
later place in the sequence. -/
def Above (r s : Rank) : Prop :=
  s.specificity.level < r.specificity.level
    ∨ s.specificity.level = r.specificity.level
      ∧ (r.depth < s.depth ∨ r.depth = s.depth ∧ s.sequence < r.sequence)

/-- Losing is being strictly below. -/
theorem losesTo_iff (r s : Rank) : r.losesTo s = true ↔ s.Above r := by
  rw [losesTo, Above]
  split
  · rename_i hlevel
    split
    · rename_i hdepth
      rw [decide_eq_true_eq]
      omega
    · rename_i hdepth
      rw [decide_eq_true_eq]
      omega
  · rename_i hlevel
    rw [decide_eq_true_eq]
    omega

/-- The order of ranks is transitive. -/
theorem Above.trans {r s t : Rank} (hrs : r.Above s) (hst : s.Above t) : r.Above t := by
  unfold Above at *
  omega

/-- No rank is above itself. -/
theorem Above.irrefl (r : Rank) : ¬ r.Above r := by
  unfold Above
  omega

/-- What no rank above `s` is above is above `s` itself. -/
theorem Above.of_not_above {r s t : Rank} (hrs : r.Above s) (hrt : ¬ r.Above t) : t.Above s := by
  unfold Above at *
  omega

/-- Two ranks of different places in the sequence are never level. -/
theorem above_or_above {r s : Rank} (h : r.sequence ≠ s.sequence) : r.Above s ∨ s.Above r := by
  unfold Above
  omega

end Rank

/-! ## One pass over ranked entries

The pass replaces the best so far unless the next one loses to it. So of two entries that are level
it would keep the later in the list. Nothing is said of that case here: it is shown afterwards that
in the table of a run it does not arise. -/

namespace Entry

/-- The pass keeps the best so far: what it ends with is one of the entries it saw, and none
of these is above it. -/
theorem foldl_better (ps : List (Rank × Entry)) (b : Rank × Entry) :
    ∃ p ∈ b :: ps, ps.foldl better (some b) = some p ∧ ∀ q ∈ b :: ps, ¬ q.1.Above p.1 := by
  induction ps generalizing b with
  | nil =>
    refine ⟨b, List.mem_singleton_self b, rfl, ?_⟩
    intro q hq
    rw [List.mem_singleton.1 hq]
    exact Rank.Above.irrefl b.1
  | cons next ps ih =>
    rw [List.foldl_cons]
    by_cases hlose : next.1.losesTo b.1 = true
    · -- the best so far stays, and is above the next one
      have hstep : better (some b) next = some b := if_pos hlose
      obtain ⟨p, hp, hfold, hbest⟩ := ih b
      rw [hstep]
      refine ⟨p, ?_, hfold, ?_⟩
      · rcases List.mem_cons.1 hp with rfl | hmem
        · exact List.mem_cons_self
        · exact List.mem_cons_of_mem _ (List.mem_cons_of_mem _ hmem)
      · intro q hq
        rcases List.mem_cons.1 hq with rfl | hq
        · exact hbest q List.mem_cons_self
        · rcases List.mem_cons.1 hq with rfl | hmem
          · intro habove
            exact hbest b List.mem_cons_self (((Rank.losesTo_iff q.1 b.1).1 hlose).trans habove)
          · exact hbest q (List.mem_cons_of_mem b hmem)
    · -- the next one is the best so far, and what was it is not above
      have hstep : better (some b) next = some next := if_neg hlose
      obtain ⟨p, hp, hfold, hbest⟩ := ih next
      rw [hstep]
      refine ⟨p, List.mem_cons_of_mem b hp, hfold, ?_⟩
      intro q hq
      rcases List.mem_cons.1 hq with rfl | hmem
      · intro habove
        have hnot : ¬ q.1.Above next.1 := fun h => hlose ((Rank.losesTo_iff _ _).2 h)
        exact hbest next List.mem_cons_self (habove.of_not_above hnot)
      · exact hbest q hmem

/-- No entry has a rank exactly if none is the best. -/
theorem best_eq_none_iff {es : List Entry} {v : Variant} {g : ScopeGraph} :
    best es v g = none ↔ ∀ e ∈ es, e.rank? v g = none := by
  have hranked : (es.filterMap fun e => (e.rank? v g).map fun rank => (rank, e)) = []
      ↔ ∀ e ∈ es, e.rank? v g = none := by
    rw [List.filterMap_eq_nil_iff]
    simp only [Option.map_eq_none_iff]
  rw [best, ← hranked]
  cases hps : es.filterMap fun e => (e.rank? v g).map fun rank => (rank, e) with
  | nil => simp
  | cons p ps =>
    obtain ⟨q, -, hfold, -⟩ := foldl_better ps p
    rw [List.foldl_cons]
    show (ps.foldl better (some p)).map Prod.snd = none ↔ _
    rw [hfold]
    simp

/-- The best entry has a rank, and no entry of the list is above it. -/
theorem best_spec {es : List Entry} {v : Variant} {g : ScopeGraph} {e : Entry}
    (h : best es v g = some e) :
    e ∈ es ∧ ∃ r, e.rank? v g = some r
      ∧ ∀ f ∈ es, ∀ s, f.rank? v g = some s → ¬ s.Above r := by
  -- the list that the pass goes through: the entries that have a rank, each with it
  have hmem : ∀ (s : Rank) (f : Entry),
      (s, f) ∈ (es.filterMap fun e => (e.rank? v g).map fun rank => (rank, e))
        ↔ f ∈ es ∧ f.rank? v g = some s := by
    intro s f
    rw [List.mem_filterMap]
    constructor
    · rintro ⟨f', hf', heq⟩
      obtain ⟨s', hs', hpair⟩ := Option.map_eq_some_iff.1 heq
      obtain ⟨rfl, rfl⟩ := Prod.mk.inj hpair
      exact ⟨hf', hs'⟩
    · rintro ⟨hf, hs⟩
      exact ⟨f, hf, by rw [hs]; rfl⟩
  rw [best] at h
  cases hps : es.filterMap fun e => (e.rank? v g).map fun rank => (rank, e) with
  | nil =>
    rw [hps] at h
    simp at h
  | cons p ps =>
    obtain ⟨q, hq, hfold, hbest⟩ := foldl_better ps p
    rw [hps, List.foldl_cons] at h
    have hqe : (ps.foldl better (some p)).map Prod.snd = some e := h
    rw [hfold, Option.map_some, Option.some_inj] at hqe
    obtain ⟨r, e'⟩ := q
    obtain rfl : e' = e := hqe
    rw [← hps] at hq hbest
    obtain ⟨he, hr⟩ := (hmem r e').1 hq
    refine ⟨he, r, hr, ?_⟩
    intro f hf s hs
    exact hbest (s, f) ((hmem s f).2 ⟨hf, hs⟩)

end Entry

/-! ## The index is complete

An entry is listed for the leaf that it names, and a global one for every leaf. The places
are those of the entries that were added; `zipIdx` hands them out in order. -/

/-- The pattern can match a variant of this leaf name. -/
def Entry.Concerns (e : Entry) (leaf : Text) : Prop :=
  e.pattern.leaf? = none ∨ e.pattern.leaf? = some leaf

namespace Index

/-- A feature without a bucket has an empty one. -/
theorem candidates_eq (index : Index) (feature leaf : Text) :
    index.candidates feature leaf = (index.bucket feature).candidates leaf := by
  rw [candidates, bucket]
  cases index.get? feature <;> rfl

/-- An entry goes to the bucket of its feature, and the others stay. -/
theorem bucket_add (index : Index) (e : Entry) (place : Nat) (feature : Text) :
    (index.add e place).bucket feature
      = if feature = e.feature then (index.bucket e.feature).add e place
        else index.bucket feature := by
  rw [bucket, add, Dictionary.get?_insert]
  split <;> rfl

/-- Adding an entry to a bucket lists it where it belongs, and unlists nothing. -/
theorem mem_candidates_add_bucket (b : Bucket) (e : Entry) (place i : Nat) (leaf : Text) :
    i ∈ (b.add e place).candidates leaf
      ↔ i ∈ b.candidates leaf ∨ (i = place ∧ e.Concerns leaf) := by
  unfold Entry.Concerns
  rw [Bucket.add]
  cases hleaf : e.pattern.leaf? with
  | none =>
    simp only [Bucket.candidates, List.mem_append, List.mem_singleton]
    tauto
  | some name =>
    simp only [Bucket.candidates, List.mem_append, Dictionary.get?_insert]
    by_cases hname : leaf = name
    · subst hname
      simp only [if_true, Option.getD_some, List.mem_append, List.mem_singleton]
      tauto
    · have hne : ¬ some name = some leaf := fun h => hname (Option.some_inj.1 h).symm
      rw [if_neg hname]
      simp [hne]

/-- Adding an entry makes it a candidate for what it concerns. -/
theorem mem_candidates_add (index : Index) (e : Entry) (place i : Nat) (feature leaf : Text) :
    i ∈ (index.add e place).candidates feature leaf
      ↔ i ∈ index.candidates feature leaf
        ∨ (i = place ∧ e.feature = feature ∧ e.Concerns leaf) := by
  rw [candidates_eq, candidates_eq, bucket_add]
  by_cases hf : feature = e.feature
  · subst hf
    rw [if_pos rfl, mem_candidates_add_bucket]
    simp
  · rw [if_neg hf]
    simp [Ne.symm hf]

/-- What is listed after entries were added: what was listed, and they. -/
theorem mem_candidates_foldl (placed : List (Entry × Nat)) (index : Index) (i : Nat)
    (feature leaf : Text) :
    i ∈ (placed.foldl (fun index e => index.add e.1 e.2) index).candidates feature leaf
      ↔ i ∈ index.candidates feature leaf
        ∨ ∃ e, (e, i) ∈ placed ∧ e.feature = feature ∧ e.Concerns leaf := by
  induction placed generalizing index with
  | nil => simp
  | cons head placed ih =>
    obtain ⟨e, place⟩ := head
    rw [List.foldl_cons, ih, mem_candidates_add, or_assoc]
    refine or_congr_right ?_
    constructor
    · rintro (⟨rfl, hf, hc⟩ | ⟨e', he', hf, hc⟩)
      · exact ⟨e, List.mem_cons_self, hf, hc⟩
      · exact ⟨e', List.mem_cons_of_mem _ he', hf, hc⟩
    · rintro ⟨e', he', hf, hc⟩
      rcases List.mem_cons.1 he' with heq | he'
      · obtain ⟨rfl, rfl⟩ := Prod.mk.inj heq
        exact .inl ⟨rfl, hf, hc⟩
      · exact .inr ⟨e', he', hf, hc⟩

/-- **The index is complete.** It lists the places of the entries of a feature that concern a leaf,
and no others. -/
theorem mem_candidates_ofEntries (es : List Entry) (i : Nat) (feature leaf : Text) :
    i ∈ (ofEntries es).candidates feature leaf
      ↔ ∃ e, es[i]? = some e ∧ e.feature = feature ∧ e.Concerns leaf := by
  have hempty : candidates .empty feature leaf = [] := rfl
  rw [ofEntries, mem_candidates_foldl, hempty]
  simp only [List.mem_zipIdx_iff_getElem?, List.not_mem_nil, false_or]

end Index

/-- The candidates of a query are the entries of the feature that concern the leaf. -/
theorem Table.mem_candidates {t : Table} {feature leaf : Text} {e : Entry} :
    e ∈ t.candidates feature leaf ↔ e ∈ t.entries ∧ e.feature = feature ∧ e.Concerns leaf := by
  rw [candidates, List.mem_filterMap, t.indexed]
  constructor
  · rintro ⟨i, hi, hie⟩
    obtain ⟨f, hif, hfeature, hconcerns⟩ := (Index.mem_candidates_ofEntries _ _ _ _).1 hi
    rw [hie, Option.some_inj] at hif
    subst hif
    exact ⟨List.mem_iff_getElem?.2 ⟨i, hie⟩, hfeature, hconcerns⟩
  · rintro ⟨he, hfeature, hconcerns⟩
    obtain ⟨i, hi⟩ := List.mem_iff_getElem?.1 he
    exact ⟨i, (Index.mem_candidates_ofEntries _ _ _ _).2 ⟨e, hi, hfeature, hconcerns⟩, hi⟩

/-- An entry whose pattern matches concerns the variant's leaf. -/
theorem Entry.concerns_of_depth {e : Entry} {v : Variant} {g : ScopeGraph} {depth : Nat}
    (h : e.pattern.depth? v g = some depth) : e.Concerns v.leaf := by
  unfold Concerns
  cases hp : e.pattern with
  | global => exact .inl rfl
  | named limit leaf signature =>
    rw [hp] at h
    rw [Pattern.leaf_eq_of_depth?_eq_some h]
    exact .inr rfl

/-! ## Winning

An entry is eligible at a depth. It has no other, so the depth could be left out; it is kept because
the rank is made of it. -/

/-- **Eligible.** The entry is of the feature, its pattern matches the variant at this depth,
and if it is global it does not come too late: the variant has no position, or the entry
has the earlier place. -/
def Entry.Eligible (e : Entry) (feature : Text) (v : Variant) (g : ScopeGraph) (depth : Nat) :
    Prop :=
  e.feature = feature ∧ e.pattern.depth? v g = some depth
    ∧ (e.pattern.isGlobal = false ∨ v.position = none
      ∨ ∃ position, v.position = some position ∧ e.sequence < position)

/-- The rank of an entry that matches at this depth. -/
def Entry.rankAt (e : Entry) (depth : Nat) : Rank := ⟨e.pattern.specificity, depth, e.sequence⟩

/-- **Winning.** The entry is eligible, and strictly above every other eligible entry of the
table. -/
def Table.Wins (t : Table) (e : Entry) (feature : Text) (v : Variant) (g : ScopeGraph) : Prop :=
  e ∈ t.entries ∧ ∃ depth, e.Eligible feature v g depth
    ∧ ∀ f ∈ t.entries, f ≠ e → ∀ depth', f.Eligible feature v g depth' →
      (e.rankAt depth).Above (f.rankAt depth')

/-- Only a global entry can come too late, and only for a variant that has a position. -/
theorem Entry.inTimeFor_iff (e : Entry) (v : Variant) :
    e.inTimeFor v = true
      ↔ e.pattern.isGlobal = false ∨ v.position = none
        ∨ ∃ position, v.position = some position ∧ e.sequence < position := by
  rw [inTimeFor, Bool.or_eq_true, Bool.not_eq_true']
  cases v.position <;> simp

/-- The entries of a feature with a rank are the eligible ones. -/
theorem Entry.rank?_eq_some_iff {e : Entry} {feature : Text} {v : Variant} {g : ScopeGraph}
    {r : Rank} (hfeature : e.feature = feature) :
    e.rank? v g = some r ↔ ∃ depth, e.Eligible feature v g depth ∧ r = e.rankAt depth := by
  unfold Eligible
  rw [← inTimeFor_iff, rank?]
  by_cases htime : e.inTimeFor v = true
  · rw [if_pos htime, Option.map_eq_some_iff]
    constructor
    · rintro ⟨depth, hdepth, rfl⟩
      exact ⟨depth, ⟨hfeature, hdepth, htime⟩, rfl⟩
    · rintro ⟨depth, ⟨-, hdepth, -⟩, rfl⟩
      exact ⟨depth, hdepth, rfl⟩
  · rw [if_neg htime]
    constructor
    · intro h
      simp at h
    · rintro ⟨depth, ⟨-, -, h⟩, -⟩
      exact absurd h htime

/-- An eligible entry is among the candidates of the query. -/
theorem Table.mem_candidates_of_eligible {t : Table} {e : Entry} {feature : Text} {v : Variant}
    {g : ScopeGraph} {depth : Nat} (he : e ∈ t.entries) (h : e.Eligible feature v g depth) :
    e ∈ t.candidates feature v.leaf :=
  Table.mem_candidates.2 ⟨he, h.1, Entry.concerns_of_depth h.2.1⟩

/-- No entry wins exactly if none is eligible. -/
theorem Table.bestMatch_eq_none_iff {t : Table} {feature : Text} {v : Variant} {g : ScopeGraph} :
    t.bestMatch feature v g = none ↔ ∀ e ∈ t.entries, ∀ depth, ¬ e.Eligible feature v g depth := by
  rw [bestMatch, Entry.best_eq_none_iff]
  constructor
  · intro h e he depth helig
    have hnone := h e (mem_candidates_of_eligible he helig)
    rw [(Entry.rank?_eq_some_iff helig.1).2 ⟨depth, helig, rfl⟩] at hnone
    simp at hnone
  · intro h e he
    obtain ⟨hmem, hfeature, -⟩ := mem_candidates.1 he
    cases hr : e.rank? v g with
    | none => rfl
    | some r =>
      obtain ⟨depth, helig, -⟩ := (Entry.rank?_eq_some_iff hfeature).1 hr
      exact absurd helig (h e hmem depth)

/-- Where the places of the entries ascend, what wins is the winner. The places are what
makes the best entry strictly best: without them two entries could be level. -/
theorem Table.bestMatch_eq_some_iff {t : Table} {feature : Text} {v : Variant} {g : ScopeGraph}
    {e : Entry} (hplaces : t.entries.Pairwise fun e f => e.sequence < f.sequence) :
    t.bestMatch feature v g = some e ↔ t.Wins e feature v g := by
  -- entries of one place are one entry
  have hne : ∀ f ∈ t.entries, ∀ f' ∈ t.entries, f ≠ f' → f.sequence ≠ f'.sequence := by
    intro f hf f' hf' hff'
    have hsymm : Std.Symm fun f f' : Entry => f.sequence ≠ f'.sequence := ⟨fun _ _ h => h.symm⟩
    have hpair : t.entries.Pairwise fun f f' => f.sequence ≠ f'.sequence :=
      hplaces.imp fun hlt => Nat.ne_of_lt hlt
    exact hpair.forall hf hf' hff'
  constructor
  · intro h
    obtain ⟨he, r, hr, hbest⟩ := Entry.best_spec h
    obtain ⟨hmem, hfeature, -⟩ := mem_candidates.1 he
    obtain ⟨depth, helig, rfl⟩ := (Entry.rank?_eq_some_iff hfeature).1 hr
    refine ⟨hmem, depth, helig, ?_⟩
    intro f hf hfe depth' helig'
    have hnot := hbest f (mem_candidates_of_eligible hf helig') (f.rankAt depth')
      ((Entry.rank?_eq_some_iff helig'.1).2 ⟨depth', helig', rfl⟩)
    exact (Rank.above_or_above (hne e hmem f hf (Ne.symm hfe))).resolve_right hnot
  · rintro ⟨hmem, depth, helig, hwins⟩
    cases hbm : t.bestMatch feature v g with
    | none => exact absurd helig (bestMatch_eq_none_iff.1 hbm e hmem depth)
    | some f =>
      obtain ⟨hf, r, hr, hbest⟩ := Entry.best_spec hbm
      obtain ⟨hfmem, hffeature, -⟩ := mem_candidates.1 hf
      obtain ⟨depth', helig', rfl⟩ := (Entry.rank?_eq_some_iff hffeature).1 hr
      by_contra hfe
      have hother : f ≠ e := fun heq => hfe (heq ▸ rfl)
      refine hbest e (mem_candidates_of_eligible hmem helig) (e.rankAt depth)
        ((Entry.rank?_eq_some_iff helig.1).2 ⟨depth, helig, rfl⟩) ?_
      exact hwins f hfmem hother depth' helig'

/-- **The index agrees with a plain scan.** In the table of any run, no entry wins exactly if
none is eligible, and otherwise the entry that wins is the one eligible entry strictly above
all other eligible ones. -/
theorem bestMatch_run (ops : List Operation) (feature : Text) (v : Variant) (g : ScopeGraph) :
    let t := (Draft.empty.run ops).freeze
    (t.bestMatch feature v g = none ↔ ∀ e ∈ t.entries, ∀ depth, ¬ e.Eligible feature v g depth)
      ∧ ∀ e, t.bestMatch feature v g = some e ↔ t.Wins e feature v g := by
  intro t
  have hplaces : t.entries.Pairwise fun e f => e.sequence < f.sequence := by
    show (Draft.empty.run ops).entries.Pairwise _
    rw [Draft.entries_run_empty]
    exact lasting_ascending 0 ops
  exact ⟨Table.bestMatch_eq_none_iff, fun e => Table.bestMatch_eq_some_iff hplaces⟩

end Overlay.Feature
