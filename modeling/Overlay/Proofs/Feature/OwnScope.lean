/-
A scope's own entries against those of its bases.

An entry that names a scope matches the members of that scope at depth zero, and the members
that other scopes inherit from it at the distance of the base. The depth decides only between
entries of one class of specificity, and among the patterns that name a scope there are two
classes: those with a signature stand above those without. So an entry of the variant's own
scope is above every inherited one of its class and of any lower class, but an inherited entry
with a signature is above an own one without.

Nothing else can happen. Where the own scope has a matching entry the winner names a scope,
and it names another scope exactly if an inherited entry with a signature matches and no own
entry with a signature does (`own_scope_wins`). The rest of the file is the one inheritance
where that case is met.
-/
import Mathlib.Data.List.Basic
import Mathlib.Order.Basic
import Overlay.Proofs.Feature.Precedence
import Overlay.Proofs.ScopeGraph.Ascent

set_option autoImplicit false

namespace Overlay

/-! ## Patterns that name a scope

These are the patterns whose depth can be other than zero, and the ones that stand above all others.
-/

namespace Pattern

/-- The pattern limits the scope to this one, and to those that inherit the member from it. -/
def NamesScope (p : Pattern) (s : ScopePath) : Prop :=
  ∃ leaf signature, p = named (.exact s) leaf signature

/-- The pattern has a parameter list. -/
def hasSignature : Pattern → Bool
  | named _ _ (some _) => true
  | named _ _ none | global => false

variable {p : Pattern} {s : ScopePath} {v : Variant} {g : ScopeGraph}

/-- Among the patterns that name a scope the signature alone decides the class. -/
theorem NamesScope.level (h : p.NamesScope s) :
    p.specificity.level = if p.hasSignature = true then 4 else 3 := by
  obtain ⟨leaf, signature, rfl⟩ := h
  cases signature <;> rfl

/-- No other pattern is in one of their two classes. -/
theorem exists_namesScope_of_le_level (h : 3 ≤ p.specificity.level) : ∃ s, p.NamesScope s := by
  cases p with
  | global => simp [specificity, Specificity.level] at h
  | named limit leaf signature =>
    cases limit with
    | exact scope => exact ⟨scope, leaf, signature, rfl⟩
    | unqualified => cases signature <;> simp [specificity, Specificity.level] at h
    | wildcard => cases signature <;> simp [specificity, Specificity.level] at h

/-- A pattern that names a scope is not global, so its entry never comes too late. -/
theorem NamesScope.isGlobal_eq_false (h : p.NamesScope s) : p.isGlobal = false := by
  obtain ⟨leaf, signature, rfl⟩ := h
  rfl

/-- A pattern that names the variant's scope matches at depth zero, and one that names another
scope at the distance of a base, which is not zero. -/
theorem NamesScope.depth_eq_zero_iff (h : p.NamesScope s) {depth : Nat}
    (hdepth : p.depth? v g = some depth) : depth = 0 ↔ s = v.scope := by
  obtain ⟨leaf, signature, rfl⟩ := h
  rw [depth?] at hdepth
  split at hdepth
  · rw [ScopeLimit.depth?] at hdepth
    by_cases hs : s = v.scope
    · rw [if_pos hs, Option.some_inj] at hdepth
      exact iff_of_true hdepth.symm hs
    · rw [if_neg hs] at hdepth
      refine iff_of_false ?_ hs
      split at hdepth
      · have hmem := ScopeGraph.find?_providers.1 hdepth
        -- a scope with providers does not declare the member, and an ascent has a link
        cases hd : g.declares v.scope leaf with
        | true =>
          rw [ScopeGraph.providers_of_declares hd] at hmem
          exact absurd hmem List.not_mem_nil
        | false =>
          have hascent := ((ScopeGraph.mem_providers_iff_ascent hd s depth).1 hmem).2.1
          cases hascent with
          | direct _ => exact Nat.one_ne_zero
          | climb _ _ _ => exact Nat.succ_ne_zero _
      · simp at hdepth
  · simp at hdepth

end Pattern

namespace Feature

variable {t : Table} {feature : Text} {v : Variant} {g : ScopeGraph}

/-! ## Own and inherited entries

Own and inherited are said of an entry and a variant: the scope that the pattern names is the
variant's, or is not. The theorem asks for one own entry, so that there is a winner at all; the rest
of the table is left open. -/

/-- **From a scope.** The entry is of the feature, its pattern names the scope, and it matches
the variant. The scope is the variant's own, or one that the member is inherited from. -/
def Entry.From (e : Entry) (feature : Text) (v : Variant) (g : ScopeGraph) (s : ScopePath) :
    Prop :=
  e.feature = feature ∧ e.pattern.NamesScope s ∧ ∃ depth, e.pattern.depth? v g = some depth

/-- An entry that names a scope never comes too late. -/
theorem Entry.From.eligible {e : Entry} {s : ScopePath} (h : e.From feature v g s) :
    ∃ depth, e.Eligible feature v g depth ∧ (depth = 0 ↔ s = v.scope) := by
  obtain ⟨hfeature, hnames, depth, hdepth⟩ := h
  exact ⟨depth, ⟨hfeature, hdepth, .inl hnames.isGlobal_eq_false⟩, hnames.depth_eq_zero_iff hdepth⟩

/-- The best entry is eligible, and no eligible entry of the table is above it. -/
theorem Table.bestMatch_spec {w : Entry} (h : t.bestMatch feature v g = some w) :
    ∃ depth, w.Eligible feature v g depth
      ∧ ∀ f ∈ t.entries, ∀ depth', f.Eligible feature v g depth' →
        ¬ (f.rankAt depth').Above (w.rankAt depth) := by
  obtain ⟨hw, r, hr, hbest⟩ := Entry.best_spec h
  obtain ⟨-, hfeature, -⟩ := mem_candidates.1 hw
  obtain ⟨depth, helig, rfl⟩ := (Entry.rank?_eq_some_iff hfeature).1 hr
  refine ⟨depth, helig, fun f hf depth' helig' => ?_⟩
  exact hbest f (mem_candidates_of_eligible hf helig') _
    ((Entry.rank?_eq_some_iff helig'.1).2 ⟨depth', helig', rfl⟩)

/-- What wins is of no lower class than an entry that matches. -/
theorem Table.level_le_of_bestMatch {w f : Entry} {depth : Nat}
    (h : t.bestMatch feature v g = some w) (hf : f ∈ t.entries)
    (helig : f.Eligible feature v g depth) :
    f.pattern.specificity.level ≤ w.pattern.specificity.level := by
  obtain ⟨depth', -, hbest⟩ := bestMatch_spec h
  have hnot := hbest f hf depth helig
  unfold Rank.Above Entry.rankAt at hnot
  dsimp only at hnot
  omega

/-- An inherited winner is of a higher class than every own entry that matches: of two of one
class the own one is above. -/
theorem Table.level_lt_of_inherited {w f : Entry} {s : ScopePath}
    (h : t.bestMatch feature v g = some w) (hnames : w.pattern.NamesScope s) (hs : s ≠ v.scope)
    (hf : f ∈ t.entries) (hown : f.From feature v g v.scope) :
    f.pattern.specificity.level < w.pattern.specificity.level := by
  obtain ⟨depth, helig, hbest⟩ := bestMatch_spec h
  obtain ⟨depth', helig', hzero⟩ := hown.eligible
  have hdepth : depth ≠ 0 := fun h0 => hs ((hnames.depth_eq_zero_iff helig.2.1).1 h0)
  have hdepth' : depth' = 0 := hzero.2 rfl
  have hnot := hbest f hf depth' helig'
  unfold Rank.Above Entry.rankAt at hnot
  dsimp only at hnot
  omega

/-- **A scope's own entry wins within its class.** Where an entry that names the variant's own
scope matches, some entry wins, and it names a scope. It is a scope other than the variant's
own exactly if an entry from another scope has a signature and no entry from the own scope has
one. -/
theorem own_scope_wins {own : Entry} (hmem : own ∈ t.entries)
    (hown : own.From feature v g v.scope) :
    ∃ w s, t.bestMatch feature v g = some w ∧ w.From feature v g s
      ∧ (s ≠ v.scope ↔
        (∃ f ∈ t.entries, ∃ s' ≠ v.scope, f.From feature v g s' ∧ f.pattern.hasSignature = true)
          ∧ ∀ f ∈ t.entries, f.From feature v g v.scope → f.pattern.hasSignature = false) := by
  obtain ⟨depth, helig, -⟩ := hown.eligible
  cases hbest : t.bestMatch feature v g with
  | none => exact absurd helig (Table.bestMatch_eq_none_iff.1 hbest own hmem depth)
  | some w =>
    -- the winner is of one of the two classes that name a scope
    have hle := Table.level_le_of_bestMatch hbest hmem helig
    have hlevel := hown.2.1.level
    have hclass : 3 ≤ w.pattern.specificity.level := by
      split at hlevel <;> omega
    obtain ⟨s, hnames⟩ := Pattern.exists_namesScope_of_le_level hclass
    obtain ⟨hw, -⟩ := Table.mem_candidates.1 (Entry.best_spec hbest).1
    obtain ⟨depth', ⟨hfeature, hdepth', -⟩, -⟩ := Table.bestMatch_spec hbest
    have hwlevel := hnames.level
    refine ⟨w, s, rfl, ⟨hfeature, hnames, depth', hdepth'⟩, ?_⟩
    constructor
    · intro hs
      have hlow : ∀ f ∈ t.entries, f.From feature v g v.scope →
          w.pattern.hasSignature = true ∧ f.pattern.hasSignature = false := by
        intro f hf hfown
        have hlt := Table.level_lt_of_inherited hbest hnames hs hf hfown
        have hflevel := hfown.2.1.level
        by_cases hwsig : w.pattern.hasSignature = true
        · by_cases hfsig : f.pattern.hasSignature = true
          · rw [if_pos hwsig] at hwlevel
            rw [if_pos hfsig] at hflevel
            omega
          · exact ⟨hwsig, by simpa using hfsig⟩
        · rw [if_neg hwsig] at hwlevel
          split at hflevel <;> omega
      exact ⟨⟨w, hw, s, hs, ⟨hfeature, hnames, depth', hdepth'⟩, (hlow own hmem hown).1⟩,
        fun f hf hfown => (hlow f hf hfown).2⟩
    · rintro ⟨⟨f, hf, s', -, hfrom, hfsig⟩, hnone⟩ rfl
      -- an own winner has no signature, and `f` is of the class above it
      have hwsig := hnone w hw ⟨hfeature, hnames, depth', hdepth'⟩
      obtain ⟨depth'', hfelig, -⟩ := hfrom.eligible
      have hfle := Table.level_le_of_bestMatch hbest hf hfelig
      rw [hwsig, if_neg Bool.false_ne_true] at hwlevel
      rw [hfrom.2.1.level, if_pos hfsig] at hfle
      omega

/-! ## One inheritance

The scope `Derived` inherits the method `m` from `Base`. -/

def derivedScope : ScopePath := ⟨["Derived".toList]⟩

def baseScope : ScopePath := ⟨["Base".toList]⟩

def inheritance : ScopeGraph :=
  (ScopeGraph.empty.declareScope derivedScope [baseScope]).declareMember baseScope ['m']

def inheritedMethod : Variant := .full (.named .method ⟨derivedScope, ['m']⟩)

/-- An entry for the method `m` of a scope. -/
def methodEntry (s : ScopePath) (signature : Option Signature) (place : Nat) : Entry :=
  ⟨"except".toList, .named (.exact s) ['m'] signature, .enabled ['1'], none, .empty, place⟩

/-- The search from the derived scope takes one round. -/
theorem providers_inheritance : inheritance.providers derivedScope ['m'] = [(baseScope, 1)] :=
  ScopeGraph.Search.providers_eq_of_ends (by decide) (.round rfl (.done rfl))

/-- A pattern of the base matches the inherited method one link away, if its signature does. -/
theorem depth_baseScope {signature : Option Signature}
    (h : signature.all (·.agrees inheritedMethod) = true) :
    (Pattern.named (.exact baseScope) ['m'] signature).depth? inheritedMethod inheritance
      = some 1 := by
  have hother : ¬ baseScope = inheritedMethod.scope := by decide
  have hmember : inheritedMethod.kind.isMember = true := rfl
  have hscope : inheritedMethod.scope = derivedScope := rfl
  rw [Pattern.depth?, if_pos ⟨rfl, h⟩, ScopeLimit.depth?, if_neg hother, if_pos hmember, hscope,
    providers_inheritance]
  rfl

/-- The own entry first, then one of the base, both without signature: the own one wins. -/
theorem own_scope_wins_plain :
    let own := methodEntry derivedScope none 0
    let inherited := methodEntry baseScope none 1
    let t := (Draft.empty.run [.define own, .define inherited]).freeze
    own ∈ t.entries ∧ own.From "except".toList inheritedMethod inheritance derivedScope
      ∧ inherited.From "except".toList inheritedMethod inheritance baseScope
      ∧ ∃ w, t.bestMatch "except".toList inheritedMethod inheritance = some w
        ∧ w.From "except".toList inheritedMethod inheritance derivedScope := by
  intro own inherited t
  have hmem : own ∈ t.entries := by decide
  have hown : own.From "except".toList inheritedMethod inheritance derivedScope :=
    ⟨rfl, ⟨['m'], none, rfl⟩, 0, rfl⟩
  have hinherited : inherited.From "except".toList inheritedMethod inheritance baseScope :=
    ⟨rfl, ⟨['m'], none, rfl⟩, 1, depth_baseScope rfl⟩
  refine ⟨hmem, hown, hinherited, ?_⟩
  obtain ⟨w, s, hbest, hfrom, hiff⟩ := own_scope_wins hmem hown
  have hs : s = derivedScope := by
    by_contra hs
    -- neither of the two entries has a signature
    obtain ⟨⟨f, hf, -, -, -, hsignature⟩, -⟩ := hiff.1 hs
    have hnone : ∀ f ∈ t.entries, f.pattern.hasSignature = false := by decide
    rw [hnone f hf] at hsignature
    exact Bool.false_ne_true hsignature
  exact ⟨w, hbest, hs ▸ hfrom⟩

/-- **A signature outweighs the distance.** The entry of the derived scope matches its method,
and the entry of the base wins: it alone has a signature. -/
theorem inherited_signature_wins :
    inheritedMethod.kind.isMember = true ∧ inheritedMethod.scope = derivedScope
      ∧ methodEntry derivedScope none 0 ∈ (Draft.empty.run
          [.define (methodEntry derivedScope none 0),
            .define (methodEntry baseScope (some ⟨.empty, false⟩) 1)]).freeze.entries
      ∧ (methodEntry derivedScope none 0).From "except".toList inheritedMethod inheritance
          derivedScope
      ∧ (Draft.empty.run
          [.define (methodEntry derivedScope none 0),
            .define (methodEntry baseScope (some ⟨.empty, false⟩) 1)]).freeze.bestMatch
          "except".toList inheritedMethod inheritance
        = some (methodEntry baseScope (some ⟨.empty, false⟩) 1)
      ∧ (methodEntry baseScope (some ⟨.empty, false⟩) 1).pattern.NamesScope baseScope
      ∧ baseScope ≠ derivedScope := by
  refine ⟨rfl, rfl, by decide, ⟨rfl, ⟨['m'], none, rfl⟩, 0, rfl⟩, ?_, ⟨['m'], _, rfl⟩, by decide⟩
  have hplaces : (Draft.empty.run
      [.define (methodEntry derivedScope none 0),
        .define (methodEntry baseScope (some ⟨.empty, false⟩) 1)]).freeze.entries.Pairwise
      fun e f => e.sequence < f.sequence := by
    decide
  refine (Table.bestMatch_eq_some_iff hplaces).2
    ⟨by decide, 1, ⟨rfl, depth_baseScope rfl, .inl rfl⟩, ?_⟩
  -- whatever else is in the table is of the class below
  have hlower : ∀ f ∈ (Draft.empty.run
      [.define (methodEntry derivedScope none 0),
        .define (methodEntry baseScope (some ⟨.empty, false⟩) 1)]).freeze.entries,
      f ≠ methodEntry baseScope (some ⟨.empty, false⟩) 1 → f.pattern.specificity.level < 4 := by
    decide
  exact fun f hf hne _ _ => .inl (hlower f hf hne)

end Feature

end Overlay
