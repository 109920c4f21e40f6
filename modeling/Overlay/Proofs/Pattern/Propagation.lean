/-
Which variants of a declaration a pattern reaches.

The variants of a declaration differ in their arity alone, and of a pattern only the signature
looks at that. So a pattern without one reaches all variants or none, and all at one depth.
A signature with defaults is compared with the declared list and not with that of the variant,
so it makes no difference either. One without defaults has the types of one arity: of the
variants it can reach only the one that takes as many parameters as it has itself.
-/
import Mathlib.Data.List.Nodup
import Overlay.Pattern.Matching

set_option autoImplicit false

namespace Overlay

variable {d : Declaration} {g : ScopeGraph} {m n : Nat}

/-! ## Variants of one declaration

There is one variant for each arity that is emitted. -/

namespace Declaration

/-- No arity is emitted twice. -/
theorem nodup_arities (d : Declaration) (mode : DefaultMode) : (d.arities mode).Nodup := by
  rw [arities]
  split
  · exact List.nodup_singleton _
  · exact List.nodup_reverse.2 List.nodup_range'

/-- No two variants of a declaration are the same. -/
theorem nodup_variants (d : Declaration) (mode : DefaultMode) : (d.variants mode).Nodup := by
  have hinjective : Function.Injective (Variant.ofArity d) :=
    fun _ _ heq => congrArg Variant.arity heq
  exact (d.nodup_arities mode).map hinjective

end Declaration

/-! ## Signatures

A signature looks at the parameters of a variant in one of two ways. With defaults it compares the
declared list, which all variants of a declaration share. Without them it compares the types that
the variant takes. -/

namespace Signature

variable {s : Signature}

/-- A signature with defaults asks for the declared list, with all types and defaults. -/
theorem eq_of_agrees_of_hasDefaults (h : s.params.hasDefaults = true) {v : Variant}
    (hagrees : s.agrees v = true) :
    v.kind.isCallable = true ∧ s.isConst = v.decl.isConst
      ∧ s.params.items = v.decl.params.items := by
  rw [agrees, if_pos h] at hagrees
  simp only [Bool.and_eq_true, beq_iff_eq, decide_eq_true_eq] at hagrees
  obtain ⟨⟨hcallable, hconst⟩, hparams⟩ := hagrees
  exact ⟨hcallable, hconst, congrArg ParameterList.items hparams⟩

/-- A signature without defaults asks for as many parameters as it has. -/
theorem eq_length_of_agrees (h : s.params.hasDefaults = false) (hn : n ≤ d.arity)
    (hagrees : s.agrees (.ofArity d n) = true) : n = s.params.items.length := by
  have hplain : ¬ s.params.hasDefaults = true := by simp [h]
  rw [agrees, if_neg hplain] at hagrees
  simp only [Bool.and_eq_true, decide_eq_true_eq] at hagrees
  have hlength : s.params.types.length = (Variant.ofArity d n).types.length :=
    congrArg List.length hagrees.2
  rw [ParameterList.types, Variant.types, List.length_map, List.length_map, Variant.signature,
    List.length_take] at hlength
  exact (Nat.min_eq_left hn).symm.trans hlength.symm

end Signature

/-! ## Patterns

A pattern is matched by its leaf, its scope and its signature, and only the last can tell variants
apart. -/

namespace Pattern

variable {p : Pattern}

/-- The signature of a pattern, if it has one. -/
def signature? : Pattern → Option Signature
  | global => none
  | named _ _ signature => signature

/-- A pattern that matches a variant has no signature, or one that agrees with it. -/
theorem agrees_of_depth? {s : Signature} (hs : p.signature? = some s) {v : Variant}
    (h : p.depth? v g ≠ none) : s.agrees v = true := by
  cases p with
  | global => simp [signature?] at hs
  | named limit leaf signature =>
    obtain rfl : signature = some s := hs
    rw [depth?] at h
    split at h
    · rename_i hmatch
      simpa using hmatch.2
    · exact absurd rfl h

/-- Variants with which the signature agrees alike are matched alike. -/
theorem depth?_ofArity_congr
    (h : ∀ s, p.signature? = some s → s.agrees (.ofArity d m) = s.agrees (.ofArity d n)) :
    p.depth? (.ofArity d m) g = p.depth? (.ofArity d n) g := by
  cases p with
  | global => rfl
  | named limit leaf signature =>
    have hsignature : signature.all (·.agrees (.ofArity d m))
        = signature.all (·.agrees (.ofArity d n)) := by
      cases signature with
      | none => rfl
      | some s => exact h s rfl
    rw [depth?, depth?, hsignature]
    -- what else is asked for is said by the declaration
    rfl

/-- A pattern without a signature, or with a signature that has defaults, does not look at the
arity. -/
theorem depth?_ofArity_of_all (h : p.signature?.all (fun s => s.params.hasDefaults) = true) :
    p.depth? (.ofArity d m) g = p.depth? (.ofArity d n) g := by
  refine depth?_ofArity_congr fun s hs => Signature.agrees_ofArity_of_hasDefaults ?_ d m n
  simpa [hs] using h

/-- **What a pattern reaches of a declaration.** Without a signature, or with a signature that has
defaults, it matches all variants at one depth or none of them; one with defaults matches only
callables of the same `const` and of the same declared parameters. With a signature that has no
defaults it matches at most the one variant that takes as many parameters. -/
theorem reaches_variants (p : Pattern) (d : Declaration) (g : ScopeGraph) :
    (p.signature?.all (fun s => s.params.hasDefaults) = true →
        ∀ v ∈ d.variants .expand, ∀ w ∈ d.variants .expand, p.depth? v g = p.depth? w g)
      ∧ ∀ s, p.signature? = some s →
        (s.params.hasDefaults = true → ∀ v ∈ d.variants .expand, p.depth? v g ≠ none →
          d.kind.isCallable = true ∧ s.isConst = d.isConst ∧ s.params.items = d.params.items)
        ∧ (s.params.hasDefaults = false →
          ((d.variants .expand).filter fun v => (p.depth? v g).isSome) = []
            ∨ ((d.variants .expand).filter fun v => (p.depth? v g).isSome)
              = [.ofArity d s.params.items.length]) := by
  refine ⟨?_, fun s hs => ⟨?_, ?_⟩⟩
  · intro h v hv w hw
    obtain ⟨m, -, rfl⟩ := List.mem_map.1 hv
    obtain ⟨n, -, rfl⟩ := List.mem_map.1 hw
    exact depth?_ofArity_of_all h
  · intro h v hv hmatch
    obtain ⟨n, -, rfl⟩ := List.mem_map.1 hv
    exact Signature.eq_of_agrees_of_hasDefaults h (agrees_of_depth? hs hmatch)
  · intro h
    have hone : ∀ v ∈ (d.variants .expand).filter fun v => (p.depth? v g).isSome,
        v = .ofArity d s.params.items.length := by
      intro v hv
      obtain ⟨hmem, hmatch⟩ := List.mem_filter.1 hv
      obtain ⟨n, hn, rfl⟩ := List.mem_map.1 hmem
      have hagrees := agrees_of_depth? hs (Option.isSome_iff_ne_none.1 hmatch)
      rw [← Signature.eq_length_of_agrees h (Declaration.bounds_of_mem_arities hn).2 hagrees]
    have hnodup := (d.nodup_variants .expand).filter fun v => (p.depth? v g).isSome
    generalize (d.variants .expand).filter (fun v => (p.depth? v g).isSome) = reached at hone hnodup
    -- all that is reached is this one variant, and it is reached once
    have hsame := List.eq_replicate_of_mem hone
    rw [hsame, List.nodup_replicate] at hnodup
    rw [hsame]
    rcases Nat.le_one_iff_eq_zero_or_eq_one.1 hnodup with hzero | hsingle
    · exact .inl (by rw [hzero]; rfl)
    · exact .inr (by rw [hsingle]; rfl)

/-- A function of two parameters, both with defaults, and so of three variants. -/
def hello : Declaration :=
  ⟨.function, ⟨.global, "hello".toList⟩,
    ⟨[⟨⟨"int".toList⟩, some "0".toList⟩, ⟨⟨"double".toList⟩, some "0.0".toList⟩],
      by decide, by decide⟩, none, none, false, false, none⟩

/-- The declared form reaches all three variants, and the form with one parameter the one that takes
one. -/
theorem reaches_variants_hello :
    let declared : Pattern := .named .unqualified hello.leaf (some ⟨hello.params, false⟩)
    let short : Signature := ⟨⟨[⟨⟨"int".toList⟩, none⟩], by decide, by decide⟩, false⟩
    let shortened : Pattern := .named .unqualified hello.leaf (some short)
    declared.signature?.all (fun s => s.params.hasDefaults) = true
      ∧ (∀ v ∈ hello.variants .expand, ∀ w ∈ hello.variants .expand,
          declared.depth? v .empty = declared.depth? w .empty)
      ∧ short.params.hasDefaults = false
      ∧ ((hello.variants .expand).filter fun v => (shortened.depth? v .empty).isSome)
        = [.ofArity hello 1] := by
  intro declared short shortened
  have hdeclared : declared.signature?.all (fun s => s.params.hasDefaults) = true := by decide
  have hshort : short.params.hasDefaults = false := by decide
  have hreached : ((hello.variants .expand).filter fun v => (shortened.depth? v .empty).isSome)
      ≠ [] := by
    decide
  exact ⟨hdeclared, (reaches_variants declared hello .empty).1 hdeclared, hshort,
    (((reaches_variants shortened hello .empty).2 short rfl).2 hshort).resolve_left hreached⟩

end Pattern

end Overlay
