/-
Exchanging neighbours.

Two items that stand next to each other can be exchanged where neither looks at the other.
A scope looks at nothing but the target name of its own path, which the last item to give one
decides. A directive and a declaration look at each other only if the directive is global,
for then it must come first. Of two directives only one feature and one specificity can be
level, and only then the later one is asked for; two directives of one key are of that sort,
so an exchange never changes which of them is live.

On the sequence the exchange of two operations swaps two neighbouring places, and all else
stays where it is. Two places that are compared come in the same order as before, unless they
are the two that were swapped; and these two are not compared.

What is emitted is then the same in either order. So is what features come to on any variant at
all, emitted or not, with one exception: a variant that is placed between two directives comes
after the first and before the second of them, and if one is global it can tell them apart.
-/
import Mathlib.Logic.Equiv.Basic
import Mathlib.Tactic.SplitIfs
import Overlay.Proofs.Interface.Renumbering

set_option autoImplicit false

namespace Overlay

open Feature (Entry Operation Rearranges)
open Script (Item)

/-! ## Neighbouring places

The exchange is a permutation of the places, so it is its own inverse and no place is lost. It keeps
the order of any two places but one pair. -/

/-- Two places that are not the pair stay in their order. -/
theorem swap_lt_swap_iff {n i j : Nat} (h : ¬ (i = n ∧ j = n + 1))
    (h' : ¬ (i = n + 1 ∧ j = n)) :
    Equiv.swap n (n + 1) i < Equiv.swap n (n + 1) j ↔ i < j := by
  rw [Equiv.swap_apply_def, Equiv.swap_apply_def]
  split_ifs <;> omega

/-- A place that is not between the two is before or behind both. -/
theorem swap_lt_iff {n place : Nat} (h : place ≠ n + 1) (i : Nat) :
    Equiv.swap n (n + 1) i < place ↔ i < place := by
  rw [Equiv.swap_apply_def]
  split_ifs <;> omega

/-- What stood at a place stands at its new one after the exchange. -/
theorem getElem?_swap {α : Type} (as bs : List α) (a b : α) (i : Nat) :
    (as ++ b :: a :: bs)[Equiv.swap as.length (as.length + 1) i]? = (as ++ a :: b :: bs)[i]? := by
  rcases Nat.lt_or_ge i as.length with hi | hi
  · have hfix : Equiv.swap as.length (as.length + 1) i = i :=
      Equiv.swap_apply_of_ne_of_ne (by omega) (by omega)
    rw [hfix, List.getElem?_append_left hi, List.getElem?_append_left hi]
  · obtain ⟨k, rfl⟩ : ∃ k, i = as.length + k := ⟨i - as.length, by omega⟩
    match k with
    | 0 => simp
    | 1 => simp
    | k + 2 =>
      have hfix : Equiv.swap as.length (as.length + 1) (as.length + (k + 2))
          = as.length + (k + 2) :=
        Equiv.swap_apply_of_ne_of_ne (by omega) (by omega)
      rw [hfix, List.getElem?_append_right (by omega), List.getElem?_append_right (by omega),
        Nat.add_sub_cancel_left]
      rfl

/-! ## Exchanging operations

What is asked of two operations is what a renumbering asks of any two, said for this one pair: their
order must not be one that is looked at. -/

namespace Feature

/-- Two operations that do not look at each other. -/
def Operation.Independent : Operation → Operation → Prop
  | .define e, .define f =>
    e.feature ≠ f.feature ∨ e.pattern.specificity ≠ f.pattern.specificity
  | .define e, .tick => e.pattern.isGlobal = false
  | .tick, .define e => e.pattern.isGlobal = false
  | .tick, .tick => True

/-- Exchanging two operations that do not look at each other rearranges the run: what is
compared was never the two of them. -/
theorem rearranges_swap {a b : Operation} (h : a.Independent b) (as bs : List Operation) :
    Rearranges (Equiv.swap as.length (as.length + 1)) (as ++ a :: b :: bs)
      (as ++ b :: a :: bs) := by
  have hfirst : ∀ op, (as ++ a :: b :: bs)[as.length]? = some op → a = op := by simp
  have hsecond : ∀ op, (as ++ a :: b :: bs)[as.length + 1]? = some op → b = op := by simp
  refine ⟨?_, ?_, ?_, ?_⟩
  · -- every directive is there, at its new place, and comes from its old one
    intro i e hi
    rw [getElem?_swap, hi]
  · intro j e hj
    refine ⟨Equiv.swap as.length (as.length + 1) j, ?_, Equiv.swap_apply_self _ _ j⟩
    rw [← hj, ← getElem?_swap as bs a b, Equiv.swap_apply_self]
  · -- of one feature and one specificity the two are not
    intro i j e f hi hj hfeature hspecificity hij
    refine (swap_lt_swap_iff ?_ (by omega)).2 hij
    rintro ⟨rfl, rfl⟩
    obtain rfl : a = .define e := hfirst _ hi
    obtain rfl : b = .define f := hsecond _ hj
    rcases h with h | h
    · exact h hfeature
    · exact h hspecificity
  · -- a directive that stands next to a declaration is not global
    intro i j e hi hglobal hj
    refine swap_lt_swap_iff ?_ ?_
    · rintro ⟨rfl, rfl⟩
      obtain rfl : a = .define e := hfirst _ hi
      obtain rfl : b = .tick := hsecond _ hj
      have hlocal : e.pattern.isGlobal = false := h
      simp [hglobal] at hlocal
    · rintro ⟨rfl, rfl⟩
      obtain rfl : a = .tick := hfirst _ hj
      obtain rfl : b = .define e := hsecond _ hi
      have hlocal : e.pattern.isGlobal = false := h
      simp [hglobal] at hlocal

/-- The operation records a global directive. Only these are compared with the positions of
variants. -/
def Operation.isGlobal : Operation → Bool
  | .define e => e.pattern.isGlobal
  | .tick => false

/-- A global entry that lasts stands where a global directive was recorded. -/
theorem exists_isGlobal_of_mem_lasting {ops : List Operation} {e : Entry}
    (h : e ∈ lasting 0 ops) (hglobal : e.pattern.isGlobal = true) :
    ∃ op, ops[e.sequence]? = some op ∧ op.isGlobal = true := by
  obtain ⟨i, f, hi, -, -, rfl⟩ := mem_lasting.1 h
  exact ⟨.define f, by simpa [Entry.placed] using hi, hglobal⟩

end Feature

/-! ## Exchanging items

Scopes take no place, so they are exchanged without any renumbering; what they change is the graph,
which does not depend on the order of its links. All other items take a place each. -/

namespace Interface

/-- Two items that can be exchanged where they are neighbours. -/
inductive Exchangeable : Item → Item → Prop
  /-- A scope, and whatever does not give its path a target name. -/
  | scope {path : ScopePath} {bases : List ScopePath} {target : Option Text} {item : Item} :
    item.targetFor path = none → Exchangeable (.scope path bases target) item
  /-- A directive that is not global, and a declaration. -/
  | rule {e : Feature.Entry} {d : Declaration} :
    e.pattern.isGlobal = false → Exchangeable (.directive e) (.declaration d)
  /-- Two directives that are never level. -/
  | rules {e f : Feature.Entry} :
    e.feature ≠ f.feature ∨ e.pattern.specificity ≠ f.pattern.specificity →
    Exchangeable (.directive e) (.directive f)
  | symm {x y : Item} : Exchangeable x y → Exchangeable y x


/-- Two directives, of which one at least is global: a variant between them may tell them apart. -/
def GlobalPair : Item → Item → Prop
  | .directive e, .directive f => e.pattern.isGlobal = true ∨ f.pattern.isGlobal = true
  | _, _ => False

/-- Which of the two comes first makes no difference. -/
theorem GlobalPair.symm {x y : Item} (h : GlobalPair x y) : GlobalPair y x := by
  cases x with
  | directive e =>
    cases y with
    | directive f => exact Or.symm h
    | scope path bases target => exact h
    | declaration d => exact h
  | scope path bases target => exact h.elim
  | declaration d => exact h.elim

/-- Two neighbours that take a place each. -/
theorem operations_pair {x y : Item} {a b : Operation} (hx : x.operation? = some a)
    (hy : y.operation? = some b) (xs ys : List Item) :
    operations (xs ++ x :: y :: ys) = operations xs ++ a :: b :: operations ys := by
  rw [operations_append]
  simp [operations, hx, hy]

/-- A directive and what comes next take two places in either order. -/
theorem registered_swap {y : Item} {b : Operation} (hy : y.operation? = some b)
    (e : Feature.Entry) (n : Nat) (ys : List Item) :
    registered n (y :: .directive e :: ys)
      = (registered n (.directive e :: y :: ys)).map
        (Declaration.moved (Equiv.swap n (n + 1))) := by
  have hrest : registered (n + 2) ys
      = (registered (n + 2) ys).map (Declaration.moved (Equiv.swap n (n + 1))) :=
    registered_moved fun i _ => Equiv.swap_apply_of_ne_of_ne (by omega) (by omega)
  cases y with
  | scope path bases target => simp [Item.operation?] at hy
  | declaration d =>
    show d.positioned (some n) :: registered (n + 2) ys
      = d.positioned (some (Equiv.swap n (n + 1) (n + 1)))
        :: (registered (n + 2) ys).map (Declaration.moved (Equiv.swap n (n + 1)))
    rw [Equiv.swap_apply_right, ← hrest]
  | directive f => exact hrest

/-- Exchanging a directive with an item that takes a place as well. -/
theorem carries_swap {e : Feature.Entry} {y : Item} {b : Operation} (hy : y.operation? = some b)
    (h : (Operation.define e).Independent b) (xs ys : List Item) :
    InterfaceDraft.Carries (Equiv.swap (operations xs).length ((operations xs).length + 1))
      (fun _ => true) (InterfaceDraft.empty.pushAll (xs ++ .directive e :: y :: ys))
      (InterfaceDraft.empty.pushAll (xs ++ y :: .directive e :: ys)) := by
  -- both exchanged places lie behind those of `xs`
  have hbefore : registered 0 xs = (registered 0 xs).map (Declaration.moved
      (Equiv.swap (operations xs).length ((operations xs).length + 1))) :=
    registered_moved fun i hi => Equiv.swap_apply_of_ne_of_ne (by omega) (by omega)
  have hlinked : linked .empty (xs ++ y :: .directive e :: ys)
      = linked .empty (xs ++ .directive e :: y :: ys) := by
    rw [linked_append, linked_append]
    rfl
  refine carries_of_rearranges ?_ ?_ ?_ ?_
  · rw [operations_pair rfl hy, operations_pair hy rfl]
    exact Feature.rearranges_swap h (operations xs) (operations ys)
  · rw [List.filter_true, List.filter_true, registered_append, registered_append, List.map_append,
      Nat.zero_add, registered_swap hy, ← hbefore]
  · intro leaf _
    rw [hlinked]
    exact .refl leaf _
  · intro s
    rw [hlinked]

/-- What is seen where a directive was exchanged with an item that takes a place as well. A global
entry that a variant is compared with may have been moved from one side of it to the other only if
the variant stands between the two, and the entry is one of them. -/
theorem view_swap {e : Entry} {y : Item} {b : Operation} (hy : y.operation? = some b)
    (h : (Operation.define e).Independent b) (xs ys : List Item) (o : Options) :
    let i := ofItems (xs ++ .directive e :: y :: ys) o
    let i' := ofItems (xs ++ y :: .directive e :: ys) o
    i'.view i'.variants = i.view i.variants
      ∧ ∀ v : Variant,
        (e.pattern.isGlobal = true ∨ b.isGlobal = true →
          v.position ≠ some ((operations xs).length + 1)) →
        i'.resolve v = i.resolve v := by
  intro i i'
  have hcarries := carries_swap hy h xs ys
  refine ⟨hcarries.view_all o, fun v hv => hcarries.resolve o rfl ?_⟩
  intro place hplace g hg hglobal
  by_cases hbetween : place = (operations xs).length + 1
  · -- neither of the two is global, so the entry is at neither place and was not moved
    subst hbetween
    have hlasting : g ∈ Feature.lasting 0 (operations (xs ++ .directive e :: y :: ys)) := by
      rw [pushAll_eq] at hg
      exact Feature.Draft.entries_run_empty _ ▸ hg
    obtain ⟨op, hop, hopglobal⟩ := Feature.exists_isGlobal_of_mem_lasting hlasting hglobal
    rw [operations_pair rfl hy] at hop
    have hfirst : g.sequence ≠ (operations xs).length := by
      intro hseq
      obtain rfl : Operation.define e = op := by simpa [hseq] using hop
      exact hv (.inl hopglobal) hplace
    have hsecond : g.sequence ≠ (operations xs).length + 1 := by
      intro hseq
      obtain rfl : b = op := by simpa [hseq] using hop
      exact hv (.inr hopglobal) hplace
    rw [Equiv.swap_apply_of_ne_of_ne hfirst hsecond]
  · exact swap_lt_iff hbetween g.sequence

/-- Exchanging a scope with an item that does not give its path a target name. Neither the
sequence nor what is registered takes note. -/
theorem carries_swap_scope {path : ScopePath} (bases : List ScopePath) (target : Option Text)
    {y : Item} (hy : y.targetFor path = none) (xs ys : List Item) :
    InterfaceDraft.Carries id (fun _ => true)
      (InterfaceDraft.empty.pushAll (xs ++ .scope path bases target :: y :: ys))
      (InterfaceDraft.empty.pushAll (xs ++ y :: .scope path bases target :: ys)) := by
  have hperm : (xs ++ .scope path bases target :: y :: ys).Perm
      (xs ++ y :: .scope path bases target :: ys) :=
    (List.Perm.swap y (.scope path bases target) ys).append_left xs
  have hops : operations (xs ++ y :: .scope path bases target :: ys)
      = operations (xs ++ .scope path bases target :: y :: ys) := by
    rw [operations_append, operations_append]
    cases y <;> rfl
  have hregistered : registered 0 (xs ++ y :: .scope path bases target :: ys)
      = registered 0 (xs ++ .scope path bases target :: y :: ys) := by
    rw [registered_append, registered_append]
    cases y <;> rfl
  have hmoved : Declaration.moved id = id := by
    funext d
    simp [Declaration.moved, Declaration.positioned]
  refine carries_of_rearranges ?_ ?_ ?_ ?_
  · rw [hops]
    exact ⟨fun _ _ hi => hi, fun j _ hj => ⟨j, hj, rfl⟩, fun _ _ _ _ _ _ _ _ hij => hij,
      fun _ _ _ _ _ _ => Iff.rfl⟩
  · rw [hregistered, hmoved, List.map_id]
  · intro leaf _
    have hsame : ∀ said : Item → Prop,
        (∃ x ∈ xs ++ .scope path bases target :: y :: ys, said x)
          ↔ ∃ x ∈ xs ++ y :: .scope path bases target :: ys, said x := by
      intro said
      simp only [hperm.mem_iff]
    exact alike_linked (fun s b => hsame (Item.Links s b)) (fun s => hsame (Item.Declares s leaf))
  · intro s
    refine targetName_linked ?_
    rw [List.filterMap_append, List.filterMap_append]
    congr 1
    -- at most one of the two gives the scope a name
    by_cases hs : path = s
    · subst hs
      simp [List.filterMap_cons, hy]
    · have hnone : (Item.scope path bases target).targetFor s = none := if_neg hs
      simp [List.filterMap_cons, hnone]

/-- **Neighbours can be exchanged.** What is seen of the emitted variants is the same in either
order, and so is what every feature comes to on any variant. The one exception is a variant whose
position is between two directives, one of which is global. -/
theorem view_exchange {x y : Item} (h : Exchangeable x y) (xs ys : List Item) (o : Options) :
    let i := ofItems (xs ++ x :: y :: ys) o
    let i' := ofItems (xs ++ y :: x :: ys) o
    i'.view i'.variants = i.view i.variants
      ∧ ∀ v : Variant, (GlobalPair x y → v.position ≠ some ((operations xs).length + 1)) →
        i'.resolve v = i.resolve v := by
  induction h with
  | @scope path bases target item hy =>
    have hcarries := carries_swap_scope bases target hy xs ys
    exact ⟨hcarries.view_all o, fun _ _ => hcarries.resolve o rfl fun _ _ _ _ _ => Iff.rfl⟩
  | @rule e d hlocal =>
    have hindependent : (Operation.define e).Independent .tick := hlocal
    obtain ⟨hview, hresolve⟩ := view_swap (y := .declaration d) rfl hindependent xs ys o
    refine ⟨hview, fun v _ => hresolve v ?_⟩
    -- neither the directive nor the declaration is global
    rintro (hglobal | hglobal)
    · simp [hlocal] at hglobal
    · simp [Operation.isGlobal] at hglobal
  | @rules e f hne =>
    have hindependent : (Operation.define e).Independent (.define f) := hne
    exact view_swap (y := .directive f) rfl hindependent xs ys o
  | symm _ ih =>
    obtain ⟨hview, hresolve⟩ := ih
    exact ⟨hview.symm, fun v hv => (hresolve v fun hpair => hv hpair.symm).symm⟩

/-- The rule that keeps `f(int = 0)` to its full form counts on either side of the
declaration, in spite of the global rule before both. -/
theorem view_exchange_compact :
    let off : Item := .directive ⟨compactFeature, .global, .disabled, none, .empty, 0⟩
    let rule : Item := .directive ⟨compactFeature, .ofName ['f'], .enabled ['1'], none, .empty, 0⟩
    let decl : Item := .declaration ⟨.function, ⟨.global, ['f']⟩,
      ⟨[⟨⟨"int".toList⟩, some ['0']⟩], by decide, by decide⟩, none, none, false, false, none⟩
    let i := ofItems [off, rule, decl] .standard
    let i' := ofItems [off, decl, rule] .standard
    Exchangeable rule decl ∧ i.variants.length = 1 ∧ i'.view i'.variants = i.view i.variants :=
  ⟨.rule rfl, by decide, (view_exchange (.rule rfl) [_] [] .standard).1⟩

end Interface

end Overlay
