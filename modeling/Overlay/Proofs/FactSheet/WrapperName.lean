/-
The names of wrappers.

A wrapper is named by what wrappers start with, the scopes, the symbol and the suffix of an
overload. Two things are asked of the names.

They should tell wrappers apart. Under one scope and one symbol only the suffix can do that: what
stands in front of it is the same for both, and a suffix ends in the digits of the number. Numbers
are given by scope and leaf name, so variants that share these have different ones, and with
them different names, whatever the names of overloads start with (`overloads_told_apart`).

And they should be identifiers. All parts of a name are, or are made so, but for one: the scopes
around the innermost one are mangled, while that one goes by its target name, which for a scope
that was given none is its last segment as it stands. So a scope such as `Box<int>` needs a target
name (`isIdentText_wrapperName_iff`).
-/
import Overlay.Interface
import Overlay.Proofs.Checked.Overload
import Overlay.Proofs.Text.Words
import Overlay.Proofs.Variant.Numbering

set_option autoImplicit false

namespace Overlay

variable {v w : Variant} {g : ScopeGraph} {o : Options}

/-! ## Different numbers, different names

The number of an overload is written in digits, and they are the last thing in a name. What is in
front of them is made of scope, symbol and options, which two overloads share. -/

namespace Variant

/-- The digits tell the number. -/
theorem toDigits_injective {m n : Nat} (h : Nat.toDigits 10 m = Nat.toDigits 10 n) : m = n := by
  calc
    m = Nat.ofDigitChars 10 (Nat.toDigits 10 m) 0 := Nat.ofDigitChars_ten_toDigits.symm
    _ = Nat.ofDigitChars 10 (Nat.toDigits 10 n) 0 := by rw [h]
    _ = n := Nat.ofDigitChars_ten_toDigits

/-- Scope and symbol are all that stands in front of the suffix. -/
theorem scopedSymbol_congr (hscope : v.scope = w.scope) (hsymbol : v.decl.symbol = w.decl.symbol)
    (g : ScopeGraph) : v.scopedSymbol g = w.scopedSymbol g := by
  rw [scopedSymbol, scopedSymbol, hscope, hsymbol]

/-- Under one scope and one symbol, variants of different numbers have different wrappers. -/
theorem wrapperName_ne {m n : Nat} (hscope : v.scope = w.scope)
    (hsymbol : v.decl.symbol = w.decl.symbol) (hv : v.overload = some m)
    (hw : w.overload = some n) (hne : m ≠ n) (g : ScopeGraph) (o : Options) :
    v.wrapperName g o ≠ w.wrapperName g o := by
  intro heq
  rw [wrapperName, wrapperName, scopedSymbol_congr hscope hsymbol, List.append_cancel_left_eq,
    overloadSuffix, overloadSuffix, hv, hw] at heq
  -- the same is in front of the digits, so they are the same
  exact hne (toDigits_injective (List.append_cancel_left heq))

end Variant

namespace Interface

open Variant (inGroup numberOverloads unnumbered)
open Checked (groups numberGroup)

/-- **Overloads are numbered, and told apart.** Numbering counts the members of each group up
from zero, in the order of the list, and gives a variant that is alone none; it leaves alone
whatever is not the number of a callable; visiting the groups in any order does the same; and
doing it again changes nothing. So in an interface two callables of one scope, leaf name and
symbol have wrappers of different names. -/
theorem overloads_told_apart (vs : List Variant) (d : InterfaceDraft) (o : Options) :
    (∀ key, ((numberOverloads vs).filter (inGroup key)).map Variant.overload
        = if vs.countP (inGroup key) = 1 then [none]
          else (List.range (vs.countP (inGroup key))).map some)
      ∧ (numberOverloads vs).map unnumbered = vs.map unnumbered
      ∧ (∀ (i : Nat) (v : Variant), vs[i]? = some v → v.kind.isCallable = false →
          (numberOverloads vs)[i]? = some v)
      ∧ (∀ order : List (List Nat), order.Perm ((groups vs).entries.map Prod.snd) →
          (order.foldlM numberGroup vs : Checked Empty _) = .ok (numberOverloads vs))
      ∧ numberOverloads (numberOverloads vs) = numberOverloads vs
      ∧ (d.finish o).variants.Pairwise fun v w =>
          v.kind.isCallable = true → w.kind.isCallable = true → v.scope = w.scope →
          v.leaf = w.leaf → v.decl.symbol = w.decl.symbol →
          ((d.finish o).resolver.facts v).get .wrapname
            ≠ ((d.finish o).resolver.facts w).get .wrapname := by
  refine ⟨fun key => Variant.overloads_of_group key vs,
    Variant.map_numberOverloads (fun _ => rfl) vs,
    fun i v => Variant.getElem?_numberOverloads_of_not_callable,
    fun order => Checked.numberGroups_eq, Variant.numberOverloads_numberOverloads vs, ?_⟩
  have hnumbers : (d.finish o).variants.Pairwise _ := Variant.pairwise_overload _
  refine hnumbers.imp ?_
  intro v w hnumber hv hw hscope hleaf hsymbol
  obtain ⟨m, n, hm, hn, hlt⟩ := hnumber hv hw hscope hleaf
  exact Variant.wrapperName_ne hscope hsymbol hm hn (Nat.ne_of_lt hlt) _ o

/-- Two functions `f`, with a variable and a lone function between them, all numbered before; and
an interface of the two functions. -/
theorem overloads_told_apart_twoFunctions :
    let f : Variant := ⟨.named .function ⟨.global, ['f']⟩, 0, some 7⟩
    let x : Variant := ⟨.named .freeVariable ⟨.global, ['x']⟩, 0, some 4⟩
    let g : Variant := ⟨.named .function ⟨.global, ['g']⟩, 0, some 2⟩
    let vs := [f, x, g, f]
    let d := InterfaceDraft.empty.pushAll [.declaration f.decl, .declaration f.decl]
    let i := d.finish .standard
    let v : Variant := ⟨{ f.decl with position := some 0 }, 0, some 0⟩
    let w : Variant := ⟨{ f.decl with position := some 1 }, 0, some 1⟩
    x.kind.isCallable = false ∧ (numberOverloads vs)[1]? = some x
      ∧ [[2], [0, 3]].Perm ((groups vs).entries.map Prod.snd)
      ∧ ([[2], [0, 3]].foldlM numberGroup vs : Checked Empty _) = .ok (numberOverloads vs)
      ∧ i.variants = [v, w]
      ∧ (i.resolver.facts v).get .wrapname ≠ (i.resolver.facts w).get .wrapname := by
  intro f x g vs d i v w
  have horder : [[2], [0, 3]].Perm ((groups vs).entries.map Prod.snd) := by decide
  have hvariants : i.variants = [v, w] := by decide
  obtain ⟨-, -, hkept, hgroups, -, hnames⟩ := overloads_told_apart vs d .standard
  have hpair : [v, w].Pairwise _ := hvariants ▸ hnames
  exact ⟨rfl, hkept 1 x rfl rfl, horder, hgroups _ horder, hvariants,
    List.pairwise_pair.1 hpair rfl rfl rfl rfl rfl⟩

end Interface

/-! ## Identifiers

A name is an identifier if all its characters can stand in one: it starts with what wrappers start
with, so it is not asked here how it starts. Each part is looked at by itself. -/

namespace Text

/-- A text of characters that an identifier can hold. -/
def IsIdentText (t : Text) : Prop := ∀ c ∈ t, isIdentChar c = true

-- by the characters of the text, and not by all characters that there are
instance (t : Text) : Decidable (IsIdentText t) :=
  decidable_of_iff (t.all isIdentChar = true) List.all_eq_true

theorem isIdentText_nil : IsIdentText [] := List.forall_mem_nil _

/-- A text can be put together from such parts. -/
theorem isIdentText_append {t u : Text} :
    IsIdentText (t ++ u) ↔ IsIdentText t ∧ IsIdentText u :=
  List.forall_mem_append

/-- Digits can stand in an identifier. -/
theorem isIdentText_toDigits (n : Nat) : IsIdentText (Nat.toDigits 10 n) := by
  intro c hc
  have hdigit : c.isDigit = true := Nat.isDigit_of_mem_toDigits (by decide) (by decide) hc
  rw [isIdentChar, hdigit, Bool.or_true]

end Text

open Text (IsIdentText)

/-- Mangling leaves nothing in a scope that could not stand in one. -/
theorem ScopePath.isIdentText_mangled (p : ScopePath) : IsIdentText p.mangled := by
  have hjoint : IsIdentText ['_'] := by decide
  refine Text.forall_mem_intercalate hjoint ?_
  intro s hs
  obtain ⟨segment, -, rfl⟩ := List.mem_map.1 hs
  exact List.all_eq_true.1 (all_mangleSegment segment)

namespace Variant

/-- The suffix of an overload is a lead that the options give, and digits. -/
theorem isIdentText_overloadSuffix (h : IsIdentText o.overloadLead) (v : Variant) :
    IsIdentText (v.overloadSuffix o) := by
  rw [overloadSuffix]
  cases v.overload with
  | none => exact Text.isIdentText_nil
  | some n => exact Text.isIdentText_append.2 ⟨h, Text.isIdentText_toDigits n⟩

/-- Of the scopes, only the target name of the innermost can keep a name from being an
identifier. -/
theorem isIdentText_scopedSymbol_iff (hsymbol : IsIdentText v.decl.symbol) (g : ScopeGraph) :
    IsIdentText (v.scopedSymbol g)
      ↔ v.scope.isGlobal = true ∨ IsIdentText (g.targetName v.scope) := by
  have hjoint : IsIdentText "_".toList := by decide
  rw [scopedSymbol, ScopePath.parent?]
  by_cases hglobal : v.scope.isGlobal = true
  · rw [if_pos hglobal]
    simp [hglobal, hsymbol]
  · rw [if_neg hglobal]
    have houter : IsIdentText (if (⟨v.scope.segments.dropLast⟩ : ScopePath).isGlobal then []
        else (⟨v.scope.segments.dropLast⟩ : ScopePath).mangled ++ "_".toList) := by
      split
      · exact Text.isIdentText_nil
      · exact Text.isIdentText_append.2 ⟨ScopePath.isIdentText_mangled _, hjoint⟩
    simp only [Text.isIdentText_append, houter, hjoint, hsymbol, hglobal, true_and, and_true,
      Bool.false_eq_true, false_or]

end Variant

namespace FactSheet

/-- **When the name of a wrapper is an identifier.** Where all names that were given are, it is
one if the innermost scope was given a name, or can itself stand in an identifier. -/
theorem isIdentText_wrapperName_iff (hsymbol : IsIdentText v.decl.symbol)
    (hnames : ∀ s target, (g.node s).targetName = some target → IsIdentText target)
    (hwrapper : IsIdentText o.wrapperLead) (hoverload : IsIdentText o.overloadLead) :
    IsIdentText (ofVariant v g o).wrapperName
      ↔ (g.node v.scope).targetName.isSome = true
        ∨ ∀ innermost, v.scope.last? = some innermost → IsIdentText innermost := by
  show IsIdentText (o.wrapperLead ++ v.scopedSymbol g ++ v.overloadSuffix o) ↔ _
  have hsuffix := Variant.isIdentText_overloadSuffix hoverload v
  rw [Text.isIdentText_append, Text.isIdentText_append,
    Variant.isIdentText_scopedSymbol_iff hsymbol, and_iff_left hsuffix, and_iff_right hwrapper,
    ScopeGraph.targetName]
  cases hgiven : (g.node v.scope).targetName with
  | some target => simp [hnames v.scope target hgiven]
  | none =>
    rw [ScopePath.isGlobal, ScopePath.last?, List.isEmpty_iff]
    cases hlast : v.scope.segments.getLast? with
    | none => simp [List.getLast?_eq_none_iff.1 hlast]
    | some innermost =>
      have hne : v.scope.segments ≠ [] := by
        intro hnil
        rw [hnil] at hlast
        simp at hlast
      simp [hne]

/-! The method `get` of a scope with template arguments inside another one, with and without a
target name for the inner scope. -/

def boxGet : Variant :=
  ⟨.named .method ⟨⟨["Box<int>".toList, "Inner<T *>".toList]⟩, "get".toList⟩, 0, some 3⟩

/-- With a target name for the inner scope the name of the wrapper is an identifier. -/
theorem isIdentText_wrapperName_renamed :
    let g := ScopeGraph.empty.renameScope boxGet.scope "Inner".toList
    IsIdentText boxGet.decl.symbol
      ∧ (∀ s target, (g.node s).targetName = some target → IsIdentText target)
      ∧ IsIdentText Options.standard.wrapperLead ∧ IsIdentText Options.standard.overloadLead
      ∧ (ofVariant boxGet g .standard).wrapperName
        = "_wrap_Box_int__Inner_get__SWIG_3".toList
      ∧ IsIdentText (ofVariant boxGet g .standard).wrapperName := by
  intro g
  have hnames : ∀ s target, (g.node s).targetName = some target → IsIdentText target := by
    intro s target htarget
    rw [ScopeGraph.givenName_renameScope] at htarget
    split at htarget
    · obtain rfl := Option.some.inj htarget
      decide
    · exact nomatch htarget
  have hsymbol : IsIdentText boxGet.decl.symbol := by decide
  have hwrapper : IsIdentText Options.standard.wrapperLead := by decide
  have hoverload : IsIdentText Options.standard.overloadLead := by decide
  exact ⟨hsymbol, hnames, hwrapper, hoverload, by decide,
    (isIdentText_wrapperName_iff hsymbol hnames hwrapper hoverload).2 (.inl (by decide))⟩

/-- **The innermost scope is not mangled.** Where nothing was given a name, template arguments
of that scope get into the name of the wrapper. -/
theorem wrapperName_boxGet :
    IsIdentText boxGet.decl.symbol
      ∧ (∀ s target, (ScopeGraph.empty.node s).targetName = some target → IsIdentText target)
      ∧ IsIdentText Options.standard.wrapperLead ∧ IsIdentText Options.standard.overloadLead
      ∧ (ofVariant boxGet .empty .standard).wrapperName
        = "_wrap_Box_int__Inner<T *>_get__SWIG_3".toList
      ∧ ¬ IsIdentText (ofVariant boxGet .empty .standard).wrapperName := by
  have hnames : ∀ s target,
      (ScopeGraph.empty.node s).targetName = some target → IsIdentText target := by
    intro s target htarget
    exact nomatch htarget
  exact ⟨by decide, hnames, by decide, by decide, by decide, by decide⟩

end FactSheet

end Overlay
