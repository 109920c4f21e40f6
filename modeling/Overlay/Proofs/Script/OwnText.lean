/-
Directives that are written with the text of a declaration.

A declaration of a callable and a pattern with a signature are read by two readers, from much the
same text: a name, a parameter list and perhaps `const`. The readers find the list at the same
place (`split_of_readDeclaration`, `split_trim_ownText`), and read the same parameters from it. They
differ in one thing. In a pattern `::` in front of a name is the global scope and `*::` is any
scope, and what follows is the leaf alone; a declaration knows no such marks and reads them as part
of the scopes. So the text of a declaration is a pattern that matches all of its variants, exactly
if its name starts with neither mark or has nothing but the leaf behind it (`ownText_matches_iff`).

The proof has three parts. From the declaration that was read, the first gets back the text that it
was read from, up to the end of its list. What stands behind the list can be anything a declaration
allows there, a result type or a target name, and the pattern does not have it. The second says of
the pattern which variants it matches, once it is read: its signature agrees with all of them,
with and without defaults, so only leaf and scope are left to ask for. The third compares the two
readings of the name.
-/
import Overlay.Pattern.Matching
import Overlay.Proofs.Pattern.Reader
import Overlay.Proofs.Script.Phrases

set_option autoImplicit false

namespace Overlay

namespace Script

open Pattern (ownText)
open Text (IsGap isBlank trim trimStart words)

variable {name params tail : Text} {kind : DeclKind} {isInherited : Bool} {d : Declaration}

/-! ## The parameter list of a declaration

The reader of declarations cuts its text down before it looks for the list: a target name goes off
at the end, and a type behind an arrow. Neither reaches into the list, since both would have to hold
its parenthesis. That the name comes out as written tells a list from an arrow: an arrow in the name
would be missing from it. -/

/-- A target name does not reach into the parameter list. -/
theorem exists_head_of_splitTargetName (front tail : Text) :
    ∃ rest, (splitTargetName (front ++ ')' :: tail)).1 = front ++ ')' :: rest := by
  cases hsplit : splitTargetName (front ++ ')' :: tail) with
  | mk head target => ?_
  cases target with
  | none => exact ⟨tail, eq_of_splitTargetName hsplit⟩
  | some target =>
    obtain ⟨htarget, -, u, htext, -, hwords⟩ := exists_of_splitTargetName hsplit
    have hparen : ')' ∉ u := by
      intro hmem
      obtain ⟨w, hw, hmem⟩ := Text.exists_mem_words rfl hmem
      rw [hwords] at hw
      rcases List.mem_pair.1 hw with rfl | rfl
      · simp at hmem
      · have hident := Text.isIdentChar_of_mem htarget hmem
        exact absurd hident (by decide)
    rcases List.append_eq_append_iff.1 htext with ⟨s, rfl, hs⟩ | ⟨s, rfl, rfl⟩
    · cases s with
      | nil =>
        rw [List.nil_append] at hs
        simp [← hs] at hparen
      | cons c s =>
        obtain ⟨rfl, -⟩ := List.cons.inj hs
        exact ⟨s, rfl⟩
    · simp at hparen

/-- A callable that is read with the name in front of a list is read with that list. -/
theorem split_of_readCallable {rest : Text} {written : Written}
    (h : readCallable (name ++ '(' :: rest) = .ok written)
    (hname : QualifiedName.parse written.name = QualifiedName.parse name) :
    ∃ list more, AppliedName.split (name ++ '(' :: rest) = .applied name list more
      ∧ written.params = some list := by
  have hparen := QualifiedName.count_eq_of_parse_eq (c := '(') rfl (by decide) hname
  unfold readCallable at h
  cases hsplit : AppliedName.split (name ++ '(' :: rest) with
  | unclosed => simp [hsplit] at h
  | applied n list more =>
    rw [hsplit] at h
    obtain ⟨hn, hlist⟩ := eq_of_readTail h
    have htext := (AppliedName.eq_of_split hsplit).1
    rw [hn, Text.count_trim rfl] at hparen
    obtain ⟨rfl, -⟩ := Text.append_cons_inj_of_count htext hparen.symm
    exact ⟨list, more, rfl, hlist⟩
  | bare =>
    -- a name that is read without a list would hold the parenthesis, or an arrow less
    rw [hsplit] at h
    simp only at h
    cases harrow : Text.breakOn "->".toList (name ++ '(' :: rest) with
    | none =>
      rw [harrow] at h
      rw [(eq_of_readTail h).1, Text.count_trim rfl] at hparen
      simp at hparen
    | some parts =>
      obtain ⟨n, type⟩ := parts
      rw [harrow] at h
      have hn := (eq_of_readTail h).1
      have hminus := QualifiedName.count_eq_of_parse_eq (c := '-') rfl (by decide) hname
      rw [hn, Text.count_trim rfl] at hparen hminus
      rcases List.append_eq_append_iff.1 (Text.eq_of_breakOn harrow)
        with ⟨s, rfl, hs⟩ | ⟨s, rfl, hs⟩
      · cases s with
        | nil => simp at hs
        | cons c s =>
          obtain ⟨rfl, -⟩ := List.cons.inj hs
          simp at hparen
      · cases s with
        | nil => simp at hs
        | cons c s =>
          have hc : c = '-' := by simpa using (congrArg List.head? hs).symm
          rw [hc] at hminus
          simp at hminus

/-- The reader of declarations finds the list that was written. -/
theorem split_of_readDeclaration
    (h : readDeclaration kind isInherited (trim (name ++ '(' :: (params ++ ')' :: tail))) = .ok d)
    (hcallable : kind.isCallable = true) (hname : d.name = QualifiedName.parse name)
    (hparams : Text.Balanced params) :
    d.kind = kind ∧ Parameter.readList params = .ok d.params.items
      ∧ ∃ rest, AppliedName.split (trimStart name ++ '(' :: (params ++ ')' :: rest))
          = .applied (trimStart name) params rest := by
  have htext : trim (name ++ '(' :: (params ++ ')' :: tail))
      = (trimStart name ++ '(' :: params) ++ ')' :: Text.trimEnd tail := by
    have hparen : isBlank ')' = false := rfl
    have hsplit : name ++ '(' :: (params ++ ')' :: tail)
        = (name ++ '(' :: params) ++ ')' :: tail := by
      simp
    rw [hsplit, Text.trim_append_cons hparen, Text.trimStart_append_cons rfl]
  have hstart : QualifiedName.parse name = QualifiedName.parse (trimStart name) := by
    have hgap : IsGap (name.takeWhile isBlank) :=
      fun c hc => List.all_eq_true.1 List.all_takeWhile c hc
    rw [← QualifiedName.parse_trim name, ← QualifiedName.parse_trim (trimStart name),
      ← Text.trim_gap_append hgap (trimStart name), Text.takeWhile_append_trimStart]
  obtain ⟨-, written, hwritten, -, hdeclare⟩ := readDeclaration_eq_ok_iff.1 h
  obtain ⟨ps, hlist, -, hd⟩ := declare_eq_ok_iff.1 hdeclare
  rw [hd] at hname ⊢
  obtain ⟨rest, hhead⟩ :=
    exists_head_of_splitTargetName (trimStart name ++ '(' :: params) (Text.trimEnd tail)
  have hjoin : (trimStart name ++ '(' :: params) ++ ')' :: rest
      = trimStart name ++ '(' :: (params ++ ')' :: rest) := by
    simp
  rw [if_pos hcallable, htext, hhead, hjoin] at hwritten
  obtain ⟨list, more, hsplit, hparams'⟩ := split_of_readCallable hwritten (hname.trans hstart)
  -- both lists are balanced up to the parenthesis that closes them, so they are the same
  have hsame := (List.cons.inj (List.append_cancel_left (AppliedName.eq_of_split hsplit).1)).2
  obtain ⟨rfl, rfl⟩ :=
    Text.Balanced.append_cons_inj hparams (AppliedName.eq_of_split hsplit).2 hsame
  exact ⟨rfl, hlist params hparams', rest, hsplit⟩

/-! ## The variants that a pattern matches

The limit and the leaf are left open here, as nothing is known of them but that they were read. -/

/-- The signature of a declaration agrees with all of its variants. -/
theorem agrees_of_mem_variants {d : Declaration} (hcallable : d.kind.isCallable = true)
    {v : Variant} (hv : v ∈ d.variants .expand) :
    v.decl = d ∧ Signature.agrees ⟨d.params, d.isConst⟩ v = true := by
  obtain ⟨n, hn, rfl⟩ := List.mem_map.1 hv
  refine ⟨rfl, ?_⟩
  have hkind : (Variant.ofArity d n).kind = d.kind := rfl
  have hconst : (Variant.ofArity d n).decl.isConst = d.isConst := rfl
  have hparams : (Variant.ofArity d n).decl.params = d.params := rfl
  rw [Signature.agrees, hkind, hcallable, hconst, hparams]
  by_cases hdefaults : d.params.hasDefaults = true
  · simp [hdefaults]
  · rw [Bool.not_eq_true] at hdefaults
    rw [Declaration.arities, if_pos (.inr hdefaults), List.mem_singleton] at hn
    have htypes : (Variant.ofArity d n).types = d.params.types := by
      rw [hn]
      simp [Variant.types, Variant.signature, Variant.ofArity, Declaration.arity,
        ParameterList.types]
    simp [hdefaults, htypes]

/-- A declaration has at least the variant with all of its parameters. -/
theorem variants_ne_nil (d : Declaration) : d.variants .expand ≠ [] := by
  have hbound : d.params.required ≤ d.arity := d.params.required_le
  rw [Declaration.variants, Declaration.arities]
  split
  · simp
  · simp
    omega

/-- A name with the signature of a declaration matches all of its variants if it is the leaf, and
the limit of the scope lets them through. -/
theorem exists_match_iff {d : Declaration} (hcallable : d.kind.isCallable = true)
    (hleaf : Pattern.isLeaf d.leaf = true) {limit : ScopeLimit} {leaf : Text} :
    (∃ p, (if Pattern.isLeaf leaf then
          .ok (.named limit leaf (some ⟨d.params, d.isConst⟩))
        else .error (.leaf leaf) : Except Pattern.Fault Pattern) = .ok p
        ∧ ∀ g, ∀ v ∈ d.variants .expand, p.depth? v g = some 0)
      ↔ leaf = d.leaf ∧ ∀ g, ∀ v ∈ d.variants .expand, limit.depth? leaf v g = some 0 := by
  have hdepth : ∀ g, ∀ v ∈ d.variants .expand,
      (Pattern.named limit leaf (some ⟨d.params, d.isConst⟩)).depth? v g
        = if leaf = d.leaf then limit.depth? leaf v g else none := by
    intro g v hv
    obtain ⟨hdecl, hagrees⟩ := agrees_of_mem_variants hcallable hv
    have hv : v.leaf = d.leaf := congrArg Declaration.leaf hdecl
    rw [Pattern.depth?, hv]
    simp [hagrees]
  constructor
  · rintro ⟨p, hp, hmatch⟩
    by_cases hl : Pattern.isLeaf leaf = true
    · rw [if_pos hl] at hp
      rw [← Except.ok.inj hp] at hmatch
      obtain ⟨v, hv⟩ := List.exists_mem_of_ne_nil _ (variants_ne_nil d)
      -- there is always a variant, and it has the leaf of the declaration
      have hsame : leaf = d.leaf := by
        by_contra hother
        have hzero := hmatch .empty v hv
        rw [hdepth _ v hv, if_neg hother] at hzero
        simp at hzero
      refine ⟨hsame, fun g v hv => ?_⟩
      rw [← hmatch g v hv, hdepth g v hv, if_pos hsame]
    · rw [if_neg hl] at hp
      simp at hp
  · rintro ⟨rfl, hlimit⟩
    refine ⟨_, if_pos hleaf, fun g v hv => ?_⟩
    rw [hdepth g v hv, if_pos rfl, hlimit g v hv]

/-! ## The name in both readings -/

/-- The name of a declaration is a pattern for it, unless it starts with a mark that leaves more
than the leaf behind it. -/
theorem readName_iff {d : Declaration} (hname : d.name = QualifiedName.parse name)
    (hscope : ∀ v ∈ d.variants .expand, v.scope = d.name.scope) :
    ((Pattern.readName (trim name)).2 = d.leaf
        ∧ ∀ g, ∀ v ∈ d.variants .expand,
            (Pattern.readName (trim name)).1.depth? (Pattern.readName (trim name)).2 v g = some 0)
      ↔ ∀ mark ∈ ["*::".toList, "::".toList], ∀ rest, trim name = mark ++ rest →
          trim rest = d.leaf := by
  have hown : ∀ g, ∀ v ∈ d.variants .expand, ∀ leaf,
      (ScopeLimit.exact d.name.scope).depth? leaf v g = some 0 := by
    intro g v hv leaf
    rw [ScopeLimit.depth?, if_pos (hscope v hv).symm]
  rw [Pattern.forall_mark_iff, Pattern.readName]
  cases hwildcard : Text.dropPiece "*::".toList (trim name) with
  | some rest =>
    -- any scope is allowed behind `*::`, so only the leaf decides
    have hglobal : Text.dropPiece "::".toList (trim name) = none := by
      rw [Text.dropPiece_eq_some_iff.1 hwildcard]
      rfl
    rw [hglobal]
    simp only [Option.some.injEq, forall_eq', reduceCtorEq, false_implies, implies_true, and_true]
    exact and_iff_left fun g v hv => rfl
  | none =>
    cases hglobal : Text.dropPiece "::".toList (trim name) with
    | some rest =>
      simp only [Option.some.injEq, forall_eq', reduceCtorEq, false_implies, implies_true, true_and]
      refine and_iff_left_of_imp fun hsame g v hv => ?_
      have hleaf : trim rest = (QualifiedName.parse name).leaf :=
        hsame.trans (congrArg QualifiedName.leaf hname)
      have hdepth := hown g v hv (trim rest)
      rwa [hname, Pattern.scope_of_trim_eq (Text.dropPiece_eq_some_iff.1 hglobal) hleaf] at hdepth
    | none =>
      -- without a mark the name is read as it was in the statement
      have hparse : QualifiedName.parse (trim name) = d.name := by
        rw [QualifiedName.parse_trim, hname]
      simp only [hparse, reduceCtorEq, false_implies, implies_true, and_true, iff_true]
      refine ⟨rfl, fun g v hv => ?_⟩
      by_cases hunscoped : d.name.scope.isGlobal = true
      · rw [if_pos hunscoped]
        rfl
      · rw [if_neg hunscoped]
        exact hown g v hv _

/-! ## The pattern with the same text -/

/-- When a directive that is written with the text of a declaration matches all of its variants. -/
theorem ownText_matches_iff {front : Text} (hfront : IsFront isInherited kind front)
    (hread : readStatement (front ++ (name ++ '(' :: (params ++ ')' :: tail)))
      = .ok (.declaration d))
    (hcallable : kind.isCallable = true) (hname : d.name = QualifiedName.parse name)
    (hparams : Text.Balanced params) (hleaf : Pattern.isLeaf d.leaf = true) :
    (∃ p, Pattern.parse (ownText name params d.isConst) = .ok p
        ∧ ∀ g, ∀ v ∈ d.variants .expand, p.depth? v g = some 0)
      ↔ ∀ mark ∈ ["*::".toList, "::".toList], ∀ rest, trim name = mark ++ rest →
          trim rest = d.leaf := by
  rw [readStatement_front hfront] at hread
  obtain ⟨d', hd, hitem⟩ := map_eq_ok_iff.1 hread
  obtain rfl := Item.declaration.inj hitem
  obtain ⟨hkind, hlist, rest, hsplit⟩ := split_of_readDeclaration hd hcallable hname hparams
  have htrim : trim (trimStart name) = trim name := by
    have hgap : IsGap (name.takeWhile isBlank) :=
      fun c hc => List.all_eq_true.1 List.all_takeWhile c hc
    rw [← Text.trim_gap_append hgap (trimStart name), Text.takeWhile_append_trimStart]
  have hscope : ∀ v ∈ d'.variants .expand, v.scope = d'.name.scope := by
    intro v hv
    have hdecl := (agrees_of_mem_variants (hkind ▸ hcallable) hv).1
    exact congrArg Declaration.scope hdecl
  rw [← readName_iff hname hscope, Pattern.parse_ownText d'.isConst hsplit hlist, Pattern.ofParts,
    htrim]
  simp only [mapError_eq_ok_iff]
  exact exists_match_iff (hkind ▸ hcallable) hleaf

/-! A static method with a default, whose text is a pattern for it, and a function whose name is
written with `::` in front, whose text is no pattern at all. -/

def createMethod : Declaration :=
  ⟨.staticMethod, ⟨⟨["ns".toList, "A".toList]⟩, "create".toList⟩,
    ⟨[⟨⟨"int".toList⟩, none⟩, ⟨⟨"double".toList⟩, some "(1, 2)".toList⟩], by decide, by decide⟩,
    some ⟨"int".toList⟩, some "make".toList, false, true, none⟩

theorem ownText_matches_createMethod :
    let name := "ns::A::create".toList
    let params := "int n, double x = (1, 2)".toList
    readStatement ("inherited static ".toList
        ++ (name ++ '(' :: (params ++ ')' :: " -> int as make".toList)))
        = .ok (.declaration createMethod)
      ∧ ∃ p, Pattern.parse (ownText name params createMethod.isConst) = .ok p
        ∧ ∀ g, ∀ v ∈ createMethod.variants .expand, p.depth? v g = some 0 := by
  intro name params
  have hfront : IsFront true .staticMethod "inherited static ".toList := ⟨by decide, ' ', rfl, rfl⟩
  have hread : readStatement ("inherited static ".toList
      ++ (name ++ '(' :: (params ++ ')' :: " -> int as make".toList)))
      = .ok (.declaration createMethod) := by
    decide +kernel
  have hclosing : Text.closing '(' ')' 0 (params ++ [')']) = some (params, []) := rfl
  have hbalanced := (Text.closing_eq_some_iff_balanced.1 hclosing).2
  have hnone : ∀ mark ∈ ["*::".toList, "::".toList], Text.dropPiece mark (trim name) = none := by
    decide
  refine ⟨hread, (ownText_matches_iff hfront hread rfl (by decide +kernel) hbalanced
    (by decide)).2 ?_⟩
  intro mark hmark rest htext
  have hdrop := Text.dropPiece_eq_some_iff.2 htext
  rw [hnone mark hmark] at hdrop
  simp at hdrop

def nsFunction : Declaration :=
  ⟨.function, ⟨⟨["ns".toList]⟩, "f".toList⟩, ⟨[⟨⟨"int".toList⟩, none⟩], by decide, by decide⟩,
    none, none, false, false, none⟩

theorem ownText_of_nsFunction :
    readStatement ("function ".toList ++ ownText "::ns::f".toList "int".toList nsFunction.isConst)
        = .ok (.declaration nsFunction)
      ∧ nsFunction.name = QualifiedName.parse "::ns::f".toList
      ∧ Pattern.isLeaf nsFunction.leaf = true
      ∧ ∀ p, Pattern.parse (ownText "::ns::f".toList "int".toList nsFunction.isConst) ≠ .ok p := by
  have hparse : Pattern.parse (ownText "::ns::f".toList "int".toList nsFunction.isConst)
      = .error ⟨"::ns::f(int)".toList, .leaf "ns::f".toList⟩ := by
    decide +kernel
  refine ⟨by decide +kernel, by decide +kernel, by decide, fun p hp => ?_⟩
  rw [hparse] at hp
  simp at hp

end Script

end Overlay
