/-
The reader of patterns.

The reader goes from the outside in: it finds the parameter list, if there is one, takes the name in
front of it apart, and reads list and `const` as a signature. Each of these steps is a function that
may refuse its text, and for each there is one lemma here that says when it does not, and what it
then yields. They end in `parse_eq_ok_iff`, which tells a pattern with a name by its parts and has
no case for an error left in it. Whoever reads a displayed pattern again, or a pattern with the text
of a declaration, takes the reading apart by these lemmas.

A name is the part with a rule of its own. Behind `*::` or `::` it is the leaf and nothing more,
whatever the leaf looks like, and otherwise it is a qualified name like any other. So what is read
depends on the first characters alone (`cases_of_readName`), and a leaf that is valid has neither
mark in front (`dropPiece_leaf`).

The last part is about texts that are put together from a name, a list and perhaps `const`
(`ownText`). They come up twice, as the displayed form of a pattern with a signature and as the text
that a pattern shares with a declaration. In both uses the list was found in some text with this
name in front of it, and is to be found in this one (`split_trim_ownText`).
-/
import Overlay.Pattern.Reader
import Overlay.Proofs.Name.Operator
import Overlay.Proofs.Name.Segments
import Overlay.Proofs.Parameter.Building

set_option autoImplicit false

namespace Overlay.Pattern

open Text (isBlank trim trimStart)

variable {t leaf name params : Text} {limit : ScopeLimit} {signature : Option Signature}

/-! ## Leaves

The reader asks of a leaf that it is an identifier, perhaps with `~` in front, or an operator. All
that later proofs need of it is its first character. -/

/-- A leaf starts with a letter, or with the `~` of a destructor: an operator starts with the letter
of its keyword. -/
theorem exists_head_of_isLeaf (h : isLeaf leaf = true) :
    ∃ c r, leaf = c :: r ∧ (c = '~' ∨ Text.isLetter c = true) := by
  have hident : ∀ {t : Text}, isPlainLeaf t = true →
      ∃ c r, t = c :: r ∧ Text.isLetter c = true := by
    intro t ht
    cases t with
    | nil => simp [isPlainLeaf, Text.cutIdentifier] at ht
    | cons c r =>
      refine ⟨c, r, rfl, ?_⟩
      by_contra hc
      simp [isPlainLeaf, Text.cutIdentifier, hc] at ht
  rw [isLeaf, Bool.or_eq_true] at h
  rcases h with h | h
  · cases hdrop : Text.dropPiece ['~'] leaf with
    | some r => exact ⟨'~', r, Text.dropPiece_eq_some_iff.1 hdrop, .inl rfl⟩
    | none =>
      rw [hdrop] at h
      obtain ⟨c, r, hleaf, hc⟩ := hident h
      exact ⟨c, r, hleaf, .inr hc⟩
  · unfold isOperatorLeaf at h
    cases hdrop : Text.dropPiece AppliedName.keyword leaf with
    | none => simp [hdrop] at h
    | some r => exact ⟨'o', _, Text.dropPiece_eq_some_iff.1 hdrop, .inr (by decide)⟩

/-- A leaf starts with none of the marks of a scope. -/
theorem dropPiece_leaf (h : isLeaf leaf = true) :
    Text.dropPiece "*::".toList leaf = none ∧ Text.dropPiece "::".toList leaf = none := by
  obtain ⟨c, r, rfl, hc⟩ := exists_head_of_isLeaf h
  have hstar : c ≠ '*' := by
    rintro rfl
    exact absurd hc (by decide)
  have hcolon : c ≠ ':' := by
    rintro rfl
    exact absurd hc (by decide)
  exact ⟨by simp [Text.dropPiece, Ne.symm hstar], by simp [Text.dropPiece, Ne.symm hcolon]⟩

/-- A leaf is not empty. -/
theorem ne_nil_of_isLeaf (h : isLeaf leaf = true) : leaf ≠ [] := by
  obtain ⟨c, r, rfl, -⟩ := exists_head_of_isLeaf h
  exact List.cons_ne_nil c r

/-! ## Names

Two marks can stand in front of a name. No text starts with both, so they can be looked for in
either order. -/

/-- What is read of a name: behind a mark the leaf alone, otherwise a scope and a leaf. -/
theorem cases_of_readName (h : readName t = (limit, leaf)) :
    (∃ rest, t = "*::".toList ++ rest ∧ limit = .wildcard ∧ leaf = trim rest)
      ∨ (∃ rest, t = "::".toList ++ rest ∧ limit = .exact .global ∧ leaf = trim rest)
      ∨ (QualifiedName.parse t).leaf = leaf
        ∧ limit = (if (QualifiedName.parse t).scope.isGlobal then .unqualified
            else .exact (QualifiedName.parse t).scope) := by
  unfold readName at h
  cases hwildcard : Text.dropPiece "*::".toList t with
  | some rest =>
    rw [hwildcard] at h
    obtain ⟨rfl, rfl⟩ := Prod.mk.inj h
    exact .inl ⟨rest, Text.dropPiece_eq_some_iff.1 hwildcard, rfl, rfl⟩
  | none =>
    rw [hwildcard] at h
    cases hglobal : Text.dropPiece "::".toList t with
    | some rest =>
      rw [hglobal] at h
      obtain ⟨rfl, rfl⟩ := Prod.mk.inj h
      exact .inr (.inl ⟨rest, Text.dropPiece_eq_some_iff.1 hglobal, rfl, rfl⟩)
    | none =>
      rw [hglobal] at h
      obtain ⟨rfl, rfl⟩ := Prod.mk.inj h
      exact .inr (.inr ⟨rfl, rfl⟩)

/-- Without a mark in front, a name is read as a qualified name. -/
theorem readName_of_dropPiece (hwildcard : Text.dropPiece "*::".toList t = none)
    (hglobal : Text.dropPiece "::".toList t = none) :
    readName t = (if (QualifiedName.parse t).scope.isGlobal then .unqualified
      else .exact (QualifiedName.parse t).scope, (QualifiedName.parse t).leaf) := by
  simp only [readName, hwildcard, hglobal]

/-- Where a name is `::` and its leaf, the scope is global. -/
theorem scope_of_trim_eq {rest : Text} (h : trim name = "::".toList ++ rest)
    (hleaf : trim rest = (QualifiedName.parse name).leaf) :
    (QualifiedName.parse name).scope = .global := by
  obtain ⟨init, last, htext, hsplit, -, -, -⟩ := QualifiedName.exists_of_parse rest
  have hcut : Text.cut .angled .scope (trim name) = some ([], ':' :: rest) := by
    rw [h]
    rfl
  have hscopes : Text.splitScopes (trim name) = [] :: (init.map trim ++ [trim last]) := by
    have hrest : Text.splitScopes rest = init.map trim ++ [trim last] := by
      rw [← Text.splitScopes_trim, Text.splitScopes, hsplit]
      simp
    rw [Text.splitScopes, Text.split_of_cut_eq_some hcut, List.map_cons]
    exact congrArg _ hrest
  have hparse : QualifiedName.parse name
      = ⟨⟨(init.map trim).filter fun s => !s.isEmpty⟩, trim last⟩ := by
    rw [QualifiedName.parse, hscopes, ← List.cons_append, List.dropLast_concat,
      List.getLast?_concat]
    rfl
  rw [hparse] at hleaf ⊢
  -- the rest has no separator, as all of its colons are in the leaf
  have hcount := congrArg (List.count ':') (htext.symm.trans hleaf)
  rw [Text.count_intercalate, Text.count_trim rfl] at hcount
  have hnil : init = [] := by
    have hsep : "::".toList.count ':' = 2 := rfl
    simp only [hsep, List.map_append, List.map_cons, List.map_nil, List.sum_append, List.sum_cons,
      List.sum_nil, List.length_append, List.length_singleton] at hcount
    apply List.eq_nil_of_length_eq_zero
    omega
  rw [hnil]
  rfl

/-- What stands behind a mark, told by the pieces that can be dropped. -/
theorem forall_mark_iff {holds : Text → Prop} :
    (∀ mark ∈ ["*::".toList, "::".toList], ∀ rest, name = mark ++ rest → holds rest)
      ↔ (∀ rest, Text.dropPiece "*::".toList name = some rest → holds rest)
        ∧ ∀ rest, Text.dropPiece "::".toList name = some rest → holds rest := by
  simp only [Text.dropPiece_eq_some_iff, List.mem_pair, forall_eq_or_imp, forall_eq]

/-! ## Patterns

One lemma for each reader, from the smallest to the whole. The two forms of a pattern, with and
without a list, are kept together in `HasForm`: what is said of the name is the same for both. -/

/-- Behind a list there may be blanks and the word `const`, and nothing else. -/
theorem readConst_eq_ok_iff {rest : Text} {isConst : Bool} :
    readConst rest = .ok isConst ↔ trim rest = if isConst then "const".toList else [] := by
  unfold readConst
  simp only
  by_cases hnil : trim rest = []
  · rw [if_pos hnil, hnil]
    cases isConst <;> simp
  by_cases hconst : trim rest = "const".toList
  · rw [if_neg hnil, if_pos hconst, hconst]
    cases isConst <;> simp
  · rw [if_neg hnil, if_neg hconst]
    cases isConst with
    | false => exact iff_of_false (by simp) hnil
    | true => exact iff_of_false (by simp) hconst

/-- A signature is read part by part. The builder in between never refuses: the parameters of a list
that was read can be put together again. -/
theorem readSignature_eq_ok_iff {params rest : Text} {signature : Signature} :
    readSignature params rest = .ok signature
      ↔ Parameter.readList params = .ok signature.params.items
        ∧ readConst rest = .ok signature.isConst := by
  unfold readSignature
  simp only [bind_eq_ok_iff, mapError_eq_ok_iff]
  constructor
  · rintro ⟨items, hitems, isConst, hconst, hsignature⟩
    obtain ⟨rfl, rfl⟩ := Signature.eq_of_ofParameters hsignature
    exact ⟨hitems, hconst⟩
  · rintro ⟨hitems, hconst⟩
    exact ⟨_, hitems, _, hconst, Signature.ofParameters_items signature.params signature.isConst⟩

/-- A pattern is made of a name and what there is of a signature, if the leaf of the name is
valid. -/
theorem ofParts_eq_ok_iff {name : Text} {given : Option Signature} :
    ofParts name given = .ok (.named limit leaf signature)
      ↔ readName (trim name) = (limit, leaf) ∧ isLeaf leaf = true ∧ given = signature := by
  unfold ofParts
  simp only
  generalize readName (trim name) = parts
  obtain ⟨l, f⟩ := parts
  rw [Prod.mk.injEq]
  by_cases hleaf : isLeaf f = true
  · rw [if_pos hleaf, Except.ok.injEq, Pattern.named.injEq]
    constructor
    · rintro ⟨rfl, rfl, rfl⟩
      exact ⟨⟨rfl, rfl⟩, hleaf, rfl⟩
    · rintro ⟨⟨rfl, rfl⟩, -, rfl⟩
      exact ⟨rfl, rfl, rfl⟩
  · rw [if_neg hleaf]
    refine iff_of_false (by simp) ?_
    rintro ⟨⟨rfl, rfl⟩, hleaf', -⟩
    exact hleaf hleaf'

/-- A text that is a name, or a name with the list of a signature and perhaps `const` behind it. -/
def HasForm (t name : Text) : Option Signature → Prop
  | none => AppliedName.split t = .bare ∧ name = t
  | some s => ∃ params rest, AppliedName.split t = .applied name params rest
    ∧ Parameter.readList params = .ok s.params.items ∧ readConst rest = .ok s.isConst

/-- Reading a text that is not blank: some name in it has a valid leaf, and the rest of the text is
what the signature asks for. -/
theorem readNamed_eq_ok_iff :
    readNamed t = .ok (.named limit leaf signature)
      ↔ ∃ name, readName (trim name) = (limit, leaf) ∧ isLeaf leaf = true
        ∧ HasForm t name signature := by
  unfold readNamed
  cases hsplit : AppliedName.split t with
  | unclosed =>
    refine iff_of_false (by simp) ?_
    rintro ⟨name, -, -, hform⟩
    cases signature <;> simp [HasForm, hsplit] at hform
  | bare =>
    simp only
    rw [ofParts_eq_ok_iff]
    constructor
    · rintro ⟨hread, hleaf, rfl⟩
      exact ⟨t, hread, hleaf, hsplit, rfl⟩
    · rintro ⟨name, hread, hleaf, hform⟩
      cases signature with
      | some s => simp [HasForm, hsplit] at hform
      | none =>
        obtain ⟨-, rfl⟩ := hform
        exact ⟨hread, hleaf, rfl⟩
  | applied name params rest =>
    simp only [bind_eq_ok_iff, ofParts_eq_ok_iff]
    constructor
    · rintro ⟨s, hs, hread, hleaf, rfl⟩
      exact ⟨name, hread, hleaf, params, rest, hsplit, readSignature_eq_ok_iff.1 hs⟩
    · rintro ⟨name', hread, hleaf, hform⟩
      cases signature with
      | none => simp [HasForm, hsplit] at hform
      | some s =>
        obtain ⟨params', rest', hsame, hs⟩ := hform
        obtain ⟨rfl, rfl, rfl⟩ := AppliedName.applied.inj (hsplit.symm.trans hsame)
        exact ⟨s, readSignature_eq_ok_iff.2 hs, hread, hleaf, rfl⟩

/-- What it takes for a text to be read as a pattern with a name. -/
theorem parse_eq_ok_iff :
    parse t = .ok (.named limit leaf signature)
      ↔ ∃ name, readName (trim name) = (limit, leaf) ∧ isLeaf leaf = true
        ∧ HasForm (trim t) name signature := by
  unfold parse
  simp only
  by_cases hnil : trim t = []
  · rw [if_pos hnil, ← readNamed_eq_ok_iff, hnil]
    refine iff_of_false (by simp) ?_
    rw [readNamed_eq_ok_iff]
    rintro ⟨name, hread, hleaf, hform⟩
    have hbare : AppliedName.split [] = .bare := AppliedName.split_of_not_mem (by simp)
    cases signature with
    | some s => simp [HasForm, hbare] at hform
    | none =>
      obtain ⟨-, rfl⟩ := hform
      have hread' := readName_of_dropPiece (t := []) rfl rfl
      rw [Text.trim_nil, hread', QualifiedName.parse_nil] at hread
      exact ne_nil_of_isLeaf hleaf (Prod.mk.inj hread).2.symm
  · rw [if_neg hnil, mapError_eq_ok_iff, readNamed_eq_ok_iff]

/-! ## The text of a pattern with a signature

Behind the list there is `const` or nothing, and no word `operator`. So the search for the list
stops at the same place in this text as in any other that goes on in the same way up to there. -/

/-- The text of a pattern for a name, a parameter list and perhaps `const`. -/
def ownText (name params : Text) (isConst : Bool) : Text :=
  name ++ '(' :: (params ++ ')' :: (if isConst then " const".toList else []))

/-- Behind the list there is no operator to look for. -/
theorem cutOperator_const (before : Text) (isConst : Bool) :
    AppliedName.cutOperator before (if isConst then " const".toList else []) = none := by
  apply AppliedName.cutOperator_of_not_hasWord
  apply AppliedName.not_hasWord_of_not_mem
  cases isConst <;> simp

/-- Blanks are cut off in front of the name, and there are none at the end. -/
theorem trim_ownText (name params : Text) (isConst : Bool) :
    trim (ownText name params isConst) = ownText (trimStart name) params isConst := by
  have hend : Text.trimEnd (if isConst then " const".toList else [])
      = if isConst then " const".toList else [] := by
    cases isConst <;> rfl
  have hsplit : ownText name params isConst
      = (name ++ '(' :: params) ++ ')' :: (if isConst then " const".toList else []) := by
    simp [ownText]
  rw [hsplit, Text.trim_append_cons rfl, Text.trimStart_append_cons rfl, hend]
  simp [ownText]

/-- The reader of patterns finds the same list in the text. -/
theorem split_trim_ownText {rest : Text} (isConst : Bool)
    (h : AppliedName.split (trimStart name ++ '(' :: (params ++ ')' :: rest))
      = .applied (trimStart name) params rest) :
    AppliedName.split (trim (ownText name params isConst))
      = .applied (trimStart name) params (if isConst then " const".toList else []) := by
  obtain ⟨hbalanced, hname, -⟩ := AppliedName.split_append_iff.1 h
  rw [trim_ownText]
  exact AppliedName.split_append_iff.2 ⟨hbalanced, hname, fun _ => cutOperator_const _ isConst⟩

/-- The pattern is read with the signature of the declaration. -/
theorem parse_ownText {rest : Text} {ps : ParameterList} (isConst : Bool)
    (h : AppliedName.split (trimStart name ++ '(' :: (params ++ ')' :: rest))
      = .applied (trimStart name) params rest)
    (hlist : Parameter.readList params = .ok ps.items) :
    parse (ownText name params isConst)
      = (ofParts (trimStart name) (some ⟨ps, isConst⟩)).mapError
          fun fault => ⟨trim (ownText name params isConst), fault⟩ := by
  have hsplit := split_trim_ownText isConst h
  have hne : trim (ownText name params isConst) ≠ [] := by
    intro hnil
    rw [hnil] at hsplit
    simp [AppliedName.split_of_not_mem] at hsplit
  have hconst : readConst (if isConst then " const".toList else []) = .ok isConst := by
    cases isConst <;> rfl
  have hsignature : readSignature params (if isConst then " const".toList else [])
      = .ok ⟨ps, isConst⟩ := by
    rw [readSignature, hlist, hconst]
    show (Signature.ofParameters ps.items isConst).mapError Fault.refused = _
    rw [Signature.ofParameters_items]
    rfl
  rw [parse]
  simp only [if_neg hne, readNamed, hsplit, hsignature]
  rfl

end Overlay.Pattern
