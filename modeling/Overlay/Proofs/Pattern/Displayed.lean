/-
Patterns that are written and read back.

A pattern that was read can be displayed, and its displayed form can be read again. It is read as
the same pattern exactly if three things hold (`parse_display_iff_isReadable`). The parameter list
is found where the form has it, which the word `operator` in the list can prevent. The scope is one
that can be written: no segment ends with a colon, as that would go to the next one, and the first
is not `*`, which would be the mark of any scope. And every parameter type is read as itself:
reading a parameter drops the name at its end, so in a type of two words the second is dropped when
it is read again. The list of `void` alone is read as the empty list.

What is read back is determined by what is displayed, so patterns of this kind with the same
displayed form are the same as well (`parse_display_iff_isReadable`).
-/
import Overlay.Proofs.Parameter.Readback
import Overlay.Proofs.Pattern.Reader

set_option autoImplicit false

namespace Overlay.Pattern

open Text (IsSegment isBlank trim)

variable {t s leaf : Text} {limit : ScopeLimit} {signature : Option Signature}

/-! ## Names

The mark in front of a name, or none, is what the reader asks for first. So a name that is displayed
without a mark must not begin like one, which only its first segment can do. The rest is the reading
of segments (`QualifiedName.parse_intercalate_iff`). -/

/-- A limit and a leaf as they are once they were read. -/
structure IsName (limit : ScopeLimit) (leaf : Text) : Prop where
  valid : isLeaf leaf = true
  trimmed : trim leaf = leaf
  segments : ∀ path, limit = .exact path → ∀ s ∈ path.segments, IsSegment s
  whole : limit ≠ .wildcard → limit ≠ .exact .global → Text.cut .angled .scope leaf = none

/-- What is read as a name is one. -/
theorem isName_of_readName (h : readName t = (limit, leaf)) (hleaf : isLeaf leaf = true) :
    IsName limit leaf := by
  rcases cases_of_readName h with ⟨rest, -, rfl, rfl⟩ | ⟨rest, -, rfl, rfl⟩ | ⟨rfl, rfl⟩
  · exact ⟨hleaf, Text.trim_trim rest, fun _ hpath => by simp at hpath, fun hne => absurd rfl hne⟩
  · refine ⟨hleaf, Text.trim_trim rest, ?_, fun _ hne => absurd rfl hne⟩
    rintro _ ⟨⟩ s hs
    simp [ScopePath.global] at hs
  · refine ⟨hleaf, QualifiedName.trim_leaf t, ?_, fun _ _ => QualifiedName.cut_leaf t⟩
    intro path hpath s hs
    split at hpath
    · simp at hpath
    · obtain rfl := ScopeLimit.exact.inj hpath
      exact QualifiedName.isSegment_of_mem hs

/-- Reading and displaying a name keeps its parentheses. -/
theorem count_displayLimit (h : readName (trim t) = (limit, leaf)) :
    (displayLimit limit ++ leaf).count '(' = t.count '(' := by
  have hparen : isBlank '(' = false := rfl
  rw [← Text.count_trim hparen t]
  rcases cases_of_readName h with ⟨rest, ht, rfl, rfl⟩ | ⟨rest, ht, rfl, rfl⟩ | ⟨rfl, rfl⟩
  · rw [ht, displayLimit, List.count_append, List.count_append, Text.count_trim hparen]
  · have hdisplay : displayLimit (.exact .global) = "::".toList := rfl
    rw [ht, hdisplay, List.count_append, List.count_append, Text.count_trim hparen]
  · rw [← QualifiedName.count_of_parse hparen (by decide) (trim t), List.count_append]
    split
    next hglobal =>
      have hnil : (QualifiedName.parse (trim t)).scope.segments = [] := by
        simpa [ScopePath.isGlobal] using hglobal
      simp [displayLimit, hnil]
    next =>
      have hsep : "::".toList.count '(' = 0 := rfl
      rw [displayLimit, ScopePath.display, List.count_append, Text.count_intercalate, hsep]
      omega

/-- A scope and a leaf are displayed as the segments of a qualified name. -/
theorem displayLimit_exact {path : ScopePath} (hne : path.segments ≠ []) (leaf : Text) :
    displayLimit (.exact path) ++ leaf = "::".toList.intercalate (path.segments ++ [leaf]) := by
  rw [Text.intercalate_concat _ hne, ← List.append_assoc]
  rfl

/-- A name is displayed without a blank at either end. -/
theorem trim_displayLimit (h : IsName limit leaf) :
    trim (displayLimit limit ++ leaf) = displayLimit limit ++ leaf := by
  have hne := ne_nil_of_isLeaf h.valid
  have hmark : ∀ {mark : Text} {c : Char}, mark.head? = some c → isBlank c = false →
      trim (mark ++ leaf) = mark ++ leaf := by
    intro mark c hc hblank
    apply Text.trim_eq_self
    · intro d hd
      rw [List.head?_append, hc] at hd
      exact Option.some.inj hd ▸ hblank
    · intro d hd
      rw [List.getLast?_append_of_ne_nil _ hne, ← h.trimmed] at hd
      exact Text.getLast?_trim hd
  cases limit with
  | unqualified => exact h.trimmed
  | wildcard => exact hmark (c := '*') rfl rfl
  | exact path =>
    by_cases hnil : path.segments = []
    · obtain rfl : path = .global := by
        cases path
        exact congrArg ScopePath.mk hnil
      exact hmark (c := ':') rfl rfl
    · rw [displayLimit_exact hnil]
      exact QualifiedName.trim_segments (h.segments path rfl) hne h.trimmed

/-- Text in front of a separator that itself begins with one is only a colon, or holds the whole of
it. -/
theorem eq_colon_of_append {r : Text} (hne : s ≠ [])
    (h : s ++ ("::".toList ++ t) = "::".toList ++ r) :
    s = [':'] ∨ ∃ u, s = ':' :: ':' :: u := by
  rcases s with _ | ⟨c, _ | ⟨c', s⟩⟩
  · exact absurd rfl hne
  · obtain ⟨rfl, -⟩ := List.cons.inj h
    exact .inl rfl
  · obtain ⟨rfl, h'⟩ := List.cons.inj h
    obtain ⟨rfl, -⟩ := List.cons.inj h'
    exact .inr ⟨s, rfl⟩

/-- A scope in front of a name is taken for the mark of any scope, if it is `*`. -/
theorem eq_of_dropPiece_wildcard {r : Text} (hs : IsSegment s)
    (h : Text.dropPiece "*::".toList (s ++ ("::".toList ++ t)) = some r) :
    s = ['*'] ∨ s.getLast? = some ':' := by
  have htext : s ++ ("::".toList ++ t) = '*' :: ("::".toList ++ r) := Text.dropPiece_eq_some_iff.1 h
  cases s with
  | nil => exact absurd rfl hs.nonempty
  | cons c s =>
    obtain ⟨rfl, hrest⟩ := List.cons.inj htext
    by_cases hnil : s = []
    · exact .inl (by rw [hnil])
    · rcases eq_colon_of_append hnil hrest with rfl | ⟨u, rfl⟩
      · exact .inr rfl
      · -- a segment holds no separator
        have hcut : Text.cut .angled .scope ('*' :: ':' :: ':' :: u) = some (['*'], ':' :: u) := rfl
        rw [hs.whole] at hcut
        simp at hcut

/-- It is taken for the mark of the global scope, if it lends a colon. -/
theorem getLast?_of_dropPiece_global {r : Text} (hs : IsSegment s)
    (h : Text.dropPiece "::".toList (s ++ ("::".toList ++ t)) = some r) :
    s.getLast? = some ':' := by
  rcases eq_colon_of_append hs.nonempty (Text.dropPiece_eq_some_iff.1 h) with rfl | ⟨u, rfl⟩
  · rfl
  · have hcut : Text.cut .angled .scope (':' :: ':' :: u) = some ([], ':' :: u) := rfl
    rw [hs.whole] at hcut
    simp at hcut

/-- In front of a name in a scope that is no `*` there is no mark. -/
theorem dropPiece_segment (hs : IsSegment s) (hstar : s ≠ ['*']) (hcolon : s.getLast? ≠ some ':') :
    Text.dropPiece "*::".toList (s ++ ("::".toList ++ t)) = none
      ∧ Text.dropPiece "::".toList (s ++ ("::".toList ++ t)) = none := by
  constructor
  · rw [Option.eq_none_iff_forall_ne_some]
    intro r hr
    rcases eq_of_dropPiece_wildcard hs hr with rfl | hlast
    · exact hstar rfl
    · exact hcolon hlast
  · rw [Option.eq_none_iff_forall_ne_some]
    exact fun r hr => hcolon (getLast?_of_dropPiece_global hs hr)

/-- When segments that are put together are read as the scope and the leaf that they were. -/
theorem readName_intercalate_iff {segments : List Text} (hsegments : ∀ s ∈ segments, IsSegment s)
    (hne : segments ≠ []) (hleaf : isLeaf leaf = true) (htrim : trim leaf = leaf)
    (hwhole : Text.cut .angled .scope leaf = none) :
    readName ("::".toList.intercalate (segments ++ [leaf])) = (.exact ⟨segments⟩, leaf)
      ↔ segments.head? ≠ some ['*'] ∧ ∀ s ∈ segments, s.getLast? ≠ some ':' := by
  have hparse := QualifiedName.parse_intercalate_iff hsegments (ne_nil_of_isLeaf hleaf) htrim hwhole
  cases segments with
  | nil => exact absurd rfl hne
  | cons s segments => ?_
  have htext : "::".toList.intercalate (s :: segments ++ [leaf])
      = s ++ ("::".toList ++ "::".toList.intercalate (segments ++ [leaf])) := by
    rw [List.cons_append, List.intercalate_cons_of_ne_nil (by simp), List.append_assoc]
  generalize "::".toList.intercalate (s :: segments ++ [leaf]) = name at hparse htext ⊢
  constructor
  · intro hread
    -- a name with a mark in front of it would be of another limit
    have hwildcard : Text.dropPiece "*::".toList name = none := by
      rw [Option.eq_none_iff_forall_ne_some]
      intro r hr
      rw [readName, hr] at hread
      simp at hread
    refine ⟨?_, hparse.1 ?_⟩
    · intro hstar
      obtain rfl : s = ['*'] := Option.some.inj hstar
      have hdrop : Text.dropPiece "*::".toList name
          = some ("::".toList.intercalate (segments ++ [leaf])) :=
        Text.dropPiece_eq_some_iff.2 htext
      rw [hwildcard] at hdrop
      simp at hdrop
    · rcases cases_of_readName hread with ⟨_, -, hlimit, -⟩ | ⟨_, -, hlimit, -⟩ | ⟨hleaf, hlimit⟩
      · simp at hlimit
      · simp [ScopePath.global] at hlimit
      · split at hlimit
        · simp at hlimit
        · rw [ScopeLimit.exact.inj hlimit, ← hleaf]
  · rintro ⟨hstar, hcolons⟩
    have hstar' : s ≠ ['*'] := fun heq => hstar (congrArg some heq)
    obtain ⟨hwildcard, hglobal⟩ := dropPiece_segment (hsegments s List.mem_cons_self) hstar'
      (hcolons s List.mem_cons_self)
    rw [← htext] at hwildcard hglobal
    rw [readName_of_dropPiece hwildcard hglobal, hparse.2 hcolons]
    rfl

/-- The limits of the scope that can be written. -/
def IsWritable (limit : ScopeLimit) : Prop :=
  ∀ path, limit = .exact path →
    path.segments.head? ≠ some ['*'] ∧ ∀ s ∈ path.segments, s.getLast? ≠ some ':'

/-- When a name that is displayed is read as itself. -/
theorem readName_displayLimit_iff (h : IsName limit leaf) :
    readName (displayLimit limit ++ leaf) = (limit, leaf) ↔ IsWritable limit := by
  obtain ⟨hwildcard, hglobal⟩ := dropPiece_leaf h.valid
  cases limit with
  | unqualified =>
    refine iff_of_true ?_ fun _ hpath => by simp at hpath
    have hparse : QualifiedName.parse ("::".toList.intercalate ([] ++ [leaf])) = ⟨⟨[]⟩, leaf⟩ :=
      QualifiedName.parse_intercalate (List.forall_mem_nil _) (ne_nil_of_isLeaf h.valid) h.trimmed
        (h.whole (by simp) (by simp)) (List.forall_mem_nil _)
    rw [List.nil_append, List.intercalate_singleton] at hparse
    have hread := readName_of_dropPiece hwildcard hglobal
    rw [hparse] at hread
    exact hread
  | wildcard =>
    refine iff_of_true ?_ fun _ hpath => by simp at hpath
    have hdrop : Text.dropPiece "*::".toList ("*::".toList ++ leaf) = some leaf :=
      Text.dropPiece_eq_some_iff.2 rfl
    rw [displayLimit, readName, hdrop]
    simp only [h.trimmed]
  | exact path =>
    -- the global scope is displayed as a mark of its own
    by_cases hnil : path.segments = []
    · obtain rfl : path = .global := by
        cases path
        exact congrArg ScopePath.mk hnil
      refine iff_of_true ?_ ?_
      · have hdrop : Text.dropPiece "::".toList ("::".toList ++ leaf) = some leaf :=
          Text.dropPiece_eq_some_iff.2 rfl
        have hstar : Text.dropPiece "*::".toList ("::".toList ++ leaf) = none := rfl
        have hdisplay : displayLimit (.exact .global) = "::".toList := rfl
        rw [hdisplay, readName, hstar]
        simp only [hdrop, h.trimmed]
      · rintro _ ⟨⟩
        exact ⟨by simp [ScopePath.global], List.forall_mem_nil _⟩
    · have hwhole := h.whole (by simp) fun hglobal =>
        hnil (by rw [ScopeLimit.exact.inj hglobal]; rfl)
      rw [displayLimit_exact hnil]
      refine (readName_intercalate_iff (h.segments path rfl) hnil h.valid h.trimmed hwhole).trans ?_
      exact ⟨fun hpath _ heq => ScopeLimit.exact.inj heq ▸ hpath,
        fun hwritable => hwritable path rfl⟩

/-! ## The displayed form

The displayed form of a pattern with a signature is a name, a list and perhaps `const`, and these
are the parts that the reader has to find (`displayParts`). It may find other parts. Then it reads
another pattern, since the parts can be told from what is read by counting parentheses
(`parts_of_split`). -/

/-- The displayed parameters of a signature. -/
def displayParams (s : Signature) : Text :=
  ", ".toList.intercalate (s.params.items.map Parameter.display)

/-- The parts that a pattern is displayed with. -/
def displayParts : Pattern → AppliedName
  | named limit leaf (some s) => .applied (displayLimit limit ++ leaf) (displayParams s)
      (if s.isConst then " const".toList else [])
  | _ => .bare

/-- A pattern whose displayed form is read as the pattern. -/
structure IsReadable (p : Pattern) : Prop where
  found : AppliedName.split p.display = p.displayParts
  writable : ∀ limit leaf signature, p = .named limit leaf signature → IsWritable limit
  typed : ∀ limit leaf s, p = .named limit leaf (some s) →
    (∀ q ∈ s.params.items, Parameter.parse q.type.text = some ⟨q.type, none⟩)
      ∧ s.params.items ≠ [⟨⟨"void".toList⟩, none⟩]

theorem display_none (limit : ScopeLimit) (leaf : Text) :
    display (.named limit leaf none) = displayLimit limit ++ leaf :=
  List.append_nil _

/-- A pattern with a signature is displayed as the text of its own. -/
theorem display_some (limit : ScopeLimit) (leaf : Text) (s : Signature) :
    display (.named limit leaf (some s))
      = ownText (displayLimit limit ++ leaf) (displayParams s) s.isConst := by
  have hlist : s.display
      = '(' :: (displayParams s ++ ')' :: if s.isConst then " const".toList else []) := by
    rw [Signature.display, List.append_assoc]
    rfl
  rw [ownText, ← hlist]
  rfl

/-- A pattern is displayed without blanks at the ends. -/
theorem trim_display (h : IsName limit leaf) :
    trim (display (.named limit leaf signature)) = display (.named limit leaf signature) := by
  have hname := trim_displayLimit h
  cases signature with
  | none => rw [display_none, hname]
  | some s =>
    have hstart : Text.trimStart (displayLimit limit ++ leaf) = displayLimit limit ++ leaf := by
      apply Text.trimStart_eq_self
      intro c hc
      rw [← hname] at hc
      exact Text.head?_trim hc
    rw [display_some, trim_ownText, hstart]

/-- The parts of a displayed form that a reader can find are those that were put together. -/
theorem parts_of_split {s : Signature} {name params rest : Text}
    (hsplit : AppliedName.split (display (.named limit leaf (some s))) = .applied name params rest)
    (hread : readName (trim name) = (limit, leaf)) (hconst : readConst rest = .ok s.isConst) :
    name = displayLimit limit ++ leaf ∧ params = displayParams s
      ∧ rest = if s.isConst then " const".toList else [] := by
  have htext := (AppliedName.eq_of_split hsplit).1
  rw [display_some, ownText] at htext
  obtain ⟨hname, hlist⟩ := Text.append_cons_inj_of_count htext (count_displayLimit hread)
  have hrest : rest.count ')' = 0 := by
    rw [← Text.count_trim rfl rest, readConst_eq_ok_iff.1 hconst]
    cases s.isConst <;> rfl
  have htail : (if s.isConst then " const".toList else []).count ')' = 0 := by
    cases s.isConst <;> rfl
  have hcount := congrArg (List.count ')') hlist
  simp only [List.count_append, List.count_cons_self, hrest, htail] at hcount
  obtain ⟨hparams, htails⟩ := Text.append_cons_inj_of_count hlist (by omega)
  exact ⟨hname.symm, hparams.symm, htails.symm⟩

/-- The same for the trimmed name, which is what the reader sees. -/
theorem readName_trim_displayLimit_iff (h : IsName limit leaf) :
    readName (trim (displayLimit limit ++ leaf)) = (limit, leaf) ↔ IsWritable limit := by
  rw [trim_displayLimit h, readName_displayLimit_iff h]

/-- When the displayed parameters of a signature that was read are read as they were. -/
theorem readList_displayParams_iff {s : Signature} {params : Text}
    (h : Parameter.readList params = .ok s.params.items) :
    Parameter.readList (displayParams s) = .ok s.params.items
      ↔ (∀ q ∈ s.params.items, Parameter.parse q.type.text = some ⟨q.type, none⟩)
        ∧ s.params.items ≠ [⟨⟨"void".toList⟩, none⟩] := by
  have hnormal := fun p hp => Parameter.isNormal_of_readList (p := p) h hp
  have htypes : (∀ p ∈ s.params.items, Parameter.parse p.display = some p)
      ↔ ∀ p ∈ s.params.items, Parameter.parse p.type.text = some ⟨p.type, none⟩ :=
    forall₂_congr fun p hp => Parameter.parse_display_iff (hnormal p hp)
  rw [← htypes]
  exact Parameter.readList_display_iff hnormal (Parameter.isListed_of_readList h)

/-- When the displayed form of a pattern is read as the pattern. -/
theorem parse_display_named_iff (h : parse t = .ok (.named limit leaf signature)) :
    parse (display (.named limit leaf signature)) = .ok (.named limit leaf signature)
      ↔ IsReadable (.named limit leaf signature) := by
  obtain ⟨name₀, hread₀, hleaf, hsignature⟩ := parse_eq_ok_iff.1 h
  have hname := isName_of_readName hread₀ hleaf
  rw [parse_eq_ok_iff, trim_display hname]
  cases signature with
  | none =>
    constructor
    · rintro ⟨name, hread, -, hbare, rfl⟩
      rw [display_none, readName_trim_displayLimit_iff hname] at hread
      refine ⟨hbare, ?_, fun _ _ _ hs => by simp at hs⟩
      rintro _ _ _ ⟨⟩
      exact hread
    · rintro ⟨hfound, hwritable, -⟩
      refine ⟨_, ?_, hleaf, hfound, rfl⟩
      rw [display_none, readName_trim_displayLimit_iff hname]
      exact hwritable _ _ _ rfl
  | some s =>
    obtain ⟨params₀, -, -, hlist₀, -⟩ := hsignature
    have hlist := readList_displayParams_iff hlist₀
    constructor
    · rintro ⟨name, hread, -, params, rest, hsplit, hparams, hconst⟩
      -- whatever the reader finds is what was put together
      obtain ⟨rfl, rfl, rfl⟩ := parts_of_split hsplit hread hconst
      rw [readName_trim_displayLimit_iff hname] at hread
      refine ⟨hsplit, ?_, ?_⟩
      · rintro _ _ _ ⟨⟩
        exact hread
      · rintro _ _ _ ⟨⟩
        exact hlist.1 hparams
    · rintro ⟨hfound, hwritable, htyped⟩
      refine ⟨_, ?_, hleaf, _, _, hfound, hlist.2 (htyped _ _ s rfl), ?_⟩
      · exact (readName_trim_displayLimit_iff hname).2 (hwritable _ _ _ rfl)
      · rw [readConst_eq_ok_iff]
        cases s.isConst <;> rfl

/-- The displayed form of a pattern is read as the pattern exactly if the pattern is readable, and
of two readable patterns it tells which one was meant. -/
theorem parse_display_iff_isReadable {p : Pattern} (h : parse t = .ok p) (hp : p ≠ .global) :
    (parse p.display = .ok p ↔ p.IsReadable)
      ∧ ∀ u q, parse u = .ok q → q ≠ .global → p.IsReadable → q.IsReadable →
          p.display = q.display → p = q := by
  have hiff : ∀ {t : Text} {p : Pattern}, parse t = .ok p → p ≠ .global →
      (parse p.display = .ok p ↔ p.IsReadable) := by
    intro t p h hp
    cases p with
    | global => exact absurd rfl hp
    | named limit leaf signature => exact parse_display_named_iff h
  refine ⟨hiff h hp, ?_⟩
  intro u q hu hq hreadp hreadq heq
  have hparsep := (hiff h hp).2 hreadp
  rw [heq, (hiff hu hq).2 hreadq] at hparsep
  exact (Except.ok.inj hparsep).symm

/-! A pattern that is displayed with its type in another order and without the name of the
parameter, and is read back. Then one whose type loses its second word when it is read again, and
two that are displayed alike. -/

def charSignature : Signature :=
  ⟨⟨[⟨⟨"char const *".toList⟩, none⟩, ⟨⟨"int".toList⟩, some "3".toList⟩], by decide, by decide⟩,
    true⟩

def charPattern : Pattern :=
  .named (.exact ⟨["ns".toList, "A".toList]⟩) "f".toList (some charSignature)

theorem parse_display_charPattern :
    parse "ns :: A::f( const char*s , int n = 3)const".toList = .ok charPattern
      ∧ charPattern.display = "ns::A::f(char const *, int = 3) const".toList
      ∧ charPattern.IsReadable := by
  have hparse : parse "ns :: A::f( const char*s , int n = 3)const".toList = .ok charPattern := by
    decide +kernel
  have hback : parse charPattern.display = .ok charPattern := by decide +kernel
  have hreadable :=
    (parse_display_iff_isReadable hparse (by simp [charPattern])).1.1 hback
  exact ⟨hparse, by decide +kernel, hreadable⟩

def fooPattern (type : CType) (h : type.isEmpty = false) : Pattern :=
  .named .unqualified "f".toList
    (some ⟨⟨[⟨type, none⟩], fun _ hq => List.mem_singleton.1 hq ▸ h, List.pairwise_singleton _ _⟩,
      false⟩)

/-- **A type of two words loses one when it is read again.** And a scope `*` is displayed as the
mark of any scope. -/
theorem display_twoWords :
    parse "f(Foo bar baz)".toList = .ok (fooPattern ⟨"Foo bar".toList⟩ rfl)
      ∧ parse (fooPattern ⟨"Foo bar".toList⟩ rfl).display = .ok (fooPattern ⟨"Foo".toList⟩ rfl)
      ∧ fooPattern ⟨"Foo".toList⟩ rfl ≠ fooPattern ⟨"Foo bar".toList⟩ rfl
      ∧ parse "* ::foo".toList = .ok (.named (.exact ⟨["*".toList]⟩) "foo".toList none)
      ∧ parse "*::foo".toList = .ok (.named .wildcard "foo".toList none)
      ∧ (Pattern.named (.exact ⟨["*".toList]⟩) "foo".toList none).display
        = (Pattern.named .wildcard "foo".toList none).display := by
  decide +kernel

end Overlay.Pattern
