/-
Declarations that are written and read back.

A declaration is written as a statement: its keywords, its name with the parameter list of a
callable, `const`, its type and its target name (`Declaration.statementText`). The statement is read
as that declaration (`parse_statementText`) if each of its parts can be told from what stands around
it (`Declaration.IsWritable`). The names are identifiers. The parameters are read as themselves, and
neither ends the list nor parts it. The type is read as itself as well, it holds no `;`, and no word
`as`, which would begin a target name. And the word `operator` is nowhere in the statement, because
it moves the place where the list is looked for.

The readers are taken one by one. Each finds the boundary that was written: that of the target name
(`splitTargetName_statement`), of the list and the type behind it (`readCallable_headText`,
`readVariable_headText`), of the parameters (`readList_listText`), and the end of the statement
(`isStatement_statementText`).
-/
import Overlay.Proofs.Parameter.Readback
import Overlay.Proofs.Script.OneStatement
import Overlay.Proofs.Script.Phrases

set_option autoImplicit false

namespace Overlay

open Text (Balanced HasWord IsGap StartsBlank isBlank isIdentifier squeeze trim words)

/-! ## Parts of a list

What can be written as a parameter is a matter of its text alone. The conditions are decidable, so
for a declaration that is given they can be checked. -/

namespace Text

variable {t u : Text}

/-- A text that can stand in a list: it closes its brackets, and has no comma outside of them. -/
@[mk_iff]
structure IsEnclosed (t : Text) : Prop where
  balanced : Balanced t
  closed : Brackets.all.depthAfter 0 t = 0
  whole : cut .all (.char ',') t = none

instance (t : Text) : Decidable (IsEnclosed t) := decidable_of_iff' _ (isEnclosed_iff t)

/-- So can what is put together from such texts. -/
theorem IsEnclosed.append (ht : IsEnclosed t) (hu : IsEnclosed u) : IsEnclosed (t ++ u) where
  balanced := ht.balanced.append hu.balanced
  closed := by rw [Brackets.depthAfter_append, ht.closed, hu.closed]
  whole := cut_char_append ht.whole ht.closed hu.whole

end Text

/-- A parameter that is read as itself and can stand in a list. -/
@[mk_iff]
structure Parameter.IsWritable (p : Parameter) : Prop where
  fixed : parse p.type.text = some ⟨p.type, none⟩
  type : Text.IsEnclosed p.type.text
  default : ∀ e ∈ p.default, Text.IsEnclosed e ∧ squeeze e = e ∧ e ≠ []

instance (p : Parameter) : Decidable p.IsWritable :=
  decidable_of_iff' _ (Parameter.isWritable_iff p)

/-- A type that is read as itself and can stand at the end of a statement. -/
@[mk_iff]
structure CType.IsWritable (type : CType) : Prop where
  fixed : parse type.text = type
  nonempty : type.text ≠ []
  balanced : Balanced type.text
  whole : ';' ∉ type.text
  untargeted : ∀ w ∈ words type.text, w ≠ "as".toList

instance (type : CType) : Decidable type.IsWritable :=
  decidable_of_iff' _ (CType.isWritable_iff type)

namespace Parameter

variable {p : Parameter} {ps : ParameterList}

/-- What is read as itself is in the form that is read: no blanks at the ends, and a default that is
squeezed. -/
theorem IsWritable.isNormal (h : p.IsWritable) : IsNormal p where
  nonempty := (isNormal_of_parse h.fixed).nonempty
  trimmed := (isNormal_of_parse h.fixed).trimmed
  closed _ := h.type.closed
  squeezed e he := (h.default e he).2

/-- With its default behind it a parameter can stand in a list as well. -/
theorem IsWritable.isEnclosed (h : p.IsWritable) : Text.IsEnclosed p.display := by
  have hequal : Text.IsEnclosed " = ".toList :=
    ⟨Text.balanced_of_not_mem (by decide) (by decide), rfl, rfl⟩
  cases hdefault : p.default with
  | none => simpa only [display, hdefault] using h.type
  | some e =>
    simpa only [display, hdefault] using (h.type.append hequal).append (h.default e hdefault).1

/-- A list of parameters that can be written is read as itself. -/
theorem readList_listText (h : ∀ p ∈ ps.items, p.IsWritable)
    (hvoid : ps.items ≠ [⟨⟨"void".toList⟩, none⟩]) :
    readList (", ".toList.intercalate (ps.items.map display)) = .ok ps.items := by
  have hnormal : ∀ p ∈ ps.items, IsNormal p := fun p hp => (h p hp).isNormal
  have henclosed : ∀ d ∈ ps.items.map display, Text.IsEnclosed d := by
    intro d hd
    obtain ⟨p, hp, rfl⟩ := List.mem_map.1 hd
    exact (h p hp).isEnclosed
  have hlisted : Text.IsListed (ps.items.map display) :=
    ⟨fun d hd => (henclosed d hd).whole,
      fun d hd => (henclosed d (List.dropLast_subset _ hd)).closed⟩
  exact (readList_display_iff hnormal hlisted).2
    ⟨fun p hp => (parse_display_iff (hnormal p hp)).2 (h p hp).fixed, hvoid⟩

theorem balanced_listText (h : ∀ p ∈ ps.items, p.IsWritable) :
    Balanced (", ".toList.intercalate (ps.items.map display)) := by
  apply Balanced.intercalate (Text.balanced_of_not_mem (by decide) (by decide))
  intro d hd
  obtain ⟨p, hp, rfl⟩ := List.mem_map.1 hd
  exact (h p hp).isEnclosed.balanced

end Parameter

/-! ## The statement of a declaration

The text is put together from parts with a name of their own, so that each reader has a lemma on the
part that it reads. -/

namespace Declaration

/-- The keywords in front: `[inherited] kind`. -/
def frontText (d : Declaration) : Text :=
  (if d.isInherited then "inherited ".toList else []) ++ (d.kind.keyword ++ [' '])

def listText (d : Declaration) : Text :=
  ", ".toList.intercalate (d.params.items.map Parameter.display)

/-- The name, and the list of a callable: `name[(params)]`. -/
def nameText (d : Declaration) : Text :=
  if d.kind.isCallable then d.name.display ++ '(' :: (d.listText ++ [')']) else d.name.display

/-- The word `const` of a method, if it is one. -/
def constText (d : Declaration) : Text := if d.isConst then " const".toList else []

/-- What stands in front of a type: an arrow, or the colon of a variable. -/
def typeMark (d : Declaration) : Text := if d.kind.isCallable then "->".toList else [':']

/-- The type: `[-> type]` or `[: type]`. -/
def typeText (d : Declaration) : Text :=
  match d.returns with
  | some type => ' ' :: (d.typeMark ++ ' ' :: type.text)
  | none => []

/-- The target name at the end: `[as target]`. -/
def targetText (d : Declaration) : Text :=
  match d.targetName with
  | some target => " as ".toList ++ target
  | none => []

/-- All that stands between the keywords and the target name. -/
def headText (d : Declaration) : Text := d.nameText ++ (d.constText ++ d.typeText)

def statementText (d : Declaration) : Text := d.frontText ++ (d.headText ++ d.targetText)

/-- A declaration that keeps the rules of its kind, made up of parts that can be written. -/
@[mk_iff]
structure IsWritable (d : Declaration) : Prop where
  segments : ∀ s ∈ d.name.scope.segments, isIdentifier s = true
  leaf : isIdentifier d.name.leaf = true
  target : ∀ target ∈ d.targetName, isIdentifier target = true
  member : d.kind.isMember = true → d.name.scope.isGlobal = false
  inherited : d.isInherited = true → d.kind.isMember = true
  const : d.isConst = true → d.kind = .method
  callable : d.kind.isCallable = false → d.params = .empty
  params : ∀ p ∈ d.params.items, p.IsWritable
  listed : d.params.items ≠ [⟨⟨"void".toList⟩, none⟩]
  returns : ∀ type ∈ d.returns, type.IsWritable

instance (d : Declaration) : Decidable d.IsWritable := decidable_of_iff' _ (isWritable_iff d)

end Declaration

namespace Script

variable {d : Declaration} {c : Char}

/-! ## The name

Of the characters of a name only two things are used: none is a blank and none is a mark of the
statement. -/

/-- A name is made of identifiers and the colons between them. -/
theorem isIdentChar_or_of_mem_display (h : d.IsWritable) :
    ∀ c ∈ d.name.display, Text.isIdentChar c = true ∨ c = ':' := by
  rw [QualifiedName.display_eq_intercalate]
  apply Text.forall_mem_intercalate
  · intro c hc
    right
    simpa using hc
  · intro s hs c hc
    left
    rcases List.mem_append.1 hs with hs | hs
    · exact Text.isIdentChar_of_mem (h.segments s hs) hc
    · rw [List.mem_singleton.1 hs] at hc
      exact Text.isIdentChar_of_mem h.leaf hc

theorem isBlank_of_mem_display (h : d.IsWritable) (hc : c ∈ d.name.display) :
    isBlank c = false := by
  rcases isIdentChar_or_of_mem_display h c hc with hident | rfl
  · exact Text.isBlank_of_isIdentChar hident
  · rfl

/-- No mark stands in a name, the colon apart. -/
theorem not_mem_display (h : d.IsWritable) (hident : Text.isIdentChar c = false)
    (hcolon : c ≠ ':') : c ∉ d.name.display := by
  intro hc
  rcases isIdentChar_or_of_mem_display h c hc with hc | hc
  · rw [hident] at hc
    simp at hc
  · exact hcolon hc

theorem leaf_ne_nil (h : d.IsWritable) : d.name.leaf ≠ [] :=
  (Text.isSegment_of_isIdentifier h.leaf).nonempty

theorem display_ne_nil (h : d.IsWritable) : d.name.display ≠ [] := by
  rw [QualifiedName.display]
  split
  · exact leaf_ne_nil h
  · simp

theorem trim_display (h : d.IsWritable) : trim d.name.display = d.name.display :=
  Text.trim_eq_self (fun _ hc => isBlank_of_mem_display h (List.mem_of_head? hc))
    fun _ hc => isBlank_of_mem_display h (List.mem_of_getLast? hc)

/-- A name of identifiers is read back. -/
theorem parse_display (h : d.IsWritable) : QualifiedName.parse d.name.display = d.name := by
  have hleaf := Text.isSegment_of_isIdentifier h.leaf
  rw [QualifiedName.display_eq_intercalate, QualifiedName.parse_intercalate
    (fun s hs => Text.isSegment_of_isIdentifier (h.segments s hs)) hleaf.nonempty hleaf.trimmed
    hleaf.whole]
  intro s hs hlast
  exact Text.not_mem_of_isIdentifier (h.segments s hs) rfl (List.mem_of_getLast? hlast)

/-- The colons of a name come in pairs, so none of them begins a type. -/
theorem cut_colon_display (h : d.IsWritable) (before : Option Char) :
    Text.cutFrom .angled .colon 0 before d.name.display = none := by
  rw [QualifiedName.display_eq_intercalate]
  apply Text.cutFrom_colon_intercalate
  intro s hs
  rcases List.mem_append.1 hs with hs | hs
  · exact h.segments s hs
  · rw [List.mem_singleton.1 hs]
    exact h.leaf

/-! ## The list and what is behind it

Behind the name of a callable stand the list, `const` and the type, and behind the name of a
variable the type alone. In either case what is behind is told apart by its first word. -/

/-- A type that is read as itself has no blanks around it. -/
theorem trim_type {type : CType} (h : type.IsWritable) : trim type.text = type.text := by
  have htokens := CType.trim_ofTokens (List.Subset.refl (CType.tokenize type.text))
  have hfixed : CType.ofTokens (CType.tokenize type.text) = type := h.fixed
  rwa [hfixed] at htokens

theorem typeText_of_none (hreturns : d.returns = none) : d.typeText = [] := by
  rw [Declaration.typeText, hreturns]

theorem typeText_of_some {type : CType} (hreturns : d.returns = some type) :
    d.typeText = ' ' :: (d.typeMark ++ ' ' :: type.text) := by
  rw [Declaration.typeText, hreturns]

/-- The mark is a word of its own, and none of a target name. -/
theorem typeMark_facts (d : Declaration) :
    d.typeMark ≠ [] ∧ (∀ c ∈ d.typeMark, isBlank c = false) ∧ d.typeMark ≠ "as".toList
      ∧ d.typeMark ≠ "const".toList ∧ d.typeMark.all isInner = true := by
  rw [Declaration.typeMark]
  cases d.kind.isCallable with
  | true => exact ⟨by decide, isBlank_of_mem_arrow, by decide, by decide, rfl⟩
  | false =>
    have hcolon : ∀ c ∈ [':'], isBlank c = false := by simp [isBlank]
    exact ⟨by decide, hcolon, by decide, by decide, rfl⟩

theorem startsBlank_typeText (d : Declaration) : StartsBlank d.typeText := by
  cases hreturns : d.returns with
  | none =>
    rw [typeText_of_none hreturns]
    exact Text.startsBlank_nil
  | some type =>
    rw [typeText_of_some hreturns]
    exact Text.startsBlank_cons rfl _

/-- The mark keeps the blank that parts it from the type. -/
theorem trim_typeText {type : CType} (h : d.IsWritable) (hreturns : d.returns = some type) :
    trim d.typeText = d.typeMark ++ ' ' :: type.text := by
  have htype := h.returns type hreturns
  obtain ⟨hne, hmark, -⟩ := typeMark_facts d
  have hparts : ∀ p ∈ [d.typeMark, type.text], p ≠ [] ∧ trim p = p := by
    intro p hp
    rcases List.mem_pair.1 hp with rfl | rfl
    · exact ⟨hne, Text.trim_eq_self (fun c hc => hmark c (List.mem_of_head? hc))
        fun c hc => hmark c (List.mem_of_getLast? hc)⟩
    · exact ⟨htype.nonempty, trim_type htype⟩
  have htrim := Text.trim_intercalate [' '] hparts
  have htext : [' '].intercalate [d.typeMark, type.text] = d.typeMark ++ ' ' :: type.text := by
    simp [List.intercalate_cons_of_ne_nil]
  rw [htext] at htrim
  rw [typeText_of_some hreturns, Text.trim_cons_of_isBlank rfl, htrim]

theorem trim_space_type {type : CType} (h : type.IsWritable) :
    trim (' ' :: type.text) = type.text := by
  rw [Text.trim_cons_of_isBlank rfl, trim_type h]

/-- The type of a callable is what stands behind its list, but for `const`. -/
theorem writesType_typeText (h : d.IsWritable) (hcallable : d.kind.isCallable = true) :
    WritesType (trim d.typeText) (d.returns.map CType.text) := by
  cases hreturns : d.returns with
  | none => exact .inl ⟨by rw [typeText_of_none hreturns, Text.trim_nil], rfl⟩
  | some type =>
    have htype := h.returns type hreturns
    refine .inr ⟨' ' :: type.text, ?_, by rw [trim_space_type htype]; rfl⟩
    rw [trim_typeText h hreturns, Declaration.typeMark, if_pos hcallable]

/-- What stands behind the list of a callable is read as `const` and the type. -/
theorem readTail_typeText (h : d.IsWritable) (hcallable : d.kind.isCallable = true) (name : Text)
    (params : Option Text) :
    readTail name params (d.constText ++ d.typeText)
      = .ok ⟨name, params, d.isConst, d.returns.map CType.text⟩ := by
  have hgap : IsGap [' '] := Text.isGap_cons.2 ⟨rfl, Text.isGap_nil⟩
  refine readTail_eq_ok_iff.2 ⟨rfl, rfl, trim d.typeText, ?_, writesType_typeText h hcallable⟩
  cases hconst : d.isConst with
  | true =>
    have htext : d.constText ++ d.typeText = [' '] ++ ("const".toList ++ d.typeText) := by
      rw [Declaration.constText, hconst]
      rfl
    have hident : isIdentifier "const".toList = true := by decide
    rw [if_pos rfl, htext]
    exact splitWord_trim hgap (by decide) (fun _ => Text.isBlank_of_mem_identifier hident)
      (startsBlank_typeText d)
  | false =>
    have htext : d.constText = [] := by
      rw [Declaration.constText, hconst]
      rfl
    -- the first word is the mark of the type, if there is one, and that is not `const`
    rw [if_neg (by simp), htext, List.nil_append]
    refine ⟨?_, rfl⟩
    cases hreturns : d.returns with
    | none =>
      rw [typeText_of_none hreturns]
      decide
    | some type =>
      obtain ⟨hne, hmark, -, hother, -⟩ := typeMark_facts d
      have hfirst : splitWord (trim ([' '] ++ (d.typeMark ++ ' ' :: type.text)))
          = (d.typeMark, trim (' ' :: type.text)) :=
        splitWord_trim hgap hne hmark (Text.startsBlank_cons rfl _)
      rw [List.singleton_append] at hfirst
      rw [typeText_of_some hreturns, hfirst]
      exact hother

/-- A callable is read as its name, its list and what is behind it. -/
theorem readCallable_headText (h : d.IsWritable) (hcallable : d.kind.isCallable = true)
    (hkey : ¬ HasWord AppliedName.keyword d.headText) :
    readCallable d.headText
      = .ok ⟨d.name.display, some d.listText, d.isConst, d.returns.map CType.text⟩ := by
  have htext : d.headText
      = d.name.display ++ '(' :: (d.listText ++ ')' :: (d.constText ++ d.typeText)) := by
    rw [Declaration.headText, Declaration.nameText, if_pos hcallable]
    simp
  have hsplit : AppliedName.split d.headText
      = .applied d.name.display d.listText (d.constText ++ d.typeText) :=
    (AppliedName.split_eq_applied_iff_of_not_hasWord hkey).2
      ⟨htext, not_mem_display h rfl (by decide), Parameter.balanced_listText h.params⟩
  unfold readCallable
  rw [hsplit]
  exact (readTail_typeText h hcallable _ _).trans (by rw [trim_display h])

/-- Only a method is `const`. -/
theorem isConst_of_variable (h : d.IsWritable) (hvariable : d.kind.isCallable = false) :
    d.isConst = false := by
  rw [Bool.eq_false_iff]
  intro hconst
  rw [h.const hconst] at hvariable
  simp [DeclKind.isCallable] at hvariable

theorem headText_of_variable (h : d.IsWritable) (hvariable : d.kind.isCallable = false) :
    d.headText = d.name.display ++ d.typeText := by
  rw [Declaration.headText, Declaration.nameText, Declaration.constText,
    isConst_of_variable h hvariable, hvariable]
  rfl

/-- A variable is read as its name and its type, which is behind the first colon that stands
alone. -/
theorem readVariable_headText (h : d.IsWritable) (hvariable : d.kind.isCallable = false) :
    readVariable d.kind d.headText
      = .ok ⟨d.name.display, none, false, d.returns.map CType.text⟩ := by
  have hparen : '(' ∉ d.name.display := not_mem_display h rfl (by decide)
  rw [headText_of_variable h hvariable]
  unfold readVariable
  cases hreturns : d.returns with
  | none =>
    have hcut : Text.cut .angled .colon d.name.display = none := cut_colon_display h none
    rw [typeText_of_none hreturns, List.append_nil, hcut]
    simp [hparen, trim_display h]
  | some type =>
    -- no colon of the name stands alone, so the first that does is the mark of the type
    have htype := h.returns type hreturns
    have hdepth : Text.Brackets.angled.depthAfter 0 d.name.display = 0 := by
      apply Text.Brackets.depthAfter_of_forall
      intro c hc
      rcases isIdentChar_or_of_mem_display h c hc with hident | rfl
      · exact Text.isBracket_of_isIdentChar hident
      · rfl
    have hignores : Text.Mark.colon.Ignores d.name.display d.typeText := by
      apply Text.Mark.ignores_colon
      exact Text.head?_ne_of_startsBlank (startsBlank_typeText d) rfl
    have hcut : Text.cut .angled .colon (d.name.display ++ d.typeText)
        = some (d.name.display ++ [' '], ' ' :: type.text) := by
      rw [Text.cut, Text.cutFrom_append hignores, cut_colon_display h, hdepth,
        typeText_of_some hreturns, Declaration.typeMark, hvariable]
      simp [Text.cutFrom, Text.Mark.colon, Text.Brackets.step, Text.Brackets.angled, Text.consFst]
    have hname : trim (d.name.display ++ [' ']) = d.name.display := by
      rw [Text.trim_append_of_isBlank rfl, trim_display h]
    rw [hcut]
    simp [hparen, hname, trim_space_type htype]

/-! ## The target name

A target name is looked for from the end, and without looking at the rest. So there must be no `as`
in front of the last word by accident. It could only be in the type, and that is excluded. -/

/-- A text that ends in two words of which the first is `as` has that word near its end. -/
theorem mem_of_words_eq_as {l l' ws : List Text} {m name : Text} (hne : ws ≠ [])
    (h : l ++ m :: ws = l' ++ ["as".toList, name]) : "as".toList ∈ m :: ws := by
  rcases List.eq_nil_or_concat ws with rfl | ⟨ws, last, rfl⟩
  · exact absurd rfl hne
  · have hsplit : (l ++ m :: ws) ++ [last] = (l' ++ ["as".toList]) ++ [name] := by simpa using h
    have hfront := (List.append_inj' hsplit rfl).1
    have hlast : (m :: ws).getLast? = some "as".toList := by
      have hlast := congrArg List.getLast? hfront
      rwa [List.getLast?_append_of_ne_nil _ (List.cons_ne_nil m ws), List.getLast?_concat] at hlast
    rw [List.concat_eq_append]
    exact List.mem_append_left [last] (List.mem_of_getLast? hlast)

/-- What the text in front of a target name ends with: a type, `const`, a list or the name. -/
theorem cases_headText (h : d.IsWritable) :
    (∃ (x : Text) (type : CType), d.headText = x ++ ' ' :: (d.typeMark ++ ' ' :: type.text)
        ∧ type.IsWritable)
      ∨ (∃ x, d.headText = (x ++ [')']) ++ ' ' :: "const".toList)
      ∨ (∃ x, d.headText = x ++ [')'])
      ∨ d.headText = d.name.display := by
  cases hreturns : d.returns with
  | some type =>
    refine .inl ⟨d.nameText ++ d.constText, type, ?_, h.returns type hreturns⟩
    rw [Declaration.headText, typeText_of_some hreturns, List.append_assoc]
  | none =>
    right
    cases hcallable : d.kind.isCallable with
    | false =>
      rw [headText_of_variable h hcallable, typeText_of_none hreturns, List.append_nil]
      exact .inr (.inr rfl)
    | true =>
      have hname : d.nameText = d.name.display ++ '(' :: d.listText ++ [')'] := by
        rw [Declaration.nameText, if_pos hcallable, List.append_assoc]
        rfl
      have htext : d.headText = d.name.display ++ '(' :: d.listText ++ [')'] ++ d.constText := by
        rw [Declaration.headText, typeText_of_none hreturns, List.append_nil, hname]
      cases hconst : d.isConst with
      | true =>
        exact .inl ⟨_, by rw [htext, Declaration.constText, hconst]; rfl⟩
      | false =>
        exact .inr (.inl ⟨d.name.display ++ '(' :: d.listText,
          by rw [htext, Declaration.constText, hconst]; simp⟩)

theorem isBlank_getLast?_headText (h : d.IsWritable) (hc : d.headText.getLast? = some c) :
    isBlank c = false := by
  rcases cases_headText h with ⟨x, type, htext, htype⟩ | ⟨x, htext⟩ | ⟨x, htext⟩ | htext <;>
    rw [htext] at hc
  · have hsplit : x ++ ' ' :: (d.typeMark ++ ' ' :: type.text)
        = (x ++ ' ' :: (d.typeMark ++ [' '])) ++ type.text := by
      simp
    rw [hsplit, List.getLast?_append_of_ne_nil _ htype.nonempty, ← trim_type htype] at hc
    exact Text.getLast?_trim hc
  · rw [List.getLast?_append_of_ne_nil _ (by simp)] at hc
    obtain rfl : 't' = c := Option.some.inj hc
    rfl
  · rw [List.getLast?_concat] at hc
    obtain rfl := Option.some.inj hc
    rfl
  · exact isBlank_of_mem_display h (List.mem_of_getLast? hc)

/-- In front of the target name there is nothing that could be one. -/
theorem words_headText_ne (h : d.IsWritable) (ws : List Text) {name : Text}
    (hname : isIdentifier name = true) : words d.headText ≠ ws ++ ["as".toList, name] := by
  intro hwords
  -- a word that ends in `)` is neither the keyword nor a name
  have hparen : ∀ w : Text, w ++ [')'] ≠ "as".toList := by
    intro w hw
    have hlast := congrArg List.getLast? hw
    rw [List.getLast?_concat] at hlast
    exact absurd hlast (by decide)
  rcases cases_headText h with ⟨x, type, htext, htype⟩ | ⟨x, htext⟩ | ⟨x, htext⟩ | htext <;>
    rw [htext] at hwords
  · obtain ⟨hmarkne, hmark, hother, -⟩ := typeMark_facts d
    have hne : words type.text ≠ [] := by
      rw [Ne, Text.words_eq_nil_iff]
      intro hgap
      apply htype.nonempty
      rw [← trim_type htype, Text.trim_of_isGap hgap]
    rw [Text.words_append_cons rfl, Text.words_append_cons rfl, Text.words_of_forall hmarkne hmark,
      List.singleton_append] at hwords
    rcases List.mem_cons.1 (mem_of_words_eq_as hne hwords) with has | has
    · exact hother has.symm
    · exact htype.untargeted _ has rfl
  · obtain ⟨l, w, hl⟩ := Text.exists_words_concat (c := ')') rfl x
    have hconst : words "const".toList = ["const".toList] := rfl
    rw [Text.words_append_cons rfl, hl, hconst, List.append_assoc] at hwords
    rcases List.mem_cons.1 (mem_of_words_eq_as (by simp) hwords) with has | has
    · exact hparen w has.symm
    · exact absurd (List.mem_singleton.1 has) (by decide)
  · obtain ⟨l, w, hl⟩ := Text.exists_words_concat (c := ')') rfl x
    have hsplit : l ++ [w ++ [')']] = (ws ++ ["as".toList]) ++ [name] := by
      rw [← hl, hwords, List.append_assoc]
      rfl
    have hlast := (List.append_inj' hsplit rfl).2
    rw [← List.singleton_inj.1 hlast] at hname
    exact Text.not_mem_of_isIdentifier (c := ')') hname rfl (by simp)
  · rw [Text.words_of_forall (display_ne_nil h) fun c hc => isBlank_of_mem_display h hc] at hwords
    have hlen := congrArg List.length hwords
    simp at hlen

/-- The target name is split off, and nothing else. -/
theorem splitTargetName_statement (h : d.IsWritable) :
    splitTargetName (d.headText ++ d.targetText) = (d.headText, d.targetName) := by
  cases htarget : d.targetName with
  | none =>
    have htext : d.targetText = [] := by rw [Declaration.targetText, htarget]
    rw [htext, List.append_nil]
    exact splitTargetName_of_words fun ws name hname => words_headText_ne h ws hname
  | some target =>
    have hident := h.target target htarget
    have htext : d.targetText = ' ' :: ("as".toList ++ ' ' :: target) := by
      rw [Declaration.targetText, htarget]
      rfl
    have hwords : words d.targetText = ["as".toList, target] := by
      have has : words "as".toList = ["as".toList] := rfl
      rw [htext, Text.words_cons_of_isBlank _ _ rfl, Text.words_append_cons rfl, has,
        Text.words_of_forall (Text.isSegment_of_isIdentifier hident).nonempty
          fun c hc => Text.isBlank_of_mem_identifier hident hc]
      rfl
    refine splitTargetName_append (fun c hc => isBlank_getLast?_headText h hc) ?_ hwords hident
    rw [htext]
    exact Text.startsBlank_cons rfl _

/-! ## The statement

A `;` inside the parentheses of the list is no matter, so a default can have one. The other parts
have none. -/

/-- The front has the keywords of the declaration and no other words. -/
theorem isFront_frontText (d : Declaration) : IsFront d.isInherited d.kind d.frontText := by
  rw [Declaration.frontText]
  cases d.isInherited <;> cases d.kind <;> exact ⟨by decide, ' ', rfl, rfl⟩

theorem startsStatement_statementText (d : Declaration) :
    startsStatement d.statementText = true := by
  rw [startsStatement_iff, Declaration.statementText, Declaration.frontText]
  cases d.isInherited with
  | true =>
    exact ⟨"inherited".toList, by decide, ' ',
      d.kind.keyword ++ [' '] ++ (d.headText ++ d.targetText), rfl, rfl⟩
  | false =>
    refine ⟨d.kind.keyword, ?_, ' ', d.headText ++ d.targetText, by simp, rfl⟩
    cases d.kind <;> decide

/-- There are no blanks around the body: it begins with the name and ends with a part of the
statement. -/
theorem trim_body (h : d.IsWritable) :
    trim (d.headText ++ d.targetText) = d.headText ++ d.targetText := by
  apply Text.trim_eq_self
  · intro c hc
    obtain ⟨x, hx⟩ : ∃ x, d.headText = d.name.display ++ x := by
      rw [Declaration.headText, Declaration.nameText]
      split
      · exact ⟨_, List.append_assoc ..⟩
      · exact ⟨_, rfl⟩
    rw [hx, List.append_assoc, List.head?_append_of_ne_nil _ (display_ne_nil h)] at hc
    exact isBlank_of_mem_display h (List.mem_of_head? hc)
  · intro c hc
    cases htarget : d.targetName with
    | none =>
      rw [Declaration.targetText, htarget, List.append_nil] at hc
      exact isBlank_getLast?_headText h hc
    | some target =>
      have hident := h.target target htarget
      have hne := (Text.isSegment_of_isIdentifier hident).nonempty
      rw [Declaration.targetText, htarget, List.getLast?_append_of_ne_nil _ (by simp),
        List.getLast?_append_of_ne_nil _ hne] at hc
      exact Text.isBlank_of_mem_identifier hident (List.mem_of_getLast? hc)

/-- Up to the end of the list the text can be a statement. -/
theorem isStatement_nameText (h : d.IsWritable) : IsStatement (d.frontText ++ d.nameText) := by
  have hfront : IsStatement d.frontText := by
    rw [Declaration.frontText]
    cases d.isInherited <;> cases d.kind <;> exact ⟨by decide, by decide, rfl, rfl⟩
  have hdisplay : d.name.display.all isInner = true := by
    rw [List.all_eq_true]
    intro c hc
    rcases isIdentChar_or_of_mem_display h c hc with hident | rfl
    · exact isInner_of_isIdentChar hident
    · rfl
  rw [Declaration.nameText]
  split
  · -- the list may hold a `;`, but only inside its parentheses
    obtain ⟨hwhole, hclosed⟩ := Text.cut_round_of_balanced (m := ';')
      (Parameter.balanced_listText h.params) (by decide)
    rw [← List.append_assoc]
    exact (hfront.append_of_all hdisplay).append hwhole hclosed
  · exact hfront.append_of_all hdisplay

/-- No part of the statement ends it. -/
theorem isStatement_statementText (h : d.IsWritable) : IsStatement d.statementText := by
  -- part by part: none of them ends the statement that those in front of it have begun
  have hconst : IsStatement (d.frontText ++ d.nameText ++ d.constText) := by
    rw [Declaration.constText]
    split
    · exact (isStatement_nameText h).append_of_all rfl
    · rw [List.append_nil]
      exact isStatement_nameText h
  have htype : IsStatement (d.frontText ++ d.nameText ++ d.constText ++ d.typeText) := by
    cases hreturns : d.returns with
    | none => rwa [typeText_of_none hreturns, List.append_nil]
    | some type =>
      obtain ⟨-, -, hbalanced, hwhole, -⟩ := h.returns type hreturns
      obtain ⟨-, -, -, -, hinner⟩ := typeMark_facts d
      have hmark : (' ' :: (d.typeMark ++ [' '])).all isInner = true := by
        rw [List.all_cons, List.all_append, hinner]
        rfl
      have htext : d.typeText = ' ' :: (d.typeMark ++ [' ']) ++ type.text := by
        rw [typeText_of_some hreturns]
        simp
      rw [htext, ← List.append_assoc]
      exact (hconst.append_of_all hmark).append_of_balanced hwhole hbalanced
  have htarget :
      IsStatement (d.frontText ++ d.nameText ++ d.constText ++ d.typeText ++ d.targetText) := by
    cases htarget : d.targetName with
    | none => rwa [Declaration.targetText, htarget, List.append_nil]
    | some target =>
      have hident : target.all isInner = true := by
        rw [List.all_eq_true]
        intro c hc
        exact isInner_of_isIdentChar (Text.isIdentChar_of_mem (h.target target htarget) hc)
      have has : " as ".toList.all isInner = true := rfl
      rw [Declaration.targetText, htarget]
      exact htype.append_of_all (by rw [List.all_append, has, hident]; rfl)
  have htext : d.statementText
      = d.frontText ++ d.nameText ++ d.constText ++ d.typeText ++ d.targetText := by
    simp only [Declaration.statementText, Declaration.headText, List.append_assoc]
  rw [htext]
  exact htarget

/-- The word `operator` is not in a part of the statement if it is not in the whole. At the end of
that part a blank follows or nothing, so a word there ends there. -/
theorem not_hasWord_headText (hkey : ¬ HasWord AppliedName.keyword d.statementText) :
    ¬ HasWord AppliedName.keyword d.headText := by
  intro hword
  apply hkey
  have hends : Text.endsWord d.targetText = true := by
    rw [Declaration.targetText]
    split
    · exact Text.endsWord_cons_of_isBlank rfl _
    · rfl
  have hblank : isBlank ' ' = true := rfl
  obtain ⟨x, hx⟩ : ∃ x, d.frontText = x ++ [' '] := ⟨_, (List.append_assoc ..).symm⟩
  have htext : d.statementText = x ++ ' ' :: (d.headText ++ d.targetText) := by
    rw [Declaration.statementText, hx, List.append_assoc]
    rfl
  rw [htext, Text.hasWord_append_cons_iff hblank (by decide)
    fun c hc => AppliedName.isBlank_of_mem_keyword hc]
  exact .inr (hword.append hends)

/-- The body of the statement is read as the declaration. -/
theorem readDeclaration_statement (h : d.IsWritable)
    (hkey : ¬ HasWord AppliedName.keyword d.headText) :
    readDeclaration d.kind d.isInherited (d.headText ++ d.targetText)
      = .ok { d with position := none } := by
  -- a type that is written is not empty, and is read as itself
  have hreturns : ((d.returns.map CType.text).filter fun type => !type.isEmpty).map CType.parse
      = d.returns := by
    cases hreturns : d.returns with
    | none => rfl
    | some type =>
      obtain ⟨hfixed, hne, -⟩ := h.returns type hreturns
      simp [Option.filter, hne, hfixed]
  have hcheck : ∀ params returns,
      checkWritten d.kind ⟨d.name.display, params, d.isConst, returns⟩ = .ok () := by
    intro params returns
    refine checkWritten_eq_ok_iff.2 ⟨?_, ?_, ?_, h.const⟩
    · simpa only [parse_display h] using leaf_ne_nil h
    · simp only [parse_display h, List.any_eq_false]
      intro c hc
      simp [Text.isBlank_of_mem_identifier h.leaf hc]
    · simpa only [parse_display h] using h.member
  rw [readDeclaration_eq_ok_iff, splitTargetName_statement h]
  refine ⟨h.inherited, ?_⟩
  cases hcallable : d.kind.isCallable with
  | true =>
    refine ⟨_, readCallable_headText h hcallable hkey, hcheck _ _, ?_⟩
    refine declare_eq_ok_iff.2 ⟨d.params, ?_, by simp, ?_⟩
    · rintro list ⟨⟩
      exact Parameter.readList_listText h.params h.listed
    · simp only [parse_display h, hreturns]
  | false =>
    have hconst := isConst_of_variable h hcallable
    refine ⟨_, readVariable_headText h hcallable, hconst ▸ hcheck _ _, ?_⟩
    refine declare_eq_ok_iff.2 ⟨d.params, by simp, fun _ => h.callable hcallable, ?_⟩
    simp only [parse_display h, hreturns, ← hconst]

/-- A declaration that is written as a statement is read back as it was, without its position. -/
theorem parse_statementText (h : d.IsWritable)
    (hkey : ¬ HasWord AppliedName.keyword d.statementText) :
    parse (d.statementText ++ [';']) = .ok [.declaration { d with position := none }] := by
  obtain ⟨hskip, -⟩ := skipTrivia_of_startsStatement (startsStatement_statementText d)
  rw [parse_statement hskip (isStatement_statementText h), Declaration.statementText,
    readStatement_front (isFront_frontText d), trim_body h,
    readDeclaration_statement h (not_hasWord_headText hkey)]
  rfl

def findMethod : Declaration :=
  ⟨.method, ⟨⟨["ns".toList, "Table".toList]⟩, "find".toList⟩,
    ⟨[⟨⟨"std::list<int, long> const &".toList⟩, none⟩,
        ⟨⟨"char const *".toList⟩, some "g(1, 2)".toList⟩], by decide, by decide⟩,
    some ⟨"std::vector<int> const &".toList⟩, some "locate".toList, true, true, none⟩

example : findMethod.statementText
    = ("inherited method ns::Table::find(std::list<int, long> const &, char const * = g(1, 2)) "
      ++ "const -> std::vector<int> const & as locate").toList := by
  decide +kernel

theorem parse_statementText_findMethod :
    findMethod.IsWritable ∧ ¬ HasWord AppliedName.keyword findMethod.statementText
      ∧ parse (findMethod.statementText ++ [';']) = .ok [.declaration findMethod] := by
  have hwritable : findMethod.IsWritable := by decide +kernel
  have hkey : ¬ HasWord AppliedName.keyword findMethod.statementText :=
    AppliedName.not_hasWord_of_not_mem (by decide +kernel)
  exact ⟨hwritable, hkey, parse_statementText hwritable hkey⟩

end Script

end Overlay
