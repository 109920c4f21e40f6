/-
The phrases of a statement.

A statement of a declaration is its keywords, with blanks behind them, and a body
(`readStatement_front`), and whatever is read as a declaration is of this kind (`exists_front`).
A body ends in a target name exactly if its last words are `as` and an identifier
(`splitTargetName_append`, `exists_of_splitTargetName`). What may stand behind a parameter list
begins with `const` or with `->` (`words_of_readTail`). All of this is said of the words of a text,
so the blanks between them are no matter.
-/
import Overlay.Proofs.Name.Operator
import Overlay.Proofs.Name.Segments
import Overlay.Proofs.Parameter.Building
import Overlay.Proofs.Parameter.Readback
import Overlay.Proofs.Script.Success
import Overlay.Proofs.Text.WordEnds
import Overlay.Script.Statement

set_option autoImplicit false

namespace Overlay

namespace Script

open Text (IsGap StartsBlank isBlank trim trimStart words)

variable {t u v w r : Text}

/-! ## The first word

A reader of statements looks at the first word, trims what is behind it, and goes on with that. So
the lemmas are about a trimmed text in which a word stands behind a gap. -/

/-- A word at the front is split off, and the blanks behind it are dropped. -/
theorem splitWord_append (hne : w ≠ []) (hw : ∀ c ∈ w, isBlank c = false)
    (hr : StartsBlank r) : splitWord (w ++ r) = (w, trimStart r) := by
  have hstart : trimStart (w ++ r) = w ++ r := by
    apply Text.trimStart_eq_self
    intro c hc
    rw [List.head?_append, List.head?_eq_some_head hne] at hc
    exact hw c (List.mem_of_head? ((List.head?_eq_some_head hne).trans hc))
  have hword : ∀ c ∈ w, (!isBlank c) = true := fun c hc => by rw [hw c hc]; rfl
  obtain ⟨htake, hdrop⟩ := Text.span_append hword fun c hc => by rw [hr c hc]; rfl
  rw [splitWord, hstart, htake, hdrop]

/-- The same in a trimmed text. What is left is the trimmed rest. -/
theorem splitWord_trim (hu : IsGap u) (hne : w ≠ []) (hw : ∀ c ∈ w, isBlank c = false)
    (hr : StartsBlank r) : splitWord (trim (u ++ (w ++ r))) = (w, trim r) := by
  obtain ⟨g, htrim, hg, hstart⟩ := Text.trim_word_append hne hw hr
  rw [Text.trim_gap_append hu, htrim, splitWord_append hne hw hstart,
    Text.trimStart_gap_append hg, Text.trimStart_eq_self fun c hc => Text.head?_trim hc]

/-! ## The keywords in front

Only the words of the front count (`IsFront`). The reader branches on the first word, so each branch
is told once (`readStatement_of_splitWord`, `readStatement_of_inherited`), and the statement with a
front is a case of one of them. -/

/-- The keywords of a declaration, with blanks around them. -/
structure IsFront (isInherited : Bool) (kind : DeclKind) (front : Text) : Prop where
  words : Text.words front = (if isInherited then ["inherited".toList] else []) ++ [kind.keyword]
  ends : ∃ c, front.getLast? = some c ∧ isBlank c = true

/-- The keyword of a declaration is no other word that a statement can begin with. -/
theorem keyword_facts (kind : DeclKind) :
    kind.keyword ≠ [] ∧ kind.keyword ≠ "inherited".toList
      ∧ classKeywords.contains kind.keyword = false := by
  cases kind <;> decide

/-- A text whose only word is `w`, and that ends with a blank. -/
theorem exists_of_words_singleton {front : Text} (h : words front = [w])
    (hends : ∃ c, front.getLast? = some c ∧ isBlank c = true) :
    ∃ g r, front = g ++ (w ++ r) ∧ IsGap g ∧ IsGap r ∧ r ≠ [] := by
  obtain ⟨g, r, hg, rfl, hr, -⟩ := Text.exists_of_words_eq_cons h
  obtain ⟨hne, hw⟩ := Text.mem_words (h ▸ List.mem_cons_self : w ∈ words _)
  refine ⟨g, r, rfl, hg, Text.words_eq_nil_iff.1 hr, ?_⟩
  rintro rfl
  obtain ⟨c, hlast, hc⟩ := hends
  -- the text would end with the word
  rw [List.append_nil, List.getLast?_append_of_ne_nil _ hne] at hlast
  rw [hw c (List.mem_of_getLast? hlast)] at hc
  simp at hc

/-- Blanks around a statement do not matter. -/
theorem readStatement_trim (t : Text) : readStatement (trim t) = readStatement t := by
  unfold readStatement
  rw [Text.trim_trim]

/-- A statement whose first word is no class keyword. -/
theorem readStatement_of_splitWord {keyword rest : Text}
    (hfirst : splitWord (trim t) = (keyword, rest)) (hother : keyword ≠ "inherited".toList)
    (hclass : classKeywords.contains keyword = false) (hne : keyword ≠ []) :
    readStatement t
      = match DeclKind.ofKeyword keyword with
        | none => .error (.statement (.unknownKeyword keyword))
        | some kind => (readDeclaration kind false rest).map Item.declaration := by
  unfold readStatement
  simp only [hfirst]
  rw [decide_eq_false hother]
  cases hkind : DeclKind.ofKeyword keyword <;>
    simp only [Bool.false_eq_true, if_false, hfirst, hclass, Bool.and_false, if_neg hne, hkind]

/-- A statement whose first word is `inherited`. -/
theorem readStatement_of_inherited {keyword rest more : Text}
    (hfirst : splitWord (trim t) = ("inherited".toList, rest))
    (hsecond : splitWord rest = (keyword, more)) (hne : keyword ≠ []) :
    readStatement t
      = match DeclKind.ofKeyword keyword with
        | none => .error (.statement (.unknownKeyword keyword))
        | some kind => (readDeclaration kind true more).map Item.declaration := by
  unfold readStatement
  cases hkind : DeclKind.ofKeyword keyword <;>
    simp only [hfirst, decide_true, if_true, hsecond, Bool.not_true, Bool.false_and,
      Bool.false_eq_true, if_false, if_neg hne, hkind]

/-- A declaration is read off its body by the reader of its kind. -/
theorem readStatement_front {isInherited : Bool} {kind : DeclKind} {front : Text}
    (h : IsFront isInherited kind front) (body : Text) :
    readStatement (front ++ body)
      = (readDeclaration kind isInherited (trim body)).map Item.declaration := by
  obtain ⟨hne, hother, hclass⟩ := keyword_facts kind
  obtain ⟨hwords, hends⟩ := h
  have hblank : ∀ c ∈ kind.keyword, isBlank c = false := by
    have hmem : kind.keyword ∈ words front := by
      rw [hwords]
      exact List.mem_append_right _ List.mem_cons_self
    exact (Text.mem_words hmem).2
  cases isInherited with
  | false =>
    obtain ⟨g, r, rfl, hg, hr, hrne⟩ := exists_of_words_singleton hwords hends
    have hfirst : splitWord (trim (g ++ (kind.keyword ++ (r ++ body))))
        = (kind.keyword, trim (r ++ body)) :=
      splitWord_trim hg hne hblank (Text.startsBlank_gap_append hr hrne body)
    rw [Text.trim_gap_append hr] at hfirst
    rw [List.append_assoc, List.append_assoc,
      readStatement_of_splitWord hfirst hother hclass hne, DeclKind.ofKeyword_keyword]
  | true =>
    -- behind `inherited` stands a text whose only word is the keyword
    obtain ⟨g, s, hg, rfl, hswords, hstart⟩ := Text.exists_of_words_eq_cons hwords
    have hne' : s ≠ [] := by
      rintro rfl
      simp at hswords
    have hsends : ∃ c, s.getLast? = some c ∧ isBlank c = true := by
      rwa [← List.append_assoc, List.getLast?_append_of_ne_nil _ hne'] at hends
    obtain ⟨g', r, rfl, hg', hr, hrne⟩ := exists_of_words_singleton hswords hsends
    have hfirst : splitWord (trim (g ++ ("inherited".toList ++
          ((g' ++ (kind.keyword ++ r)) ++ body))))
        = ("inherited".toList, trim ((g' ++ (kind.keyword ++ r)) ++ body)) := by
      have hmem : "inherited".toList
          ∈ words (g ++ ("inherited".toList ++ (g' ++ (kind.keyword ++ r)))) := by
        rw [hwords]
        exact List.mem_cons_self
      apply splitWord_trim hg (Text.mem_words hmem).1 (Text.mem_words hmem).2
      · exact Text.startsBlank_append_of_ne_nil hstart (by simp [hrne]) body
    have hsecond : splitWord (trim ((g' ++ (kind.keyword ++ r)) ++ body))
        = (kind.keyword, trim (r ++ body)) := by
      rw [List.append_assoc, List.append_assoc]
      exact splitWord_trim hg' hne hblank (Text.startsBlank_gap_append hr hrne body)
    rw [Text.trim_gap_append hr] at hsecond
    rw [List.append_assoc, List.append_assoc, readStatement_of_inherited hfirst hsecond hne,
      DeclKind.ofKeyword_keyword]

/-- A class is not read as a declaration. -/
theorem readClass_ne_declaration (t : Text) (d : Declaration) :
    readClass t ≠ .ok (.declaration d) := by
  have hscope : ∀ (name : Text) (bases : List Text) (target : Option Text),
      (if name = [] then .error .unnamedClass
        else (bases.mapM (readBase name)).map fun paths => Item.scope (.parse name) paths target)
        ≠ (.ok (.declaration d) : Except StatementFault Item) := by
    intro name bases target h
    by_cases hname : name = []
    · rw [if_pos hname] at h
      simp at h
    · rw [if_neg hname] at h
      obtain ⟨paths, -, hitem⟩ := map_eq_ok_iff.1 h
      simp at hitem
  intro h
  unfold readClass at h
  exact hscope _ _ _ h

/-! ## The checks of a declaration

Every check is turned into what it asks for. A declaration has been read if and only if all these
conditions hold, so no lemma further on meets an error of the reader. The last part of the section
goes back from a declaration to its keywords. -/

/-- What a declaration has to fulfil: it has a name, which is one word, a member has a scope, and
only a method is `const`. -/
theorem checkWritten_eq_ok_iff {kind : DeclKind} {written : Written} :
    checkWritten kind written = .ok ()
      ↔ (QualifiedName.parse written.name).leaf ≠ []
        ∧ (QualifiedName.parse written.name).leaf.any isBlank = false
        ∧ (kind.isMember = true → (QualifiedName.parse written.name).scope.isGlobal = false)
        ∧ (written.isConst = true → kind = .method) := by
  -- the three checks in their order; a failed one refutes its condition
  simp only [checkWritten]
  split
  next h =>
    constructor
    · intro hok
      simp at hok
    · rintro ⟨hne, hany, -⟩
      rw [hany] at h
      simp [hne] at h
  next h =>
    rw [not_or] at h
    split
    next hscope =>
      rw [Bool.and_eq_true] at hscope
      constructor
      · intro hok
        simp at hok
      · rintro ⟨-, -, hmember, -⟩
        rw [hmember hscope.1] at hscope
        simp at hscope
    next hscope =>
      split
      next hconst =>
        rw [Bool.and_eq_true, bne_iff_ne] at hconst
        constructor
        · intro hok
          simp at hok
        · rintro ⟨-, -, -, hmethod⟩
          exact absurd (hmethod hconst.1) hconst.2
      next hconst =>
        refine ⟨fun _ => ⟨h.1, by simpa using h.2, ?_, ?_⟩, fun _ => rfl⟩
        · intro hmember
          simpa [hmember] using hscope
        · intro hc
          simpa [hc] using hconst

/-- What it takes for the body of a declaration to be read. -/
theorem readDeclaration_eq_ok_iff {kind : DeclKind} {isInherited : Bool} {d : Declaration} :
    readDeclaration kind isInherited t = .ok d
      ↔ (isInherited = true → kind.isMember = true)
        ∧ ∃ written,
          (if kind.isCallable then readCallable (splitTargetName t).1
            else readVariable kind (splitTargetName t).1) = .ok written
          ∧ checkWritten kind written = .ok ()
          ∧ declare kind isInherited written (splitTargetName t).2 = .ok d := by
  unfold readDeclaration
  by_cases hmember : (isInherited && !kind.isMember) = true
  · rw [if_pos hmember]
    constructor
    · intro h
      simp [throw, throwThe, MonadExceptOf.throw, bind, Except.bind] at h
    · rintro ⟨himp, -⟩
      rw [Bool.and_eq_true] at hmember
      rw [himp hmember.1] at hmember
      simp at hmember
  · rw [if_neg hmember]
    have himp : isInherited = true → kind.isMember = true := by
      intro hinherited
      simpa [hinherited] using hmember
    simp only [bind_eq_ok_iff, mapError_eq_ok_iff]
    constructor
    · rintro ⟨written, hwritten, ⟨⟩, hcheck, hd⟩
      exact ⟨himp, written, hwritten, hcheck, hd⟩
    · rintro ⟨-, written, hwritten, hcheck, hd⟩
      exact ⟨written, hwritten, (), hcheck, hd⟩

/-- A declaration is what was written, with the parameters of its list. -/
theorem declare_eq_ok_iff {kind : DeclKind} {isInherited : Bool} {written : Written}
    {target : Option Text} {d : Declaration} :
    declare kind isInherited written target = .ok d
      ↔ ∃ ps : ParameterList, (∀ list, written.params = some list →
            Parameter.readList list = .ok ps.items)
          ∧ (written.params = none → ps = .empty)
          ∧ d = ⟨kind, .parse written.name, ps,
              (written.returns.filter fun type => !type.isEmpty).map CType.parse, target,
              written.isConst, isInherited, none⟩ := by
  -- with or without a list, what is done with the parameters is the same
  have hlist : ∀ {params : List Parameter},
      (do
        let d ← ((Declaration.named kind (.parse written.name)).withParameters params).mapError
          Cause.refused
        return { d with
          returns := (written.returns.filter fun type => !type.isEmpty).map CType.parse
          targetName := target
          isConst := written.isConst
          isInherited := isInherited }) = (.ok d : Except Cause Declaration)
        ↔ ∃ ps : ParameterList, params = ps.items
          ∧ d = ⟨kind, .parse written.name, ps,
              (written.returns.filter fun type => !type.isEmpty).map CType.parse, target,
              written.isConst, isInherited, none⟩ := by
    intro params
    simp only [bind_eq_ok_iff, mapError_eq_ok_iff]
    constructor
    · rintro ⟨d', hd', hd⟩
      obtain ⟨hitems, hshape⟩ := Declaration.eq_of_withParameters hd'
      refine ⟨d'.params, hitems.symm, ?_⟩
      rw [← Except.ok.inj hd, hshape]
      rfl
    · rintro ⟨ps, rfl, rfl⟩
      exact ⟨_, Declaration.withParameters_items rfl ps, rfl⟩
  unfold declare
  cases written.params with
  | none =>
    simp only [bind_eq_ok_iff, Except.ok.injEq, exists_eq_left', hlist]
    constructor
    · rintro ⟨ps, hitems, hd⟩
      exact ⟨ps, by simp, fun _ => ParameterList.ext_items hitems.symm, hd⟩
    · rintro ⟨ps, -, hempty, hd⟩
      exact ⟨ps, by rw [hempty trivial]; rfl, hd⟩
  | some list =>
    simp only [bind_eq_ok_iff, mapError_eq_ok_iff, hlist, Option.some.injEq]
    constructor
    · rintro ⟨params, hread, ps, rfl, hd⟩
      exact ⟨ps, fun _ h => h ▸ hread, by simp, hd⟩
    · rintro ⟨ps, hread, -, hd⟩
      exact ⟨ps.items, hread list rfl, ps, rfl, hd⟩

/-- A declaration needs a name. -/
theorem ne_nil_of_checkWritten {kind : DeclKind} {written : Written}
    (hread : (if kind.isCallable then readCallable t else readVariable kind t) = .ok written)
    (hcheck : checkWritten kind written = .ok ()) : t ≠ [] := by
  rintro rfl
  have hname : written.name = [] := by
    by_cases hcallable : kind.isCallable = true
    · rw [if_pos hcallable] at hread
      rw [← Except.ok.inj hread]
      rfl
    · rw [if_neg hcallable] at hread
      rw [← Except.ok.inj hread]
      rfl
  rw [checkWritten_eq_ok_iff, hname, QualifiedName.parse_nil] at hcheck
  exact hcheck.1 rfl

/-- Keywords alone are no declaration. -/
theorem readDeclaration_nil_ne_ok (kind : DeclKind) (isInherited : Bool) (d : Declaration) :
    readDeclaration kind isInherited [] ≠ .ok d := by
  intro h
  obtain ⟨-, written, hwritten, hcheck, -⟩ := readDeclaration_eq_ok_iff.1 h
  exact ne_nil_of_checkWritten hwritten hcheck rfl

/-- A kind is found by its own keyword. -/
theorem keyword_of_ofKeyword {word : Text} {kind : DeclKind}
    (h : DeclKind.ofKeyword word = some kind) : kind.keyword = word := by
  have hfound := List.find?_some h
  simpa using hfound

/-- The keywords of a declaration whose last one is `w`. -/
theorem isFront_append {isInherited : Bool} {kind : DeclKind} {front : Text} {c : Char}
    (hfront : words front = if isInherited then ["inherited".toList] else []) (hu : IsGap u)
    (hne : w ≠ []) (hw : ∀ d ∈ w, isBlank d = false) (hkind : DeclKind.ofKeyword w = some kind)
    (hstart : StartsBlank (u ++ (w ++ [c])) ∨ front = []) (hc : isBlank c = true) :
    IsFront isInherited kind (front ++ (u ++ (w ++ [c]))) := by
  have hwords : words (u ++ (w ++ [c])) = [kind.keyword] := by
    rw [Text.words_gap_append hu, Text.words_append_cons hc, Text.words_of_forall hne hw,
      keyword_of_ofKeyword hkind]
    rfl
  refine ⟨?_, c, ?_, hc⟩
  · rw [← hfront, ← hwords]
    rcases hstart with hstart | rfl
    · exact Text.words_append_of_startsBlank hstart front
    · rfl
  · rw [← List.append_assoc, ← List.append_assoc, List.getLast?_concat]

/-- The words that a declaration starts with, and what is read behind them. -/
theorem exists_of_readStatement {d : Declaration} (h : readStatement t = .ok (.declaration d)) :
    ∃ first rest kind, splitWord (trim t) = (first, rest) ∧
      ((first ≠ "inherited".toList ∧ DeclKind.ofKeyword first = some kind
          ∧ readDeclaration kind false rest = .ok d)
        ∨ ∃ word more, first = "inherited".toList ∧ splitWord rest = (word, more)
          ∧ DeclKind.ofKeyword word = some kind ∧ readDeclaration kind true more = .ok d) := by
  have hread : ∀ {kind inherited rest},
      (readDeclaration kind inherited rest).map Item.declaration = .ok (.declaration d) →
        readDeclaration kind inherited rest = .ok d := by
    intro kind inherited rest hmap
    obtain ⟨d', hd, hitem⟩ := map_eq_ok_iff.1 hmap
    rwa [Item.declaration.inj hitem] at hd
  unfold readStatement at h
  cases hfirst : splitWord (trim t) with
  | mk first rest => ?_
  simp only [hfirst] at h
  by_cases hinherited : first = "inherited".toList
  · simp only [hinherited, decide_true, if_true, Bool.not_true, Bool.false_and,
      Bool.false_eq_true, if_false] at h
    by_cases hempty : (splitWord rest).1 = []
    · rw [if_pos hempty] at h
      simp at h
    · rw [if_neg hempty] at h
      cases hkind : DeclKind.ofKeyword (splitWord rest).1 with
      | none => simp [hkind] at h
      | some kind =>
        rw [hkind] at h
        exact ⟨first, rest, kind, rfl, .inr ⟨_, _, hinherited, rfl, hkind, hread h⟩⟩
  · rw [decide_eq_false hinherited] at h
    simp only [Bool.false_eq_true, if_false, hfirst, Bool.not_false, Bool.true_and] at h
    by_cases hclass : classKeywords.contains first = true
    · -- a class is no declaration
      rw [if_pos hclass] at h
      exact absurd (mapError_eq_ok_iff.1 h) (readClass_ne_declaration rest d)
    · rw [if_neg hclass] at h
      by_cases hempty : first = []
      · rw [if_pos hempty] at h
        simp at h
      · rw [if_neg hempty] at h
        cases hkind : DeclKind.ofKeyword first with
        | none => simp [hkind] at h
        | some kind =>
          rw [hkind] at h
          exact ⟨first, rest, kind, rfl, .inl ⟨hinherited, hkind, hread h⟩⟩

/-- The first word of a text that has one. -/
theorem exists_of_splitWord {rest : Text} (h : splitWord (trim t) = (w, rest)) (hne : w ≠ []) :
    ∃ g r, t = g ++ (w ++ r) ∧ IsGap g ∧ (∀ c ∈ w, isBlank c = false) ∧ StartsBlank r
      ∧ rest = trim r := by
  by_cases hgap : IsGap t
  · rw [Text.trim_of_isGap hgap] at h
    exact absurd (Prod.mk.inj h).1.symm hne
  obtain ⟨g, w', r, rfl, hg, hne', hw', hr⟩ := Text.exists_word hgap
  rw [splitWord_trim hg hne' hw' hr] at h
  obtain ⟨rfl, rfl⟩ := Prod.mk.inj h
  exact ⟨g, r, rfl, hg, hw', hr, rfl⟩

theorem ne_nil_of_ofKeyword {kind : DeclKind} (h : DeclKind.ofKeyword w = some kind) :
    w ≠ [] := by
  rw [← keyword_of_ofKeyword h]
  exact (keyword_facts kind).1

/-- Whatever is read as a declaration is keywords and a body. -/
theorem exists_front {d : Declaration} (h : readStatement t = .ok (.declaration d)) :
    ∃ isInherited kind front body, t = front ++ body ∧ IsFront isInherited kind front
      ∧ readDeclaration kind isInherited (trim body) = .ok d := by
  obtain ⟨first, rest, kind, hfirst, ⟨-, hkind, hd⟩ | ⟨word, more, rfl, hsecond, hkind, hd⟩⟩ :=
    exists_of_readStatement h
  · have hne := ne_nil_of_ofKeyword hkind
    obtain ⟨g, r, rfl, hg, hw, hr, rfl⟩ := exists_of_splitWord hfirst hne
    -- the front takes one blank behind the keyword, and without a blank there is no body
    cases r with
    | nil => exact absurd hd (readDeclaration_nil_ne_ok kind false d)
    | cons c r =>
      have hc := hr c rfl
      refine ⟨false, kind, [] ++ (g ++ (first ++ [c])), r, by simp,
        isFront_append rfl hg hne hw hkind (.inr rfl) hc, ?_⟩
      rwa [Text.trim_cons_of_isBlank hc] at hd
  · have hne := ne_nil_of_ofKeyword hkind
    obtain ⟨g, r, rfl, hg, hw, hr, rfl⟩ := exists_of_splitWord hfirst (by decide)
    obtain ⟨g', r', rfl, hg', hw', hr', rfl⟩ := exists_of_splitWord hsecond hne
    cases r' with
    | nil => exact absurd hd (readDeclaration_nil_ne_ok kind true d)
    | cons c r' =>
      have hc := hr' c rfl
      have hwords : words (g ++ "inherited".toList) = ["inherited".toList] := by
        rw [Text.words_gap_append hg, Text.words_of_forall (by decide) hw]
      have hstart : StartsBlank (g' ++ (word ++ [c])) := by
        have hsplit : g' ++ (word ++ c :: r') = (g' ++ (word ++ [c])) ++ r' := by simp
        rw [hsplit] at hr
        exact Text.startsBlank_of_append hr
      refine ⟨true, kind, (g ++ "inherited".toList) ++ (g' ++ (word ++ [c])), r', ?_,
        isFront_append hwords hg' hne hw' hkind (.inl hstart) hc, ?_⟩
      · simp only [List.append_assoc, List.singleton_append]
      · rwa [Text.trim_cons_of_isBlank hc] at hd

/-! ## The target name

The reader goes through the text backwards: the name, a gap, `as`, a blank. In the lemmas the text
stands as it is written, and is reversed only inside the proofs. -/

/-- The word `as`, backwards: the blank that is asked for stands in front of the word. -/
theorem dropAs_eq_some_iff :
    dropAs t = some r
      ↔ ∃ g c s, t = g ++ ('s' :: 'a' :: c :: s) ∧ IsGap g ∧ isBlank c = true
        ∧ r = (trimStart s).reverse := by
  constructor
  · intro h
    unfold dropAs at h
    split at h
    next c s hs =>
      by_cases hc : isBlank c = true
      · rw [if_pos hc] at h
        refine ⟨t.takeWhile isBlank, c, s, ?_, ?_, hc, (Option.some.inj h).symm⟩
        · rw [← hs, Text.takeWhile_append_trimStart]
        · exact fun d hd => List.all_eq_true.1 List.all_takeWhile d hd
      · rw [if_neg hc] at h
        simp at h
    next => simp at h
  · rintro ⟨g, c, s, rfl, hg, hc, rfl⟩
    have hstart : trimStart (g ++ ('s' :: 'a' :: c :: s)) = 's' :: 'a' :: c :: s := by
      rw [Text.trimStart_gap_append hg]
      rfl
    simp only [dropAs, hstart, if_pos hc]

/-- The last word of a text that is given backwards, if it is an identifier. -/
theorem span_isIdentChar (hw : ∀ c ∈ w, Text.isIdentChar c = true) (hr : StartsBlank r) :
    (w ++ r).takeWhile Text.isIdentChar = w ∧ (w ++ r).dropWhile Text.isIdentChar = r := by
  exact Text.span_append hw fun c hc => Text.isIdentChar_of_isBlank (hr c hc)

/-- The phrase that sets a target name is the word `as` and the name, with blanks around them. -/
theorem words_eq_as_iff {target : Text} (hne : target ≠ [])
    (htarget : ∀ c ∈ target, isBlank c = false) :
    StartsBlank u ∧ words u = ["as".toList, target]
      ↔ ∃ c g g' g'', u = (g ++ [c]) ++ ("as".toList ++ (g' ++ (target ++ g''))) ∧ IsGap g
        ∧ isBlank c = true ∧ IsGap g' ∧ g' ≠ [] ∧ IsGap g'' := by
  constructor
  · rintro ⟨hstart, hwords⟩
    obtain ⟨g, r, hg, rfl, hrwords, hr⟩ := Text.exists_of_words_eq_cons hwords
    obtain ⟨g', r', hg', rfl, hr'words, -⟩ := Text.exists_of_words_eq_cons hrwords
    rcases List.eq_nil_or_concat g with rfl | ⟨g, c, rfl⟩
    · simp [StartsBlank, isBlank] at hstart
    rw [List.concat_eq_append] at hg ⊢
    obtain ⟨hg, hc⟩ := Text.isGap_append.1 hg
    refine ⟨c, g, g', r', rfl, hg, hc c List.mem_cons_self, hg', ?_,
      Text.words_eq_nil_iff.1 hr'words⟩
    rintro rfl
    -- the two words would be one
    cases target with
    | nil => exact hne rfl
    | cons d target =>
      have hd := htarget d List.mem_cons_self
      rw [hr d rfl] at hd
      simp at hd
  · rintro ⟨c, g, g', g'', rfl, hg, hc, hg', hne', hg''⟩
    have hgap : IsGap (g ++ [c]) := Text.isGap_append.2 ⟨hg, Text.isGap_cons.2 ⟨hc, Text.isGap_nil⟩⟩
    refine ⟨Text.startsBlank_gap_append hgap (by simp) _, ?_⟩
    have has : words "as".toList = ["as".toList] := rfl
    rw [Text.words_gap_append hgap, Text.words_append_gap_append hg' hne', has,
      Text.words_append_gap hg'', Text.words_of_forall hne htarget]
    rfl

/-- A target name at the end of a text is split off. -/
theorem splitTargetName_append {target : Text} (ht : ∀ c, t.getLast? = some c → isBlank c = false)
    (hstart : StartsBlank u) (hwords : words u = ["as".toList, target])
    (htarget : Text.isIdentifier target = true) :
    splitTargetName (t ++ u) = (t, some target) := by
  obtain ⟨hne, hblank⟩ := Text.mem_words (hwords ▸ by simp : target ∈ words u)
  obtain ⟨c, g, g', g'', rfl, hg, hc, hg', hne', hg''⟩ :=
    (words_eq_as_iff hne hblank).1 ⟨hstart, hwords⟩
  -- the text is read backwards: a gap, the name, and what stands in front of the name
  generalize hb : g'.reverse ++ ('s' :: 'a' :: c :: (g.reverse ++ t.reverse)) = b
  have hback : (t ++ (g ++ [c] ++ ("as".toList ++ (g' ++ (target ++ g''))))).reverse
      = g''.reverse ++ (target.reverse ++ b) := by
    rw [← hb]
    simp
  have hbefore : StartsBlank b := by
    rw [← hb]
    exact Text.startsBlank_gap_append (Text.isGap_reverse hg') (by simpa using hne') _
  obtain ⟨hname, hrest⟩ := span_isIdentChar
    (fun d hd => Text.isIdentChar_of_mem htarget (List.mem_reverse.1 hd)) hbefore
  have hfront : trimStart (target.reverse ++ b) = target.reverse ++ b := by
    apply Text.trimStart_eq_self
    intro d hd
    rw [List.head?_append, List.head?_eq_some_head (by simpa using hne)] at hd
    apply hblank d
    rw [← Option.some.inj hd]
    exact List.mem_reverse.1 (List.head_mem _)
  have hblankb : b.head?.any isBlank = true := by
    cases b with
    | nil => simp at hb
    | cons d b => exact hbefore d rfl
  have hhead : dropAs b = some t := by
    refine dropAs_eq_some_iff.2 ⟨_, _, _, hb.symm, Text.isGap_reverse hg', hc, ?_⟩
    rw [Text.trimStart_gap_append (Text.isGap_reverse hg), Text.trimStart_eq_self,
      List.reverse_reverse]
    intro d hd
    rw [List.head?_reverse] at hd
    exact ht d hd
  unfold splitTargetName
  simp only [hback, Text.trimStart_gap_append (Text.isGap_reverse hg''), hfront, hname, hrest,
    List.reverse_reverse, htarget, hblankb, Bool.and_self, if_true, hhead]

/-- Where a target name was split off, it is the last of the words, behind `as`. -/
theorem exists_of_splitTargetName {target : Text} (h : splitTargetName t = (r, some target)) :
    Text.isIdentifier target = true ∧ (∀ c, r.getLast? = some c → isBlank c = false)
      ∧ ∃ u, t = r ++ u ∧ StartsBlank u ∧ words u = ["as".toList, target] := by
  unfold splitTargetName at h
  simp only at h
  generalize hback : trimStart t.reverse = back at h
  split at h
  next hname =>
    rw [Bool.and_eq_true] at hname
    cases hhead : dropAs (back.dropWhile Text.isIdentChar) with
    | none => simp [hhead] at h
    | some head =>
      simp only [hhead, Prod.mk.injEq, Option.some.injEq] at h
      obtain ⟨rfl, htarget⟩ := h
      rw [htarget] at hname
      have hident := fun d hd => Text.isIdentChar_of_mem (c := d) hname.1 hd
      obtain ⟨g', c, s, hbefore, hg', hc, rfl⟩ := dropAs_eq_some_iff.1 hhead
      refine ⟨hname.1, ?_, ?_⟩
      · intro d hd
        rw [List.getLast?_reverse] at hd
        exact Text.head?_trimStart hd
      · -- the text backwards: a gap, the name, a gap, the word, a blank, a gap and the head
        have hgap : ∀ t : Text, IsGap (t.takeWhile isBlank) :=
          fun t d hd => List.all_eq_true.1 List.all_takeWhile d hd
        have htext : t = (trimStart s).reverse
            ++ (((s.takeWhile isBlank).reverse ++ [c])
              ++ ("as".toList
                ++ (g'.reverse ++ (target ++ (t.reverse.takeWhile isBlank).reverse)))) := by
          have hback : t.reverse = t.reverse.takeWhile isBlank ++ (target.reverse
              ++ (g' ++ ('s' :: 'a' :: c :: (s.takeWhile isBlank ++ trimStart s)))) := by
            rw [Text.takeWhile_append_trimStart, ← hbefore, ← htarget, List.reverse_reverse,
              List.takeWhile_append_dropWhile, ← hback, Text.takeWhile_append_trimStart]
          have htext := congrArg List.reverse hback
          rw [List.reverse_reverse] at htext
          exact htext.trans (by simp)
        refine ⟨_, htext, (words_eq_as_iff ?_ ?_).2 ⟨c, _, _, _, rfl,
          Text.isGap_reverse (hgap s), hc, Text.isGap_reverse hg', ?_,
          Text.isGap_reverse (hgap _)⟩⟩
        · rintro rfl
          simp [Text.isIdentifier] at hname
        · exact fun d hd => Text.isBlank_of_isIdentChar (hident d hd)
        · intro hnil
          rw [List.reverse_eq_nil_iff] at hnil
          rw [hbefore, hnil] at hname
          simp [isBlank] at hname
  next => simp at h

/-- If there is no target name nothing is dropped, not even blanks. -/
theorem eq_of_splitTargetName (h : splitTargetName t = (r, none)) : r = t := by
  unfold splitTargetName at h
  simp only at h
  split at h
  · split at h
    · simp at h
    · exact (Prod.mk.inj h).1.symm
  · exact (Prod.mk.inj h).1.symm

/-- Nothing is split off a text that does not end with `as` and an identifier. -/
theorem splitTargetName_of_words
    (h : ∀ ws name, Text.isIdentifier name = true → words t ≠ ws ++ ["as".toList, name]) :
    splitTargetName t = (t, none) := by
  cases hsplit : splitTargetName t with
  | mk head target =>
    cases target with
    | none => rw [eq_of_splitTargetName hsplit]
    | some name =>
      obtain ⟨hname, -, u, ht, hu, hwords⟩ := exists_of_splitTargetName hsplit
      refine absurd ?_ (h (words head) name hname)
      rw [ht, Text.words_append_of_startsBlank hu, hwords]

/-- What is split off as a target name: `as` and the name, or nothing, with a blank in front. -/
structure IsTargetPhrase (u : Text) (target : Option Text) : Prop where
  blank : StartsBlank u
  parts : words u = [] ∨ ∃ name, target = some name ∧ Text.isIdentifier name = true
    ∧ words u = ["as".toList, name]

/-- What is split off is a phrase, also if it is empty. -/
theorem exists_of_splitTargetName_eq {head : Text} {target : Option Text}
    (h : splitTargetName t = (head, target)) : ∃ u, t = head ++ u ∧ IsTargetPhrase u target := by
  cases target with
  | none =>
    refine ⟨[], ?_, Text.startsBlank_nil, .inl rfl⟩
    rw [List.append_nil, eq_of_splitTargetName h]
  | some name =>
    obtain ⟨hname, -, u, ht, hu, hwords⟩ := exists_of_splitTargetName h
    exact ⟨u, ht, hu, .inr ⟨name, rfl, hname, hwords⟩⟩

/-! ## Behind the parameter list

Two things can stand there, and both are told by how they begin. So if what stands there begins
otherwise, the list was not read as one. -/

theorem isBlank_of_mem_arrow : ∀ c ∈ "->".toList, isBlank c = false := by
  have hall : "->".toList.all (fun c => !isBlank c) = true := rfl
  intro c hc
  simpa using List.all_eq_true.1 hall c hc

theorem prefix_of_words_arrow {first : Text}
    (h : (words ("->".toList ++ t)).head? = some first) : "->".toList <+: first :=
  Text.prefix_of_words_append (by decide) isBlank_of_mem_arrow h

/-- What stands behind a name and `const`: nothing, or an arrow and a type. -/
def WritesType (rest : Text) (returns : Option Text) : Prop :=
  (rest = [] ∧ returns = none) ∨ ∃ type, rest = "->".toList ++ type ∧ returns = some (trim type)

/-- A type begins with the arrow. -/
theorem WritesType.arrow_prefix {rest : Text} {returns : Option Text} (h : WritesType rest returns)
    {first : Text} (hfirst : (words rest).head? = some first) : "->".toList <+: first := by
  rcases h with ⟨rfl, -⟩ | ⟨type, rfl, -⟩
  · simp at hfirst
  · exact prefix_of_words_arrow hfirst

/-- What it takes for the text behind `const` to be read. -/
theorem writesType_iff {name rest : Text} {params : Option Text} {isConst : Bool}
    {written : Written} :
    (if rest = [] then .ok ⟨name, params, isConst, none⟩
      else match Text.dropPiece "->".toList rest with
        | some type => .ok ⟨name, params, isConst, some (trim type)⟩
        | none => .error (.trailing rest name)) = (.ok written : Except StatementFault Written)
      ↔ written.name = name ∧ written.params = params ∧ written.isConst = isConst
        ∧ WritesType rest written.returns := by
  obtain ⟨wname, wparams, wconst, wreturns⟩ := written
  by_cases hnil : rest = []
  · rw [if_pos hnil]
    simp [WritesType, hnil, eq_comm]
  · rw [if_neg hnil]
    cases hdrop : Text.dropPiece "->".toList rest with
    | some type =>
      have htype := Text.dropPiece_eq_some_iff.1 hdrop
      simp [WritesType, htype, eq_comm]
    | none =>
      have harrow : ∀ type, rest ≠ "->".toList ++ type := by
        intro type htype
        rw [Text.dropPiece_eq_some_iff.2 htype] at hdrop
        simp at hdrop
      simp only [WritesType, hnil, harrow, false_and, exists_false, or_self, and_false,
        reduceCtorEq]

/-- What it takes for the text behind a name to be read. -/
theorem readTail_eq_ok_iff {name : Text} {params : Option Text} {written : Written} :
    readTail name params t = .ok written
      ↔ written.name = name ∧ written.params = params
        ∧ ∃ rest, (if written.isConst then splitWord (trim t) = ("const".toList, rest)
            else (splitWord (trim t)).1 ≠ "const".toList ∧ trim t = rest)
          ∧ WritesType rest written.returns := by
  obtain ⟨wname, wparams, wconst, wreturns⟩ := written
  have hpair : (splitWord (trim t)).1 = "const".toList → ∀ rest,
      splitWord (trim t) = ("const".toList, rest) ↔ (splitWord (trim t)).2 = rest := by
    intro hconst rest
    rw [Prod.ext_iff]
    exact and_iff_right hconst
  unfold readTail
  by_cases hconst : (splitWord (trim t)).1 = "const".toList
  · simp only [hconst, if_true, decide_true]
    refine writesType_iff.trans ?_
    cases wconst <;> simp only [hpair hconst, if_true, if_false, ne_eq, not_true_eq_false,
      false_and, exists_false, and_false, exists_eq_left', true_and, Bool.false_eq_true]
  · simp only [hconst, if_false, decide_false]
    refine writesType_iff.trans ?_
    have hother : ∀ rest, splitWord (trim t) ≠ ("const".toList, rest) :=
      fun rest hsplit => hconst (congrArg Prod.fst hsplit)
    cases wconst <;> simp only [hother, hconst, if_true, if_false, ne_eq, not_false_eq_true,
      false_and, exists_false, and_false, exists_eq_left', true_and, Bool.false_eq_true,
      Bool.true_eq_false]

/-- What is read behind a name changes neither the name nor the parameters. -/
theorem eq_of_readTail {name : Text} {params : Option Text} {written : Written}
    (h : readTail name params t = .ok written) :
    written.name = name ∧ written.params = params := by
  obtain ⟨hname, hparams, -⟩ := readTail_eq_ok_iff.1 h
  exact ⟨hname, hparams⟩

/-- The words behind a name are `const`, or not, and those of a type. -/
theorem words_of_readTail {name : Text} {params : Option Text} {written : Written}
    (h : readTail name params t = .ok written) :
    ∃ rest, (words t = words rest ∨ words t = "const".toList :: words rest)
      ∧ WritesType rest written.returns := by
  obtain ⟨-, -, rest, hrest, htype⟩ := readTail_eq_ok_iff.1 h
  refine ⟨rest, ?_, htype⟩
  cases hconst : written.isConst with
  | false =>
    rw [hconst] at hrest
    left
    rw [← hrest.2, Text.words_trim]
  | true =>
    rw [hconst] at hrest
    right
    obtain ⟨g, r, rfl, hg, hw, hr, rfl⟩ := exists_of_splitWord hrest (by decide)
    rw [Text.words_gap_append hg, Text.words_append_of_startsBlank hr, Text.words_trim,
      Text.words_of_forall (by decide) hw]
    rfl

end Script

end Overlay
