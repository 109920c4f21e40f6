/-
Statements that lost their `;`.

A statement ends at its `;` and nowhere else, so one that has lost it runs on into the statement
on the next line, and it is for the readers of its parts to refuse what follows. The reader of
classes takes any text for a name, the next statement as well (`parse_lostTerminator_class`).
A declaration refuses it behind its parameter list, where only `const` and a type may stand, and in
its name, which holds no blank (`parse_lostTerminator`).

There are three ways around this, and each is a condition of the theorem. What is a type is not
looked at, so a type that was begun goes on over the next lines. A name may have blanks in its
scopes, so with `::` in the next statement all in front of it is a scope, unless a parameter list
comes first. And the word `operator` behind the list, in the next statement or as a target name,
makes the list a part of the name.
-/
import Overlay.Proofs.Name.Operator
import Overlay.Proofs.Name.Segments
import Overlay.Proofs.Script.OneStatement
import Overlay.Proofs.Script.Phrases

set_option autoImplicit false

namespace Overlay.Script

open Text (IsGap StartsBlank HasWord isBlank trim words)

variable {t u v w s r : Text}

/-! ## What the readers refuse

The text of the next statement is spilled over into the parts of the one before (`IsSpill`). Where
it goes to depends on what is open there: the name if there is no list yet, and else what is behind
the list. Both refuse it, for reasons of their own. -/

/-- Text that stands behind a statement: a blank, and a first word that ends no declaration. -/
structure IsSpill (v : Text) : Prop where
  blank : StartsBlank v
  word : ∃ w ws, words v = w :: ws ∧ (∀ c ∈ w, Text.isLetter c = true) ∧ w ≠ "const".toList

theorem IsSpill.not_isGap (hv : IsSpill v) : ¬ IsGap v := by
  intro hgap
  obtain ⟨w, ws, hwords, -⟩ := hv.word
  rw [Text.words_of_isGap hgap] at hwords
  simp at hwords

/-- A mark does not come before the first word. -/
theorem IsSpill.not_isGap_of_append {c : Char} (hv : IsSpill (u ++ c :: t))
    (hc : isBlank c = false) (hletter : Text.isLetter c = false) : ¬ IsGap u := by
  intro hgap
  obtain ⟨w, ws, hwords, hall, -⟩ := hv.word
  rw [Text.words_gap_append hgap] at hwords
  have hfirst : (words ([c] ++ t)).head? = some w := by
    rw [List.singleton_append, hwords]
    rfl
  obtain ⟨x, rfl⟩ := Text.prefix_of_words_append (List.cons_ne_nil c []) (by simpa using hc) hfirst
  rw [hall c (by simp)] at hletter
  simp at hletter

/-- A leaf goes over a blank, if it has text in front of the blank and behind it. -/
theorem any_isBlank_leaf (hv : StartsBlank v) (hgap : ¬ IsGap v) (hhead : (u ++ v).head? ≠ some ':')
    (hscope : ¬ "::".toList <:+: u ++ v)
    (hfront : ¬ IsGap u ∨ (QualifiedName.parse t).leaf ≠ []) :
    (QualifiedName.parse (t ++ (u ++ v))).leaf.any isBlank = true := by
  obtain ⟨last, hlast, hleaf⟩ := QualifiedName.leaf_append hhead hscope t
  have hfront' : words (last ++ u) ≠ [] := by
    rw [Ne, Text.words_eq_nil_iff, Text.isGap_append]
    rintro ⟨hl, hu⟩
    rcases hfront with hfront | hfront
    · exact hfront hu
    · rw [hlast, Text.trim_of_isGap hl] at hfront
      exact hfront rfl
  have hback : words v ≠ [] := fun hnil => hgap (Text.words_eq_nil_iff.1 hnil)
  apply Text.any_isBlank_of_words
  rw [hleaf, Text.words_trim, ← List.append_assoc, Text.words_append_of_startsBlank hv,
    List.length_append]
  have hone := List.length_pos_of_ne_nil hfront'
  have htwo := List.length_pos_of_ne_nil hback
  omega

/-- Without a type nothing but `const` stands behind the list. -/
theorem words_of_readTail_none {name : Text} {params : Option Text} {written : Written}
    (h : readTail name params t = .ok written) (hnone : written.returns = none) :
    words t = [] ∨ words t = ["const".toList] := by
  obtain ⟨rest, hwords, ⟨rfl, -⟩ | ⟨type, -, hsome⟩⟩ := words_of_readTail h
  · exact hwords
  · rw [hnone] at hsome
    simp at hsome

/-- Behind the parameter list the next statement is refused. -/
theorem readTail_spill_ne_ok {name : Text} {params : Option Text} {written : Written}
    (ht : words t = [] ∨ words t = ["const".toList]) (hv : IsSpill v) :
    readTail name params (t ++ v) ≠ .ok written := by
  intro h
  obtain ⟨w, ws, hwords, hletters, hconst⟩ := hv.word
  obtain ⟨rest, htail, htype⟩ := words_of_readTail h
  have hno : ¬ "->".toList <+: w := by
    rintro ⟨x, rfl⟩
    have hminus := hletters '-' (by simp)
    exact absurd hminus (by decide)
  rw [Text.words_append_of_startsBlank hv.blank, hwords] at htail
  rcases ht with ht | ht <;> rw [ht] at htail
  · rcases htail with htail | htail
    · exact hno (htype.arrow_prefix (by rw [← htail]; rfl))
    · exact hconst (List.cons.inj htail).1
  · rcases htail with htail | htail
    · have hprefix : "->".toList <+: "const".toList := htype.arrow_prefix (by rw [← htail]; rfl)
      exact absurd hprefix (by decide)
    · exact hno (htype.arrow_prefix (by rw [← (List.cons.inj htail).2]; rfl))

/-- Where no list closes in front of the next statement, the name of a callable goes on in it. -/
theorem exists_name_of_readCallable {written : Written} (hv : IsSpill v)
    (harrow : ¬ "->".toList <:+: t)
    (hlist : ∀ n p r, AppliedName.split (t ++ v) = .applied n p r → t <+: n)
    (h : readCallable (t ++ v) = .ok written) :
    ∃ u, written.name = trim (t ++ u) ∧ u <+: v ∧ ¬ IsGap u := by
  unfold readCallable at h
  cases hsplit : AppliedName.split (t ++ v) with
  | unclosed => simp [hsplit] at h
  | applied n p r =>
    -- the name ends in the next statement, in front of the list that is found there
    rw [hsplit] at h
    obtain ⟨u, rfl⟩ := hlist n p r hsplit
    have htext := (AppliedName.eq_of_split hsplit).1
    rw [List.append_assoc] at htext
    have hv' := List.append_cancel_left htext
    refine ⟨u, (eq_of_readTail h).1, ⟨_, hv'.symm⟩, ?_⟩
    rw [hv'] at hv
    exact hv.not_isGap_of_append rfl rfl
  | bare =>
    rw [hsplit] at h
    simp only at h
    cases hbreak : Text.breakOn "->".toList (t ++ v) with
    | none =>
      rw [hbreak] at h
      exact ⟨v, (eq_of_readTail h).1, List.prefix_rfl, hv.not_isGap⟩
    | some parts =>
      obtain ⟨name, type⟩ := parts
      rw [hbreak] at h
      have hminus := Text.head?_ne_of_startsBlank (c := '-') hv.blank rfl
      have hgreater := Text.head?_ne_of_startsBlank (c := '>') hv.blank rfl
      have htext : t ++ v = name ++ '-' :: '>' :: type := Text.eq_of_breakOn hbreak
      rcases List.append_eq_append_iff.1 htext with ⟨u, rfl, hu⟩ | ⟨u, rfl, hu⟩
      · refine ⟨u, (eq_of_readTail h).1, ⟨_, hu.symm⟩, ?_⟩
        rw [hu] at hv
        exact hv.not_isGap_of_append rfl rfl
      · -- the arrow would be in the first text, or begin the second one or end there
        rcases u with _ | ⟨c, _ | ⟨c', u⟩⟩
        · exact absurd (congrArg List.head? hu.symm) hminus
        · exact absurd (congrArg List.head? (List.cons.inj hu).2.symm) hgreater
        · obtain ⟨rfl, hu'⟩ := List.cons.inj hu
          obtain ⟨rfl, -⟩ := List.cons.inj hu'
          exact absurd ⟨name, u, List.append_assoc ..⟩ harrow

/-- A name that goes on in the next statement is refused, as its leaf goes over the blank there. -/
theorem checkWritten_spill_ne_ok {kind : DeclKind} {written : Written} (hv : IsSpill v)
    (hscope : ¬ "::".toList <:+: v) (hu : u <+: v) (hgap : ¬ IsGap u)
    (hname : written.name = trim (t ++ u))
    (hleaf : (QualifiedName.parse t).leaf ≠ []
      ∨ ∃ front back, t = front ++ ')' :: back ∧ ':' ∉ back) :
    checkWritten kind written ≠ .ok () := by
  intro hcheck
  obtain ⟨-, hany, -⟩ := checkWritten_eq_ok_iff.1 hcheck
  rw [hname, QualifiedName.parse_trim] at hany
  have hstart : StartsBlank u := by
    obtain ⟨x, rfl⟩ := hu
    exact Text.startsBlank_of_append hv.blank
  have hscope' : ¬ "::".toList <:+: u := fun hpiece => hscope (hpiece.trans hu.isInfix)
  have hblank : (QualifiedName.parse (t ++ u)).leaf.any isBlank = true := by
    rcases hleaf with hleaf | ⟨front, back, rfl, hback⟩
    · exact any_isBlank_leaf (u := []) hstart hgap (Text.head?_ne_of_startsBlank hstart rfl) hscope'
        (.inr hleaf)
    · rw [List.append_assoc]
      have hcolon : ':' ∉ ')' :: back := by simpa using hback
      refine any_isBlank_leaf hstart hgap (by simp) (fun hpiece => ?_) (.inl fun hparen => ?_)
      · have hcolons : [':', ':'] <:+: ')' :: back ++ u := hpiece
        exact hscope' (Text.infix_of_infix_append hcolons hcolon)
      · exact absurd (hparen ')' List.mem_cons_self) (by decide)
  rw [hany] at hblank
  simp at hblank

/-- A keyword that is found behind a list is one of the next statement, if the text up to there
does not hold it. -/
theorem hasWord_of_cutOperator_append {before : Text} {parts : Text × Text} (hv : IsSpill v)
    (hp : 'p' ∉ r) (h : AppliedName.cutOperator before (r ++ v) = some parts) :
    HasWord AppliedName.keyword v := by
  cases v with
  | nil => exact absurd Text.isGap_nil hv.not_isGap
  | cons c v =>
    have hc := hv.blank c rfl
    have hne : AppliedName.keyword ≠ [] := by decide
    have hplain := fun d hd => AppliedName.isBlank_of_mem_keyword (c := d) hd
    rcases (Text.hasWord_append_cons_iff hc hne hplain).1
      (AppliedName.hasWord_of_cutOperator h) with ⟨q, s, rfl, -⟩ | hword
    · exact absurd (List.mem_append_right q (List.mem_append_left s (by decide))) hp
    · exact (Text.hasWord_append_cons_iff (t := []) hc hne hplain).2 (.inr hword)

/-- Behind a parameter list the next statement is refused, unless it moves the list. -/
theorem readCallable_spill_of_applied {kind : DeclKind} {written : Written} {n p r : Text}
    (hv : IsSpill v) (hsplit : AppliedName.split t = .applied n p r)
    (hr : words r = [] ∨ words r = ["const".toList])
    (hscope : ¬ "::".toList <:+: v ∧ ¬ "->".toList <:+: t ∨ ¬ HasWord AppliedName.keyword v)
    (hread : readCallable (t ++ v) = .ok written) : checkWritten kind written ≠ .ok () := by
  obtain ⟨rfl, hbalanced⟩ := AppliedName.eq_of_split hsplit
  obtain ⟨-, hfront, hcut⟩ := AppliedName.split_append_iff.1 hsplit
  by_cases hlater : AppliedName.cutOperator [] (n ++ '(' :: (p ++ [')'])) = none →
      AppliedName.cutOperator (n ++ '(' :: (p ++ [')'])).reverse (r ++ v) = none
  · have hsplit' : AppliedName.split (n ++ '(' :: (p ++ ')' :: r) ++ v)
        = .applied n p (r ++ v) := by
      have htext : n ++ '(' :: (p ++ ')' :: r) ++ v = n ++ '(' :: (p ++ ')' :: (r ++ v)) := by simp
      rw [htext]
      exact AppliedName.split_append_iff.2 ⟨hbalanced, hfront, hlater⟩
    unfold readCallable at hread
    rw [hsplit'] at hread
    exact absurd hread (readTail_spill_ne_ok hr hv)
  · -- the word `operator` in the next statement makes the list a part of the name
    obtain ⟨hkey, hlater⟩ := Classical.not_imp.1 hlater
    obtain ⟨⟨head, after⟩, hlater⟩ := Option.ne_none_iff_exists'.1 hlater
    -- behind the list there is nothing but the letters of `const`
    have hmem : ∀ c, isBlank c = false → c ∉ "const".toList → c ∉ r := by
      intro c hc hconst hmem
      obtain ⟨w, hw, hmem⟩ := Text.exists_mem_words hc hmem
      rcases hr with hr | hr <;> rw [hr] at hw
      · simp at hw
      · rw [List.mem_singleton.1 hw] at hmem
        exact hconst hmem
    have hp : 'p' ∉ r := hmem 'p' rfl (by decide)
    have hword : HasWord AppliedName.keyword v := hasWord_of_cutOperator_append hv hp hlater
    obtain ⟨hscope, harrow⟩ := hscope.resolve_right (not_not_intro hword)
    obtain ⟨u, hname, hu, hgap⟩ := exists_name_of_readCallable hv harrow
      (fun n' p' r' h => AppliedName.prefix_of_cutOperator hkey hlater hp h) hread
    exact checkWritten_spill_ne_ok hv hscope hu hgap hname
      (.inr ⟨n ++ '(' :: p, r, by simp, hmem ':' rfl (by decide)⟩)

/-- Behind a callable without a type the next statement is refused. -/
theorem readCallable_spill {kind : DeclKind} {written written' : Written} (hv : IsSpill v)
    (hread : readCallable t = .ok written) (hleaf : (QualifiedName.parse written.name).leaf ≠ [])
    (hnone : written.returns = none)
    (hname : written.params = none → ¬ "::".toList <:+: v)
    (hlist : written.params ≠ none →
      ¬ "::".toList <:+: v ∧ ¬ "->".toList <:+: t ∨ ¬ HasWord AppliedName.keyword v)
    (hread' : readCallable (t ++ v) = .ok written') : checkWritten kind written' ≠ .ok () := by
  unfold readCallable at hread
  cases hsplit : AppliedName.split t with
  | unclosed => simp [hsplit] at hread
  | applied n p r =>
    rw [hsplit] at hread
    have hparams : written.params ≠ none := by simp [(eq_of_readTail hread).2]
    exact readCallable_spill_of_applied hv hsplit (words_of_readTail_none hread hnone)
      (hlist hparams) hread'
  | bare =>
    rw [hsplit] at hread
    simp only at hread
    cases hbreak : Text.breakOn "->".toList t with
    | some parts =>
      rw [hbreak] at hread
      -- an arrow begins a type
      rcases words_of_readTail_none hread hnone with hwords | hwords
      · have hgap := Text.words_eq_nil_iff.1 hwords '-' (by simp)
        exact absurd hgap (by decide)
      · have hprefix := prefix_of_words_arrow (congrArg List.head? hwords)
        exact absurd hprefix (by decide)
    | none =>
      rw [hbreak] at hread
      obtain ⟨hwritten, hparams⟩ := eq_of_readTail hread
      have harrow : ¬ "->".toList <:+: t := by
        intro hpiece
        have hsome := Text.breakOn_isSome_of_infix hpiece
        rw [hbreak] at hsome
        simp at hsome
      obtain ⟨u, hwritten', hu, hgap⟩ := exists_name_of_readCallable hv harrow
        (fun n p r h =>
          AppliedName.prefix_of_split_bare hsplit (Text.endsWord_of_startsBlank hv.blank) h) hread'
      rw [hwritten, QualifiedName.parse_trim] at hleaf
      exact checkWritten_spill_ne_ok hv (hname hparams) hu hgap hwritten' (.inl hleaf)

/-- A variable has a type if there is a colon. -/
theorem cases_of_readVariable {kind : DeclKind} {written : Written}
    (h : readVariable kind t = .ok written) :
    (Text.cut .angled .colon t = none ∧ written = ⟨trim t, none, false, none⟩)
      ∨ ∃ name type, Text.cut .angled .colon t = some (name, type)
        ∧ written = ⟨trim name, none, false, some (trim type)⟩ := by
  have hwritten : ∀ {name : Text} {type : Option Text},
      (if name.contains '(' then .error (.strayParameters kind.keyword)
        else .ok ⟨trim name, none, false, type⟩) = (.ok written : Except StatementFault Written) →
        written = ⟨trim name, none, false, type⟩ := by
    intro name type h
    split at h
    · simp at h
    · exact (Except.ok.inj h).symm
  unfold readVariable at h
  cases hcut : Text.cut .angled .colon t with
  | none =>
    rw [hcut] at h
    exact .inl ⟨rfl, hwritten h⟩
  | some parts =>
    rw [hcut] at h
    exact .inr ⟨parts.1, parts.2, rfl, hwritten h⟩

/-- Behind a variable without a type the next statement is refused. -/
theorem readVariable_spill {kind : DeclKind} {written written' : Written} (hv : IsSpill v)
    (hread : readVariable kind t = .ok written)
    (hleaf : (QualifiedName.parse written.name).leaf ≠ []) (hnone : written.returns = none)
    (hname : written.params = none → ¬ "::".toList <:+: v)
    (hread' : readVariable kind (t ++ v) = .ok written') : checkWritten kind written' ≠ .ok () := by
  rcases cases_of_readVariable hread with ⟨hcut, rfl⟩ | ⟨name, type, -, rfl⟩
  · rw [QualifiedName.parse_trim] at hleaf
    have hscope := hname rfl
    have hcut' : Text.cut .angled .colon (t ++ v)
        = (Text.cutFrom .angled .colon (Text.Brackets.angled.depthAfter 0 t) (t.getLast?.or none)
          v).map fun parts => (t ++ parts.1, parts.2) := by
      have hnone : Text.cutFrom .angled .colon 0 none t = none := hcut
      have hcolon := Text.head?_ne_of_startsBlank (c := ':') hv.blank rfl
      rw [Text.cut, Text.cutFrom_append (Text.Mark.ignores_colon hcolon t), hnone]
    rcases cases_of_readVariable hread' with ⟨-, rfl⟩ | ⟨name, type, hmark, rfl⟩
    · exact checkWritten_spill_ne_ok hv hscope List.prefix_rfl hv.not_isGap rfl (.inl hleaf)
    · rw [hcut'] at hmark
      obtain ⟨⟨u, type⟩, hcolon, ⟨⟩⟩ := Option.map_eq_some_iff.1 hmark
      obtain ⟨-, c, before, hc, rfl⟩ := Text.depth_of_cutFrom hcolon
      obtain rfl : c = ':' := by
        simp only [Text.Mark.colon, Bool.and_eq_true, beq_iff_eq] at hc
        exact hc.1.1
      exact checkWritten_spill_ne_ok hv hscope ⟨_, rfl⟩ (hv.not_isGap_of_append rfl rfl) rfl
        (.inl hleaf)
  · simp at hnone

/-! ## The next statement

What is spilled is not the whole next statement. Its target name is taken for that of the first, and
the target name of the first is spilled as well, in front of the next one. In all cases a word that
is no `const` comes first. -/

/-- What is read as a statement has a second word. -/
theorem exists_of_startsStatement {item : Item} (hstarts : startsStatement t = true)
    (hread : readStatement t = .ok item) :
    ∃ k ∈ statementKeywords, ∃ w ws, words t = k :: w :: ws := by
  obtain ⟨k, hk, c, r, rfl, hc⟩ := startsStatement_iff.1 hstarts
  obtain ⟨hne, -, -, hall, hfail⟩ := statementKeywords_facts k hk
  have hplain : ∀ c ∈ k, isBlank c = false := by
    intro c hc
    have hall := List.all_eq_true.1 hall c hc
    simp only [Bool.and_eq_true, Bool.not_eq_true'] at hall
    exact hall.1.1.1.2
  have hwords : words (k ++ c :: r) = k :: words r := by
    rw [Text.words_append_cons hc, Text.words_of_forall hne hplain]
    rfl
  refine ⟨k, hk, ?_⟩
  cases hrest : words r with
  | cons w ws => exact ⟨w, ws, by rw [hwords, hrest]⟩
  | nil =>
    -- a keyword alone is no statement
    have hgap : IsGap (c :: r) := Text.isGap_cons.2 ⟨hc, Text.words_eq_nil_iff.1 hrest⟩
    rw [← readStatement_trim, Text.trim_append_gap hgap, readStatement_trim] at hread
    rw [hread] at hfail
    simp [Except.isOk, Except.toBool] at hfail

/-- A keyword in an identifier is the identifier. -/
theorem eq_of_hasWord_of_isIdentifier {name : Text} (hname : Text.isIdentifier name = true)
    (h : HasWord w name) : name = w :=
  h.eq_of_forall fun c hc =>
    Text.isWordChar_of_isIdentChar c (Text.isIdentChar_of_mem hname hc)

/-- Trimming drops only what is at the end of a text that starts with no blank. -/
theorem exists_trim_append {head x : Text} (hne : head ≠ [])
    (hstart : ∀ c, head.head? = some c → isBlank c = false) (hx : ¬ IsGap x) :
    ∃ v q, x = v ++ q ∧ IsGap q ∧ trim (head ++ x) = head ++ v := by
  obtain ⟨p, q, hp, hq, htext⟩ := Text.eq_gap_trim_gap (head ++ x)
  have hnil : p = [] := by
    cases p with
    | nil => rfl
    | cons c p =>
      have hhead : (head ++ x).head? = head.head? := List.head?_append_of_ne_nil head hne
      rw [htext] at hhead
      have hblank := hp c List.mem_cons_self
      rw [hstart c hhead.symm] at hblank
      simp at hblank
  rw [hnil, List.nil_append] at htext
  rcases List.append_eq_append_iff.1 htext with ⟨v, hv, hx'⟩ | ⟨m, -, rfl⟩
  · exact ⟨v, q, hx', hq, hv⟩
  · exact absurd (Text.isGap_append.1 hq).2 hx

/-- The words of a statement and of the next one, up to a target name. -/
theorem exists_words_of_split {pre ws front back : List Text} {k w : Text}
    (hk : k ∈ statementKeywords) (hpre : pre = [] ∨ ∃ name, pre = ["as".toList, name])
    (hback : back = [] ∨ ∃ name, back = ["as".toList, name])
    (h : pre ++ k :: w :: ws = front ++ back) :
    ∃ f fs, front = f :: fs ∧ (∀ c ∈ f, Text.isLetter c = true) ∧ f ≠ "const".toList := by
  obtain ⟨-, hconst, has, hall, -⟩ := statementKeywords_facts k hk
  have hletters : ∀ c ∈ k, Text.isLetter c = true := by
    intro c hc
    have hall := List.all_eq_true.1 hall c hc
    simp only [Bool.and_eq_true] at hall
    exact hall.1.1.1.1
  have hasletters : ∀ c ∈ "as".toList, Text.isLetter c = true := by
    have hall : "as".toList.all Text.isLetter = true := rfl
    exact fun c hc => List.all_eq_true.1 hall c hc
  cases front with
  | nil =>
    -- the word `as` is no keyword
    rcases hback with rfl | ⟨name, rfl⟩
    · simp at h
    · rcases hpre with rfl | ⟨name', rfl⟩
      · exact absurd (List.cons.inj h).1 has
      · simp at h
  | cons f fs =>
    refine ⟨f, fs, rfl, ?_⟩
    rcases hpre with rfl | ⟨name, rfl⟩
    · obtain ⟨rfl, -⟩ := List.cons.inj h
      exact ⟨hletters, hconst⟩
    · obtain ⟨rfl, -⟩ := List.cons.inj h
      exact ⟨hasletters, by decide⟩

theorem IsTargetPhrase.words_eq {target : Option Text} (h : IsTargetPhrase u target) :
    words u = [] ∨ ∃ name, words u = ["as".toList, name] :=
  h.parts.imp_right fun ⟨name, _, _, hwords⟩ => ⟨name, hwords⟩

theorem IsTargetPhrase.append_gap {g : Text} {target : Option Text} (h : IsTargetPhrase u target)
    (hg : IsGap g) : IsTargetPhrase (u ++ g) target where
  blank := Text.startsBlank_append h.blank (Text.startsBlank_of_isGap hg)
  parts := by
    rw [Text.words_append_gap hg]
    exact h.parts

/-- It has no other words than these. -/
theorem IsTargetPhrase.mem_words {x : Text} {target : Option Text} (h : IsTargetPhrase u target)
    (hx : x ∈ words u) :
    x = "as".toList ∨ target = some x ∧ Text.isIdentifier x = true := by
  rcases h.parts with hwords | ⟨name, htarget, hname, hwords⟩ <;> rw [hwords] at hx
  · simp at hx
  · rcases List.mem_pair.1 hx with rfl | rfl
    · exact .inl rfl
    · exact .inr ⟨htarget, hname⟩

/-- With a target name no colon is spilled, -/
theorem IsTargetPhrase.not_mem_colon {target : Option Text} (h : IsTargetPhrase u target) :
    ':' ∉ u := by
  intro hmem
  obtain ⟨x, hx, hmem⟩ := Text.exists_mem_words rfl hmem
  rcases h.mem_words hx with rfl | ⟨-, hname⟩
  · simp at hmem
  · exact absurd (Text.isIdentChar_of_mem hname hmem) (by decide)

/-- and the word `operator` only if it is the name. -/
theorem IsTargetPhrase.eq_keyword {target : Option Text} (h : IsTargetPhrase u target)
    (hword : HasWord AppliedName.keyword u) : target = some AppliedName.keyword := by
  obtain ⟨x, hx, hxword⟩ :=
    hword.exists_mem_words (by decide) fun _ => AppliedName.isBlank_of_mem_keyword
  rcases h.mem_words hx with rfl | ⟨rfl, hname⟩
  · exact absurd (eq_of_hasWord_of_isIdentifier (by decide) hxword) (by decide)
  · exact congrArg some (eq_of_hasWord_of_isIdentifier hname hxword)

/-- What is split off at the end of the next statement leaves its first word. -/
theorem exists_spill_of_words {head head' k w : Text} {ws : List Text}
    {target target' : Option Text} (hu : IsTargetPhrase u target) (hk : k ∈ statementKeywords)
    (hblank : StartsBlank t) (hwords : words t = words u ++ k :: w :: ws)
    (hsplit : splitTargetName (head ++ t) = (head', target')) :
    ∃ v z, head' = head ++ v ∧ t = v ++ z ∧ IsSpill v ∧ StartsBlank z := by
  obtain ⟨z, hz, htarget⟩ := exists_of_splitTargetName_eq hsplit
  rcases List.append_eq_append_iff.1 hz with ⟨v, rfl, rfl⟩ | ⟨m, -, rfl⟩
  · refine ⟨v, z, rfl, rfl, ⟨Text.startsBlank_of_append hblank, ?_⟩, htarget.blank⟩
    rw [Text.words_append_of_startsBlank htarget.blank] at hwords
    obtain ⟨f, fs, hf, hletters, hconst⟩ :=
      exists_words_of_split hk hu.words_eq htarget.words_eq hwords.symm
    exact ⟨f, fs, hf, hletters, hconst⟩
  · -- a target name is not as long as the next statement
    exfalso
    have hback := htarget.words_eq
    rw [Text.words_append_of_startsBlank hblank, hwords] at hback
    rcases hback with hback | ⟨name, hback⟩
    · simp at hback
    · have hm : words m = [] := by
        have hlen := congrArg List.length hback
        simp only [List.length_append, List.length_cons, List.length_nil] at hlen
        exact List.eq_nil_of_length_eq_zero (by omega)
      rw [hm, List.nil_append] at hback
      have hnone : words u ++ k :: w :: ws = ([] : List Text) ++ ["as".toList, name] := hback
      obtain ⟨f, fs, hf, -⟩ := exists_words_of_split hk hu.words_eq (.inr ⟨name, rfl⟩) hnone
      simp at hf

/-- The next statement stands behind the statement without its target name. -/
theorem exists_spill {g b head k w : Text} {ws : List Text} {target : Option Text}
    (hsplit : splitTargetName t = (head, target)) (htrim : trim t = t) (hne : head ≠ [])
    (hg : IsGap g) (hk : k ∈ statementKeywords) (hb : words b = k :: w :: ws) :
    ∃ v, IsSpill v ∧ (splitTargetName (trim (t ++ (g ++ '\n' :: b)))).1 = head ++ v
      ∧ ("::".toList <:+: v → "::".toList <:+: b)
      ∧ (HasWord AppliedName.keyword v →
          target = some AppliedName.keyword ∨ HasWord AppliedName.keyword b) := by
  obtain ⟨u, rfl, hu⟩ := exists_of_splitTargetName_eq hsplit
  have hbreak : isBlank '\n' = true := rfl
  have hgap : IsGap (g ++ ['\n']) :=
    Text.isGap_append.2 ⟨hg, Text.isGap_cons.2 ⟨hbreak, Text.isGap_nil⟩⟩
  -- all that stands behind the head: the target name, a gap with the line break, and `b`
  obtain ⟨x, hx⟩ : ∃ x, x = u ++ (g ++ ['\n']) ++ b := ⟨_, rfl⟩
  have htext : head ++ u ++ (g ++ '\n' :: b) = head ++ x := by simp [hx]
  have hxwords : words x = words u ++ k :: w :: ws := by
    rw [hx, ← hb, List.append_assoc]
    exact Text.words_append_gap_append hgap (by simp) u b
  have hxblank : StartsBlank x := by
    rw [hx, List.append_assoc]
    exact Text.startsBlank_append hu.blank (Text.startsBlank_gap_append hgap (by simp) b)
  have hxgap : ¬ IsGap x := by
    intro h
    rw [Text.words_of_isGap h] at hxwords
    simp at hxwords
  have hstart : ∀ c, head.head? = some c → isBlank c = false := by
    intro c hc
    apply Text.head?_trim (t := head ++ u)
    rw [htrim, List.head?_append_of_ne_nil head hne, hc]
  obtain ⟨y, q, rfl, hq, hy⟩ := exists_trim_append hne hstart hxgap
  rw [Text.words_append_gap hq] at hxwords
  obtain ⟨v, z, hhead, rfl, hv, hz⟩ := exists_spill_of_words hu hk
    (Text.startsBlank_of_append hxblank) hxwords (Prod.eta (splitTargetName (head ++ y))).symm
  refine ⟨v, hv, by rw [htext, hy, hhead], ?_, ?_⟩
  · intro hpiece
    have hcolon := (hu.append_gap hgap).not_mem_colon
    have hcolons : [':', ':'] <:+: u ++ (g ++ ['\n']) ++ b := by
      rw [← hx, List.append_assoc]
      exact List.IsInfix.trans hpiece (List.prefix_append v _).isInfix
    exact Text.infix_of_infix_append hcolons hcolon
  · -- the keyword is on one side of the line break
    intro hword
    have hwhole : HasWord AppliedName.keyword (v ++ (z ++ q)) := by
      apply hword.append
      exact Text.endsWord_of_startsBlank (Text.startsBlank_append hz (Text.startsBlank_of_isGap hq))
    have hsplit : v ++ (z ++ q) = u ++ (g ++ '\n' :: b) := by
      rw [← List.append_assoc, hx]
      simp
    have hplain := fun d hd => AppliedName.isBlank_of_mem_keyword (c := d) hd
    rw [hsplit, ← List.append_assoc, Text.hasWord_append_cons_iff hbreak (by decide) hplain]
      at hwhole
    exact hwhole.imp_left (hu.append_gap hg).eq_keyword

/-! ## Scripts with a lost terminator

The conditions are stated of what is written, and of the next statement: has it a list, has it a
type, and what is in the text behind. Every declaration that is read was written so
(`exists_writes`). -/

/-- What is read of the body of a declaration in front of its target name. -/
def readWritten (kind : DeclKind) (body : Text) : Except StatementFault Written :=
  if kind.isCallable then readCallable (splitTargetName body).1
  else readVariable kind (splitTargetName body).1

/-- The first statement of a text is a declaration, and `written` is what is read of it. -/
def Writes (a : Text) (written : Written) : Prop :=
  ∃ front body isInherited kind, skipTrivia .gap a = .ok (front ++ body)
    ∧ IsFront isInherited kind front ∧ readWritten kind (trim body) = .ok written

/-- Whatever is read as one declaration was written as one. -/
theorem exists_writes {a : Text} {d : Declaration} (ha : ';' ∉ a)
    (h : parse (a ++ [';']) = .ok [.declaration d]) : ∃ written, Writes a written := by
  have hok : (skipTrivia .gap a).isOk = true := by
    refine isOk_skipTrivia_of_append ?_
    cases hskip : skipTrivia .gap (a ++ [';']) with
    | ok r => rfl
    | error opening =>
      rw [parse, readFrom_of_open hskip] at h
      simp at h
  cases hskip : skipTrivia .gap a with
  | error opening =>
    rw [hskip] at hok
    exact absurd hok Bool.false_ne_true
  | ok t =>
    rcases statement_of_parse ha hskip h with ⟨-, e, he⟩ | ⟨-, hread⟩
    · simp at he
    · obtain ⟨isInherited, kind, front, body, rfl, hfront, hd⟩ := exists_front hread
      obtain ⟨-, written, hwritten, -⟩ := readDeclaration_eq_ok_iff.1 hd
      exact ⟨written, front, body, isInherited, kind, hskip, hfront, hwritten⟩

/-- A declaration without a type is not read with the next statement behind it. -/
theorem readDeclaration_spill {body b k w : Text} {ws : List Text} {kind : DeclKind}
    {isInherited : Bool} {d : Declaration} {written : Written}
    (hd : readDeclaration kind isInherited (trim body) = .ok d)
    (hwritten : readWritten kind (trim body) = .ok written) (htype : written.returns = none)
    (hk : k ∈ statementKeywords) (hb : words b = k :: w :: ws)
    (hname : written.params = none → ¬ "::".toList <:+: b)
    (hlist : written.params ≠ none →
      ¬ "::".toList <:+: b ∧ ¬ "->".toList <:+: body
        ∨ d.targetName ≠ some AppliedName.keyword ∧ ¬ HasWord AppliedName.keyword b)
    (d' : Declaration) :
    readDeclaration kind isInherited (trim (body ++ '\n' :: b)) ≠ .ok d' := by
  intro hd'
  obtain ⟨p, q, hp, hq, hbody⟩ := Text.eq_gap_trim_gap body
  have htrim : trim (body ++ '\n' :: b) = trim (trim body ++ (q ++ '\n' :: b)) := by
    have hjoin : p ++ (trim body ++ q) ++ '\n' :: b = p ++ (trim body ++ (q ++ '\n' :: b)) := by
      simp
    calc trim (body ++ '\n' :: b) = trim (p ++ (trim body ++ (q ++ '\n' :: b))) := by
          rw [← hjoin, ← hbody]
      _ = trim (trim body ++ (q ++ '\n' :: b)) := Text.trim_gap_append hp _
  obtain ⟨-, w₀, hread, hcheck, hdeclare⟩ := readDeclaration_eq_ok_iff.1 hd
  obtain rfl : w₀ = written := Except.ok.inj (hread.symm.trans hwritten)
  obtain ⟨-, written', hread', hcheck', -⟩ := readDeclaration_eq_ok_iff.1 hd'
  have htarget : d.targetName = (splitTargetName (trim body)).2 := by
    obtain ⟨ps, -, -, rfl⟩ := declare_eq_ok_iff.1 hdeclare
    rfl
  -- what is spilled is read by the reader of the kind
  obtain ⟨v, hv, hhead, hpiece, hword⟩ := exists_spill (Prod.eta _).symm (Text.trim_trim body)
    (ne_nil_of_checkWritten hread hcheck) hq hk hb
  rw [htrim, hhead] at hread'
  have hleaf := (checkWritten_eq_ok_iff.1 hcheck).1
  have hlist' : w₀.params ≠ none → ¬ "::".toList <:+: v
      ∧ ¬ "->".toList <:+: (splitTargetName (trim body)).1 ∨ ¬ HasWord AppliedName.keyword v := by
    intro hparams
    rcases hlist hparams with ⟨hscope, harrow⟩ | ⟨htargetname, hkey⟩
    · -- the head is a part of the body, so it has no arrow either
      refine .inl ⟨fun hv => hscope (hpiece hv), fun hhead => harrow ?_⟩
      obtain ⟨u, hu, -⟩ :=
        exists_of_splitTargetName_eq (Prod.eta (splitTargetName (trim body))).symm
      have hparts : p ++ (splitTargetName (trim body)).1 ++ (u ++ q) = body := by
        calc p ++ (splitTargetName (trim body)).1 ++ (u ++ q)
            = p ++ (((splitTargetName (trim body)).1 ++ u) ++ q) := by simp
          _ = body := by rw [← hu, ← hbody]
      exact hhead.trans ⟨p, u ++ q, hparts⟩
    · rw [htarget] at htargetname
      exact .inr fun hv => (hword hv).elim htargetname hkey
  have hname' : w₀.params = none → ¬ "::".toList <:+: v :=
    fun hparams hv => hname hparams (hpiece hv)
  by_cases hcallable : kind.isCallable = true
  · rw [if_pos hcallable] at hread hread'
    exact readCallable_spill hv hread hleaf htype hname' hlist' hread' hcheck'
  · rw [if_neg hcallable] at hread hread'
    exact readVariable_spill hv hread hleaf htype hname' hread' hcheck'

/-- A statement that has lost its `;` is not read together with the next one, unless it has begun
a type, or its name can go on as a scope. -/
theorem parse_lostTerminator {a b : Text} {d : Declaration} {item : Item} {written : Written}
    (ha : ';' ∉ a) (hb : ';' ∉ b) (hreada : parse (a ++ [';']) = .ok [.declaration d])
    (hstarts : startsStatement b = true) (hreadb : parse (b ++ [';']) = .ok [item])
    (hwritten : Writes a written) (htype : written.returns = none)
    (hname : written.params = none → ¬ "::".toList <:+: b)
    (hlist : written.params ≠ none →
      ¬ "::".toList <:+: b ∧ ¬ "->".toList <:+: a
        ∨ d.targetName ≠ some AppliedName.keyword ∧ ¬ HasWord AppliedName.keyword b) :
    ∃ e, parse (a ++ '\n' :: (b ++ [';'])) = .error e := by
  obtain ⟨front, body, isInherited, kind, hskip, hfront, hbody⟩ := hwritten
  obtain ⟨hs, hreads⟩ : IsStatement (front ++ body)
      ∧ readStatement (front ++ body) = .ok (.declaration d) := by
    rcases statement_of_parse ha hskip hreada with ⟨-, e, he⟩ | hs
    · simp at he
    · exact hs
  obtain ⟨hskipb, hpercent⟩ := skipTrivia_of_startsStatement hstarts
  obtain ⟨hsb, hreadsb⟩ :=
    (statement_of_parse hb hskipb hreadb).resolve_left fun h => hpercent h.1
  obtain ⟨k, hk, w, ws, hwords⟩ := exists_of_startsStatement hstarts hreadsb
  have hwhole : IsStatement (front ++ body ++ '\n' :: b) := by
    have hnot : ';' ∉ '\n' :: b := by simpa using hb
    exact hs.append (Text.cutFrom_char_of_not_mem hnot) hsb.closed
  have hskip' : skipTrivia .gap (a ++ '\n' :: b) = .ok (front ++ body ++ '\n' :: b) := by
    cases hcons : front ++ body with
    | nil => exact absurd hcons hs.nonempty
    | cons c r =>
      rw [hcons] at hskip
      exact skipTrivia_append_of_head hskip (by simp) (by simp)
  have hparse := parse_statement hskip' hwhole
  rw [List.append_assoc, List.cons_append] at hparse
  rw [hparse]
  -- for the cut the two are one statement, so it is left to the reader of it to refuse them
  cases hread : readStatement (front ++ body ++ '\n' :: b) with
  | error cause => exact ⟨_, rfl⟩
  | ok item' =>
    exfalso
    rw [readStatement_front hfront] at hreads
    rw [List.append_assoc, readStatement_front hfront] at hread
    obtain ⟨d₀, hd, hitem⟩ := map_eq_ok_iff.1 hreads
    obtain rfl := Item.declaration.inj hitem
    obtain ⟨d', hd', -⟩ := map_eq_ok_iff.1 hread
    have harrow : ¬ "->".toList <:+: a → ¬ "->".toList <:+: body := by
      intro harrow hpiece
      have hsuffix := (List.suffix_append front body).trans (suffix_of_skipTrivia hskip)
      exact harrow (hpiece.trans hsuffix.isInfix)
    exact readDeclaration_spill hd hbody htype hk hwords hname
      (fun hparams => (hlist hparams).imp_left (And.imp_right harrow)) d' hd'

/-- The three ways around it: a type, a name without a list, and an operator. -/
example :
    (parse "function f() -> int\nfunction g();".toList).isOk = true
      ∧ (parse "variable x\nmember A::y;".toList).isOk = true
      ∧ (parse "function f()\nmethod A::operator()();".toList).isOk = true := by
  decide +kernel

/-! A method with a list, whose name cannot go on in the next statement, and a class, whose name
does. -/

def constMethod : Declaration :=
  ⟨.method, ⟨⟨["A".toList]⟩, "f".toList⟩, ⟨[⟨⟨"long".toList⟩, none⟩], by decide, by decide⟩, none,
    some "g".toList, true, false, none⟩

def createFunction : Declaration :=
  ⟨.staticMethod, ⟨⟨["A".toList]⟩, "create".toList⟩, .empty, none, none, false, false, none⟩

/-- Behind the list of a method the next statement is refused, also if `const` and a target name are
there. -/
theorem parse_lostTerminator_method :
    let a := "// f\nmethod A::f(long) const as g".toList
    let b := "static A::create()".toList
    parse (a ++ [';']) = .ok [.declaration constMethod]
      ∧ parse (b ++ [';']) = .ok [.declaration createFunction]
      ∧ ∃ e, parse (a ++ '\n' :: (b ++ [';'])) = .error e := by
  intro a b
  have hreada : parse (a ++ [';']) = .ok [.declaration constMethod] := by decide +kernel
  have hreadb : parse (b ++ [';']) = .ok [.declaration createFunction] := by decide +kernel
  have hwritten : Writes a ⟨"A::f".toList, some "long".toList, true, none⟩ :=
    ⟨"method ".toList, "A::f(long) const as g".toList, false, .method, by decide +kernel,
      ⟨by decide, ' ', rfl, rfl⟩, by decide +kernel⟩
  have hkey : ¬ HasWord AppliedName.keyword b :=
    AppliedName.not_hasWord_of_not_mem (by decide)
  exact ⟨hreada, hreadb, parse_lostTerminator (by decide) (by decide) hreada (by decide) hreadb
    hwritten rfl (by simp) fun _ => .inr ⟨by decide, hkey⟩⟩

/-- **Two classes are read as one.** Its name is the two lines with the line break between them. -/
theorem parse_lostTerminator_class :
    parse ("class A".toList ++ [';']) = .ok [.scope ⟨["A".toList]⟩ [] none]
      ∧ startsStatement "class B".toList = true
      ∧ parse ("class B".toList ++ [';']) = .ok [.scope ⟨["B".toList]⟩ [] none]
      ∧ parse ("class A".toList ++ '\n' :: ("class B".toList ++ [';']))
        = .ok [.scope ⟨["A\nclass B".toList]⟩ [] none] := by
  decide +kernel

end Overlay.Script
