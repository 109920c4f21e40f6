/-
The arguments of a directive, and what stands in for them.

Between the parentheses of `%feature` stand a literal, perhaps a second one, and attributes, with
commas between them (`IsArgumentList`). The reader cuts at the commas and looks at each part alone.
So it accepts what is of that form with its own notion of a literal (`readArguments_isOk_iff`), and
that is the form itself exactly if no part holds two literals (`isArgumentList_iff`). Where a comma
between two literals is left out, they are taken for one (`parse_arguments_twoLiterals`).

The reader of a script stops at the first fault that it comes to, and reports it on the line of the
item (`readFrom_of_comesTo`). So arguments of another form make the script an error there, whatever
follows them (`parse_arguments_iff`).
-/
import Overlay.Proofs.Script.Literals
import Overlay.Proofs.Script.Success
import Overlay.Proofs.Text.Extension

set_option autoImplicit false

namespace Overlay.Script

open Text (IsGap)
open Quoting (outside)

variable {special : List Char} {t u key value feature args : Text} {parts : List Text}

/-! ## The form of arguments

The form is stated of the text, not of what is read, and for both notions of a literal at once. -/

/-- A key and a literal on one line, with `=` between them and perhaps blanks around that. -/
def IsAttribute (special : List Char) (t : Text) : Prop :=
  ∃ key u v value, isKey key = true ∧ IsGap u ∧ IsGap v ∧ t = key ++ (u ++ '=' :: (v ++ value))
    ∧ IsQuoted special value ∧ '\n' ∉ value

/-- A literal that is not empty, perhaps another one, and attributes. -/
def IsListing (special : List Char) (parts : List Text) : Prop :=
  ∃ (feature : Text) (value : Option Text) (attributes : List Text),
    parts = feature :: (value.toList ++ attributes)
      ∧ IsQuoted special feature ∧ feature ≠ ['"', '"']
      ∧ (∀ v ∈ value, IsQuoted special v) ∧ ∀ a ∈ attributes, IsAttribute special a

/-- A listing with commas, and perhaps blanks, between its parts. With `literalSpecial` its literals
are literals, and with the backslash alone they are what the reader takes for one. -/
def IsArgumentList (special : List Char) (args : Text) : Prop :=
  ∃ parts, IsSplit args parts ∧ IsListing special (parts.map Text.trim)

/-- No part holds two literals: between any two of them a comma stands. -/
def LiteralsApart (args : Text) : Prop :=
  ∀ parts, IsSplit args parts → ∀ part ∈ parts, outside.opened part ≤ 1

/-! ## What the readers accept

One reader after the other: an attribute, what stands behind the feature, all of it. The first part
of a listing decides how the rest is read, and no part can be taken for both a literal and an
attribute, so the reader need not look further than one part. -/

/-- The reader asks for a quote at either end of a value, and for one line. -/
theorem isQuotedLine_iff : isQuotedLine t = true ↔ (∃ b, t = '"' :: (b ++ ['"'])) ∧ '\n' ∉ t := by
  rw [isQuotedLine.eq_def]
  split
  next r =>
    simp only [Bool.and_eq_true, beq_iff_eq, Bool.not_eq_true', List.contains_eq_mem,
      decide_eq_false_iff_not, List.getLast?_eq_some_iff, List.mem_cons, not_or, List.cons.injEq,
      true_and]
    simp
  next hother =>
    simp only [Bool.false_eq_true, false_iff, not_and]
    rintro ⟨b, rfl⟩
    exact absurd rfl (hother _)

/-- A key ends at a blank. -/
theorem isKeyChar_of_isBlank {c : Char} (h : Text.isBlank c = true) : isKeyChar c = false := by
  rw [isKeyChar, Bool.or_eq_false_iff]
  refine ⟨Text.isIdentChar_of_isBlank h, beq_eq_false_iff_ne.2 ?_⟩
  rintro rfl
  exact absurd h (by decide)

/-- The key of an attribute goes as far as it can; behind it stand an `=` and a literal. -/
theorem eq_of_splitAttribute (h : splitAttribute t = some (key, value)) :
    isKey key = true ∧ isQuotedLine value = true
      ∧ ∃ u v, IsGap u ∧ IsGap v ∧ t = key ++ (u ++ '=' :: (v ++ value)) := by
  have hgap : ∀ s : Text, IsGap (s.takeWhile Text.isBlank) :=
    fun s => List.all_eq_true.1 List.all_takeWhile
  rw [splitAttribute.eq_def] at h
  split at h
  next => simp at h
  next c r =>
    split at h
    next hletter =>
      split at h
      next after hafter =>
        simp only at h
        split at h
        next hquoted =>
          obtain ⟨rfl, rfl⟩ := Prod.mk.inj (Option.some.inj h)
          refine ⟨?_, hquoted, (r.dropWhile isKeyChar).takeWhile Text.isBlank,
            after.takeWhile Text.isBlank, hgap _, hgap _, ?_⟩
          · rw [isKey, hletter, Bool.true_and]
            exact List.all_takeWhile
          · -- the cuts put together again, from the last one on
            rw [Text.takeWhile_append_trimStart, ← hafter, Text.takeWhile_append_trimStart,
              List.cons_append, List.takeWhile_append_dropWhile]
        next => simp at h
      next => simp at h
    next => simp at h

/-- Neither a blank nor `=` belongs to a key. -/
theorem isKeyChar_of_head_assign {d : Char} (hu : IsGap u)
    (hd : (u ++ '=' :: t).head? = some d) : isKeyChar d = false := by
  cases u with
  | nil =>
    obtain rfl := Option.some.inj hd
    decide
  | cons e u =>
    obtain rfl := Option.some.inj hd
    exact isKeyChar_of_isBlank (hu e List.mem_cons_self)

/-- A key, an `=` and a value are cut apart again, with blanks around the `=` or without. -/
theorem splitAttribute_append {v : Text} (hkey : isKey key = true)
    (hquoted : isQuotedLine value = true) (hu : IsGap u) (hv : IsGap v) :
    splitAttribute (key ++ (u ++ '=' :: (v ++ value))) = some (key, value) := by
  cases key with
  | nil => simp [isKey] at hkey
  | cons c key =>
    rw [isKey, Bool.and_eq_true, List.all_eq_true] at hkey
    obtain ⟨htake, hdrop⟩ := Text.span_append hkey.2 fun d =>
      isKeyChar_of_head_assign (t := v ++ value) hu
    have hvalue : Text.trimStart (v ++ value) = value := by
      obtain ⟨⟨b, rfl⟩, -⟩ := isQuotedLine_iff.1 hquoted
      rw [Text.trimStart_gap_append hv]
      rfl
    have hassign : Text.trimStart (u ++ '=' :: (v ++ value)) = '=' :: (v ++ value) := by
      rw [Text.trimStart_gap_append hu]
      rfl
    rw [List.cons_append, splitAttribute, if_pos hkey.1, hdrop, htake, hassign]
    simp only [hvalue, if_pos hquoted]

/-- An attribute is cut at its `=`. -/
theorem splitAttribute_eq_some_iff :
    splitAttribute t = some (key, value)
      ↔ isKey key = true ∧ isQuotedLine value = true
        ∧ ∃ u v, IsGap u ∧ IsGap v ∧ t = key ++ (u ++ '=' :: (v ++ value)) := by
  constructor
  · exact eq_of_splitAttribute
  · rintro ⟨hkey, hquoted, u, v, hu, hv, rfl⟩
    exact splitAttribute_append hkey hquoted hu hv

/-- What begins with a key is not taken for a literal. -/
theorem unquote_of_isKey (h : isKey key = true) (r : Text) : unquote (key ++ r) = none := by
  cases key with
  | nil => simp [isKey] at h
  | cons c key =>
    rw [List.cons_append, unquote]
    rintro _ hc
    exact (isKeyChar_plain (isKeyChar_of_mem h c List.mem_cons_self)).1 (List.cons.inj hc).1

/-- What is accepted as an attribute. -/
theorem readAttribute_isOk_iff :
    (∃ e, readAttribute feature t = .ok e) ↔ IsAttribute ['\\'] t := by
  constructor
  · rintro ⟨e, he⟩
    rw [readAttribute] at he
    split at he
    next => simp at he
    next =>
      split at he
      next => simp at he
      next key value hattribute =>
        split at he
        next => simp at he
        next text hvalue =>
          obtain ⟨hkey, hquoted, u, v, hu, hv, rfl⟩ := splitAttribute_eq_some_iff.1 hattribute
          exact ⟨key, u, v, value, hkey, hu, hv, rfl, isQuoted_of_unquote hvalue,
            (isQuotedLine_iff.1 hquoted).2⟩
  · rintro ⟨key, u, v, value, hkey, hu, hv, rfl, hvalue, hline⟩
    obtain ⟨text, htext⟩ := Option.isSome_iff_exists.1 (unquote_isSome_iff.2 hvalue)
    obtain ⟨b, hb, -⟩ := hvalue
    have hattribute := splitAttribute_eq_some_iff.2
      ⟨hkey, isQuotedLine_iff.2 ⟨⟨b, hb⟩, hline⟩, u, v, hu, hv, rfl⟩
    refine ⟨(key, text), ?_⟩
    rw [readAttribute, unquote_of_isKey hkey, hattribute]
    simp only [htext]

theorem mapM_readAttribute_isOk_iff :
    (∃ es, parts.mapM (readAttribute feature) = .ok es) ↔ ∀ a ∈ parts, IsAttribute ['\\'] a := by
  rw [mapM_isOk_iff]
  exact forall₂_congr fun _ _ => readAttribute_isOk_iff

/-- No attribute is taken for a literal: it begins with a key. -/
theorem IsAttribute.not_isQuoted (h : IsAttribute special t) : ¬ IsQuoted ['\\'] t := by
  obtain ⟨key, u, v, value, hkey, -, -, rfl, -⟩ := h
  rw [← unquote_eq_none_iff]
  exact unquote_of_isKey hkey _

/-- A value comes first, if there is one, and no attribute is taken for it. -/
theorem readOptions_isOk_iff :
    (∃ options, readOptions feature parts = .ok options)
      ↔ ∃ (value : Option Text) (attributes : List Text), parts = value.toList ++ attributes
        ∧ (∀ v ∈ value, IsQuoted ['\\'] v) ∧ ∀ a ∈ attributes, IsAttribute ['\\'] a := by
  cases parts with
  | nil =>
    refine iff_of_true ⟨_, rfl⟩ ⟨none, [], rfl, by simp, by simp⟩
  | cons part ps =>
    rw [readOptions]
    cases hunquote : unquote part with
    | some value =>
      -- the first part is the value, since an attribute is no literal
      have hpart : IsQuoted ['\\'] part := isQuoted_of_unquote hunquote
      simp only [map_isOk_iff, mapM_readAttribute_isOk_iff]
      constructor
      · intro h
        exact ⟨some part, ps, rfl, by simpa using hpart, h⟩
      · rintro ⟨value', attributes, hparts, -, h⟩
        cases value' with
        | some v =>
          obtain ⟨-, rfl⟩ := List.cons.inj hparts
          exact h
        | none =>
          obtain rfl : part :: ps = attributes := hparts
          exact absurd hpart (h part List.mem_cons_self).not_isQuoted
    | none =>
      -- there is no value, and the first part is an attribute already
      have hpart : ¬ IsQuoted ['\\'] part := unquote_eq_none_iff.1 hunquote
      simp only [map_isOk_iff, mapM_readAttribute_isOk_iff]
      constructor
      · intro h
        exact ⟨none, part :: ps, rfl, by simp, h⟩
      · rintro ⟨value', attributes, hparts, hvalue, h⟩
        cases value' with
        | some v =>
          obtain ⟨rfl, -⟩ := List.cons.inj hparts
          exact absurd (hvalue part rfl) hpart
        | none =>
          obtain rfl : part :: ps = attributes := hparts
          exact h

/-- Only two quotes with nothing between them are the empty literal. -/
theorem unquote_eq_nil_iff : unquote t = some [] ↔ t = ['"', '"'] := by
  constructor
  · intro h
    obtain ⟨b, rfl, -⟩ := isQuoted_of_unquote h
    rw [unquote_eq] at h
    cases b with
    | nil => rfl
    | cons c b =>
      rw [unescape.eq_def] at h
      split at h <;> simp_all
  · rintro rfl
    rfl

/-- The parts between the commas, one by one. -/
theorem readArguments_isOk_iff_isListing :
    (∃ arguments, readArguments args = .ok arguments)
      ↔ IsListing ['\\'] ((splitArguments .outside args).map Text.trim) := by
  rw [readArguments]
  obtain ⟨first, rest, hsplit⟩ := List.exists_cons_of_ne_nil
    (splitArguments_ne_nil .outside args)
  rw [hsplit, List.map_cons]
  simp only
  cases hfeature : unquote first.trim with
  | none =>
    simp only [reduceCtorEq, exists_false, false_iff]
    rintro ⟨feature, value, attributes, hparts, hquoted, -⟩
    obtain ⟨rfl, -⟩ := List.cons.inj hparts
    exact unquote_eq_none_iff.1 hfeature hquoted
  | some feature =>
    have hquoted : IsQuoted ['\\'] first.trim := isQuoted_of_unquote hfeature
    by_cases hempty : feature = []
    · -- two quotes with nothing between them are a literal, but not a name
      subst hempty
      simp only [if_true, reduceCtorEq, exists_false, false_iff]
      rintro ⟨feature, value, attributes, hparts, -, hne, -⟩
      obtain ⟨rfl, -⟩ := List.cons.inj hparts
      exact hne (unquote_eq_nil_iff.1 hfeature)
    · have hne : first.trim ≠ ['"', '"'] := by
        intro heq
        rw [unquote_eq_nil_iff.2 heq] at hfeature
        exact hempty (Option.some.inj hfeature).symm
      simp only [if_neg hempty]
      rw [map_isOk_iff, readOptions_isOk_iff]
      constructor
      · rintro ⟨value, attributes, hrest, hvalue, hattributes⟩
        exact ⟨_, value, attributes, by rw [hrest], hquoted, hne, hvalue, hattributes⟩
      · rintro ⟨feature', value, attributes, hparts, -, -, hvalue, hattributes⟩
        exact ⟨value, attributes, (List.cons.inj hparts).2, hvalue, hattributes⟩

/-- **What is accepted as arguments.** A listing with commas between its parts, each of which is
taken for a literal or for an attribute. -/
theorem readArguments_isOk_iff (hclosed : outside.after args = outside) :
    (∃ arguments, readArguments args = .ok arguments) ↔ IsArgumentList ['\\'] args := by
  rw [readArguments_isOk_iff_isListing]
  constructor
  · intro h
    exact ⟨_, isSplit_splitArguments hclosed, h⟩
  · rintro ⟨parts, hsplit, h⟩
    rwa [← hsplit.eq_splitArguments]

/-! ## Parts that hold two literals

The two notions of a literal differ in the quotes inside, and the quotes inside are counted by
`opened`. -/

/-- Up to the literal of an attribute there is no quote. -/
theorem not_quote_mem_front {u v : Text} (hkey : isKey key = true) (hu : IsGap u) (hv : IsGap v) :
    '"' ∉ key ++ (u ++ '=' :: v) := by
  simp only [List.mem_append, List.mem_cons, not_or]
  refine ⟨?_, ?_, by decide, ?_⟩
  · exact fun hmem => (isKeyChar_plain (isKeyChar_of_mem hkey _ hmem)).1 rfl
  · exact fun hmem => absurd (hu _ hmem) (by decide)
  · exact fun hmem => absurd (hv _ hmem) (by decide)

/-- An attribute with a literal as its value is one that the reader accepts and in which one literal
begins. -/
theorem isAttribute_iff (hclosed : outside.after t = outside) :
    IsAttribute literalSpecial t ↔ IsAttribute ['\\'] t ∧ outside.opened t ≤ 1 := by
  have hliteral : ∀ {key u v value : Text}, isKey key = true → IsGap u → IsGap v →
      t = key ++ (u ++ '=' :: (v ++ value)) →
        (IsQuoted literalSpecial value ↔ IsQuoted ['\\'] value ∧ outside.opened t ≤ 1) := by
    intro key u v value hkey hu hv htext
    have hfront : t = key ++ (u ++ '=' :: v) ++ value := by simpa using htext
    obtain ⟨hafter, hopened⟩ :=
      Quoting.append_of_no_quote (not_quote_mem_front hkey hu hv) value
    rw [← hfront] at hafter hopened
    rw [hopened]
    exact isQuoted_iff_opened_le_one (hafter.symm.trans hclosed)
  constructor
  · rintro ⟨key, u, v, value, hkey, hu, hv, htext, hvalue, hline⟩
    obtain ⟨hquoted, hone⟩ := (hliteral hkey hu hv htext).1 hvalue
    exact ⟨⟨key, u, v, value, hkey, hu, hv, htext, hquoted, hline⟩, hone⟩
  · rintro ⟨⟨key, u, v, value, hkey, hu, hv, htext, hvalue, hline⟩, hone⟩
    exact ⟨key, u, v, value, hkey, hu, hv, htext,
      (hliteral hkey hu hv htext).2 ⟨hvalue, hone⟩, hline⟩

/-- In a listing that the reader accepts all literals are literals if no part holds two. -/
theorem isListing_iff (hclosed : ∀ part ∈ parts, outside.after part = outside) :
    IsListing literalSpecial parts
      ↔ IsListing ['\\'] parts ∧ ∀ part ∈ parts, outside.opened part ≤ 1 := by
  have hliteral := fun part hpart => isQuoted_iff_opened_le_one (hclosed part hpart)
  have hattribute := fun part hpart => isAttribute_iff (hclosed part hpart)
  -- part by part: the feature, the value if there is one, and the attributes
  constructor
  · rintro ⟨feature, value, attributes, rfl, hfeature, hne, hvalue, hattributes⟩
    simp only [List.forall_mem_cons, List.forall_mem_append, Option.mem_toList]
      at hliteral hattribute
    have hvalue' := fun v hv => (hliteral.2.1 v hv).1 (hvalue v hv)
    have hattributes' := fun a ha => (hattribute.2.2 a ha).1 (hattributes a ha)
    obtain ⟨hquoted, hone⟩ := hliteral.1.1 hfeature
    refine ⟨⟨feature, value, attributes, rfl, hquoted, hne, fun v hv => (hvalue' v hv).1,
      fun a ha => (hattributes' a ha).1⟩, ?_⟩
    simp only [List.forall_mem_cons, List.forall_mem_append, Option.mem_toList]
    exact ⟨hone, fun v hv => (hvalue' v hv).2, fun a ha => (hattributes' a ha).2⟩
  · rintro ⟨⟨feature, value, attributes, rfl, hfeature, hne, hvalue, hattributes⟩, hone⟩
    simp only [List.forall_mem_cons, List.forall_mem_append, Option.mem_toList]
      at hliteral hattribute hone
    exact ⟨feature, value, attributes, rfl, hliteral.1.2 ⟨hfeature, hone.1⟩, hne,
      fun v hv => (hliteral.2.1 v hv).2 ⟨hvalue v hv, hone.2.1 v hv⟩,
      fun a ha => (hattribute.2.2 a ha).2 ⟨hattributes a ha, hone.2.2 a ha⟩⟩

/-- What is taken for arguments is arguments exactly if no part holds two literals. -/
theorem isArgumentList_iff :
    IsArgumentList literalSpecial args ↔ IsArgumentList ['\\'] args ∧ LiteralsApart args := by
  have hlisting : ∀ {parts : List Text}, IsSplit args parts →
      (IsListing literalSpecial (parts.map Text.trim)
        ↔ IsListing ['\\'] (parts.map Text.trim) ∧ ∀ part ∈ parts, outside.opened part ≤ 1) := by
    intro parts hsplit
    have htrim := fun part hpart => Quoting.trim_closed (hsplit.closed part hpart)
    rw [isListing_iff (List.forall_mem_map.2 fun part hpart => (htrim part hpart).1),
      List.forall_mem_map]
    refine and_congr_right fun _ => forall₂_congr fun part hpart => ?_
    rw [(htrim part hpart).2]
  constructor
  · rintro ⟨parts, hsplit, h⟩
    obtain ⟨hread, hone⟩ := (hlisting hsplit).1 h
    refine ⟨⟨parts, hsplit, hread⟩, ?_⟩
    intro parts' hsplit'
    rwa [hsplit'.eq_splitArguments, ← hsplit.eq_splitArguments]
  · rintro ⟨⟨parts, hsplit, h⟩, hapart⟩
    exact ⟨parts, hsplit, (hlisting hsplit).2 ⟨h, hapart parts hsplit⟩⟩

/-! ## What a script comes to

A script is an error as soon as one of its items is, and the line is that of the item. -/

/-- Where an item begins that the reader of a text comes to: every item in front of it is read. -/
inductive ComesTo : Text → Text → Prop where
  | here {t u : Text} (hskip : skipTrivia .gap t = .ok u) : ComesTo t u
  | behind {t r u : Text} {c : Char} {s : Text} {item : Item}
      (hskip : skipTrivia .gap t = .ok (c :: s)) (hitem : readItem (c :: s) = .ok (item, r))
      (h : ComesTo r u) : ComesTo t u

/-- **A fault ends the reading where it stands.** -/
theorem readFrom_of_comesTo {script : Text} {c : Char} {s : Text} {cause : Cause}
    (hcomes : ComesTo t (c :: s)) (hitem : readItem (c :: s) = .error cause) :
    readFrom script t = .error ⟨lineAt script (c :: s), cause⟩ := by
  generalize hu : c :: s = u at hcomes
  induction hcomes with
  | here hskip =>
    subst hu
    exact readFrom_of_fault hskip hitem
  | behind hskip hfront h ih =>
    rw [readFrom_of_item hskip hfront, ih hu]
    rfl

/-! ## The arguments of a directive

Where a script comes to the head of a `%feature` and its arguments are closed, what is between the
parentheses decides on the error alone, whatever stands behind them. -/

/-- The name ends where the arguments begin. -/
theorem cutIdentifier_feature {r after : Text} (h : cutArguments r = .ok (args, after)) :
    Text.cutIdentifier ("feature".toList ++ r) = some ("feature".toList, r) := by
  obtain ⟨s, hs, -⟩ := cutArguments_eq_ok_iff.1 h
  refine Text.cutIdentifier_eq_some_iff.2 ⟨rfl, by decide, ?_⟩
  intro c hc
  cases r with
  | nil => simp at hc
  | cons d r =>
    obtain rfl := Option.some.inj hc
    cases hblank : Text.isBlank d with
    | true => exact Text.isIdentChar_of_isBlank hblank
    | false =>
      rw [Text.trimStart, List.dropWhile_cons_of_neg (by simp [hblank])] at hs
      rw [(List.cons.inj hs).1]
      decide

/-- What is wrong with the arguments is what is wrong with the item. -/
theorem readItem_of_fault {r after : Text} {fault : DirectiveFault}
    (hargs : cutArguments r = .ok (args, after)) (hread : readArguments args = .error fault) :
    readItem ("%feature".toList ++ r) = .error (.directive fault) := by
  show (readDirective ("feature".toList ++ r)).map _ = _
  rw [readDirective, cutIdentifier_feature hargs]
  simp only [if_true]
  rw [readFeature, hargs]
  show (((readArguments args).mapError Cause.directive >>= _) : Except Cause _).map _ = _
  rw [hread]
  rfl

/-- **What makes the arguments of `%feature` an error.** Where the reader of a script comes to
arguments that are no list of what it takes for literals, the script is an error on that line, and
other arguments are no error. A list of literals is one of these in which no part holds two, which
is not checked. -/
theorem parse_arguments_iff {script r after : Text}
    (hcomes : ComesTo script ("%feature".toList ++ r))
    (hargs : cutArguments r = .ok (args, after)) :
    ((∃ fault, readArguments args = .error fault
        ∧ parse script = .error ⟨lineAt script ("%feature".toList ++ r), .directive fault⟩)
      ↔ ¬ IsArgumentList ['\\'] args)
    ∧ (IsArgumentList literalSpecial args
      ↔ IsArgumentList ['\\'] args ∧ LiteralsApart args) := by
  have hclosed : outside.after args = outside := by
    obtain ⟨s, -, hclose⟩ := cutArguments_eq_ok_iff.1 hargs
    exact after_of_closeArguments hclose
  refine ⟨?_, isArgumentList_iff⟩
  rw [← readArguments_isOk_iff hclosed]
  constructor
  · rintro ⟨fault, hread, -⟩ ⟨arguments, hread'⟩
    rw [hread] at hread'
    simp at hread'
  · intro hnone
    cases hread : readArguments args with
    | ok arguments => exact absurd ⟨arguments, hread⟩ hnone
    | error fault =>
      exact ⟨fault, rfl, readFrom_of_comesTo hcomes (readItem_of_fault hargs hread)⟩

/-- Behind another directive, literals that hold an escaped quote, a comma and parentheses are
single ones, with blanks around them and around the `=`. -/
theorem parse_arguments_escaped :
    let r := "( \"say \\\"(,\", \"1\" ,k:x = \"),\") f;".toList
    let args := " \"say \\\"(,\", \"1\" ,k:x = \"),\"".toList
    ComesTo ("%mutable;\n".toList ++ ("%feature".toList ++ r)) ("%feature".toList ++ r)
      ∧ cutArguments r = .ok (args, " f;".toList) ∧ IsArgumentList literalSpecial args := by
  intro r args
  have hcomes : ComesTo ("%mutable;\n".toList ++ ("%feature".toList ++ r))
      ("%feature".toList ++ r) :=
    .behind rfl rfl (.here rfl)
  have hargs : cutArguments r = .ok (args, " f;".toList) := rfl
  obtain ⟨hfault, hform⟩ := parse_arguments_iff hcomes hargs
  refine ⟨hcomes, hargs, hform.2 ⟨?_, ?_⟩⟩
  · refine Classical.byContradiction fun hnot => ?_
    obtain ⟨fault, hread, -⟩ := hfault.2 hnot
    obtain ⟨arguments, hok⟩ : ∃ arguments, readArguments args = .ok arguments := ⟨_, rfl⟩
    rw [hread] at hok
    simp at hok
  · intro parts hsplit
    rw [hsplit.eq_splitArguments]
    decide

/-- **Two literals without a comma between them are taken for one.** The feature that is declared
has both texts in its name, and what stood between them. -/
theorem parse_arguments_twoLiterals :
    let r := "(\"a\" \"b\");".toList
    let args := "\"a\" \"b\"".toList
    cutArguments r = .ok (args, [';'])
      ∧ parse ("%feature".toList ++ r)
        = .ok [.directive ⟨"a\" \"b".toList, .global, .enabled ['1'], none, .empty, 0⟩]
      ∧ ¬ IsArgumentList literalSpecial args := by
  intro r args
  have hargs : cutArguments r = .ok (args, [';']) := rfl
  refine ⟨hargs, ?_, ?_⟩
  · have hitem : readItem ('%' :: ("feature".toList ++ r)) = .ok (.directive
        ⟨"a\" \"b".toList, .global, .enabled ['1'], none, .empty, 0⟩, []) := rfl
    show parse ('%' :: ("feature".toList ++ r)) = _
    rw [parse, readFrom_of_item rfl hitem, readFrom_of_end rfl]
    rfl
  · intro h
    have hsplit : IsSplit args (splitArguments .outside args) := isSplit_splitArguments rfl
    have htwo := (isArgumentList_iff.1 h).2 _ hsplit args List.mem_cons_self
    exact absurd htwo (by decide)

end Overlay.Script
