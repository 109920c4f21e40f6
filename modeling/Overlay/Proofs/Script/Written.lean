/-
Arguments that are written and read back.

A text is written as a literal: quotes around it, and a backslash before what a literal cannot
hold as it is. Three readers have to find the end of the literal at the same place: the one that
looks for the closing parenthesis, the one that looks for the commas, and the one that takes the
escapes out again. The first two follow the same reading, `Quoting`. So all they have to be told
of a text is where that reading stands behind it (`after`), and that none of their marks is
outside of literals in it (`Free`); both are shown for a literal once.

With that the arguments of a directive are what was written: they are cut at the commas between
them, and each of them is read alone.
-/
import Overlay.Proofs.Text.Identifier
import Overlay.Proofs.Text.Words
import Overlay.Script.Directive

set_option autoImplicit false

namespace Overlay

namespace Script

/-! ## Writing

Only a literal can hold any text, so the feature, its value and the values of attributes are written
as literals. The keys of attributes are not quoted, and are those that the reader takes. -/

/-- A character as it is written inside a literal. -/
def escapeChar (c : Char) : Text :=
  if c = '\\' then ['\\', '\\']
  else if c = '"' then ['\\', '"']
  else if c = '\n' then ['\\', 'n']
  else [c]

/-- What stands between the quotes of a literal. -/
def escaped (t : Text) : Text := t.flatMap escapeChar

/-- A text as a literal. -/
def literal (t : Text) : Text := '"' :: (escaped t ++ ['"'])

/-- An attribute as an argument of a directive. -/
def attributeText (e : Text × Text) : Text := e.1 ++ '=' :: literal e.2

/-- The arguments of a directive, with a value. -/
def argumentsText (feature value : Text) (attributes : List (Text × Text)) : Text :=
  ", ".toList.intercalate (literal feature :: literal value :: attributes.map attributeText)

/-- The keys that attributes can have. -/
def isKey : Text → Bool
  | [] => false
  | c :: r => Text.isLetter c && r.all isKeyChar

/-- A character is written as an escape, which is read as the character, or as itself. -/
theorem escapeChar_cases (c : Char) :
    (∃ d, escapeChar c = ['\\', d] ∧ escape d = c ∧ d ≠ '\n')
      ∨ escapeChar c = [c] ∧ c ≠ '\\' ∧ c ≠ '"' ∧ c ≠ '\n' := by
  rw [escapeChar]
  by_cases hback : c = '\\'
  · rw [if_pos hback, hback]
    exact .inl ⟨'\\', rfl, rfl, by decide⟩
  · rw [if_neg hback]
    by_cases hquote : c = '"'
    · rw [if_pos hquote, hquote]
      exact .inl ⟨'"', rfl, rfl, by decide⟩
    · rw [if_neg hquote]
      by_cases hbreak : c = '\n'
      · rw [if_pos hbreak, hbreak]
        exact .inl ⟨'n', rfl, rfl, by decide⟩
      · rw [if_neg hbreak]
        exact .inr ⟨rfl, hback, hquote, hbreak⟩

/-! ## Literals are closed

Outside of literals, inside of one, or behind a backslash: these are the states of `Quoting`, and a
text takes one to another. A mark counts only in the first. -/

namespace Quoting

variable {marks : List Char} {q : Quoting} {t u : Text}

/-- The reading behind a text. -/
def after (q : Quoting) (t : Text) : Quoting := t.foldl Quoting.next q

/-- No mark stands outside of literals. -/
def Free (marks : List Char) : Quoting → Text → Prop
  | _, [] => True
  | q, c :: r => (q = .outside → c ∉ marks) ∧ Free marks (q.next c) r

theorem after_append (q : Quoting) (t u : Text) : q.after (t ++ u) = (q.after t).after u :=
  List.foldl_append

/-- Marks in a text are marks in its front or in its end, and the end is read from where the front
leads. -/
theorem free_append : Free marks q (t ++ u) ↔ Free marks q t ∧ Free marks (q.after t) u := by
  induction t generalizing q with
  | nil => simp [Free, after]
  | cons c t ih =>
    rw [List.cons_append, Free, Free, ih, and_assoc]
    rfl

/-- A text without any of some marks has none of fewer marks. -/
theorem Free.mono {marks' : List Char} (h : Free marks q t) (hsub : marks' ⊆ marks) :
    Free marks' q t := by
  induction t generalizing q with
  | nil => trivial
  | cons c t ih => exact ⟨fun hq hc => h.1 hq (hsub hc), ih h.2⟩

/-- Inside a literal a character is written so that the literal goes on behind it. -/
theorem escapeChar_inside (marks : List Char) (c : Char) :
    inside.after (escapeChar c) = inside ∧ Free marks inside (escapeChar c) := by
  rcases escapeChar_cases c with ⟨d, h, -, -⟩ | ⟨h, hback, hquote, -⟩
  · rw [h]
    exact ⟨rfl, by simp, by simp [next], trivial⟩
  · rw [h]
    refine ⟨?_, by simp, trivial⟩
    rw [after, List.foldl_cons, List.foldl_nil, next, if_neg hback, if_neg hquote]

/-- A text that is written inside a literal does not end it. -/
theorem escaped_inside (marks : List Char) (t : Text) :
    inside.after (Script.escaped t) = inside ∧ Free marks inside (Script.escaped t) := by
  induction t with
  | nil => exact ⟨rfl, trivial⟩
  | cons c t ih =>
    obtain ⟨hafter, hfree⟩ := escapeChar_inside marks c
    rw [Script.escaped, List.flatMap_cons, after_append, free_append, hafter]
    exact ⟨ih.1, hfree, ih.2⟩

/-- Behind a literal the reading is outside again. -/
theorem after_literal (t : Text) : outside.after (literal t) = outside := by
  show inside.after (Script.escaped t ++ ['"']) = outside
  rw [after_append, (escaped_inside [] t).1]
  rfl

/-- A literal hides all marks but the quote. -/
theorem free_literal (h : '"' ∉ marks) (t : Text) : Free marks outside (literal t) := by
  refine ⟨fun _ => h, ?_⟩
  show Free marks inside (Script.escaped t ++ ['"'])
  rw [free_append]
  refine ⟨(escaped_inside marks t).2, ?_⟩
  rw [(escaped_inside [] t).1]
  exact ⟨by simp, trivial⟩

/-- A text without quotes stays outside of literals. -/
theorem after_of_no_quote (h : '"' ∉ t) : outside.after t = outside := by
  induction t with
  | nil => rfl
  | cons c t ih =>
    rw [List.mem_cons, not_or] at h
    show (outside.next c).after t = outside
    rw [next, if_neg (Ne.symm h.1)]
    exact ih h.2

/-- In a text without quotes the marks are looked for everywhere. -/
theorem free_of_no_quote (h : '"' ∉ t) (hmarks : ∀ c ∈ t, c ∉ marks) : Free marks outside t := by
  induction t with
  | nil => trivial
  | cons c t ih =>
    rw [List.mem_cons, not_or] at h
    refine ⟨fun _ => hmarks c List.mem_cons_self, ?_⟩
    rw [next, if_neg (Ne.symm h.1)]
    exact ih h.2 fun d hd => hmarks d (List.mem_cons_of_mem c hd)

end Quoting

/-! ## The ends of arguments

An argument leaves the reading where it was and has no mark outside of literals. So the search for
the parenthesis passes it as a whole, and so does the split at the commas. -/

variable {q : Quoting} {t u : Text}

/-- The search for the parenthesis passes a text that has none, and is behind it in the state that
the text leads to. -/
theorem closeArguments_of_free (h : q.Free ['(', ')'] u) (depth : Nat) (t : Text) :
    closeArguments q depth (u ++ t)
      = (closeArguments (q.after u) depth t).map fun parts => (u ++ parts.1, parts.2) := by
  induction u generalizing q with
  | nil => cases hc : closeArguments q depth t <;> simp [Quoting.after, hc]
  | cons c u ih =>
    have hopen : ¬ (q = .outside ∧ c = '(') := fun hc => h.1 hc.1 (by simp [hc.2])
    have hclose : ¬ (q = .outside ∧ c = ')') := fun hc => h.1 hc.1 (by simp [hc.2])
    rw [List.cons_append, closeArguments, if_neg hclose, if_neg hopen, ih h.2, Option.map_map]
    rfl

theorem foldr_extend_cons (u p : Text) (ps : List Text) :
    u.foldr Text.extend (p :: ps) = (u ++ p) :: ps := by
  induction u with
  | nil => rfl
  | cons c u ih => rw [List.foldr_cons, ih, Text.extend, List.cons_append]

/-- A text without a comma goes to the front of the first argument. -/
theorem splitArguments_of_free (h : q.Free [','] u) (t : Text) :
    splitArguments q (u ++ t) = u.foldr Text.extend (splitArguments (q.after u) t) := by
  induction u generalizing q with
  | nil => rfl
  | cons c u ih =>
    have hcomma : ¬ (q = .outside ∧ c = ',') := fun hc => h.1 hc.1 (by simp [hc.2])
    rw [List.cons_append, splitArguments, if_neg hcomma, ih h.2]
    rfl

/-- What can stand as one argument among others. -/
structure IsArgument (t : Text) : Prop where
  closed : Quoting.outside.after t = .outside
  free : Quoting.outside.Free [',', '(', ')'] t
  trimmed : Text.trim t = t

/-- There is always a first argument, if only an empty one. -/
theorem splitArguments_ne_nil (q : Quoting) (t : Text) : splitArguments q t ≠ [] := by
  cases t with
  | nil => simp [splitArguments]
  | cons c t =>
    rw [splitArguments]
    by_cases hcomma : q = .outside ∧ c = ','
    · simp [hcomma]
    · rw [if_neg hcomma]
      cases splitArguments (q.next c) t <;> simp [Text.extend]

/-- A blank in front of arguments belongs to the first of them, and is trimmed off. -/
theorem map_trim_splitArguments_space (t : Text) :
    (splitArguments .outside (' ' :: t)).map Text.trim
      = (splitArguments .outside t).map Text.trim := by
  obtain ⟨p, ps, h⟩ := List.exists_cons_of_ne_nil (splitArguments_ne_nil .outside t)
  have hnext : Quoting.outside.next ' ' = .outside := rfl
  rw [splitArguments, if_neg (by simp), hnext, h, Text.extend, List.map_cons,
    Text.trim_cons_of_isBlank (by decide), List.map_cons]

/-- Arguments with commas between them are split into these arguments. -/
theorem map_trim_splitArguments {p : Text} {ps : List Text} (h : ∀ a ∈ p :: ps, IsArgument a) :
    (splitArguments .outside (", ".toList.intercalate (p :: ps))).map Text.trim = p :: ps := by
  induction ps generalizing p with
  | nil =>
    have hp := h p (by simp)
    have hcomma : Quoting.outside.Free [','] p := hp.free.mono (by simp)
    have hsplit := splitArguments_of_free hcomma []
    rw [List.append_nil, splitArguments, foldr_extend_cons, List.append_nil] at hsplit
    rw [List.intercalate_singleton, hsplit, List.map_singleton, hp.trimmed]
  | cons p' ps ih =>
    have hp := h p (by simp)
    -- the split is at the comma of the separator, and its blank goes to the next argument
    have hjoin : ", ".toList.intercalate (p :: p' :: ps)
        = p ++ ',' :: ' ' :: ", ".toList.intercalate (p' :: ps) := by
      rw [List.intercalate_cons_cons]
      simp
    have hcomma : Quoting.outside.Free [','] p := hp.free.mono (by simp)
    have hsplit := splitArguments_of_free hcomma (',' :: ' ' :: ", ".toList.intercalate (p' :: ps))
    rw [hp.closed, splitArguments, if_pos ⟨rfl, rfl⟩, foldr_extend_cons, List.append_nil]
      at hsplit
    rw [hjoin, hsplit, List.map_cons, hp.trimmed, map_trim_splitArguments_space]
    rw [ih fun a ha => h a (List.mem_cons_of_mem p ha)]

/-- Arguments with commas between them are closed, and have no parenthesis outside of
literals. -/
theorem intercalate_closed {ps : List Text} (h : ∀ a ∈ ps, IsArgument a) :
    Quoting.outside.after (", ".toList.intercalate ps) = .outside
      ∧ Quoting.outside.Free ['(', ')'] (", ".toList.intercalate ps) := by
  refine Text.intercalate_of_append
    (fun t => Quoting.outside.after t = .outside ∧ Quoting.outside.Free ['(', ')'] t)
    ⟨rfl, trivial⟩ ?_ ⟨rfl, by simp [Quoting.Free, Quoting.next]⟩ ?_
  · rintro t u ⟨ht, hfree⟩ hu
    rw [Quoting.after_append, Quoting.free_append, ht]
    exact ⟨hu.1, hfree, hu.2⟩
  · exact fun a ha => ⟨(h a ha).closed, (h a ha).free.mono (by simp)⟩

/-- Arguments with commas between them end at the parenthesis behind them. -/
theorem closeArguments_intercalate {ps : List Text} (h : ∀ a ∈ ps, IsArgument a) (t : Text) :
    closeArguments .outside 0 (", ".toList.intercalate ps ++ ')' :: t)
      = some (", ".toList.intercalate ps, t) := by
  obtain ⟨hclosed, hfree⟩ := intercalate_closed h
  rw [closeArguments_of_free hfree, hclosed, closeArguments, if_pos ⟨rfl, rfl⟩, if_pos rfl]
  simp

/-! ## Literals are read back

What is written for a character is read as that character, whatever follows. -/

theorem unescape_escapeChar (c : Char) (t : Text) :
    unescape (escapeChar c ++ t) = (unescape t).map (c :: ·) := by
  rcases escapeChar_cases c with ⟨d, h, hd, -⟩ | ⟨h, hback, -, -⟩
  · rw [h, ← hd]
    rfl
  · rw [h, List.singleton_append, unescape]
    · exact fun hc => absurd hc hback
    · exact fun _ _ hc => absurd hc hback

/-- Taking the escapes out again gives the text. -/
theorem unescape_escaped (t : Text) : unescape (escaped t) = some t := by
  induction t with
  | nil => rfl
  | cons c t ih =>
    rw [escaped, List.flatMap_cons, unescape_escapeChar, ← escaped, ih]
    rfl

/-- A literal is read as the text that it was written for. -/
theorem unquote_literal (t : Text) : unquote (literal t) = some t := by
  rw [literal, unquote, if_pos List.getLast?_concat, List.dropLast_concat, unescape_escaped]

/-- A literal is one line. -/
theorem newline_not_mem_escaped (t : Text) : '\n' ∉ escaped t := by
  rw [escaped, List.mem_flatMap]
  rintro ⟨c, -, hc⟩
  rcases escapeChar_cases c with ⟨d, h, -, hd⟩ | ⟨h, -, -, hbreak⟩
  · simp only [h, List.mem_cons, List.not_mem_nil, or_false] at hc
    rcases hc with hc | hc
    · exact absurd hc (by decide)
    · exact hd hc.symm
  · rw [h, List.mem_singleton] at hc
    exact hbreak hc.symm

theorem isQuotedLine_literal (t : Text) : isQuotedLine (literal t) = true := by
  have hline : '\n' ∉ escaped t ++ ['"'] := by
    rw [List.mem_append, not_or]
    exact ⟨newline_not_mem_escaped t, by decide⟩
  rw [literal, isQuotedLine, List.getLast?_concat]
  simpa using hline

/-- A literal can stand as an argument, whatever the text. -/
theorem isArgument_literal (t : Text) : IsArgument (literal t) where
  closed := Quoting.after_literal t
  free := Quoting.free_literal (by decide) t
  trimmed := by
    refine Text.trim_eq_self ?_ ?_
    · intro c hc
      obtain rfl := Option.some.inj hc
      decide
    · intro c hc
      rw [literal, ← List.cons_append, List.getLast?_concat] at hc
      obtain rfl := Option.some.inj hc
      decide

/-! ## Attributes

The key stands in front of the first `=`, and no character of a key is an `=` or a quote. -/

/-- The characters of a key are neither marks nor blanks. -/
theorem isKeyChar_plain {c : Char} (h : isKeyChar c = true) :
    c ≠ '"' ∧ c ∉ [',', '(', ')'] ∧ c ≠ '=' := by
  refine ⟨?_, ?_, ?_⟩
  · rintro rfl
    exact absurd h (by decide)
  · intro hmem
    simp only [List.mem_cons, List.not_mem_nil, or_false] at hmem
    rcases hmem with rfl | rfl | rfl <;> exact absurd h (by decide)
  · rintro rfl
    exact absurd h (by decide)

theorem isKeyChar_of_mem {key : Text} (h : isKey key = true) : ∀ c ∈ key, isKeyChar c = true := by
  cases key with
  | nil => simp
  | cons c r =>
    rw [isKey, Bool.and_eq_true, List.all_eq_true] at h
    intro d hd
    rcases List.mem_cons.1 hd with rfl | hd
    · rw [isKeyChar, Text.isIdentChar_of_isLetter _ h.1, Bool.true_or]
    · exact h.2 d hd

/-- An attribute can stand as an argument: its key has no marks, and its value is a literal. -/
theorem isArgument_attributeText {e : Text × Text} (h : isKey e.1 = true) :
    IsArgument (attributeText e) := by
  have hplain := fun c hc => isKeyChar_plain (isKeyChar_of_mem h c hc)
  have hquote : '"' ∉ e.1 ++ ['='] := by
    rw [List.mem_append, not_or]
    exact ⟨fun hmem => (hplain '"' hmem).1 rfl, by decide⟩
  have hmarks : ∀ c ∈ e.1 ++ ['='], c ∉ [',', '(', ')'] := by
    intro c hc
    rcases List.mem_append.1 hc with hc | hc
    · exact (hplain c hc).2.1
    · rw [List.mem_singleton.1 hc]
      decide
  -- up to the quote there is no mark, and from there on it is a literal
  have hparts : attributeText e = (e.1 ++ ['=']) ++ literal e.2 := by
    rw [attributeText, List.append_assoc, List.singleton_append]
  refine ⟨?_, ?_, ?_⟩
  · rw [hparts, Quoting.after_append, Quoting.after_of_no_quote hquote, Quoting.after_literal]
  · rw [hparts, Quoting.free_append, Quoting.after_of_no_quote hquote]
    exact ⟨Quoting.free_of_no_quote hquote hmarks, Quoting.free_literal (by decide) _⟩
  · refine Text.trim_eq_self ?_ ?_
    · intro c hc
      obtain ⟨key, value⟩ := e
      cases key with
      | nil => simp [isKey] at h
      | cons d key =>
        rw [isKey, Bool.and_eq_true] at h
        obtain rfl := Option.some.inj hc
        exact Text.isBlank_of_isIdentChar (Text.isIdentChar_of_isLetter _ h.1)
    · intro c hc
      have hend : attributeText e = (e.1 ++ '=' :: '"' :: escaped e.2) ++ ['"'] := by
        simp [attributeText, literal]
      rw [hend, List.getLast?_concat] at hc
      obtain rfl := Option.some.inj hc
      decide

/-- An attribute is split behind its key. -/
theorem splitAttribute_attributeText {e : Text × Text} (h : isKey e.1 = true) :
    splitAttribute (attributeText e) = some (e.1, literal e.2) := by
  obtain ⟨key, value⟩ := e
  cases key with
  | nil => simp [isKey] at h
  | cons c key =>
    rw [isKey, Bool.and_eq_true, List.all_eq_true] at h
    obtain ⟨hletter, hkey⟩ := h
    have htake : (key ++ '=' :: literal value).takeWhile isKeyChar = key := by
      rw [List.takeWhile_append_of_pos hkey, List.takeWhile_cons_of_neg (by decide),
        List.append_nil]
    have hdrop : (key ++ '=' :: literal value).dropWhile isKeyChar = '=' :: literal value := by
      rw [List.dropWhile_append_of_pos hkey]
      rfl
    show splitAttribute (c :: (key ++ '=' :: literal value)) = _
    rw [splitAttribute, if_pos hletter, hdrop, htake]
    show (if isQuotedLine (literal value) = true then some (c :: key, literal value) else none) = _
    rw [if_pos (isQuotedLine_literal value)]

/-- An attribute is read as it was written, and not taken for a value: a value begins with a
quote. -/
theorem readAttribute_attributeText {e : Text × Text} (h : isKey e.1 = true) (feature : Text) :
    readAttribute feature (attributeText e) = .ok e := by
  have hbare : unquote (attributeText e) = none := by
    obtain ⟨key, value⟩ := e
    cases key with
    | nil => simp [isKey] at h
    | cons c key =>
      rw [attributeText, List.cons_append, unquote]
      rintro r hc
      exact (isKeyChar_plain (isKeyChar_of_mem h c List.mem_cons_self)).1 (List.cons.inj hc).1
  rw [readAttribute, hbare, splitAttribute_attributeText h]
  simp only [unquote_literal]

/-! ## All arguments

With literals and attributes as arguments nothing is left to show but that they are read in
turn. -/

theorem mapM_readAttribute {attributes : List (Text × Text)}
    (h : ∀ e ∈ attributes, isKey e.1 = true) (feature : Text) :
    (attributes.map attributeText).mapM (readAttribute feature) = .ok attributes := by
  induction attributes with
  | nil => rfl
  | cons e es ih =>
    rw [List.map_cons, List.mapM_cons, readAttribute_attributeText (h e List.mem_cons_self),
      ih fun e' he' => h e' (List.mem_cons_of_mem e he')]
    rfl

theorem isArgument_of_mem {attributes : List (Text × Text)}
    (h : ∀ e ∈ attributes, isKey e.1 = true) (feature value : Text) :
    ∀ a ∈ literal feature :: literal value :: attributes.map attributeText, IsArgument a := by
  intro a ha
  rcases List.mem_cons.1 ha with rfl | ha
  · exact isArgument_literal feature
  · rcases List.mem_cons.1 ha with rfl | ha
    · exact isArgument_literal value
    · obtain ⟨e, he, rfl⟩ := List.mem_map.1 ha
      exact isArgument_attributeText (h e he)

/-- Arguments are read as they were written. -/
theorem readArguments_argumentsText {feature : Text} {attributes : List (Text × Text)}
    (hfeature : feature ≠ []) (h : ∀ e ∈ attributes, isKey e.1 = true) (value : Text) :
    readArguments (argumentsText feature value attributes)
      = .ok ⟨feature, some value, Dictionary.ofList attributes⟩ := by
  rw [readArguments, argumentsText, map_trim_splitArguments (isArgument_of_mem h feature value)]
  simp only [unquote_literal, if_neg hfeature, readOptions, mapM_readAttribute h]
  rfl

end Script

end Overlay
