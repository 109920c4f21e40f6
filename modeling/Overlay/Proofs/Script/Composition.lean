/-
Scripts one after the other.

A script that can be read can be followed by any text on a new line: its items come first, and
then what the text comes to when it is read alone. If the text cannot be read, its error is the
error of the whole, so many lines further down as the script has.

The reader works from the left and stops at the end of each item. So it is enough that no
reader of a part looks behind what it takes: what it does on a text it does in the same way on
the text with more behind it (the lemmas `…_append`). Two readers do look ahead. The pattern of
a directive is given up where a new statement starts, and to see one the reader passes blanks
and a word; but where the pattern has an ending, that ending stands behind all it looks at,
since it is neither blank nor part of a keyword (`startsAnew_append`). And the blanks and
comments behind the last item run on into what follows; the line break between the two texts
ends a line comment, and an open comment of the other kind would be an error already
(`skipTrivia_append_newline`).
-/
import Mathlib.Data.List.Basic
import Overlay.Proofs.Script.Success
import Overlay.Proofs.Text.Extension
import Overlay.Proofs.Text.Identifier

set_option autoImplicit false

namespace Overlay.Script

variable {t r : Text}

/-! ## Arguments

The arguments are closed by a parenthesis, and whatever state the search has come to, it does not
look behind that. -/

/-- The parenthesis that closes the arguments is found again when there is more behind it. -/
theorem closeArguments_append {q : Quoting} {depth : Nat} {p : Text}
    (h : closeArguments q depth t = some (p, r)) (more : Text) :
    closeArguments q depth (t ++ more) = some (p, r ++ more) := by
  induction t generalizing q depth p with
  | nil => simp [closeArguments] at h
  | cons c t ih =>
    -- in whichever literal and depth the search goes on
    have step : ∀ q' d, (closeArguments q' d t).map (Text.consFst c) = some (p, r) →
        (closeArguments q' d (t ++ more)).map (Text.consFst c) = some (p, r ++ more) :=
      fun q' d => Text.map_consFst_append fun _ => ih
    rw [closeArguments] at h
    rw [List.cons_append, closeArguments]
    by_cases hc : q = .outside ∧ c = ')'
    · rw [if_pos hc] at h ⊢
      by_cases hd : depth = 0
      · rw [if_pos hd, Option.some.injEq, Prod.mk.injEq] at h
        obtain ⟨rfl, rfl⟩ := h
        exact if_pos hd
      · rw [if_neg hd] at h ⊢
        exact step _ _ h
    · rw [if_neg hc] at h ⊢
      by_cases ho : q = .outside ∧ c = '('
      · rw [if_pos ho] at h ⊢
        exact step _ _ h
      · rw [if_neg ho] at h ⊢
        exact step _ _ h

theorem cutArguments_append {inside : Text} (h : cutArguments t = .ok (inside, r))
    (more : Text) : cutArguments (t ++ more) = .ok (inside, r ++ more) := by
  obtain ⟨s, hs, hclose⟩ := cutArguments_eq_ok_iff.1 h
  refine cutArguments_eq_ok_iff.2 ⟨s ++ more, ?_, closeArguments_append hclose more⟩
  rw [Text.trimStart_append (by simp [hs]), hs]
  rfl

/-! ## Where a new statement starts

In front of an ending the test for a new statement looks at nothing behind the ending. -/

/-- The blanks in front of a pattern can be dropped. -/
theorem cutPattern_trimStart {p : Text} {e : Ending} (h : cutPattern 0 t = some (p, e, r)) :
    ∃ p', cutPattern 0 (Text.trimStart t) = some (p', e, r) := by
  induction t generalizing p with
  | nil => simp [cutPattern] at h
  | cons c t ih =>
    by_cases hc : Text.isBlank c = true
    · have hskip : Text.trimStart (c :: t) = Text.trimStart t := List.dropWhile_cons_of_pos hc
      -- a blank is no ending and no parenthesis
      have hending : cutEnding (c :: t) = none := by
        cases he : cutEnding (c :: t) with
        | none => rfl
        | some parts =>
          have hmark := cutEnding_eq_some_iff.1 he
          cases hk : parts.1 <;> rw [hk] at hmark <;>
          · obtain ⟨rfl, -⟩ := List.cons.inj hmark
            exact absurd hc (by decide)
      have hstep : Text.Brackets.round.step 0 c = 0 := by
        refine Text.Brackets.round_step_of_ne ?_ ?_ 0
        · rintro rfl
          exact absurd hc (by decide)
        · rintro rfl
          exact absurd hc (by decide)
      rw [hskip]
      rcases cutPattern_cons_eq_some_iff.1 h with ⟨-, he, -⟩ | ⟨-, q, hq, -⟩
      · rw [hending] at he
        simp at he
      · rw [hstep] at hq
        exact ih hq
    · refine ⟨p, ?_⟩
      rw [Text.trimStart_eq_self]
      · exact h
      · intro d hd
        rw [List.head?_cons, Option.some_inj] at hd
        subst hd
        simpa using hc

/-- Every ending has a character that stands in no keyword. -/
theorem Ending.exists_mem_mark (e : Ending) :
    ∃ x ∈ e.mark, ∀ keyword ∈ statementKeywords, x ∉ keyword := by
  cases e with
  | stop => exact ⟨';', by decide, by decide⟩
  | verbatim => exact ⟨'{', by decide, by decide⟩
  | braced => exact ⟨'{', by decide, by decide⟩

theorem startsDirective_cons_cons (c d : Char) (t : Text) :
    startsDirective (c :: d :: t) = (c == '%' && Text.isLetter d) := by
  by_cases hc : c = '%'
  · subst hc
    rfl
  · simp [startsDirective, hc]

/-- Whether a directive starts is told by two characters, and an ending gives enough of them. -/
theorem startsDirective_append {p : Text} {e : Ending} (h : t = p ++ (e.mark ++ r))
    (more : Text) : startsDirective (t ++ more) = startsDirective t := by
  subst h
  cases p with
  | nil => cases e <;> rfl
  | cons c p =>
    cases p with
    | nil =>
      cases e <;>
        exact (startsDirective_cons_cons c _ _).trans (startsDirective_cons_cons c _ _).symm
    | cons d p =>
      exact (startsDirective_cons_cons c d _).trans (startsDirective_cons_cons c d _).symm

/-- Whether a statement starts is told by a keyword and the character behind it. A character that is
part of no keyword stands behind it, so the test does not reach the end of the text. -/
theorem startsStatement_append {x : Char} (hx : x ∈ t)
    (hkey : ∀ keyword ∈ statementKeywords, x ∉ keyword) (more : Text) :
    startsStatement (t ++ more) = startsStatement t := by
  rw [startsStatement, startsStatement, Bool.eq_iff_iff, List.any_eq_true, List.any_eq_true]
  refine exists_congr fun keyword => and_congr_right fun hmem => ?_
  rw [Option.any_eq_true, Option.any_eq_true]
  have hne : ∀ s, t = keyword ++ s → s ≠ [] := by
    rintro s rfl rfl
    exact hkey keyword hmem (by simpa using hx)
  constructor
  · rintro ⟨s, hdrop, hs⟩
    rcases List.append_eq_append_iff.1 (Text.dropPiece_eq_some_iff.1 hdrop) with
      ⟨k, hk, -⟩ | ⟨k, hk, rfl⟩
    · exact absurd (hk ▸ List.mem_append_left k hx) (hkey keyword hmem)
    · refine ⟨k, Text.dropPiece_eq_some_iff.2 hk, ?_⟩
      rwa [List.head?_append_of_ne_nil _ (hne k hk)] at hs
  · rintro ⟨s, hdrop, hs⟩
    have hk := Text.dropPiece_eq_some_iff.1 hdrop
    refine ⟨s ++ more, Text.dropPiece_eq_some_iff.2 ?_, ?_⟩
    · rw [hk, List.append_assoc]
    · rwa [List.head?_append_of_ne_nil _ (hne s hk)]

/-- In front of an ending the test for a new statement is the same with more text behind it. -/
theorem startsAnew_append {p : Text} {e : Ending} (h : cutPattern 0 t = some (p, e, r))
    (more : Text) : startsAnew (t ++ more) = startsAnew t := by
  cases t with
  | nil => simp [cutPattern] at h
  | cons c t =>
    by_cases hc : c = '\n'
    · subst hc
      obtain ⟨p', hcut⟩ := cutPattern_trimStart h
      have heq : Text.trimStart t = p' ++ (e.mark ++ r) := eq_of_cutPattern hcut
      obtain ⟨x, hx, hkey⟩ := e.exists_mem_mark
      have hmem : x ∈ Text.trimStart t :=
        heq ▸ List.mem_append_right p' (List.mem_append_left r hx)
      rw [List.cons_append, startsAnew, startsAnew,
        Text.trimStart_append (List.ne_nil_of_mem hmem), startsDirective_append heq,
        startsStatement_append hmem hkey]
    · have hother : ∀ s, startsAnew (c :: s) = startsDirective (c :: s) := by
        intro s
        rw [startsAnew]
        rintro _ ⟨⟩
        exact hc rfl
      rw [List.cons_append, hother, hother, ← List.cons_append,
        startsDirective_append (eq_of_cutPattern h)]

/-! ## Targets

The pattern is searched for its ending from place to place. At each place before the ending,
parentheses apart, the reader has tried whether an ending or a new statement is there, and found
neither; with more text behind it, it must find neither again. -/

/-- An ending is two characters at most, so a text of two tells whether one stands in front. -/
theorem cutEnding_append_eq_none (hlen : 2 ≤ t.length) (h : cutEnding t = none) (more : Text) :
    cutEnding (t ++ more) = none := by
  cases he : cutEnding (t ++ more) with
  | none => rfl
  | some parts =>
    obtain ⟨e, s⟩ := parts
    have hmark : e.mark.length ≤ 2 := by cases e <;> decide
    rcases List.append_eq_append_iff.1 (cutEnding_eq_some_iff.1 he) with
      ⟨k, hk, -⟩ | ⟨k, hk, -⟩
    · have hkn : k = [] := by
        have := congrArg List.length hk
        rw [List.length_append] at this
        exact List.length_eq_zero_iff.1 (by omega)
      rw [hkn, List.append_nil] at hk
      rw [cutEnding_eq_some_iff.2 (show t = e.mark ++ [] by rw [hk, List.append_nil])] at h
      simp at h
    · rw [cutEnding_eq_some_iff.2 hk] at h
      simp at h

/-- A pattern that has its ending has the same ending with more text behind it. -/
theorem cutPattern_append {depth : Nat} {p : Text} {e : Ending}
    (h : cutPattern depth t = some (p, e, r)) (more : Text) :
    cutPattern depth (t ++ more) = some (p, e, r ++ more) := by
  induction t generalizing depth p with
  | nil => simp [cutPattern] at h
  | cons c t ih =>
    rw [List.cons_append]
    refine cutPattern_cons_eq_some_iff.2 ?_
    rcases cutPattern_cons_eq_some_iff.1 h with ⟨hd, he, rfl⟩ | ⟨hopen, q, hq, rfl⟩
    · refine .inl ⟨hd, cutEnding_eq_some_iff.2 ?_, rfl⟩
      rw [← List.cons_append, cutEnding_eq_some_iff.1 he, List.append_assoc]
    · refine .inr ⟨?_, q, ih hq, rfl⟩
      intro hd
      obtain ⟨hending, hnew⟩ := hopen hd
      subst hd
      have hlen : 2 ≤ (c :: t).length := by
        rw [List.length_cons, eq_of_cutPattern hq, List.length_append, List.length_append]
        have : 1 ≤ e.mark.length := by cases e <;> decide
        omega
      exact ⟨cutEnding_append_eq_none hlen hending more, (startsAnew_append h more).trans hnew⟩

/-- The end of a body is found again. -/
theorem cutInside_append {e : Ending} {b : Text} (h : e.cutInside t = some (b, r)) (more : Text) :
    e.cutInside (t ++ more) = some (b, r ++ more) := by
  cases e with
  | stop => simp [Ending.cutInside] at h
  | verbatim => exact Text.breakOn_append h more
  | braced => exact Text.closing_append h more

theorem cutBody_append {e : Ending} {body : Option Text} (h : cutBody e t = .ok (body, r))
    (more : Text) : cutBody e (t ++ more) = .ok (body, r ++ more) := by
  refine cutBody_eq_ok_iff.2 ((cutBody_eq_ok_iff.1 h).imp ?_ ?_)
  · rintro ⟨he, hbody, rfl⟩
    exact ⟨he, hbody, rfl⟩
  · rintro ⟨b, hb, hbody⟩
    exact ⟨b, cutInside_append hb more, hbody⟩

theorem cutTarget_append {target : Target} (h : cutTarget t = .ok (target, r)) (more : Text) :
    cutTarget (t ++ more) = .ok (target, r ++ more) := by
  obtain ⟨e, s, hcut, hbody⟩ := cutTarget_eq_ok_iff.1 h
  exact cutTarget_eq_ok_iff.2 ⟨e, s ++ more, cutPattern_append hcut more, cutBody_append hbody more⟩

/-! ## Items

Each reader of the chain leaves more than before, by as much as was put behind the text. -/

theorem readFeature_append {e : Feature.Entry} (h : readFeature t = .ok (e, r)) (more : Text) :
    readFeature (t ++ more) = .ok (e, r ++ more) := by
  obtain ⟨inside, after, arguments, target, hargs, hread, htarget, he⟩ :=
    readFeature_eq_ok_iff.1 h
  exact readFeature_eq_ok_iff.2 ⟨inside, after ++ more, arguments, target,
    cutArguments_append hargs more, hread, cutTarget_append htarget more, he⟩

theorem readAlias_append {name : Text} {e : Feature.Entry} (h : readAlias name t = .ok (e, r))
    (more : Text) : readAlias name (t ++ more) = .ok (e, r ++ more) := by
  obtain ⟨a, target, ha, htarget, hstray, he⟩ := readAlias_eq_ok_iff.1 h
  exact readAlias_eq_ok_iff.2 ⟨a, target, ha, cutTarget_append htarget more, hstray, he⟩

/-- Behind the name of a directive there is always something: at the least its ending. -/
theorem readDirective_append {e : Feature.Entry} (h : readDirective t = .ok (e, r))
    (more : Text) : readDirective (t ++ more) = .ok (e, r ++ more) := by
  obtain ⟨name, rest, hname, h⟩ := readDirective_eq_ok_iff.1 h
  have hrest : rest ≠ [] := by
    rintro rfl
    rcases h with ⟨-, h⟩ | ⟨-, h⟩
    · have := length_lt_of_readFeature h
      simp at this
    · have := length_lt_of_readAlias h
      simp at this
  refine readDirective_eq_ok_iff.2
    ⟨name, rest ++ more, Text.cutIdentifier_append hname hrest more, ?_⟩
  exact h.imp (And.imp_right fun h => readFeature_append h more)
    (And.imp_right fun h => readAlias_append h more)

/-- An item that has been read is read in the same way with more text behind it. -/
theorem readItem_append {item : Item} (h : readItem t = .ok (item, r)) (more : Text) :
    readItem (t ++ more) = .ok (item, r ++ more) := by
  rcases readItem_eq_ok_iff.1 h with ⟨s, e, rfl, hd, hitem⟩ | ⟨hhead, statement, hcut, hread⟩
  · exact readItem_eq_ok_iff.2 (.inl ⟨s ++ more, e, rfl, readDirective_append hd more, hitem⟩)
  · have hne : t ≠ [] := by
      rintro rfl
      simp [Text.cut, Text.cutFrom] at hcut
    refine readItem_eq_ok_iff.2
      (.inr ⟨?_, statement, Text.cutFrom_char_append hcut more, hread⟩)
    rwa [List.head?_append_of_ne_nil t hne]

/-! ## Between the items

Blanks and comments are skipped with a state: in a gap, in a line comment, in a block comment.
Behind the last item the text ends in the first or the second of them, and skipping goes on from
there (`exists_skipTrivia_append`). -/

/-- Where no comment of two characters opens, the first character tells what comes. -/
theorem skipTrivia_gap_cons {c : Char}
    (h : c = '/' → t.head? ≠ some '/' ∧ t.head? ≠ some '*') :
    skipTrivia .gap (c :: t)
      = if c = '#' then skipTrivia .line t
        else if c = ';' ∨ Text.isBlank c = true then skipTrivia .gap t
        else .ok (c :: t) := by
  rw [skipTrivia]
  · rintro s rfl rfl
    exact (h rfl).1 rfl
  · rintro s rfl rfl
    exact (h rfl).2 rfl

/-- A comment that opened with `/*` ends behind the next `*/`. -/
theorem skipTrivia_block (opening t : Text) :
    skipTrivia (.block opening) t
      = match Text.breakOn ['*', '/'] t with
        | some (_, r) => skipTrivia .gap r
        | none => .error opening := by
  induction t with
  | nil => rfl
  | cons c t ih =>
    rw [Text.breakOn]
    cases hd : Text.dropPiece ['*', '/'] (c :: t) with
    | some after =>
      obtain ⟨rfl, rfl⟩ := List.cons.inj (Text.dropPiece_eq_some_iff.1 hd)
      show skipTrivia (.block opening) ('*' :: '/' :: after) = skipTrivia .gap after
      rw [skipTrivia]
    | none =>
      have hend : ∀ s, c = '*' → t = '/' :: s → False := by
        rintro s rfl rfl
        rw [Text.dropPiece_eq_some_iff.2 (show '*' :: '/' :: s = ['*', '/'] ++ s from rfl)] at hd
        simp at hd
      rw [skipTrivia, ih]
      · cases Text.breakOn ['*', '/'] t <;> rfl
      · exact hend

/-- Skipping stops before what it leaves, or, at the end of the text, in a gap or in a line
comment; and there it goes on if more follows. -/
theorem exists_skipTrivia_append {s : Skip} (h : skipTrivia s t = .ok r) (more : Text) :
    ∃ s', (s' = .gap ∨ s' = .line ∧ r = [])
      ∧ skipTrivia s (t ++ more) = skipTrivia s' (r ++ more) := by
  fun_induction skipTrivia s t with
  | case1 | case6 =>
    obtain rfl := Except.ok.inj h
    exact ⟨.gap, .inl rfl, rfl⟩
  | case7 =>
    obtain rfl := Except.ok.inj h
    exact ⟨.line, .inr ⟨rfl, rfl⟩, rfl⟩
  | case10 => simp at h
  | case2 _ ih | case11 _ _ ih => exact ih h
  | case3 inside ih =>
    -- with more behind it the place of the comment is another text, but the comment has an end
    have hend : skipTrivia (.block ('/' :: '*' :: (inside ++ more))) (inside ++ more)
        = skipTrivia (.block ('/' :: '*' :: inside)) (inside ++ more) := by
      rw [skipTrivia_block] at h
      cases hb : Text.breakOn ['*', '/'] inside with
      | none =>
        rw [hb] at h
        simp at h
      | some parts => rw [skipTrivia_block, skipTrivia_block, Text.breakOn_append hb]
    rw [List.cons_append, List.cons_append, skipTrivia, hend]
    exact ih h
  | case4 _ _ _ ih =>
    rw [List.cons_append, skipTrivia_gap_cons (by simp), if_pos rfl]
    exact ih h
  | case5 d s _ _ hhash hskip ih =>
    have hd : d ≠ '/' := by
      rintro rfl
      exact absurd hskip (by decide)
    rw [List.cons_append, skipTrivia_gap_cons (fun heq => absurd heq hd), if_neg hhash,
      if_pos hskip]
    exact ih h
  | case8 _ ih =>
    rw [List.cons_append, skipTrivia, if_pos rfl]
    exact ih h
  | case9 _ _ hbreak ih =>
    rw [List.cons_append, skipTrivia, if_neg hbreak]
    exact ih h
  | case12 opening d s hend ih =>
    rw [List.cons_append, skipTrivia]
    · exact ih h
    · cases s with
      | nil => simp [skipTrivia] at h
      | cons x s =>
        rintro _ hd ⟨⟩
        exact hend s hd rfl

/-- What is left begins with no trivia: skipping leaves it as it is, also with more behind it,
unless a single `/` may begin a comment with what follows. -/
theorem skipTrivia_append {s : Skip} {c : Char} (h : skipTrivia s t = .ok (c :: r))
    (hc : c = '/' → r ≠ []) (more : Text) :
    skipTrivia s (t ++ more) = .ok (c :: r ++ more) := by
  have hgap : ∀ more, skipTrivia s (t ++ more) = skipTrivia .gap (c :: r ++ more) := by
    intro more
    obtain ⟨s', rfl | ⟨-, hr⟩, heq⟩ := exists_skipTrivia_append h more
    · exact heq
    · simp at hr
  have hself : skipTrivia .gap (c :: r) = .ok (c :: r) := by
    have := hgap []
    rw [List.append_nil, List.append_nil, h] at this
    exact this.symm
  -- a reader that has moved on cannot leave the text that it was given
  have hmoved : ∀ {s' : Skip} {u : Text}, u.length ≤ r.length → skipTrivia s' u ≠ .ok (c :: r) := by
    intro s' u hu heq
    have := length_le_of_skipTrivia heq
    rw [List.length_cons] at this
    omega
  have hslash : c = '/' → r.head? ≠ some '/' ∧ r.head? ≠ some '*' := by
    rintro rfl
    cases r with
    | nil => simp
    | cons d u =>
      constructor
      · rintro ⟨⟩
        rw [skipTrivia] at hself
        exact hmoved (by simp) hself
      · rintro ⟨⟩
        rw [skipTrivia] at hself
        exact hmoved (by simp) hself
  rw [skipTrivia_gap_cons hslash] at hself
  rw [hgap, List.cons_append, skipTrivia_gap_cons]
  · by_cases hhash : c = '#'
    · rw [if_pos hhash] at hself
      exact absurd hself (hmoved (Nat.le_refl _))
    · rw [if_neg hhash] at hself ⊢
      by_cases hskip : c = ';' ∨ Text.isBlank c = true
      · rw [if_pos hskip] at hself
        exact absurd hself (hmoved (Nat.le_refl _))
      · rw [if_neg hskip]
  · intro hd
    rw [List.head?_append_of_ne_nil r (hc hd)]
    exact hslash hd

/-- What is skipped up to the end of a text is skipped in front of a new line as well. -/
theorem skipTrivia_append_newline {s : Skip} (h : skipTrivia s t = .ok []) (more : Text) :
    skipTrivia s (t ++ '\n' :: more) = skipTrivia .gap more := by
  obtain ⟨s', rfl | ⟨rfl, -⟩, heq⟩ := exists_skipTrivia_append h ('\n' :: more)
  · rw [heq, List.nil_append, skipTrivia_gap_cons (by simp), if_neg (by decide),
      if_pos (by decide)]
  · rw [heq, List.nil_append, skipTrivia, if_pos rfl]

/-! ## Whole scripts

The items of the first text are read as before, and then the loop stands where the second begins.
What is different there is only the line that an error is reported on: the loop counts from the
front of the whole script (`lineAt`). -/

/-- The items of a text that can be read come before those of what stands on a new line
behind it. -/
theorem readFrom_append {script : Text} {xs : List Item} (h : readFrom script t = .ok xs)
    (script' more : Text) :
    readFrom script' (t ++ '\n' :: more) = (readFrom script' more).map (xs ++ ·) := by
  fun_induction readFrom script t generalizing xs with
  | case1 => simp at h
  | case3 => simp at h
  | case2 t hskip =>
    obtain rfl := Except.ok.inj h
    rw [readFrom_eq, skipTrivia_append_newline hskip, ← readFrom_eq]
    cases readFrom script' more <;> rfl
  | case4 t c r hskip item rest hitem ih =>
    obtain ⟨ys, hys, rfl⟩ := map_eq_ok_iff.1 h
    -- a `/` alone is no item, so it does not stand at the end
    have hslash : c = '/' → r ≠ [] := by
      rintro rfl rfl
      simp [readItem, Text.cut, Text.cutFrom, Text.Mark.char] at hitem
    rw [readFrom_of_item (skipTrivia_append hskip hslash _) (readItem_append hitem _), ih hys]
    cases readFrom script' more <;> rfl

/-- With a text in front every place of a script is so many lines further down. -/
theorem lineAt_append {script rest : Text} (h : rest <:+ script) (front : Text) :
    lineAt (front ++ script) rest = lineAt script rest + lineBreaks front := by
  have hle : lineBreaks rest ≤ lineBreaks script := h.sublist.count_le '\n'
  simp only [lineAt, lineBreaks, List.count_append] at hle ⊢
  omega

/-- A script behind another text has the same items, and its error is further down by the lines of
that. -/
theorem readFrom_append_front {script : Text} (h : t <:+ script) (front : Text) :
    readFrom (front ++ script) t
      = (readFrom script t).mapError fun e => { e with line := e.line + lineBreaks front } := by
  fun_induction readFrom script t with
  | case1 t opening hskip =>
    have hopening := (suffix_of_skipTrivia_eq_error hskip).resolve_right (by simp)
    rw [readFrom_of_open hskip, lineAt_append (hopening.trans h)]
    rfl
  | case2 t hskip => exact readFrom_of_end hskip
  | case3 t c r hskip cause hitem =>
    rw [readFrom_of_fault hskip hitem, lineAt_append ((suffix_of_skipTrivia hskip).trans h)]
    rfl
  | case4 t c r hskip item rest hitem ih =>
    have hrest := ((suffix_of_readItem hitem).trans (suffix_of_skipTrivia hskip)).trans h
    rw [readFrom_of_item hskip hitem, ih hrest]
    cases readFrom script rest <;> rfl

/-- A script that can be read, and behind it any text on a new line: the items of both, or the
error of the second text, further down by the lines of the script. -/
theorem parse_append {a : Text} {xs : List Item} (h : parse a = .ok xs) (b : Text) :
    (∀ ys, parse b = .ok ys → parse (a ++ '\n' :: b) = .ok (xs ++ ys))
      ∧ ∀ e, parse b = .error e →
        parse (a ++ '\n' :: b) = .error { e with line := e.line + (1 + lineBreaks a) } := by
  have hfront : a ++ '\n' :: b = (a ++ ['\n']) ++ b := by simp
  have hlines : lineBreaks (a ++ ['\n']) = 1 + lineBreaks a := by
    rw [lineBreaks, List.count_append, lineBreaks, Nat.add_comm]
    rfl
  have hwhole : parse (a ++ '\n' :: b)
      = ((parse b).mapError fun e => { e with line := e.line + (1 + lineBreaks a) }).map
          (xs ++ ·) := by
    rw [parse, readFrom_append h, hfront, readFrom_append_front List.suffix_rfl, hlines]
    rfl
  constructor
  · intro ys hys
    rw [hwhole, hys]
    rfl
  · intro e he
    rw [hwhole, he]
    rfl

/-! A directive with a comment behind it, and two texts to follow: a directive, and one with a
comment behind it that is left open. -/

/-- An entry for everything, with no body and no attributes. -/
def globalEntry (feature : Text) (value : Feature.Value) : Feature.Entry :=
  ⟨feature, .global, value, none, .empty, 0⟩

def newObjectItem : Item := .directive (globalEntry "new".toList (.enabled ['1']))

def mutableItem : Item := .directive (globalEntry "immutable".toList .cleared)

/-- `%newobject;`, and more behind it. -/
def newObjectScript (more : Text) : Text := '%' :: ("newobject;".toList ++ more)

/-- `%mutable;`, and more behind it. -/
def mutableScript (more : Text) : Text := '%' :: ("mutable;".toList ++ more)

theorem readFrom_newObjectScript (script more : Text) :
    readFrom script (newObjectScript more) = (readFrom script more).map (newObjectItem :: ·) :=
  readFrom_of_item (c := '%') (s := "newobject;".toList ++ more) rfl rfl

theorem readFrom_mutableScript (script more : Text) :
    readFrom script (mutableScript more) = (readFrom script more).map (mutableItem :: ·) :=
  readFrom_of_item (c := '%') (s := "mutable;".toList ++ more) rfl rfl

/-- The line of an error in the second text counts from the first line of the first. -/
theorem parse_append_newObject :
    let first := newObjectScript " # `new` for all".toList
    let broken := mutableScript "\n/* and".toList
    parse first = .ok [newObjectItem] ∧ parse (mutableScript []) = .ok [mutableItem]
      ∧ parse broken = .error ⟨2, .unterminated .comment⟩
      ∧ parse (first ++ '\n' :: mutableScript []) = .ok [newObjectItem, mutableItem]
      ∧ parse (first ++ '\n' :: broken) = .error ⟨3, .unterminated .comment⟩ := by
  intro first broken
  have hfirst : parse first = .ok [newObjectItem] := by
    rw [parse, readFrom_newObjectScript, readFrom_of_end rfl]
    rfl
  have hmutable : parse (mutableScript []) = .ok [mutableItem] := by
    rw [parse, readFrom_mutableScript, readFrom_of_end rfl]
    rfl
  have hbroken : parse broken = .error ⟨2, .unterminated .comment⟩ := by
    have hopen : skipTrivia .gap "\n/* and".toList = .error "/* and".toList := rfl
    rw [parse, readFrom_mutableScript, readFrom_of_open hopen]
    rfl
  exact ⟨hfirst, hmutable, hbroken, (parse_append hfirst _).1 _ hmutable,
    (parse_append hfirst _).2 _ hbroken⟩

end Overlay.Script
