/-
What normalising a type keeps.

No token goes over a boundary between two texts that are apart (`tokenize_append`). In particular a
blank only separates tokens (`tokenize_append_cons`), so blanks around a type do not matter, and
none is written there (`trim_ofTokens`). The tokens hold every character of the text that is not
blank (`flatMap_text_tokenize`). Writing them adds only spaces, and moving qualifiers or dropping a
name only touches words; so brackets and commas stay as they were, and in their order
(`filter_stripped`). That is what keeps a parameter list apart at the same commas.

The reader takes the longest token that it can, so whether a boundary is one depends on both sides
of it. That is put into one relation between two texts (`Apart`): the characters of a word do not go
on, and the marks that could make up a longer one do not meet. Everything later that reads a text in
two parts shows that they are apart, and does not look at the reader again. -/
import Mathlib.Data.List.Basic
import Mathlib.Tactic.Common
import Overlay.Parameter
import Overlay.Proofs.Text.Gaps
import Overlay.Proofs.Text.Identifier

set_option autoImplicit false

namespace Overlay.CType

open Text (isBlank isIdentChar isLetter trim)

variable {t u : Text} {c : Char} {ts : List Token} {token : Token}

/-! ## Tokens and their texts

Each token has a text, and moving tokens about loses none of them. So a type that was made of tokens
is a text, which is what the builders of declarations ask of it. -/

/-- A token that was read has a text: each case of the reader takes a character for it. -/
theorem text_ne_nil_of_mem_tokenize (h : token ∈ tokenize t) :
    token.text ≠ [] := by
  fun_induction tokenize t with
  | case1 => simp at h
  | case2 r ih | case3 r ih | case4 r ih =>
    rcases List.mem_cons.1 h with rfl | h
    · simp [Token.text]
    · exact ih h
  | case5 c r _ _ _ _ ih | case6 c r _ _ _ _ _ ih | case8 c r _ _ _ _ _ _ ih =>
    rcases List.mem_cons.1 h with rfl | h
    · simp [Token.text]
    · exact ih h
  | case7 c r _ _ _ _ _ _ ih => exact ih h

/-- So what is written of some tokens is a text. -/
theorem spell_ne_nil (hne : ts ≠ []) (h : ∀ token ∈ ts, token.text ≠ []) :
    spell ts ≠ [] := by
  cases ts with
  | nil => exact absurd rfl hne
  | cons token ts =>
    have htoken := h token List.mem_cons_self
    cases ts with
    | nil => exact htoken
    | cons next ts =>
      rw [spell_cons_cons]
      exact List.append_ne_nil_of_left_ne_nil htoken _

/-- Hoisting keeps the tokens. -/
theorem perm_hoist (ts : List Token) : (hoist ts).Perm ts := by
  obtain ⟨base, declarator, hts, hhoist⟩ := hoist_eq ts
  have hperm : (base ++ (ts.takeWhile Token.isQualifier ++ declarator)).Perm
      (ts.takeWhile Token.isQualifier ++ (base ++ declarator)) :=
    List.perm_append_comm_assoc _ _ _
  rwa [← hts, ← hhoist] at hperm

/-- A type made of tokens is not empty, if there are any. -/
theorem isEmpty_ofTokens (hne : ts ≠ []) (h : ∀ token ∈ ts, token.text ≠ []) :
    (ofTokens ts).isEmpty = false := by
  have hspell : spell (hoist ts) ≠ [] := by
    refine spell_ne_nil ?_ ?_
    · intro hnil
      exact hne (List.nil_perm.1 (hnil ▸ perm_hoist ts))
    · intro token htoken
      exact h token ((perm_hoist ts).mem_iff.1 htoken)
  simpa [isEmpty, ofTokens] using hspell

/-! ## Where tokens end

There are three kinds of tokens that can be longer than a character: words, numbers and three marks.
A boundary is safe if none of them can reach over it. -/

/-- The three texts that are one token each, though they are more than one mark. -/
def startsCompound : Text → Bool
  | ':' :: ':' :: _ => true
  | '&' :: '&' :: _ => true
  | '.' :: '.' :: '.' :: _ => true
  | _ => false

/-- How the reader goes on where no longer mark begins: by the kind of the first character. -/
theorem tokenize_cons (h : startsCompound (c :: t) = false) :
    tokenize (c :: t) =
      if isLetter c then .word (c :: t.takeWhile isIdentChar) :: tokenize (t.dropWhile isIdentChar)
      else if c.isDigit then
        .number (c :: t.takeWhile Char.isDigit) :: tokenize (t.dropWhile Char.isDigit)
      else if isBlank c then tokenize t
      else .mark c :: tokenize t := by
  rw [tokenize]
  all_goals
    rintro r rfl rfl
    simp [startsCompound] at h

/-- No longer mark begins where none of the three stands. -/
theorem startsCompound_eq_false (hscope : ∀ r, c = ':' → t = ':' :: r → False)
    (hrvalue : ∀ r, c = '&' → t = '&' :: r → False)
    (hellipsis : ∀ r, c = '.' → t = '.' :: '.' :: r → False) :
    startsCompound (c :: t) = false := by
  unfold startsCompound
  split
  next r h => exact absurd (List.cons.inj h).2 (fun ht => hscope r (List.cons.inj h).1 ht)
  next r h => exact absurd (List.cons.inj h).2 (fun ht => hrvalue r (List.cons.inj h).1 ht)
  next r h => exact absurd (List.cons.inj h).2 (fun ht => hellipsis r (List.cons.inj h).1 ht)
  next => rfl

/-- Two neighbours that one token may hold: characters of an identifier or a number, or two of the
same that a compound token begins with. -/
def joins (c d : Char) : Bool :=
  (isIdentChar c && isIdentChar d) || (c == d && [':', '&', '.'].contains c)

/-- No token goes over the boundary between two texts. -/
def Apart (t u : Text) : Prop := ∀ c ∈ t.getLast?, ∀ d ∈ u.head?, joins c d = false

/-- The first characters of the front do not matter. -/
theorem Apart.tail (h : Apart (c :: t) u) : Apart t u := by
  cases t with
  | nil => simp [Apart]
  | cons d t => simpa [Apart] using h

/-- Texts stay apart when a part of the front is read before. -/
theorem Apart.drop {p : Text} (h : Apart (p ++ t) u) : Apart t u := by
  induction p with
  | nil => exact h
  | cons c p ih => exact ih h.tail

/-- A colon, an ampersand or a dot is not apart from the same character. -/
theorem not_apart_self (hc : [':', '&', '.'].contains c = true) (u : Text) :
    ¬ Apart [c] (c :: u) := by
  intro h
  have hjoins := h c rfl c rfl
  simp [joins] at hjoins hc
  grind

/-- What follows does not complete a compound token. -/
theorem startsCompound_append (h : Apart (c :: t) u) (hc : startsCompound (c :: t) = false) :
    startsCompound (c :: (t ++ u)) = false := by
  apply startsCompound_eq_false
  -- a mark of the token in `u` would go on one of the same kind at the end of the first text
  · rintro r rfl hr
    cases t with
    | nil =>
      rw [List.nil_append] at hr
      exact not_apart_self rfl r (hr ▸ h)
    | cons e t =>
      obtain ⟨rfl, -⟩ := List.cons.inj hr
      simp [startsCompound] at hc
  · rintro r rfl hr
    cases t with
    | nil =>
      rw [List.nil_append] at hr
      exact not_apart_self rfl r (hr ▸ h)
    | cons e t =>
      obtain ⟨rfl, -⟩ := List.cons.inj hr
      simp [startsCompound] at hc
  · rintro r rfl hr
    rcases t with _ | ⟨e, _ | ⟨f, t⟩⟩
    · rw [List.nil_append] at hr
      exact not_apart_self rfl _ (hr ▸ h)
    · obtain ⟨rfl, hu⟩ := List.cons.inj hr
      obtain rfl : u = '.' :: r := hu
      exact not_apart_self rfl r h.tail
    · obtain ⟨rfl, hrest⟩ := List.cons.inj hr
      obtain ⟨rfl, -⟩ := List.cons.inj hrest
      simp [startsCompound] at hc

/-- A run of identifier characters ends where its text does. -/
theorem span_of_apart {stop : Char → Bool} (hstop : ∀ c, stop c = true → isIdentChar c = true)
    (h : Apart (c :: t) u) (hc : stop c = true) :
    (t ++ u).takeWhile stop = t.takeWhile stop
      ∧ (t ++ u).dropWhile stop = t.dropWhile stop ++ u := by
  induction t generalizing c with
  | nil =>
    cases u with
    | nil => exact ⟨rfl, rfl⟩
    | cons d u =>
      have hjoins := h c rfl d rfl
      have hd : ¬ stop d = true := by
        intro hd
        simp [joins, hstop c hc, hstop d hd] at hjoins
      exact ⟨List.takeWhile_cons_of_neg hd, List.dropWhile_cons_of_neg hd⟩
  | cons d t ih =>
    by_cases hd : stop d = true
    · obtain ⟨htake, hdrop⟩ := ih h.tail hd
      rw [List.cons_append, List.takeWhile_cons_of_pos hd, List.takeWhile_cons_of_pos hd,
        List.dropWhile_cons_of_pos hd, List.dropWhile_cons_of_pos hd, htake, hdrop]
      exact ⟨rfl, rfl⟩
    · rw [List.cons_append, List.takeWhile_cons_of_neg hd, List.takeWhile_cons_of_neg hd,
        List.dropWhile_cons_of_neg hd, List.dropWhile_cons_of_neg hd]
      exact ⟨rfl, rfl⟩

/-- A digit can stand in a word. -/
theorem isIdentChar_of_isDigit (hc : c.isDigit = true) : isIdentChar c = true := by
  rw [isIdentChar, hc, Bool.or_true]

/-- Texts that are apart have their tokens one behind the other. -/
theorem tokenize_append (h : Apart t u) : tokenize (t ++ u) = tokenize t ++ tokenize u := by
  fun_induction tokenize t with
  | case1 => rfl
  | case2 r ih | case3 r ih =>
    rw [List.cons_append, List.cons_append, tokenize, ih h.tail.tail, List.cons_append]
  | case4 r ih =>
    rw [List.cons_append, List.cons_append, List.cons_append, tokenize, ih h.tail.tail.tail,
      List.cons_append]
  | case5 c r hscope hrvalue hellipsis hletter ih =>
    -- a word ends where it did, since `u` does not go on with it
    have hcompound := startsCompound_append h (startsCompound_eq_false hscope hrvalue hellipsis)
    obtain ⟨htake, hdrop⟩ :=
      span_of_apart (fun _ hc => hc) h (Text.isIdentChar_of_isLetter c hletter)
    have hrest : Apart (r.dropWhile isIdentChar) u := by
      apply Apart.drop (p := r.takeWhile isIdentChar)
      rw [List.takeWhile_append_dropWhile]
      exact h.tail
    rw [List.cons_append, tokenize_cons hcompound, if_pos hletter, htake, hdrop, ih hrest,
      List.cons_append]
  | case6 c r hscope hrvalue hellipsis hletter hnumber ih =>
    have hcompound := startsCompound_append h (startsCompound_eq_false hscope hrvalue hellipsis)
    obtain ⟨htake, hdrop⟩ := span_of_apart (fun _ => isIdentChar_of_isDigit) h hnumber
    have hrest : Apart (r.dropWhile Char.isDigit) u := by
      apply Apart.drop (p := r.takeWhile Char.isDigit)
      rw [List.takeWhile_append_dropWhile]
      exact h.tail
    rw [List.cons_append, tokenize_cons hcompound, if_neg hletter, if_pos hnumber, htake, hdrop,
      ih hrest, List.cons_append]
  | case7 c r hscope hrvalue hellipsis hletter hnumber hblank ih =>
    have hcompound := startsCompound_append h (startsCompound_eq_false hscope hrvalue hellipsis)
    rw [List.cons_append, tokenize_cons hcompound, if_neg hletter, if_neg hnumber, if_pos hblank,
      ih h.tail]
  | case8 c r hscope hrvalue hellipsis hletter hnumber hblank ih =>
    have hcompound := startsCompound_append h (startsCompound_eq_false hscope hrvalue hellipsis)
    rw [List.cons_append, tokenize_cons hcompound, if_neg hletter, if_neg hnumber, if_neg hblank,
      ih h.tail, List.cons_append]

/-! ## Blanks and marks between tokens

A blank, a bracket, a comma or an indirection is never part of a longer token with what stands
before it or behind it. So wherever one stands, the tokens are those of the two sides with it
between. -/

/-- A character that is in no word and begins no compound token. -/
def separates (c : Char) : Bool := !(isIdentChar c || [':', '&', '.'].contains c)

/-- What begins with a separating character is apart from anything before it, -/
theorem apart_cons (hc : separates c = true) (t u : Text) : Apart t (c :: u) := by
  intro d _ e he
  obtain rfl : c = e := Option.some.inj he
  simp only [separates, Bool.not_eq_true', Bool.or_eq_false_iff] at hc
  rw [joins, hc.1, Bool.and_false, Bool.false_or, Bool.and_eq_false_iff]
  by_cases hd : d = c
  · exact .inr (hd ▸ hc.2)
  · exact .inl (by simpa using hd)

/-- and what ends with one from anything behind it. -/
theorem apart_concat (hc : separates c = true) (t u : Text) : Apart (t ++ [c]) u := by
  intro d hd e _
  obtain rfl : c = d := by simpa using hd
  simp only [separates, Bool.not_eq_true', Bool.or_eq_false_iff] at hc
  rw [joins, hc.1, Bool.false_and, Bool.false_or, hc.2, Bool.and_false]

/-- In front of a colon it is enough that the front ends with none. -/
theorem apart_colon (h : t.getLast? ≠ some ':') (u : Text) : Apart t (':' :: u) := by
  intro c hc d hd
  obtain rfl : ':' = d := Option.some.inj hd
  have hne : c ≠ ':' := fun heq => h (heq ▸ hc)
  have hident : isIdentChar ':' = false := rfl
  simp [joins, hident, hne]

/-- A blank separates. -/
theorem separates_of_isBlank (hc : isBlank c = true) : separates c = true := by
  have hident : isIdentChar c = false := Text.isIdentChar_of_isBlank hc
  have hcompound : c ∉ [':', '&', '.'] := Text.not_mem_of_all hc rfl
  simpa [separates, hident] using hcompound

/-- A character that separates is read by itself. -/
theorem tokenize_cons_of_separates (hc : separates c = true) (t : Text) :
    tokenize (c :: t) = if isBlank c then tokenize t else .mark c :: tokenize t := by
  simp only [separates, Bool.not_eq_true', Bool.or_eq_false_iff] at hc
  have hcompound : startsCompound (c :: t) = false := by
    apply startsCompound_eq_false <;>
    · rintro r rfl -
      simp at hc
  have hident := hc.1
  simp only [isIdentChar, Bool.or_eq_false_iff] at hident
  rw [tokenize_cons hcompound, hident.1, hident.2]
  rfl

/-- A blank in front is dropped. -/
theorem tokenize_cons_of_isBlank (hc : isBlank c = true) (t : Text) :
    tokenize (c :: t) = tokenize t := by
  rw [tokenize_cons_of_separates (separates_of_isBlank hc), if_pos hc]

/-- A blank separates tokens. -/
theorem tokenize_append_cons (hc : isBlank c = true) (t u : Text) :
    tokenize (t ++ c :: u) = tokenize t ++ tokenize u := by
  rw [tokenize_append (apart_cons (separates_of_isBlank hc) t u), tokenize_cons_of_isBlank hc]

/-- Blanks in front of a text are no part of its tokens. -/
theorem tokenize_gap_append (hgap : Text.IsGap t) (u : Text) : tokenize (t ++ u) = tokenize u := by
  induction t with
  | nil => rfl
  | cons c t ih =>
    obtain ⟨hc, ht⟩ := Text.isGap_cons.1 hgap
    rw [List.cons_append, tokenize_cons_of_isBlank hc, ih ht]

/-- Nor are those behind it. -/
theorem tokenize_append_gap (h : Text.IsGap u) (t : Text) : tokenize (t ++ u) = tokenize t := by
  cases u with
  | nil => rw [List.append_nil]
  | cons c u =>
    obtain ⟨hc, hu⟩ := Text.isGap_cons.1 h
    rw [tokenize_append_cons hc, ← List.append_nil u, tokenize_gap_append hu, tokenize_nil,
      List.append_nil]

/-- Blanks around a text do not matter to its tokens. -/
theorem tokenize_trim (t : Text) : tokenize (trim t) = tokenize t :=
  Text.apply_trim (fun _ hu => tokenize_gap_append hu) (fun _ hv => tokenize_append_gap hv) t

/-- A separating character that is no blank is a token of its own. -/
theorem tokenize_cons_mark (hc : separates c = true) (hblank : isBlank c = false) (t : Text) :
    tokenize (c :: t) = .mark c :: tokenize t := by
  rw [tokenize_cons_of_separates hc, hblank]
  rfl

/-- A mark that separates is a token of its own wherever it stands. -/
theorem tokenize_append_mark (hc : separates c = true) (hblank : isBlank c = false) (t u : Text) :
    tokenize (t ++ c :: u) = tokenize t ++ .mark c :: tokenize u := by
  rw [tokenize_append (apart_cons hc t u), tokenize_cons_mark hc hblank]

/-! ## Tokens as they are read

The reader cannot yield every token that there is. Which ones it can is a property of a token by
itself, and it holds of all that are read. -/

/-- A token that can be read: a word is an identifier, a number is a run of digits, and a mark is
neither a blank nor part of a word. -/
def Token.IsRead : Token → Prop
  | .scope | .rvalue | .ellipsis => True
  | .word w => Text.isIdentifier w = true
  | .number w => w ≠ [] ∧ ∀ c ∈ w, c.isDigit = true
  | .mark c => isIdentChar c = false ∧ isBlank c = false

/-- **All tokens of a text can be read.** -/
theorem isRead_of_mem_tokenize (h : token ∈ tokenize t) : token.IsRead := by
  fun_induction tokenize t with
  | case1 => simp at h
  | case2 r ih | case3 r ih | case4 r ih =>
    rcases List.mem_cons.1 h with rfl | h
    · trivial
    · exact ih h
  | case5 d r _ _ _ hletter ih =>
    rcases List.mem_cons.1 h with rfl | h
    · rw [Token.IsRead, Text.isIdentifier, hletter, Bool.true_and]
      exact List.all_takeWhile
    · exact ih h
  | case6 d r _ _ _ _ hnumber ih =>
    rcases List.mem_cons.1 h with rfl | h
    · refine ⟨List.cons_ne_nil _ _, List.forall_mem_cons.2 ⟨hnumber, ?_⟩⟩
      exact fun c hc => List.all_eq_true.1 List.all_takeWhile c hc
    · exact ih h
  | case7 d r _ _ _ _ _ _ ih => exact ih h
  | case8 d r _ _ _ hletter hnumber hblank ih =>
    rcases List.mem_cons.1 h with rfl | h
    · refine ⟨?_, by simpa using hblank⟩
      rw [isIdentChar, Bool.or_eq_false_iff]
      exact ⟨by simpa using hletter, by simpa using hnumber⟩
    · exact ih h

/-- A word is made up of the characters of identifiers. -/
theorem isIdentChar_of_word_mem {w : Text} (h : Token.word w ∈ tokenize t) (hc : c ∈ w) :
    isIdentChar c = true :=
  Text.isIdentChar_of_mem (isRead_of_mem_tokenize h) hc

/-! ## The characters of the tokens

Reading loses blanks and nothing else. -/

/-- The tokens hold every character that is not blank, in order. -/
theorem flatMap_text_tokenize (t : Text) :
    (tokenize t).flatMap Token.text = t.filter fun c => !isBlank c := by
  have hident : ∀ {d : Char}, isIdentChar d = true → (!isBlank d) = true := by
    intro d hd
    rw [Text.isBlank_of_isIdentChar hd]
    rfl
  -- a word or a number is a span of characters of identifiers, none of which is blank
  have hspan : ∀ {stop : Char → Bool} (r : Text), (∀ d, stop d = true → isIdentChar d = true) →
      r.filter (fun c => !isBlank c)
        = r.takeWhile stop ++ (r.dropWhile stop).filter fun c => !isBlank c := by
    intro stop r hstop
    have hword : (r.takeWhile stop).filter (fun c => !isBlank c) = r.takeWhile stop := by
      rw [List.filter_eq_self]
      exact fun d hd => hident (hstop d (List.all_eq_true.1 List.all_takeWhile d hd))
    calc r.filter (fun c => !isBlank c)
        = (r.takeWhile stop ++ r.dropWhile stop).filter fun c => !isBlank c := by
          rw [List.takeWhile_append_dropWhile]
      _ = _ := by rw [List.filter_append, hword]
  fun_induction tokenize t with
  | case1 => rfl
  | case2 r ih | case3 r ih | case4 r ih =>
    rw [List.flatMap_cons, ih]
    rfl
  | case5 d r hscope hrvalue hellipsis hletter ih =>
    have hd := hident (Text.isIdentChar_of_isLetter d hletter)
    rw [List.flatMap_cons, ih, List.filter_cons_of_pos (p := fun c => !isBlank c) hd,
      hspan r fun _ h => h]
    rfl
  | case6 d r hscope hrvalue hellipsis hletter hnumber ih =>
    have hd := hident (isIdentChar_of_isDigit hnumber)
    rw [List.flatMap_cons, ih, List.filter_cons_of_pos (p := fun c => !isBlank c) hd,
      hspan r fun _ => isIdentChar_of_isDigit]
    rfl
  | case7 d r hscope hrvalue hellipsis hletter hnumber hblank ih =>
    rw [ih, List.filter_cons_of_neg (by simp [hblank])]
  | case8 d r hscope hrvalue hellipsis hletter hnumber hblank ih =>
    rw [List.flatMap_cons, ih, List.filter_cons_of_pos (by simpa using hblank)]
    rfl

/-- No token holds a blank. -/
theorem isBlank_of_mem_text {token : Token} (h : token ∈ tokenize t) (hc : c ∈ token.text) :
    isBlank c = false := by
  have hmem : c ∈ (tokenize t).flatMap Token.text := List.mem_flatMap.2 ⟨token, h, hc⟩
  rw [flatMap_text_tokenize] at hmem
  simpa using (List.mem_filter.1 hmem).2

/-! ## Writing tokens

What is written are the texts of the tokens in their order, with a space between some. It begins
with the first token and ends with the last, so there is no blank at either end. -/

/-- Behind the first token there is a space or none, and then the others. -/
theorem exists_spell_cons (token : Token) (hne : ts ≠ []) :
    ∃ gap, spell (token :: ts) = token.text ++ (gap ++ spell ts) ∧ (gap = [] ∨ gap = [' ']) := by
  cases ts with
  | nil => exact absurd rfl hne
  | cons next ts =>
    rw [spell_cons_cons]
    by_cases hspaced : token.spaced next = true
    · exact ⟨[' '], by rw [if_pos hspaced]; rfl, .inr rfl⟩
    · exact ⟨[], by rw [if_neg hspaced]; rfl, .inl rfl⟩

/-- Tokens are written with the last one at the end. -/
theorem exists_spell_concat (ts : List Token) (token : Token) :
    ∃ r, spell (ts ++ [token]) = r ++ token.text := by
  induction ts with
  | nil => exact ⟨[], rfl⟩
  | cons first ts ih =>
    obtain ⟨r, hr⟩ := ih
    obtain ⟨gap, hspell, -⟩ := exists_spell_cons first (List.concat_ne_nil token ts)
    refine ⟨first.text ++ (gap ++ r), ?_⟩
    rw [List.cons_append, hspell, hr]
    simp only [List.append_assoc]

/-- Tokens without blanks are written without a blank at either end. -/
theorem trim_spell (hne : ∀ token ∈ ts, token.text ≠ [])
    (hblank : ∀ token ∈ ts, ∀ c ∈ token.text, isBlank c = false) : trim (spell ts) = spell ts := by
  apply Text.trim_eq_self
  · intro c hc
    cases ts with
    | nil => simp at hc
    | cons token ts =>
      replace hne := hne token List.mem_cons_self
      apply hblank token List.mem_cons_self c
      cases ts with
      | nil => exact List.mem_of_head? hc
      | cons next ts =>
        rw [spell_cons_cons, List.head?_append, List.head?_eq_some_head hne] at hc
        rw [← Option.some.inj hc]
        exact List.head_mem hne
  · intro c hc
    rcases List.eq_nil_or_concat ts with rfl | ⟨ts, token, rfl⟩
    · simp at hc
    · rw [List.concat_eq_append] at hne hblank hc
      have hlast : token ∈ ts ++ [token] := List.mem_append_right ts List.mem_cons_self
      obtain ⟨r, hr⟩ := exists_spell_concat ts token
      rw [hr, List.getLast?_append, List.getLast?_eq_some_getLast (hne token hlast)] at hc
      apply hblank token hlast c
      rw [← Option.some.inj hc]
      exact List.getLast_mem _

/-- A type made of tokens of a text has no blanks around it. -/
theorem trim_ofTokens (h : ts ⊆ tokenize t) : trim (ofTokens ts).text = (ofTokens ts).text := by
  apply trim_spell
  · intro token htoken
    exact text_ne_nil_of_mem_tokenize (h ((perm_hoist ts).subset htoken))
  · intro token htoken c hc
    exact isBlank_of_mem_text (h ((perm_hoist ts).subset htoken)) hc

/-! ## Marks are kept

Brackets and commas are characters that are in no word. A test for such characters does not see
words, and so it does not see words moved about or dropped, nor spaces added: all steps that make a
type of a text keep what passes the test. -/

section Marks

variable {keep : Char → Bool}

/-- Writing adds spaces only. -/
theorem filter_spell (hspace : keep ' ' = false) (ts : List Token) :
    (spell ts).filter keep = (ts.flatMap Token.text).filter keep := by
  induction ts with
  | nil => rfl
  | cons token ts ih =>
    cases ts with
    | nil => simp
    | cons next ts =>
      obtain ⟨gap, hspell, hgap⟩ := exists_spell_cons token (List.cons_ne_nil next ts)
      have hnil : gap.filter keep = [] := by
        rcases hgap with rfl | rfl
        · rfl
        · rw [List.filter_cons_of_neg (by simp [hspace]), List.filter_nil]
      rw [hspell, List.flatMap_cons, List.filter_append, List.filter_append, List.filter_append,
        hnil, ih, List.nil_append]

/-- A test that no word character passes drops a word. -/
theorem filter_of_isIdentChar (hident : ∀ c, isIdentChar c = true → keep c = false) {w : Text}
    (hw : ∀ c ∈ w, isIdentChar c = true) : w.filter keep = [] := by
  rw [List.filter_eq_nil_iff]
  intro c hc
  rw [hident c (hw c hc)]
  simp

/-- Moving the qualifiers keeps what passes such a test, since they are words. -/
theorem filter_hoist (hident : ∀ c, isIdentChar c = true → keep c = false) (ts : List Token) :
    ((hoist ts).flatMap Token.text).filter keep = (ts.flatMap Token.text).filter keep := by
  have hqualifiers : ((ts.takeWhile Token.isQualifier).flatMap Token.text).filter keep = [] := by
    apply filter_of_isIdentChar hident
    intro c hc
    obtain ⟨token, htoken, hc⟩ := List.mem_flatMap.1 hc
    have hqualifier := List.all_eq_true.1 List.all_takeWhile token htoken
    simp only [Token.isQualifier, Bool.or_eq_true, decide_eq_true_eq] at hqualifier
    have hconst : "const".toList.all isIdentChar = true := rfl
    have hvolatile : "volatile".toList.all isIdentChar = true := rfl
    rcases hqualifier with rfl | rfl
    · exact List.all_eq_true.1 hconst c hc
    · exact List.all_eq_true.1 hvolatile c hc
  obtain ⟨base, declarator, hts, hhoist⟩ := hoist_eq ts
  rw [hhoist]
  refine Eq.trans ?_ (congrArg (fun ts => (ts.flatMap Token.text).filter keep) hts).symm
  simp only [List.flatMap_append, List.filter_append, hqualifiers, List.nil_append]

/-- A name that is dropped is a word. -/
theorem filter_stripName (hident : ∀ c, isIdentChar c = true → keep c = false) (t : Text) :
    ((Parameter.stripName (tokenize t)).flatMap Token.text).filter keep
      = ((tokenize t).flatMap Token.text).filter keep := by
  rw [Parameter.stripName]
  by_cases hname : Parameter.endsInName (tokenize t) = true
  · rw [if_pos hname]
    unfold Parameter.endsInName at hname
    split at hname
    next w before hreverse =>
      have htokens : tokenize t = before.reverse ++ [.word w] := by
        rw [← List.reverse_reverse (tokenize t), hreverse, List.reverse_cons]
      have hword : Token.word w ∈ tokenize t := by
        rw [htokens]
        exact List.mem_append_right _ List.mem_cons_self
      have hnil : w.filter keep = [] :=
        filter_of_isIdentChar hident fun c hc => isIdentChar_of_word_mem hword hc
      rw [htokens, List.dropLast_concat, List.flatMap_append, List.filter_append]
      simp [Token.text, hnil]
    next => simp at hname
  · rw [if_neg hname]

/-- Marks that are no part of words are in a type as they were in the text it was read from. -/
theorem filter_stripped (hblank : ∀ c, isBlank c = true → keep c = false)
    (hident : ∀ c, isIdentChar c = true → keep c = false) (t : Text) :
    (ofTokens (Parameter.stripName (tokenize t))).text.filter keep = t.filter keep := by
  have hkeep : (t.filter fun c => !isBlank c).filter keep = t.filter keep := by
    rw [List.filter_filter]
    apply List.filter_congr
    intro c _
    cases hc : isBlank c with
    | false => simp
    | true => simp [hblank c hc]
  calc (ofTokens (Parameter.stripName (tokenize t))).text.filter keep
      = ((Parameter.stripName (tokenize t)).flatMap Token.text).filter keep := by
        rw [ofTokens, filter_spell (hblank ' ' rfl), filter_hoist hident]
    _ = (t.filter fun c => !isBlank c).filter keep := by
        rw [filter_stripName hident, flatMap_text_tokenize]
    _ = t.filter keep := hkeep

end Marks

end Overlay.CType
