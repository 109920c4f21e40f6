/-
Leading and trailing qualifiers.

`const char *` and `char const *` are one type. The qualifier in front is moved behind the base
type, and where that ends is found by counting brackets: at the first declarator outside `<>` and
`()`. A base type has none of these in it (`IsBase.whole`) and closes what it opens, so the
scan passes all of it and stops at the declarator, if that begins with `*`, `&`, `&&` or `[`.

A declarator in parentheses is passed as well, as the arguments of a base type are. The qualifier
ends up behind it, and the two spellings are two types (`parse_qualifier_iff`).

What a base type is, is said of its text (`IsBaseType`): names that are joined by `::` or by blanks,
each with template arguments or without, in which there may be anything that is balanced. All that
the scan has to know of it is said of its tokens (`IsBase`), and the one is led to the other by an
induction over the names. So how types are written matters in one half of this file, and how the
scan goes in the other.
-/
import Overlay.Proofs.CType.NormalForm
import Overlay.Proofs.Text.Brackets

set_option autoImplicit false

namespace Overlay.CType

open Text (IsGap isBlank isIdentChar isIdentifier)

variable {t u b d p q w : Text} {c : Char} {ts us : List Token} {token next : Token} {depth : Nat}

/-! ## The depth behind tokens

The scan counts tokens and not characters. A token that is no bracket leaves the count alone in
either way, so both counts are the same behind the tokens of a text. -/

/-- A token changes the depth as its characters do. -/
theorem step_eq (h : token.IsRead) (depth : Nat) :
    token.step depth = Text.Brackets.angled.depthAfter depth token.text := by
  cases token with
  | scope | rvalue | ellipsis | mark c => rfl
  | word w => exact (Text.depthAfter_of_isIdentifier h depth).symm
  | number w =>
    have hplain : ∀ c ∈ w, Text.Brackets.angled.isBracket c = false :=
      fun c hc => Text.isBracket_of_isIdentChar (isIdentChar_of_isDigit (h.2 c hc))
    exact (Text.Brackets.depthAfter_of_forall hplain depth).symm

/-- So do tokens one after the other. -/
theorem foldl_step (h : ∀ token ∈ ts, token.IsRead) (depth : Nat) :
    ts.foldl Token.step depth = Text.Brackets.angled.depthAfter depth (ts.flatMap Token.text) := by
  induction ts generalizing depth with
  | nil => rfl
  | cons token ts ih =>
    obtain ⟨htoken, hts⟩ := List.forall_mem_cons.1 h
    rw [List.foldl_cons, List.flatMap_cons, Text.Brackets.depthAfter_append, ← step_eq htoken,
      ih hts]

/-- No bracket is a blank, so leaving blanks out leaves all brackets in. -/
theorem keep_bracket (c : Char) (h : Text.Brackets.angled.isBracket c = true) :
    (!isBlank c) = true := by
  cases hc : isBlank c with
  | false => rfl
  | true => simp [Text.Brackets.skipsBlanks_angled c hc] at h

/-- The first tokens of a text are those of a beginning of it, and so is the depth behind them. -/
theorem exists_prefix_of_tokens (h : us <+: tokenize t) :
    ∃ p, p <+: t ∧ us.flatMap Token.text = p.filter (fun c => !isBlank c)
      ∧ ∀ depth, us.foldl Token.step depth = Text.Brackets.angled.depthAfter depth p := by
  have hread : ∀ token ∈ us, token.IsRead := fun _ hus => isRead_of_mem_tokenize (h.subset hus)
  have htext := h.flatMap Token.text
  rw [flatMap_text_tokenize, List.prefix_filter_iff] at htext
  obtain ⟨p, hp, heq⟩ := htext
  refine ⟨p, hp, heq, fun depth => ?_⟩
  rw [foldl_step hread, heq, Text.Brackets.depthAfter_filter keep_bracket]

/-- The depth behind the tokens of a text is the depth behind the text. -/
theorem foldl_step_tokenize (t : Text) (depth : Nat) :
    (tokenize t).foldl Token.step depth = Text.Brackets.angled.depthAfter depth t := by
  rw [foldl_step fun _ => isRead_of_mem_tokenize, flatMap_text_tokenize,
    Text.Brackets.depthAfter_filter keep_bracket]

/-! ## Where a declarator begins

The scan stops at the first declarator at depth zero. If it passes all of some tokens, it goes on
with the depth behind them; and inside brackets it passes everything. -/

/-- Tokens in which no declarator begins are passed. -/
theorem splitDeclarator_append_of (h : (splitDeclarator depth ts).2 = []) (us : List Token) :
    splitDeclarator depth (ts ++ us)
      = (ts ++ (splitDeclarator (ts.foldl Token.step depth) us).1,
        (splitDeclarator (ts.foldl Token.step depth) us).2) := by
  induction ts generalizing depth with
  | nil => rfl
  | cons token ts ih =>
    rw [splitDeclarator] at h
    split at h
    · simp at h
    · rename_i hstart
      rw [List.cons_append, splitDeclarator, if_neg hstart, ih h]
      rfl

/-- Inside brackets no declarator begins. -/
theorem splitDeclarator_of_pos (h : ∀ us, us <+: ts → 0 < us.foldl Token.step depth) :
    (splitDeclarator depth ts).2 = [] := by
  induction ts generalizing depth with
  | nil => rfl
  | cons token ts ih =>
    have hpos : 0 < depth := h [] List.nil_prefix
    rw [splitDeclarator, if_neg (by omega)]
    apply ih
    intro us hus
    exact h (token :: us) ((List.prefix_cons_inj token).2 hus)

/-! ## Base types

Each form of a base type, from a single word to names that are joined, keeps the four things that
are asked of its tokens. They are closed under joining (`IsBase.join`), whatever may stand in
between. -/

/-- The words that may stand in front of a base type and be moved. -/
def qualifiers : List Text := ["const".toList, "volatile".toList]

/-- A word is a qualifier if it is one of these. -/
theorem isQualifier_word_iff : (Token.word w).isQualifier = true ↔ w ∈ qualifiers := by
  simp [Token.isQualifier, qualifiers]

/-- A name in a base type: an identifier that is no qualifier, alone or with template arguments,
in which `<>` and `()` are balanced. -/
inductive IsTypeName : Text → Prop
  | plain {name : Text} (hname : isIdentifier name = true) (hplain : name ∉ qualifiers) :
    IsTypeName name
  | applied {name gap args : Text} (hname : isIdentifier name = true)
    (hplain : name ∉ qualifiers) (hgap : IsGap gap)
    (hargs : Text.Brackets.angled.IsBalanced args) :
    IsTypeName (name ++ (gap ++ '<' :: (args ++ ['>'])))

/-- Names that are joined by `::` or by blanks. -/
inductive IsBaseType : Text → Prop
  | single {first : Text} (hfirst : IsTypeName first) : IsBaseType first
  | qualified {first gap gap' rest : Text} (hfirst : IsTypeName first) (hgap : IsGap gap)
    (hgap' : IsGap gap') (hrest : IsBaseType rest) :
    IsBaseType (first ++ (gap ++ ':' :: ':' :: (gap' ++ rest)))
  | spaced {first gap rest : Text} (hfirst : IsTypeName first) (hgap : IsGap gap)
    (hne : gap ≠ []) (hrest : IsBaseType rest) : IsBaseType (first ++ (gap ++ rest))

/-- Tokens of a base type: they begin with a word that is no qualifier and end with a word or with
`>`, no declarator begins in them, and all brackets are closed. -/
structure IsBase (ts : List Token) : Prop where
  front : ∃ w us, ts = .word w :: us ∧ w ∉ qualifiers
  back : ∃ us token, ts = us ++ [token] ∧ (token = .mark '>' ∨ ∃ w, token = .word w)
  whole : (splitDeclarator 0 ts).2 = []
  closed : ts.foldl Token.step 0 = 0

/-- What is between the names is passed, if no declarator begins in it and no bracket is left
open. -/
theorem IsBase.join {m : List Token} (hts : IsBase ts) (hwhole : (splitDeclarator 0 m).2 = [])
    (hclosed : m.foldl Token.step 0 = 0) (hus : IsBase us) : IsBase (ts ++ (m ++ us)) where
  front := by
    obtain ⟨w, more, rfl, hw⟩ := hts.front
    exact ⟨w, more ++ (m ++ us), rfl, hw⟩
  back := by
    obtain ⟨more, token, rfl, htoken⟩ := hus.back
    exact ⟨ts ++ (m ++ more), token, by simp, htoken⟩
  whole := by
    rw [splitDeclarator_append_of hts.whole, hts.closed, splitDeclarator_append_of hwhole, hclosed]
    exact hus.whole
  closed := by
    rw [List.foldl_append, hts.closed, List.foldl_append, hclosed, hus.closed]

/-- A word that is no qualifier is a base type. -/
theorem isBase_word (hw : w ∉ qualifiers) : IsBase [.word w] where
  front := ⟨w, [], rfl, hw⟩
  back := ⟨[], .word w, rfl, .inr ⟨w, rfl⟩⟩
  whole := by
    rw [splitDeclarator, if_neg (by simp [Token.startsDeclarator, Token.isIndirection])]
    rfl
  closed := rfl

/-- Inside its arguments a name may have any token. -/
theorem isBase_applied (hw : w ∉ qualifiers) (hargs : Text.Brackets.angled.IsBalanced t) :
    IsBase (.word w :: .mark '<' :: (tokenize t ++ [.mark '>'])) where
  front := ⟨w, _, rfl, hw⟩
  back := ⟨.word w :: .mark '<' :: tokenize t, .mark '>', rfl, .inl rfl⟩
  whole := by
    -- in front of the closing `>` the depth is never zero again
    have hpos : ∀ us, us <+: tokenize t → 0 < us.foldl Token.step 1 := by
      intro us hus
      obtain ⟨p, hp, -, hdepth⟩ := exists_prefix_of_tokens hus
      rw [hdepth]
      exact hargs.le_depthAfter Text.Brackets.isPaired_angled hp 1
    have hclosed : (tokenize t).foldl Token.step 1 = 1 := by
      rw [foldl_step_tokenize, hargs.depthAfter Text.Brackets.isPaired_angled]
    have hword : (Token.word w).startsDeclarator = false := by
      simp [Token.startsDeclarator, Token.isIndirection]
    rw [splitDeclarator, if_neg (by simp [hword])]
    show (splitDeclarator 1 (tokenize t ++ [.mark '>'])).2 = []
    rw [splitDeclarator_append_of (splitDeclarator_of_pos hpos), hclosed]
    rfl
  closed := by
    rw [List.foldl_cons, List.foldl_cons, List.foldl_append, foldl_step_tokenize,
      hargs.depthAfter Text.Brackets.isPaired_angled]
    rfl

/-- An identifier is one token. -/
theorem tokenize_identifier (hw : isIdentifier w = true) : tokenize w = [.word w] := by
  have hread : (Token.word w).IsRead := hw
  exact tokenize_text hread

/-- A name is a base type, with or without arguments. -/
theorem IsTypeName.isBase (h : IsTypeName p) : IsBase (tokenize p) := by
  cases h with
  | plain hname hplain =>
    rw [tokenize_identifier hname]
    exact isBase_word hplain
  | applied hname hplain hgap hargs =>
    rw [← List.append_assoc, tokenize_append_mark rfl rfl, tokenize_append_gap hgap,
      tokenize_identifier hname, tokenize_append_mark rfl rfl, tokenize_nil]
    exact isBase_applied hplain hargs

/-- A name ends with no colon, so a separator behind it is a separator. -/
theorem IsTypeName.getLast?_ne (h : IsTypeName p) : p.getLast? ≠ some ':' := by
  intro hlast
  cases h with
  | plain hname hplain =>
    exact Text.not_mem_of_isIdentifier hname rfl (List.mem_of_getLast? hlast)
  | applied hname hplain hgap hargs =>
    rw [← List.cons_append, ← List.append_assoc, ← List.append_assoc, List.getLast?_concat] at hlast
    simp at hlast

/-- **A base type has the tokens of one.** -/
theorem IsBaseType.isBase (h : IsBaseType b) : IsBase (tokenize b) := by
  induction h with
  | single hfirst => exact hfirst.isBase
  | @qualified first gap gap' rest hfirst hgap hgap' hrest ih =>
    have hapart : Apart first (gap ++ ':' :: ':' :: (gap' ++ rest)) := by
      cases gap with
      | nil => exact apart_colon hfirst.getLast?_ne _
      | cons c gap => exact apart_cons (separates_of_isBlank (hgap c List.mem_cons_self)) _ _
    rw [tokenize_append hapart, tokenize_gap_append hgap, tokenize, tokenize_gap_append hgap']
    exact hfirst.isBase.join (m := [.scope]) rfl rfl ih
  | @spaced first gap rest hfirst hgap hne hrest ih =>
    cases gap with
    | nil => exact absurd rfl hne
    | cons c gap =>
      obtain ⟨hc, hgap⟩ := Text.isGap_cons.1 hgap
      rw [List.cons_append, tokenize_append_cons hc, tokenize_gap_append hgap]
      exact hfirst.isBase.join (m := []) rfl rfl ih

/-! ## Qualifiers in front and behind

The two spellings have the same tokens but for the qualifier. It is in front in the one and behind
the base in the other, and moving it from the front brings it to the same place. -/

section Moved

variable (hbase : IsBase ts) (hq : q ∈ qualifiers)
include hbase

/-- In front of a base type there is no qualifier but those that were put there. -/
theorem IsBase.takeWhile_append (us : List Token) :
    (ts ++ us).takeWhile Token.isQualifier = [] := by
  obtain ⟨w, more, rfl, hw⟩ := hbase.front
  have hword : ¬ (Token.word w).isQualifier = true := fun h => hw (isQualifier_word_iff.1 h)
  rw [List.cons_append, List.takeWhile_cons_of_neg hword]

/-- A qualifier behind the base type stays there. -/
theorem hoist_behind (us : List Token) : hoist (ts ++ us) = ts ++ us :=
  hoist_eq_self _ (hbase.takeWhile_append us)

include hq

/-- A qualifier in front is moved behind the base type and what the scan passes after it. -/
theorem hoist_in_front (us : List Token) :
    hoist (.word q :: (ts ++ us))
      = ts ++ ((splitDeclarator 0 us).1 ++ .word q :: (splitDeclarator 0 us).2) := by
  have hword : (Token.word q).isQualifier = true := isQualifier_word_iff.2 hq
  have htake : (ts ++ us).takeWhile Token.isQualifier = [] := hbase.takeWhile_append us
  have hdrop : (ts ++ us).dropWhile Token.isQualifier = ts ++ us := by
    have hparts := List.takeWhile_append_dropWhile (p := Token.isQualifier) (l := ts ++ us)
    rwa [htake] at hparts
  have hbehind : (splitDeclarator 0 (ts ++ us))
      = (ts ++ (splitDeclarator 0 us).1, (splitDeclarator 0 us).2) := by
    rw [splitDeclarator_append_of hbase.whole, hbase.closed]
  simp only [hoist, List.takeWhile_cons_of_pos hword, List.dropWhile_cons_of_pos hword, htake,
    hdrop, hbehind, List.append_assoc]
  rfl

end Moved

/-- What is written up to a space does not depend on what is behind it. -/
theorem spell_append_cons (h : token.spaced next = true) (ts us : List Token) :
    spell (ts ++ token :: next :: us) = spell (ts ++ [token]) ++ ' ' :: spell (next :: us) := by
  induction ts with
  | nil =>
    rw [List.nil_append, spell_cons_cons, if_pos h]
    rfl
  | cons first ts ih =>
    cases ts with
    | nil =>
      simp only [List.cons_append, List.nil_append, spell_cons_cons first token] at ih ⊢
      rw [ih]
      split <;> simp
    | cons second ts =>
      simp only [List.cons_append, spell_cons_cons first second] at ih ⊢
      rw [ih]
      split <;> simp

/-- Behind a base type a space is written in front of a word and of a parenthesis. -/
theorem spaced_of_back (h : token = .mark '>' ∨ ∃ w, token = .word w)
    (hnext : next = .mark '(' ∨ ∃ w, next = .word w) : token.spaced next = true := by
  rcases h with rfl | ⟨w, rfl⟩ <;> rcases hnext with rfl | ⟨v, rfl⟩ <;>
    simp [Token.spaced, Token.isTightAfter, Token.isTightBefore]

/-- Behind a base type a parenthesis is not written as a qualifier is. -/
theorem spell_paren_ne (hbase : IsBase ts) (hq : q ∈ qualifiers) (us vs : List Token) :
    spell (ts ++ .mark '(' :: us) ≠ spell (ts ++ .word q :: vs) := by
  obtain ⟨more, token, rfl, htoken⟩ := hbase.back
  obtain ⟨x, hx⟩ := exists_spell_eq (.mark '(') us
  obtain ⟨y, hy⟩ := exists_spell_eq (.word q) vs
  rw [List.append_assoc, List.append_assoc, List.singleton_append, List.singleton_append,
    spell_append_cons (spaced_of_back htoken (.inl rfl)),
    spell_append_cons (spaced_of_back htoken (.inr ⟨q, rfl⟩)), hx, hy, Ne, List.append_right_inj,
    List.cons.injEq]
  rintro ⟨-, htext⟩
  simp only [qualifiers, List.mem_cons, List.not_mem_nil, or_false] at hq
  rcases hq with rfl | rfl <;> simp [Token.text] at htext

/-- A declarator that is not in parentheses stops the scan. -/
theorem splitDeclarator_tokenize (hd : ∀ c ∈ d.head?, c ∈ ['*', '&', '[']) :
    splitDeclarator 0 (tokenize d) = ([], tokenize d) := by
  cases d with
  | nil => rw [tokenize_nil]; rfl
  | cons c r =>
    have hstart : ∃ token us, tokenize (c :: r) = token :: us ∧ token.startsDeclarator = true := by
      have hc := hd c rfl
      simp only [List.mem_cons, List.not_mem_nil, or_false] at hc
      rcases hc with rfl | rfl | rfl
      · exact ⟨_, _, tokenize_cons_mark rfl rfl r, rfl⟩
      · by_cases hr : r.head? = some '&'
        · obtain ⟨r, rfl⟩ := List.head?_eq_some_iff.1 hr
          exact ⟨.rvalue, tokenize r, by rw [tokenize], rfl⟩
        · have hcompound : startsCompound ('&' :: r) = false := by
            apply startsCompound_eq_false
            · simp
            · rintro r' - rfl
              simp at hr
            · simp
          exact ⟨.mark '&', tokenize r, tokenize_cons hcompound, rfl⟩
      · exact ⟨_, _, tokenize_cons_mark rfl rfl r, rfl⟩
    obtain ⟨token, us, htokens, htoken⟩ := hstart
    rw [htokens, splitDeclarator, if_pos ⟨rfl, htoken⟩]

/-- A qualifier in front of a base type is one behind it, unless a declarator in parentheses
follows. -/
theorem parse_qualifier_iff (hb : IsBaseType b) (hq : q ∈ qualifiers)
    (hd : ∀ c ∈ d.head?, c ∈ ['*', '&', '[', '(']) :
    parse (q ++ ' ' :: (b ++ ' ' :: d)) = parse (b ++ ' ' :: (q ++ ' ' :: d))
      ↔ d.head? ≠ some '(' := by
  have hbase := hb.isBase
  have hqtokens : tokenize q = [.word q] := by
    apply tokenize_identifier
    revert q
    decide
  have hfront : tokenize (q ++ ' ' :: (b ++ ' ' :: d))
      = .word q :: (tokenize b ++ tokenize d) := by
    rw [tokenize_append_cons rfl, tokenize_append_cons rfl, hqtokens]
    rfl
  have hbehind : tokenize (b ++ ' ' :: (q ++ ' ' :: d))
      = tokenize b ++ .word q :: tokenize d := by
    rw [tokenize_append_cons rfl, tokenize_append_cons rfl, hqtokens]
    rfl
  have htext : parse (q ++ ' ' :: (b ++ ' ' :: d)) = parse (b ++ ' ' :: (q ++ ' ' :: d))
      ↔ spell (tokenize b ++ ((splitDeclarator 0 (tokenize d)).1
            ++ .word q :: (splitDeclarator 0 (tokenize d)).2))
          = spell (tokenize b ++ .word q :: tokenize d) := by
    rw [parse, parse, hfront, hbehind, ofTokens, ofTokens, hoist_in_front hbase hq,
      hoist_behind hbase, CType.mk.injEq]
  rw [htext]
  by_cases hparen : d.head? = some '('
  · obtain ⟨r, rfl⟩ := List.head?_eq_some_iff.1 hparen
    -- the scan passes `(` at least, and with it the place behind the base type
    have hscan : splitDeclarator 0 (.mark '(' :: tokenize r)
        = (.mark '(' :: (splitDeclarator 1 (tokenize r)).1,
          (splitDeclarator 1 (tokenize r)).2) := by
      rw [splitDeclarator, if_neg (by decide)]
      rfl
    rw [tokenize_cons_mark rfl rfl, hscan]
    exact iff_of_false (spell_paren_ne hbase hq _ _) (fun hne => hne rfl)
  · have hother : ∀ c ∈ d.head?, c ∈ ['*', '&', '['] := by
      intro c hc
      have hne : c ≠ '(' := by
        rintro rfl
        exact hparen hc
      simpa [hne] using hd c hc
    rw [splitDeclarator_tokenize hother]
    exact iff_of_true rfl hparen

/-- A base type with nested arguments, references and a separator among them. -/
theorem parse_qualifier_iterator :
    let b := "std::map<int, A<b*> (&)[2]> ::iterator".toList
    let d := "*const&".toList
    IsBaseType b ∧ "const".toList ∈ qualifiers ∧ (∀ c ∈ d.head?, c ∈ ['*', '&', '[', '('])
      ∧ d.head? ≠ some '('
      ∧ parse ("const".toList ++ ' ' :: (b ++ ' ' :: d))
        = parse (b ++ ' ' :: ("const".toList ++ ' ' :: d)) := by
  intro b d
  have hstd : IsTypeName "std".toList := .plain rfl (by decide)
  have hmap : IsTypeName "map<int, A<b*> (&)[2]>".toList := by
    show IsTypeName ("map".toList ++ ([] ++ '<' :: ("int, A<b*> (&)[2]".toList ++ ['>'])))
    exact .applied rfl (by decide) Text.isGap_nil (by decide)
  have hiterator : IsBaseType "iterator".toList := .single (.plain rfl (by decide))
  have hb : IsBaseType b := by
    show IsBaseType ("std".toList ++ ([] ++ ':' :: ':' :: ([] ++ ("map<int, A<b*> (&)[2]>".toList
      ++ ([' '] ++ ':' :: ':' :: ([] ++ "iterator".toList))))))
    exact .qualified hstd Text.isGap_nil Text.isGap_nil
      (.qualified hmap (Text.isGap_cons.2 ⟨rfl, Text.isGap_nil⟩) Text.isGap_nil hiterator)
  have hd : ∀ c ∈ d.head?, c ∈ ['*', '&', '[', '('] := by
    intro c hc
    obtain rfl : '*' = c := Option.some.inj hc
    decide
  have hq : "const".toList ∈ qualifiers := by decide
  exact ⟨hb, hq, hd, by decide, (parse_qualifier_iff hb hq hd).2 (by decide)⟩

/-- **A declarator in parentheses is passed.** The qualifier in front of a pointer to a function
gets behind its parameters, where it qualifies the function. -/
theorem parse_qualifier_functionPointer :
    IsBaseType "int".toList ∧ "const".toList ∈ qualifiers
      ∧ parse ("const".toList ++ ' ' :: ("int".toList ++ ' ' :: "(*)(int)".toList))
        = ⟨"int (*)(int) const".toList⟩
      ∧ parse ("int".toList ++ ' ' :: ("const".toList ++ ' ' :: "(*)(int)".toList))
        = ⟨"int const (*)(int)".toList⟩
      ∧ parse ("const".toList ++ ' ' :: ("int".toList ++ ' ' :: "(*)(int)".toList))
        ≠ parse ("int".toList ++ ' ' :: ("const".toList ++ ' ' :: "(*)(int)".toList)) :=
  ⟨.single (.plain rfl (by decide)), by decide, by decide +kernel, by decide +kernel,
    by decide +kernel⟩

end Overlay.CType
