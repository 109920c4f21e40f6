/-
Types in normal form.

A type is written from its tokens with as few spaces as can be, and it is compared as text. So two
tokens must not become one where no space is between them. They do not (`tokenize_spell`): two
tokens without a space between them are apart, or the first is `::`. The one exception is a lone
`:`, which in front of `::` makes up `::` and `:`.

The place that the leading qualifiers are moved to is behind a token that is none of them, or they
stay where they are; so moving them again moves nothing (`hoist_hoist`). Both together say that a
type keeps its tokens, and that it is its own normal form (`parse_normal`).

The tokens that this is about are those that can be read at all (`Token.IsRead`). A word that is no
identifier, say, would be written and read as something else, but no text has such a token.
-/
import Mathlib.Data.List.TakeWhile
import Overlay.Proofs.CType.Tokens

set_option autoImplicit false

namespace Overlay.CType

open Text (isBlank isIdentChar isIdentifier isLetter)

variable {t : Text} {c : Char} {ts : List Token} {token next : Token}

/-! ## One token

What is written for one token is read as that token. The three that are more than one character are
read so by the first rules of the reader, and no other token is taken by these. -/

/-- Something is written for every token. -/
theorem Token.IsRead.text_ne_nil (h : token.IsRead) : token.text ≠ [] := by
  cases token with
  | word w =>
    rintro hw
    rw [Token.IsRead, show w = [] from hw] at h
    simp [isIdentifier] at h
  | number w => exact h.1
  | _ => simp [Token.text]

/-- A digit is no letter, so a number is not read as a word. -/
theorem isLetter_of_isDigit (hc : c.isDigit = true) : isLetter c = false := by
  simp only [Char.isDigit, Bool.and_eq_true, decide_eq_true_eq, ge_iff_le,
    UInt32.le_iff_toNat_le] at hc
  rw [isLetter, Bool.or_eq_false_iff]
  constructor
  · rw [Bool.eq_false_iff]
    intro halpha
    delta Char.isAlpha Char.isUpper Char.isLower at halpha
    simp only [Bool.or_eq_true, Bool.and_eq_true, decide_eq_true_eq, ge_iff_le,
      UInt32.le_iff_toNat_le] at halpha
    simp at hc halpha
    omega
  · rw [beq_eq_false_iff_ne]
    rintro rfl
    simp at hc

/-- A character of a word or a number begins none of the longer marks. -/
theorem startsCompound_of_isIdentChar (hc : isIdentChar c = true) (t : Text) :
    startsCompound (c :: t) = false := by
  apply startsCompound_eq_false <;>
  · rintro r rfl -
    simp [isIdentChar, isLetter] at hc

/-- A token that can be read is read from what is written for it. -/
theorem tokenize_text (h : token.IsRead) : tokenize token.text = [token] := by
  cases token with
  | scope | rvalue | ellipsis => simp [Token.text, tokenize]
  | word w =>
    cases w with
    | nil => simp [Token.IsRead, isIdentifier] at h
    | cons c w =>
      simp only [Token.IsRead, isIdentifier, Bool.and_eq_true, List.all_eq_true] at h
      have hcompound := startsCompound_of_isIdentChar (Text.isIdentChar_of_isLetter c h.1) w
      rw [Token.text, tokenize_cons hcompound, if_pos h.1, List.takeWhile_eq_self_iff.2 h.2,
        List.dropWhile_eq_nil_iff.2 h.2, tokenize_nil]
  | number w =>
    cases w with
    | nil => exact absurd rfl h.1
    | cons c w =>
      obtain ⟨hc, hw⟩ := List.forall_mem_cons.1 h.2
      have hcompound := startsCompound_of_isIdentChar (isIdentChar_of_isDigit hc) w
      rw [Token.text, tokenize_cons hcompound, if_neg (by simp [isLetter_of_isDigit hc]),
        if_pos hc, List.takeWhile_eq_self_iff.2 hw, List.dropWhile_eq_nil_iff.2 hw, tokenize_nil]
  | mark c =>
    obtain ⟨hident, hblank⟩ := h
    have hcompound : startsCompound [c] = false := by
      apply startsCompound_eq_false <;> simp
    simp only [isIdentChar, Bool.or_eq_false_iff] at hident
    rw [Token.text, tokenize_cons hcompound, hident.1, hident.2, hblank, tokenize_nil]
    rfl

/-! ## Tokens that are written and read

The induction is over the tokens. The first is written in front of the rest with or without a space.
With one they are apart in any case. Without one they have to be, and the tokens between which no
space is written are few enough to be gone through. -/

/-- Only `::` and a lone `:` are written with a colon. -/
theorem not_mem_colon_text (h : token.IsRead) (hscope : token ≠ .scope)
    (hmark : token ≠ .mark ':') : ':' ∉ token.text := by
  cases token with
  | scope => exact absurd rfl hscope
  | rvalue | ellipsis => simp [Token.text]
  | word w => exact Text.not_mem_of_isIdentifier h rfl
  | number w =>
    intro hc
    have hdigit := h.2 ':' hc
    simp at hdigit
  | mark c =>
    intro hc
    exact hmark (by rw [List.mem_singleton.1 hc])

/-- Two tokens that no space is between are apart, unless the first has a colon. -/
theorem apart_of_not_spaced (hcolon : ':' ∉ token.text) (hspaced : token.spaced next = false) :
    Apart token.text next.text := by
  simp only [Token.spaced, Token.isTightAfter, Token.isTightBefore, Bool.not_eq_false',
    Bool.or_eq_true, decide_eq_true_eq, Bool.and_eq_true, or_assoc] at hspaced
  -- the first four are tight behind the first token, the others in front of the second
  rcases hspaced with rfl | rfl | rfl | rfl | rfl | rfl | rfl | rfl | rfl | rfl | rfl | ⟨rfl, rfl⟩
    | ⟨rfl, rfl⟩
  · simp [Token.text] at hcolon
  · exact apart_concat rfl [] _
  · exact apart_concat rfl [] _
  · exact apart_concat rfl [] _
  · exact apart_colon (fun hlast => hcolon (List.mem_of_getLast? hlast)) _
  all_goals exact apart_cons rfl _ _

/-- Tokens are written with the first one in front. -/
theorem exists_spell_eq (token : Token) (ts : List Token) :
    ∃ r, spell (token :: ts) = token.text ++ r := by
  cases ts with
  | nil => exact ⟨[], (List.append_nil _).symm⟩
  | cons next ts => exact ⟨_, spell_cons_cons token next ts⟩

/-- Tokens that are written are read again, if none is a lone `:`. -/
theorem tokenize_spell (h : ∀ token ∈ ts, token.IsRead) (hcolon : .mark ':' ∉ ts) :
    tokenize (spell ts) = ts := by
  induction ts with
  | nil => simp
  | cons token ts ih =>
    obtain ⟨htoken, hts⟩ := List.forall_mem_cons.1 h
    rw [List.mem_cons, not_or] at hcolon
    replace ih := ih hts hcolon.2
    cases ts with
    | nil => exact tokenize_text htoken
    | cons next ts =>
      rw [spell_cons_cons]
      by_cases hspaced : token.spaced next = true
      · rw [if_pos hspaced, tokenize_append_cons rfl, ih, tokenize_text htoken]
        rfl
      rw [if_neg hspaced]
      by_cases hscope : token = .scope
      · -- `::` is read first, whatever is behind it
        subst hscope
        rw [Token.text, List.cons_append, List.cons_append, List.nil_append, tokenize, ih]
      · have hcolon' := not_mem_colon_text htoken hscope (Ne.symm hcolon.1)
        have hnext := (hts next List.mem_cons_self).text_ne_nil
        have hapart : Apart token.text (spell (next :: ts)) := by
          obtain ⟨r, hr⟩ := exists_spell_eq next ts
          intro c hc d hd
          rw [hr, List.head?_append_of_ne_nil _ hnext] at hd
          exact apart_of_not_spaced hcolon' (by simpa using hspaced) c hc d hd
        rw [tokenize_append hapart, ih, tokenize_text htoken]
        rfl

example : tokenize (spell [.mark ':', .scope]) = [.scope, .mark ':'] := by decide +kernel

/-! ## Moving the qualifiers

The leading qualifiers go behind the base, that is in front of a declarator or to the end. -/

/-- Qualifiers that were moved are not moved again. -/
theorem hoist_hoist (ts : List Token) : hoist (hoist ts) = hoist ts := by
  obtain ⟨base, declarator, hts, hhoist⟩ := hoist_eq ts
  cases base with
  | nil =>
    have hself : hoist ts = ts := by
      rw [hhoist]
      exact hts.symm
    rw [hself, hself]
  | cons token base =>
    -- the first token behind the qualifiers is none of them
    have hdrop : ts.dropWhile Token.isQualifier = token :: (base ++ declarator) := by
      apply List.append_cancel_left
      rw [List.takeWhile_append_dropWhile]
      exact hts
    have htoken := List.head?_dropWhile_not Token.isQualifier ts
    rw [hdrop, List.head?_cons] at htoken
    apply hoist_eq_self
    rw [hhoist, List.cons_append, List.takeWhile_cons_of_neg (by simpa using htoken)]

/-! ## Types

The tokens of a type are said to be those of its text in a way that leaves no room: the leading
block, what is in front of its new place, and what is behind it. -/

/-- The tokens of a type are those of the text, where only the leading block of qualifiers was
moved, in its order, to one later place; and a type is read as itself. -/
theorem parse_normal (hcolon : .mark ':' ∉ tokenize t) :
    (∃ base declarator,
      tokenize t = (tokenize t).takeWhile Token.isQualifier ++ (base ++ declarator)
        ∧ tokenize (parse t).text
          = base ++ ((tokenize t).takeWhile Token.isQualifier ++ declarator))
      ∧ parse (parse t).text = parse t := by
  have hread : ∀ token ∈ hoist (tokenize t), token.IsRead :=
    fun token htoken => isRead_of_mem_tokenize ((perm_hoist _).subset htoken)
  have hcolon' : .mark ':' ∉ hoist (tokenize t) :=
    fun hmem => hcolon ((perm_hoist _).subset hmem)
  have htokens : tokenize (parse t).text = hoist (tokenize t) := tokenize_spell hread hcolon'
  constructor
  · obtain ⟨base, declarator, hts, hhoist⟩ := hoist_eq (tokenize t)
    exact ⟨base, declarator, hts, htokens.trans hhoist⟩
  · rw [parse, htokens, ofTokens, hoist_hoist]
    rfl

/-- A type with template arguments and a reference, whose two qualifiers go behind its base. -/
theorem parse_normal_mapReference :
    let t := "const volatile std::map<int,T**>&".toList
    .mark ':' ∉ tokenize t ∧ (parse t).text = "std::map<int, T **> const volatile &".toList
      ∧ (∃ base declarator,
        tokenize t = (tokenize t).takeWhile Token.isQualifier ++ (base ++ declarator)
          ∧ tokenize (parse t).text
            = base ++ ((tokenize t).takeWhile Token.isQualifier ++ declarator))
      ∧ parse (parse t).text = parse t := by
  intro t
  have hcolon : .mark ':' ∉ tokenize t := by decide +kernel
  exact ⟨hcolon, by decide +kernel, parse_normal hcolon⟩

end Overlay.CType
