/-
What a literal is, and what is taken for one.

Inside a literal a quote and a backslash stand only in escapes (`Spelled`, `IsQuoted`). The reading
`Quoting`, by which the end of the arguments and the commas are found, ends a literal at the first
quote that is not escaped (`exists_literal_of_after`). The reader that takes the escapes out of an
argument looks for a quote at either end and for nothing in between but the backslashes
(`unquote_isSome_iff`). So it takes for a literal whatever begins with one and ends with one. That
is one literal exactly if no second one begins in it (`isQuoted_iff_opened_le_one`).
-/
import Overlay.Proofs.Script.Written
import Overlay.Proofs.Text.Words

set_option autoImplicit false

namespace Overlay.Script

variable {special : List Char} {b t u : Text}

/-! ## Literals

The same form is asked for with two sets of characters. With the quote among them it is a literal,
and with the backslash alone it is what the reader accepts. -/

/-- The characters of `special` stand only behind a backslash, which takes the next character
along. -/
inductive Spelled (special : List Char) : Text → Prop where
  | nil : Spelled special []
  | plain {c : Char} {t : Text} (hc : c ∉ special) (h : Spelled special t) :
    Spelled special (c :: t)
  | escape (c : Char) {t : Text} (h : Spelled special t) : Spelled special ('\\' :: c :: t)

/-- A text so spelled, in quotes. -/
def IsQuoted (special : List Char) (t : Text) : Prop :=
  ∃ b, t = '"' :: (b ++ ['"']) ∧ Spelled special b

/-- What stands in a literal only behind a backslash. -/
def literalSpecial : List Char := ['\\', '"']

/-- Where fewer characters are special more is so spelled. -/
theorem Spelled.mono {special' : List Char} (h : Spelled special t) (hsub : special' ⊆ special) :
    Spelled special' t := by
  induction h with
  | nil => exact .nil
  | plain hc _ ih => exact .plain (fun hmem => hc (hsub hmem)) ih
  | escape c _ ih => exact .escape c ih

/-- Escapes can be taken out of a text unless a backslash ends it. -/
theorem unescape_isSome_iff : (unescape b).isSome ↔ Spelled ['\\'] b := by
  constructor
  · intro h
    fun_induction unescape b with
    | case1 => exact .nil
    | case2 => simp at h
    | case3 c t ih => exact .escape c (ih (by simpa using h))
    | case4 c t hend hesc ih =>
      refine .plain ?_ (ih (by simpa using h))
      rw [List.mem_singleton]
      rintro rfl
      cases t with
      | nil => exact hend rfl rfl
      | cons d t => exact hesc d t rfl rfl
  · intro h
    induction h with
    | nil => rfl
    | @plain c t hc h ih =>
      rw [List.mem_singleton] at hc
      rw [unescape]
      · simpa using ih
      · exact fun heq _ => hc heq
      · exact fun _ _ heq _ => hc heq
    | escape c h ih =>
      rw [unescape]
      simpa using ih

/-- Between quotes only the escapes are looked at. -/
theorem unquote_eq (b : Text) : unquote ('"' :: (b ++ ['"'])) = unescape b := by
  rw [unquote, if_pos List.getLast?_concat, List.dropLast_concat]

/-- What the reader of literals takes for one: in it only the backslashes count. -/
theorem unquote_isSome_iff : (unquote t).isSome ↔ IsQuoted ['\\'] t := by
  constructor
  · intro h
    rw [unquote.eq_def] at h
    split at h
    next r =>
      split at h
      next hlast =>
        obtain ⟨b, rfl⟩ := List.getLast?_eq_some_iff.1 hlast
        rw [List.dropLast_concat] at h
        exact ⟨b, rfl, unescape_isSome_iff.1 h⟩
      next => simp at h
    next => simp at h
  · rintro ⟨b, rfl, hb⟩
    rw [unquote_eq]
    exact unescape_isSome_iff.2 hb

theorem isQuoted_of_unquote (h : unquote t = some u) : IsQuoted ['\\'] t :=
  unquote_isSome_iff.1 (by rw [h, Option.isSome_some])

theorem unquote_eq_none_iff : unquote t = none ↔ ¬ IsQuoted ['\\'] t := by
  rw [← unquote_isSome_iff, Option.not_isSome_iff_eq_none]

/-! ## Where literals begin and end

The reading that finds the commas knows where a literal ends. To count how many begin in a text
(`opened`) is enough to tell a literal from a text that only begins and ends with a quote. -/

namespace Quoting

variable {q : Quoting}

/-- How many literals begin in a text. -/
def opened : Quoting → Text → Nat
  | _, [] => 0
  | q, c :: r => (if q = .outside ∧ c = '"' then 1 else 0) + opened (q.next c) r

theorem after_cons (q : Quoting) (c : Char) (t : Text) : q.after (c :: t) = (q.next c).after t :=
  rfl

theorem opened_append (q : Quoting) (t u : Text) :
    q.opened (t ++ u) = q.opened t + (q.after t).opened u := by
  induction t generalizing q with
  | nil => exact (Nat.zero_add _).symm
  | cons c t ih =>
    rw [List.cons_append, opened, opened, ih, Nat.add_assoc]
    rfl

/-- Outside of literals the first quote begins one. -/
theorem opened_eq_zero_iff : outside.opened t = 0 ↔ '"' ∉ t := by
  induction t with
  | nil => simp [opened]
  | cons c t ih =>
    by_cases hc : c = '"'
    · simp [opened, hc]
    · have hnext : outside.next c = outside := if_neg hc
      simp [opened, hc, Ne.symm hc, hnext, ih]

/-- What stands in front without quotes makes no difference. -/
theorem append_of_no_quote (h : '"' ∉ t) (u : Text) :
    outside.after (t ++ u) = outside.after u ∧ outside.opened (t ++ u) = outside.opened u := by
  rw [after_append, opened_append, after_of_no_quote h, opened_eq_zero_iff.2 h, Nat.zero_add]
  exact ⟨rfl, rfl⟩

/-- A literal that is open does not end without a quote. -/
theorem eq_outside_of_after (hquote : '"' ∉ t) (h : q.after t = outside) : q = outside := by
  induction t generalizing q with
  | nil => exact h
  | cons c t ih =>
    rw [List.mem_cons, not_or] at hquote
    have hnext : q.next c = outside := ih hquote.2 h
    cases q with
    | outside => rfl
    | inside =>
      rw [next, if_neg (Ne.symm hquote.1)] at hnext
      split at hnext <;> simp at hnext
    | escaped => simp [next] at hnext

/-- The blanks around a text are not in a literal. -/
theorem trim_closed (h : outside.after t = outside) :
    outside.after t.trim = outside ∧ outside.opened t.trim = outside.opened t := by
  have hgap : ∀ {w : Text}, Text.IsGap w → '"' ∉ w :=
    fun hw hmem => absurd (hw _ hmem) (by decide)
  obtain ⟨u, v, hu, hv, htext⟩ := Text.eq_gap_trim_gap t
  have hfront := append_of_no_quote (hgap hu) (t.trim ++ v)
  rw [← htext, after_append, opened_append] at hfront
  have hclosed : outside.after t.trim = outside :=
    eq_outside_of_after (hgap hv) (hfront.1.symm.trans h)
  rw [hclosed, opened_eq_zero_iff.2 (hgap hv), Nat.add_zero] at hfront
  exact ⟨hclosed, hfront.2.symm⟩

/-- Inside a literal none begins and none ends. -/
theorem inside_of_spelled (h : Spelled literalSpecial b) :
    inside.after b = inside ∧ inside.opened b = 0 := by
  induction h with
  | nil => exact ⟨rfl, rfl⟩
  | @plain c t hc h ih =>
    have hnext : inside.next c = inside := by
      simp only [literalSpecial, List.mem_cons, List.not_mem_nil, or_false, not_or] at hc
      rw [next, if_neg hc.1, if_neg hc.2]
    rw [after_cons, opened, hnext, if_neg (by simp), ih.2]
    exact ⟨ih.1, rfl⟩
  | escape c h ih => exact ⟨ih.1, by simp [opened, next, ih.2]⟩

/-- A text that leaves the literal goes on up to the first quote that is not escaped. -/
theorem exists_literal_of_after (h : inside.after t = outside) :
    ∃ b r, t = b ++ '"' :: r ∧ Spelled literalSpecial b ∧ outside.after r = outside := by
  induction t using unescape.induct with
  | case1 => simp [after] at h
  | case2 => simp [after, next] at h
  | case3 c r ih =>
    obtain ⟨b, s, rfl, hb, hs⟩ := ih h
    exact ⟨'\\' :: c :: b, s, rfl, .escape c hb, hs⟩
  | case4 c r hend hesc ih =>
    by_cases hquote : c = '"'
    · subst hquote
      exact ⟨[], r, rfl, .nil, h⟩
    · have hback : c ≠ '\\' := by
        rintro rfl
        cases r with
        | nil => exact hend rfl rfl
        | cons d r => exact hesc d r rfl rfl
      have hnext : inside.next c = inside := by rw [next, if_neg hback, if_neg hquote]
      rw [after_cons, hnext] at h
      obtain ⟨b, s, rfl, hb, hs⟩ := ih h
      exact ⟨c :: b, s, rfl, .plain (by simp [literalSpecial, hback, hquote]) hb, hs⟩

end Quoting

open Quoting (outside inside)

/-- **What is taken for a literal is one exactly if no second literal begins in it.** -/
theorem isQuoted_iff_opened_le_one (hclosed : outside.after t = outside) :
    IsQuoted literalSpecial t ↔ IsQuoted ['\\'] t ∧ outside.opened t ≤ 1 := by
  constructor
  · rintro ⟨b, rfl, hb⟩
    obtain ⟨hafter, hopened⟩ := Quoting.inside_of_spelled hb
    refine ⟨⟨b, rfl, hb.mono (by simp [literalSpecial])⟩, ?_⟩
    show 1 + inside.opened (b ++ ['"']) ≤ 1
    rw [Quoting.opened_append, hopened, hafter]
    exact Nat.le_refl 1
  · rintro ⟨⟨b, rfl, -⟩, hone⟩
    obtain ⟨b', r, htext, hb', -⟩ := Quoting.exists_literal_of_after (t := b ++ ['"']) hclosed
    obtain ⟨hafter, hopened⟩ := Quoting.inside_of_spelled hb'
    have hnone : outside.opened r = 0 := by
      have hsum : outside.opened ('"' :: (b ++ ['"'])) = 1 + inside.opened (b' ++ '"' :: r) := by
        rw [htext]
        rfl
      have hrest : inside.opened ('"' :: r) = 0 + outside.opened r := rfl
      rw [Quoting.opened_append, hopened, hafter, hrest] at hsum
      omega
    -- the last quote ends the literal that began with the first
    rcases List.eq_nil_or_concat r with rfl | ⟨r', c, rfl⟩
    · rw [List.append_cancel_right htext]
      exact ⟨b', rfl, hb'⟩
    · have hconcat : b ++ ['"'] = (b' ++ '"' :: r') ++ [c] := by simpa using htext
      have hlast := congrArg List.getLast? hconcat
      rw [List.getLast?_concat, List.getLast?_concat, Option.some_inj] at hlast
      rw [Quoting.opened_eq_zero_iff, ← hlast] at hnone
      simp at hnone

/-! ## The parts between commas

`splitArguments` cuts at the commas outside of literals, and there is one way to do that. So the
parts can be spoken of without the reader (`IsSplit`). -/

/-- The text in parts, with a comma behind each but the last. In no part a comma stands outside of
literals, and none ends inside of one. -/
structure IsSplit (t : Text) (parts : List Text) : Prop where
  nonempty : parts ≠ []
  whole : t = [','].intercalate parts
  closed : ∀ part ∈ parts, outside.after part = outside
  free : ∀ part ∈ parts, outside.Free [','] part

/-- The first character of a text that is put together is that of its first part. -/
theorem intercalate_comma_cons (c : Char) (p : Text) (ps : List Text) :
    [','].intercalate ((c :: p) :: ps) = c :: [','].intercalate (p :: ps) := by
  cases ps with
  | nil => rw [List.intercalate_singleton, List.intercalate_singleton]
  | cons p' ps => rw [List.intercalate_cons_cons, List.intercalate_cons_cons]; rfl

/-- The search for commas, from anywhere: the first part goes on from where the reading stands. -/
theorem exists_of_splitArguments {q : Quoting} (h : q.after t = outside) :
    ∃ p ps, splitArguments q t = p :: ps ∧ t = [','].intercalate (p :: ps)
      ∧ (q.after p = outside ∧ q.Free [','] p)
      ∧ ∀ part ∈ ps, outside.after part = outside ∧ outside.Free [','] part := by
  induction t generalizing q with
  | nil => exact ⟨[], [], rfl, rfl, ⟨h, trivial⟩, by simp⟩
  | cons c t ih =>
    rw [splitArguments]
    by_cases hcomma : q = outside ∧ c = ','
    · obtain ⟨rfl, rfl⟩ := hcomma
      obtain ⟨p, ps, hsplit, htext, hp, hps⟩ := ih (q := outside) h
      refine ⟨[], p :: ps, by rw [if_pos ⟨rfl, rfl⟩, hsplit], ?_, ⟨rfl, trivial⟩, ?_⟩
      · rw [List.intercalate_cons_cons, ← htext]
        rfl
      · exact List.forall_mem_cons.2 ⟨hp, hps⟩
    · obtain ⟨p, ps, hsplit, htext, hp, hps⟩ := ih (q := q.next c) h
      refine ⟨c :: p, ps, by rw [if_neg hcomma, hsplit, Text.extend], ?_, ⟨hp.1, ?_, hp.2⟩, hps⟩
      · rw [intercalate_comma_cons, ← htext]
      · exact fun hq hc => hcomma ⟨hq, List.mem_singleton.1 hc⟩

/-- A text whose literals are closed is split into the parts that the reader finds. -/
theorem isSplit_splitArguments (h : outside.after t = outside) :
    IsSplit t (splitArguments .outside t) := by
  obtain ⟨p, ps, hsplit, htext, hp, hps⟩ := exists_of_splitArguments h
  have hall : ∀ part ∈ p :: ps, outside.after part = outside ∧ outside.Free [','] part :=
    List.forall_mem_cons.2 ⟨hp, hps⟩
  rw [hsplit]
  exact ⟨by simp, htext, fun part hpart => (hall part hpart).1,
    fun part hpart => (hall part hpart).2⟩

/-- A text has one split. -/
theorem IsSplit.eq_splitArguments {parts : List Text} (h : IsSplit t parts) :
    parts = splitArguments .outside t := by
  induction parts generalizing t with
  | nil => exact absurd rfl h.nonempty
  | cons p ps ih =>
    obtain ⟨hclosed, hrest⟩ := List.forall_mem_cons.1 h.closed
    obtain ⟨hfree, hfrees⟩ := List.forall_mem_cons.1 h.free
    cases ps with
    | nil =>
      have hsplit := splitArguments_of_free hfree []
      rw [List.append_nil, splitArguments, foldr_extend_cons, List.append_nil] at hsplit
      rw [h.whole, List.intercalate_singleton, hsplit]
    | cons p' ps =>
      have hsplit := splitArguments_of_free hfree (',' :: [','].intercalate (p' :: ps))
      rw [hclosed, splitArguments, if_pos ⟨rfl, rfl⟩, foldr_extend_cons, List.append_nil] at hsplit
      have hjoin : t = p ++ ',' :: [','].intercalate (p' :: ps) := by
        rw [h.whole, List.intercalate_cons_cons, List.append_assoc]
        rfl
      rw [hjoin, hsplit, ← ih ⟨by simp, rfl, hrest, hfrees⟩]

/-- The arguments end outside of literals. -/
theorem after_of_closeArguments {q : Quoting} {depth : Nat} {p r : Text}
    (h : closeArguments q depth t = some (p, r)) : q.after p = outside := by
  induction t generalizing q depth p with
  | nil => simp [closeArguments] at h
  | cons c t ih =>
    have hstep : ∀ {q' : Quoting} {depth' : Nat}, q.next c = q' →
        (closeArguments q' depth' t).map (Text.consFst c) = some (p, r) → q.after p = outside := by
      rintro _ depth' rfl hclose
      obtain ⟨p', hclose', rfl⟩ := Text.map_consFst_eq_some_iff.1 hclose
      show (q.next c).after p' = outside
      exact ih hclose'
    rw [closeArguments] at h
    split at h
    next hend =>
      obtain ⟨rfl, rfl⟩ := hend
      split at h
      · obtain ⟨rfl, -⟩ := Prod.mk.inj (Option.some.inj h)
        rfl
      · exact hstep rfl h
    next =>
      split at h
      next hopen =>
        obtain ⟨rfl, rfl⟩ := hopen
        exact hstep rfl h
      next => exact hstep rfl h

end Overlay.Script
