/-
Cuts of texts that are put together.

A cut walks from the left with a count of open brackets, so what it does on two texts, one
behind the other, is what it does on the first and then, from the depth that was reached, on
the second (`cutFrom_append`). The one thing that can disturb this is a mark at the end of the
first text that looks at what comes next; each user of the lemma shows that there is none.

From this follow the laws of splitting. The parts of a text, with the separator between them,
are the text (`intercalate_split`); all of them but the last close their brackets, and no part
has a mark (`parts_split`). And texts of this kind, with the separator between them, are split
again where they were put together (`split_intercalate`).

All of it is stated for any set of brackets and any mark, since four readers share the walk: lists
are cut at commas, names at `::`, parameters at the `=` of a default, and classes at a single colon.
What these marks have in common is said by two small predicates. `Mark.Ignores` is what an append
needs, and `Mark.Marks` is what it takes for a mark to be the first character of a separator.

A parenthesis is closed where the text between is balanced (`closing_eq_some_iff`). That turns the
search for the end of a parameter list into a statement about counts, which has no depth in it.
-/
import Mathlib.Data.List.Basic
import Overlay.Proofs.Text.Brackets

set_option autoImplicit false

namespace Overlay.Text

variable {b : Brackets} {mark : Mark} {depth more : Nat} {before : Option Char} {t u p r : Text}

/-! ## Cuts

The marks are functions of the character, of the one before it and of all that follows. Appending
a text changes the last of these at every place of the text in front; `Mark.Ignores` says that the
mark comes out as before nevertheless. -/

/-- The marks of a text are the same with `u` behind it. -/
def Mark.Ignores (mark : Mark) (t u : Text) : Prop :=
  ∀ q c r, t = q ++ c :: r → ∀ before, mark before c (r ++ u) = mark before c r

/-- A mark that is one character looks at nothing else. -/
theorem Mark.ignores_char (m : Char) (t u : Text) : (Mark.char m).Ignores t u :=
  fun _ _ _ _ _ => rfl

/-- A text behind another is not asked for its first character, unless the other one is empty. -/
theorem head?_append_ne {c : Char} (hu : u.head? ≠ some c) (r : Text) :
    (r ++ u).head? = some c ↔ r.head? = some c := by
  cases r with
  | nil => simp [hu]
  | cons d r => simp

/-- A mark that asks of what follows only that it does not start with `m` does not see a text
behind, as long as that does not start with `m` either. -/
theorem Mark.ignores_of_head?_ne {m : Char} {other : Option Char → Char → Bool}
    (hmark : ∀ before c r, mark before c r = (other before c && r.head? != some m))
    (hu : u.head? ≠ some m) (t : Text) : mark.Ignores t u := by
  intro q c r _ before
  have hhead : ((r ++ u).head? != some m) = (r.head? != some m) := by
    rw [Bool.eq_iff_iff, bne_iff_ne, bne_iff_ne, Ne, Ne, head?_append_ne hu]
  rw [hmark, hmark, hhead]

/-- Of this kind is the `=` of a default, which must not be the first of a `==`, -/
theorem Mark.ignores_assign (hu : u.head? ≠ some '=') (t : Text) : Mark.assign.Ignores t u :=
  ignores_of_head?_ne (fun _ _ _ => rfl) hu t

/-- and the colon that must not be the first of a `::`. -/
theorem Mark.ignores_colon (hu : u.head? ≠ some ':') (t : Text) : Mark.colon.Ignores t u :=
  ignores_of_head?_ne (fun _ _ _ => rfl) hu t

/-- In a text without colons there is nothing to look at. This is for texts with a `::` behind them,
where `Mark.ignores_colon` says nothing. -/
theorem Mark.ignores_colon_of_not_mem (h : ':' ∉ t) (u : Text) : Mark.colon.Ignores t u := by
  rintro q c r rfl before
  have hc : (c == ':') = false := by
    rw [beq_eq_false_iff_ne]
    rintro rfl
    simp at h
  unfold Mark.colon
  rw [hc]
  rfl

/-- A separator of scopes is not made up of two texts unless the first ends with a colon and the
second starts with one. -/
theorem Mark.ignores_scope (h : u.head? = some ':' → t.getLast? ≠ some ':') :
    Mark.scope.Ignores t u := by
  rintro q c r rfl before
  unfold Mark.scope
  cases r with
  | cons d r => rfl
  | nil =>
    rw [List.getLast?_concat] at h
    by_cases hu : u.head? = some ':'
    · have hc : (c == ':') = false := by simpa using h hu
      rw [hc]
      rfl
    · simp [hu]

/-- A cut of two texts is a cut of the first or, where that has no mark, of the second. -/
theorem cutFrom_append (hmark : mark.Ignores t u) :
    cutFrom b mark depth before (t ++ u)
      = match cutFrom b mark depth before t with
        | some (p, r) => some (p, r ++ u)
        | none => (cutFrom b mark (b.depthAfter depth t) (t.getLast?.or before) u).map
            fun parts => (t ++ parts.1, parts.2) := by
  induction t generalizing depth before with
  | nil =>
    simp only [List.nil_append, cutFrom, Brackets.depthAfter_nil, List.getLast?_nil,
      Option.none_or]
    cases cutFrom b mark depth before u <;> rfl
  | cons c t ih =>
    have hrest : mark.Ignores t u := fun q d r hq => hmark (c :: q) d r (congrArg (c :: ·) hq)
    have hlast : (c :: t).getLast?.or before = t.getLast?.or (some c) := by
      rw [List.getLast?_cons]
      cases t.getLast? <;> rfl
    rw [List.cons_append, cutFrom, cutFrom, hmark [] c t rfl]
    by_cases hm : depth = 0 ∧ mark before c t = true
    · rw [if_pos hm, if_pos hm]
    · rw [if_neg hm, if_neg hm, ih hrest, hlast, Brackets.depthAfter_cons]
      cases cutFrom b mark (b.step depth c) (some c) t with
      | some parts => rfl
      | none =>
        simp only [Option.map_none, Option.map_map]
        rfl

/-- What a mark looks at before it matters only for the first character. -/
theorem cutFrom_congr_before {before' : Option Char}
    (h : ∀ c r, mark before c r = mark before' c r) :
    cutFrom b mark depth before t = cutFrom b mark depth before' t := by
  cases t with
  | nil => rfl
  | cons c t => rw [cutFrom, cutFrom, h]

/-- A text without marks is not cut. -/
theorem cutFrom_of_forall (h : ∀ q c r, t = q ++ c :: r → ∀ before, mark before c r = false) :
    cutFrom b mark depth before t = none := by
  induction t generalizing depth before with
  | nil => rfl
  | cons c t ih =>
    have hrest : ∀ q d r, t = q ++ d :: r → ∀ before, mark before d r = false :=
      fun q d r ht => h (c :: q) d r (congrArg (c :: ·) ht)
    rw [cutFrom, h [] c t rfl, if_neg (by simp), ih hrest]
    rfl

/-- A text without the character has no mark of it, -/
theorem cutFrom_char_of_not_mem {m : Char} (h : m ∉ t) :
    cutFrom b (.char m) depth before t = none := by
  apply cutFrom_of_forall
  rintro q c r rfl -
  have hc : c ≠ m := by
    rintro rfl
    simp at h
  simpa [Mark.char] using hc

/-- and a text without `::` has no separator of scopes. -/
theorem cutFrom_scope_of_not_infix (h : ¬ "::".toList <:+: t) :
    cutFrom b .scope depth before t = none := by
  apply cutFrom_of_forall
  rintro q c r rfl -
  rw [Bool.eq_false_iff]
  intro hmark
  simp only [Mark.scope, Bool.and_eq_true, beq_iff_eq] at hmark
  obtain ⟨rfl, hhead⟩ := hmark
  obtain ⟨s, rfl⟩ := List.head?_eq_some_iff.1 hhead
  exact h ⟨q, s, by simp⟩

/-- A text without the mark, all brackets closed, and then the mark. -/
theorem cutFrom_char_cons {m : Char} (h : cutFrom b (.char m) depth before t = none)
    (hdepth : b.depthAfter depth t = 0) (r : Text) :
    cutFrom b (.char m) depth before (t ++ m :: r) = some (t, r) := by
  rw [cutFrom_append (Mark.ignores_char m t _), h, hdepth]
  simp [cutFrom, Mark.char]

/-- What is in front of a mark closes its brackets, and is followed by the mark. -/
theorem depth_of_cutFrom (h : cutFrom b mark depth before t = some (p, r)) :
    b.depthAfter depth p = 0 ∧ ∃ c before', mark before' c r = true ∧ t = p ++ c :: r := by
  induction t generalizing depth before p with
  | nil => simp [cutFrom] at h
  | cons c t ih =>
    rw [cutFrom] at h
    by_cases hm : depth = 0 ∧ mark before c t = true
    · rw [if_pos hm, Option.some.injEq, Prod.mk.injEq] at h
      obtain ⟨rfl, rfl⟩ := h
      exact ⟨hm.1, c, before, hm.2, rfl⟩
    · rw [if_neg hm] at h
      obtain ⟨q, hcut, rfl⟩ := map_consFst_eq_some_iff.1 h
      obtain ⟨hdepth, d, before', hd, rfl⟩ := ih hcut
      exact ⟨hdepth, d, before', hd, rfl⟩

/-- A text that closes its brackets is cut where the text behind it is, if anywhere. -/
theorem cut_char_append {m : Char} (ht : cut b (.char m) t = none) (hdepth : b.depthAfter 0 t = 0)
    (hu : cut b (.char m) u = none) : cut b (.char m) (t ++ u) = none := by
  have hfirst : cutFrom b (.char m) 0 none t = none := ht
  have hsecond : cutFrom b (.char m) 0 (t.getLast?.or none) u = none := by
    rw [← hu]
    exact cutFrom_congr_before fun _ _ => rfl
  rw [cut, cutFrom_append (Mark.ignores_char m t u), hfirst, hdepth, hsecond]
  rfl

/-! ## Splitting

A split is a cut, and a split of what is left. So each law is an induction along the parts, with one
of the lemmas about a single cut at the step. -/

/-- The mark is the first character of the separator, and the separator follows it whole. -/
structure Mark.Marks (mark : Mark) (sep : Text) : Prop where
  whole : ∀ before c r, mark before c r = true → ∃ s, c :: r = sep ++ s
  /-- In front of a separator there is no mark that was not there without it. -/
  fresh : ∀ before c r s, mark before c r = true → mark before c (r ++ s) = true

/-- A character is its own separator, -/
theorem Mark.marks_char (m : Char) : (Mark.char m).Marks [m] where
  whole before c r h := by
    obtain rfl : c = m := by simpa [Mark.char] using h
    exact ⟨r, rfl⟩
  fresh _ _ _ _ h := h

/-- and `::` is that of scopes, of which only the first colon is the mark. -/
theorem Mark.marks_scope : Mark.scope.Marks "::".toList where
  whole before c r h := by
    simp only [Mark.scope, Bool.and_eq_true, beq_iff_eq] at h
    obtain ⟨rfl, hhead⟩ := h
    cases r with
    | nil => simp at hhead
    | cons d r =>
      obtain rfl : d = ':' := by simpa using hhead
      exact ⟨r, rfl⟩
  fresh before c r s h := by
    simp only [Mark.scope, Bool.and_eq_true, beq_iff_eq] at h ⊢
    refine ⟨h.1, ?_⟩
    cases r with
    | nil => simp at h
    | cons d r => exact h.2

/-- No mark is found in the beginning of a text in which it is not found. -/
theorem cutFrom_eq_none_of_append {sep : Text} (hmark : mark.Marks sep)
    (h : ∀ q, cutFrom b mark depth before (t ++ u) = some q → t.length ≤ q.1.length) :
    cutFrom b mark depth before t = none := by
  induction t generalizing depth before with
  | nil => rfl
  | cons c t ih =>
    have hm : ¬ (depth = 0 ∧ mark before c t = true) := by
      rintro ⟨hd, hm⟩
      have hcut : cutFrom b mark depth before (c :: t ++ u) = some ([], t ++ u) := by
        rw [List.cons_append, cutFrom, if_pos ⟨hd, hmark.fresh _ _ _ u hm⟩]
      have := h _ hcut
      simp at this
    rw [cutFrom, if_neg hm]
    have hnone : cutFrom b mark (b.step depth c) (some c) t = none := by
      apply ih
      intro q hq
      by_cases hm' : depth = 0 ∧ mark before c (t ++ u) = true
      · have := h ([], t ++ u) (by rw [List.cons_append, cutFrom, if_pos hm'])
        simp at this
      · have := h (consFst c q) (by rw [List.cons_append, cutFrom, if_neg hm', hq]; rfl)
        simpa [consFst] using this
    rw [hnone]
    rfl

/-- The parts of a text, with the separator between them, are the text. -/
theorem intercalate_split {sep : Text} (b : Brackets) (hmark : mark.Marks sep)
    (hlen : sep.length = more + 1) (t : Text) : sep.intercalate (split b mark more t) = t := by
  fun_induction split b mark more t with
  | case1 t => exact List.intercalate_singleton
  | case2 t p r hcut ih =>
    obtain ⟨-, c, before, hm, htext⟩ := depth_of_cutFrom hcut
    obtain ⟨s, hs⟩ := hmark.whole _ _ _ hm
    have hdrop : r.drop more = s := by
      have hr : r.drop more = (c :: r).drop (more + 1) := by rw [List.drop_succ_cons]
      rw [hr, hs, ← hlen, List.drop_left]
    rw [List.intercalate_cons_of_ne_nil (split_ne_nil b mark more _), ih, hdrop, htext, hs,
      List.append_assoc]

/-- The parts in front of the last close their brackets, and no part has a mark. -/
theorem parts_split {sep : Text} (b : Brackets) (hmark : mark.Marks sep) (more : Nat) (t : Text) :
    ∃ init last, split b mark more t = init ++ [last] ∧ cut b mark last = none
      ∧ ∀ p ∈ init, b.depthAfter 0 p = 0 ∧ cut b mark p = none := by
  fun_induction split b mark more t with
  | case1 t hcut => exact ⟨[], t, rfl, hcut, List.forall_mem_nil _⟩
  | case2 t p r hcut ih =>
    obtain ⟨hdepth, c, before, hm, htext⟩ := depth_of_cutFrom hcut
    obtain ⟨init, last, hsplit, hlast, hinit⟩ := ih
    have hp : cut b mark p = none := by
      refine cutFrom_eq_none_of_append (u := c :: r) hmark ?_
      intro q hq
      have hcut' : cutFrom b mark 0 none t = some (p, r) := hcut
      rw [← htext, hcut', Option.some.injEq] at hq
      rw [← hq]
    refine ⟨p :: init, last, ?_, hlast, List.forall_mem_cons.2 ⟨⟨hdepth, hp⟩, hinit⟩⟩
    rw [hsplit]
    rfl

/-- Texts that are put together with a separator are split again where they were. -/
theorem split_intercalate {sep last : Text} {init : List Text} (hlen : sep.length = more + 1)
    (hinit : ∀ p ∈ init, ∀ s, cut b mark (p ++ (sep ++ s)) = some (p, sep.tail ++ s))
    (hlast : cut b mark last = none) :
    split b mark more (sep.intercalate (init ++ [last])) = init ++ [last] := by
  induction init with
  | nil =>
    rw [List.nil_append, List.intercalate_singleton]
    exact split_of_cut_eq_none hlast
  | cons p init ih =>
    obtain ⟨hp, hinit⟩ := List.forall_mem_cons.1 hinit
    have hmore : sep.tail.length = more := by
      rw [List.length_tail]
      omega
    have hdrop : ∀ s : Text, (sep.tail ++ s).drop more = s := by
      intro s
      rw [← hmore, List.drop_left]
    rw [List.cons_append, List.intercalate_cons_of_ne_nil (by simp), List.append_assoc,
      split_of_cut_eq_some (hp _), hdrop, ih hinit]

/-- A text without a mark changes nothing behind another, if it makes no mark there. -/
theorem cut_append_of_plain (hmark : mark.Ignores t u)
    (hu : ∀ depth before, cutFrom b mark depth before u = none) :
    cut b mark (t ++ u) = (cut b mark t).map fun parts => (parts.1, parts.2 ++ u) := by
  rw [cut, cut, cutFrom_append hmark, hu]
  cases cutFrom b mark 0 none t <;> rfl

/-- Such a text goes to the last part. -/
theorem split_append {sep v last : Text} {init : List Text} (hmark : mark.Marks sep)
    (hlen : sep.length = more + 1) (hignores : ∀ t, mark.Ignores t v)
    (hv : ∀ depth before, cutFrom b mark depth before v = none)
    (h : split b mark more t = init ++ [last]) :
    split b mark more (t ++ v) = init ++ [last ++ v] := by
  fun_induction split b mark more t generalizing init with
  | case1 t ht =>
    have hcut := cut_append_of_plain (hignores t) hv
    rw [ht] at hcut
    obtain ⟨rfl, rfl⟩ : init = [] ∧ last = t := by
      cases init with
      | nil => exact ⟨rfl, (List.cons.inj h).1.symm⟩
      | cons p init => simp at h
    exact split_of_cut_eq_none hcut
  | case2 t p r ht ih =>
    have hcut := cut_append_of_plain (hignores t) hv
    rw [ht] at hcut
    obtain ⟨-, c, before, hm, -⟩ := depth_of_cutFrom ht
    obtain ⟨s, hs⟩ := hmark.whole _ _ _ hm
    -- the separator is whole in `t`, so nothing of `v` is dropped with it
    have hmore : more ≤ r.length := by
      have hlength := congrArg List.length hs
      rw [List.length_cons, List.length_append] at hlength
      omega
    obtain ⟨init, rfl⟩ : ∃ ps, init = p :: ps := by
      cases init with
      | nil => exact absurd (List.cons.inj h).2 (split_ne_nil _ _ _ _)
      | cons q ps => exact ⟨ps, by rw [(List.cons.inj h).1]⟩
    rw [split_of_cut_eq_some hcut, List.drop_append_of_le_length hmore]
    exact congrArg (p :: ·) (ih (List.cons.inj h).2)

/-! ## The parenthesis that closes

`closing` counts like a reader, from the inside of an open parenthesis. The counts on beginnings
say the same without a depth, and so do not depend on where the count started. -/

/-- The parenthesis behind `p` closes one that was open in front, with `depth` others open, exactly
if none in `p` did and all that `p` left open or found open are closed. -/
theorem closing_eq_some_iff :
    closing '(' ')' depth (p ++ ')' :: r) = some (p, r)
      ↔ (∀ q, q <+: p → q.count ')' ≤ depth + q.count '(')
        ∧ depth + p.count '(' = p.count ')' := by
  -- a parenthesis in front is one more or one less at the start of what is behind it
  induction p generalizing depth with
  | nil =>
    rw [List.nil_append, closing, if_pos rfl]
    by_cases hd : depth = 0
    · simp [hd]
    · rw [if_neg hd]
      simp [consFst, hd]
  | cons c p ih =>
    have hmap : ∀ d, (closing '(' ')' d (p ++ ')' :: r)).map (consFst c) = some (c :: p, r)
        ↔ closing '(' ')' d (p ++ ')' :: r) = some (p, r) := by
      intro d
      rw [map_consFst_eq_some_iff]
      simp
    have hprefix : (∀ q, q <+: c :: p → q.count ')' ≤ depth + q.count '(')
        ↔ ∀ q, q <+: p → (c :: q).count ')' ≤ depth + (c :: q).count '(' := by
      simp only [List.prefix_cons_iff]
      constructor
      · intro h q hq
        exact h (c :: q) (.inr ⟨q, rfl, hq⟩)
      · rintro h _ (rfl | ⟨q, rfl, hq⟩)
        · simp
        · exact h q hq
    rw [List.cons_append, closing, hprefix]
    by_cases hclose : c = ')'
    · subst hclose
      rw [if_pos rfl]
      simp only [List.count_cons_self, List.count_cons_of_ne (show ')' ≠ '(' by decide)]
      by_cases hd : depth = 0
      · -- the parenthesis in front would be the one that is found
        rw [if_pos hd, hd]
        constructor
        · intro h
          simp at h
        · rintro ⟨h, -⟩
          have := h [] List.nil_prefix
          simp at this
      · rw [if_neg hd, hmap, ih]
        exact and_congr (forall₂_congr fun q _ => by omega) (by omega)
    · rw [if_neg hclose]
      by_cases hopen : c = '('
      · subst hopen
        rw [if_pos rfl, hmap, ih]
        simp only [List.count_cons_self, List.count_cons_of_ne (show '(' ≠ ')' by decide)]
        exact and_congr (forall₂_congr fun q _ => by omega) (by omega)
      · rw [if_neg hopen, hmap, ih]
        simp only [List.count_cons_of_ne hclose, List.count_cons_of_ne hopen]

/-- A parenthesis is closed behind a text that is balanced, and nowhere else. -/
theorem closing_eq_some_iff_balanced :
    closing '(' ')' 0 t = some (p, r) ↔ t = p ++ ')' :: r ∧ Balanced p := by
  have hbalanced : closing '(' ')' 0 (p ++ ')' :: r) = some (p, r) ↔ Balanced p := by
    rw [closing_eq_some_iff]
    simp only [Nat.zero_add]
    exact ⟨fun h => ⟨h.1, h.2⟩, fun h => ⟨h.opened, h.closed⟩⟩
  constructor
  · intro h
    obtain rfl := eq_of_closing h
    exact ⟨rfl, hbalanced.1 h⟩
  · rintro ⟨rfl, h⟩
    exact hbalanced.2 h

/-- So balance can be computed: the closing parenthesis is found at the very end. -/
theorem balanced_iff : Balanced t ↔ closing '(' ')' 0 (t ++ [')']) = some (t, []) := by
  rw [closing_eq_some_iff_balanced]
  exact ⟨fun h => ⟨rfl, h⟩, fun h => h.2⟩

instance (t : Text) : Decidable (Balanced t) := decidable_of_iff' _ balanced_iff

/-- A balanced text is all there is up to the parenthesis that closes. -/
theorem Balanced.append_cons_inj {p q r s : Text} (hp : Balanced p) (hq : Balanced q)
    (h : p ++ ')' :: r = q ++ ')' :: s) : p = q ∧ r = s := by
  have hclosing := closing_eq_some_iff_balanced.2 ⟨h, hq⟩
  have hclosing' := closing_eq_some_iff_balanced.2 ⟨(rfl : p ++ ')' :: r = p ++ ')' :: r), hp⟩
  rw [hclosing', Option.some.injEq, Prod.mk.injEq] at hclosing
  exact hclosing

/-- Where more parentheses are open than are closed, there is no cut. -/
theorem cutFrom_round_of_open (h : ∀ q, q <+: t → q.count ')' < depth + q.count '(') :
    cutFrom .round mark depth before t = none := by
  induction t generalizing depth before with
  | nil => rfl
  | cons c t ih =>
    have hpos : 0 < depth := by simpa using h [] List.nil_prefix
    have hstep : cutFrom .round mark (Brackets.round.step depth c) (some c) t = none := by
      apply ih
      intro q hq
      have hcons := h (c :: q) ((List.prefix_cons_inj c).2 hq)
      by_cases hopen : c = '('
      · subst hopen
        rw [Brackets.round_step_open]
        simp only [List.count_cons_self, List.count_cons_of_ne (show '(' ≠ ')' by decide)] at hcons
        omega
      by_cases hclose : c = ')'
      · subst hclose
        rw [Brackets.round_step_close]
        simp only [List.count_cons_self, List.count_cons_of_ne (show ')' ≠ '(' by decide)] at hcons
        omega
      · rw [Brackets.round_step_of_ne hopen hclose]
        simpa only [List.count_cons_of_ne hopen, List.count_cons_of_ne hclose] using hcons
    rw [cutFrom, if_neg (by omega), hstep]
    rfl

/-- Parentheses around a balanced text keep it from being cut. -/
theorem cut_round_of_balanced {m : Char} (ht : Balanced t) (hopen : '(' ≠ m) :
    cut .round (.char m) ('(' :: (t ++ [')'])) = none
      ∧ Brackets.round.depthAfter 0 ('(' :: (t ++ [')'])) = 0 := by
  have hdepth : Brackets.round.depthAfter 1 t = 1 := by
    have hcount : Brackets.round.depthAfter 1 t + t.count ')' = 1 + t.count '(' :=
      depthAfter_add_count fun q hq => by
        have := ht.opened q hq
        omega
    have := ht.closed
    omega
  have hinside : cutFrom .round (.char m) 1 (some '(') t = none := by
    apply cutFrom_round_of_open
    intro q hq
    have := ht.opened q hq
    omega
  constructor
  · rw [cut, cutFrom, if_neg (by simp [Mark.char, hopen]), Brackets.round_step_open,
      cutFrom_append (Mark.ignores_char m t _), hinside, hdepth, cutFrom,
      if_neg (by simp)]
    rfl
  · rw [Brackets.depthAfter_cons, Brackets.round_step_open, Brackets.depthAfter_append, hdepth]
    rfl

/-! ## Pieces of a text -/

/-- A piece that stands in a text is found in it. -/
theorem breakOn_isSome_of_infix {piece : Text} (h : piece <:+: t) : (breakOn piece t).isSome := by
  obtain ⟨p, r, rfl⟩ := h
  rw [List.append_assoc]
  induction p with
  | nil =>
    have hdrop : dropPiece piece (piece ++ r) = some r := dropPiece_eq_some_iff.2 rfl
    rw [List.nil_append]
    cases htext : piece ++ r with
    | nil => simp [breakOn, (List.append_eq_nil_iff.1 htext).1]
    | cons c s =>
      rw [htext] at hdrop
      rw [breakOn, hdrop]
      rfl
  | cons c p ih =>
    rw [List.cons_append, breakOn]
    cases dropPiece piece (c :: (p ++ (piece ++ r))) with
    | some after => rfl
    | none => simpa using ih

/-- A separator does not begin in a text without its first character. -/
theorem infix_of_infix_append {c : Char} {piece : Text} (h : c :: piece <:+: t ++ u) (ht : c ∉ t) :
    c :: piece <:+: u := by
  obtain ⟨p, r, heq⟩ := h
  rw [List.append_assoc] at heq
  rcases List.append_eq_append_iff.1 heq.symm with ⟨s, -, hs⟩ | ⟨s, rfl, hs⟩
  · exact ⟨s, r, by rw [hs, List.append_assoc]⟩
  · cases s with
    | nil => exact ⟨[], r, by simpa using hs⟩
    | cons d s =>
      obtain ⟨rfl, -⟩ := List.cons.inj hs
      simp at ht

end Overlay.Text
