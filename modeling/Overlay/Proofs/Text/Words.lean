/-
Gaps and words.

A gap is a run of blanks, perhaps empty. What the readers of a statement do with blanks comes
down to three facts. Trimming takes a gap off either end and nothing else (`eq_gap_trim_gap`),
so no character that is not blank is ever lost (`count_trim`). The words of a text are those
in front of a blank and those behind it (`words_append_cons`). And a text with a first word is
a gap, that word, and what has the other words (`exists_of_words_eq_cons`). With these a
statement is taken apart at its words, whatever blanks are between them.

`trim`, `words` and `squeeze` are defined by walks over the characters. Nothing outside of this
file opens these walks: a user says where the gaps are and goes by the lemmas about gaps. That is
also why most lemmas come in pairs, one for a gap in front and one for a gap behind.

The last two parts are about going back. Texts are put together with a separator between them, as
lists are displayed, and what is known of the texts is known of the whole. Squeezing is one case of
this: it puts the words together again, with one space between them, and so it forgets exactly what
the gaps were.
-/
import Mathlib.Data.List.Basic
import Mathlib.Tactic.Ring
import Overlay.Text.Blank

set_option autoImplicit false

namespace Overlay.Text

variable {t u w : Text} {c : Char}

/-- A run of blanks, perhaps empty. -/
def IsGap (t : Text) : Prop := ∀ c ∈ t, isBlank c = true

theorem isGap_nil : IsGap [] := List.forall_mem_nil _

/-- Of a gap each character is blank, so a gap can be taken apart from the front, -/
theorem isGap_cons : IsGap (c :: t) ↔ isBlank c = true ∧ IsGap t := List.forall_mem_cons

/-- and at any place. -/
theorem isGap_append : IsGap (t ++ u) ↔ IsGap t ∧ IsGap u := List.forall_mem_append

/-- The same backwards: target names are looked for from the end. -/
theorem isGap_reverse (h : IsGap t) : IsGap t.reverse :=
  fun c hc => h c (List.mem_reverse.1 hc)

/-- A text is a gap, or it has a first character that is not blank. -/
theorem isGap_or (t : Text) :
    IsGap t ∨ ∃ g c r, IsGap g ∧ isBlank c = false ∧ t = g ++ c :: r := by
  induction t with
  | nil => exact .inl isGap_nil
  | cons d t ih =>
    cases hd : isBlank d with
    | false => exact .inr ⟨[], d, t, isGap_nil, hd, rfl⟩
    | true =>
      rcases ih with hgap | ⟨g, c, r, hg, hc, rfl⟩
      · exact .inl (isGap_cons.2 ⟨hd, hgap⟩)
      · exact .inr ⟨d :: g, c, r, isGap_cons.2 ⟨hd, hg⟩, hc, rfl⟩

/-! ## Trimming

Trimming at the start is a `dropWhile`, and trimming at the end the same on the reversed text. A
character that is not blank stops both, whatever is around it (`trim_append_cons`). -/

/-- A text that neither begins nor ends with a blank is left as it is. -/
theorem trim_eq_self (hfirst : ∀ c, t.head? = some c → isBlank c = false)
    (hlast : ∀ c, t.getLast? = some c → isBlank c = false) : trim t = t := by
  rw [trim, trimStart_eq_self hfirst, trimEnd]
  have hback : t.reverse.dropWhile isBlank = t.reverse := by
    refine trimStart_eq_self ?_
    intro c hc
    rw [List.head?_reverse] at hc
    exact hlast c hc
  rw [hback, List.reverse_reverse]

/-- One blank in front is trimmed away. -/
theorem trim_cons_of_isBlank (h : isBlank c = true) (t : Text) :
    trim (c :: t) = trim t := by
  rw [trim, trimStart, List.dropWhile_cons_of_pos h]
  rfl

/-- One blank behind is trimmed away. Trimming goes over the start first, so a text of nothing but
blanks is a case of its own. -/
theorem trim_append_of_isBlank (h : isBlank c = true) (t : Text) :
    trim (t ++ [c]) = trim t := by
  rw [trim, trim, trimStart, List.dropWhile_append, ← trimStart]
  by_cases hnil : trimStart t = []
  · rw [hnil]
    simp [h]
  · rw [if_neg (by simpa using hnil), trimEnd, List.reverse_append, List.reverse_singleton,
      List.singleton_append, List.dropWhile_cons_of_pos h]
    rfl

/-- Trimming the start drops a gap in front. -/
theorem trimStart_gap_append (hu : IsGap u) (t : Text) : trimStart (u ++ t) = trimStart t := by
  induction u with
  | nil => rfl
  | cons c u ih =>
    obtain ⟨hc, hu⟩ := isGap_cons.1 hu
    unfold trimStart at ih ⊢
    rw [List.cons_append, List.dropWhile_cons_of_pos hc, ih hu]

/-- A character that stops the drop keeps what is behind it. -/
theorem dropWhile_append_cons {stop : Char → Bool} (hc : stop c = false) (t u : Text) :
    (t ++ c :: u).dropWhile stop = t.dropWhile stop ++ c :: u := by
  have hstop : (c :: u).dropWhile stop = c :: u := List.dropWhile_cons_of_neg (by simp [hc])
  rw [List.dropWhile_append, hstop]
  split
  · rename_i hnil
    rw [List.isEmpty_iff.1 hnil, List.nil_append]
  · rfl

/-- And it ends what is taken. -/
theorem takeWhile_append_cons {stop : Char → Bool} (hc : stop c = false) (t u : Text) :
    (t ++ c :: u).takeWhile stop = t.takeWhile stop := by
  have hstop : (c :: u).takeWhile stop = [] := List.takeWhile_cons_of_neg (by simp [hc])
  rw [List.takeWhile_append, hstop]
  split
  · rename_i hall
    rw [List.append_nil]
    exact ((List.takeWhile_prefix stop).eq_of_length hall).symm
  · rfl

/-- Trimming the start of a text with a character that is not blank does not reach beyond that, -/
theorem trimStart_append_cons (hc : isBlank c = false) (t u : Text) :
    trimStart (t ++ c :: u) = trimStart t ++ c :: u :=
  dropWhile_append_cons hc t u

/-- and trimming the end does not reach in front of it. -/
theorem trimEnd_append_cons (hc : isBlank c = false) (t u : Text) :
    trimEnd (t ++ c :: u) = t ++ c :: trimEnd u := by
  have hback : (t ++ c :: u).reverse = u.reverse ++ c :: t.reverse := by simp
  rw [trimEnd, trimEnd, hback, dropWhile_append_cons hc]
  simp

/-- Trimming a text with a character that is not blank does not reach beyond that. -/
theorem trim_append_cons (hc : isBlank c = false) (t u : Text) :
    trim (t ++ c :: u) = trimStart t ++ c :: trimEnd u := by
  rw [trim, trimStart_append_cons hc, trimEnd_append_cons hc]

/-- Trimming does not see a gap in front, -/
theorem trim_gap_append (hu : IsGap u) (t : Text) : trim (u ++ t) = trim t := by
  unfold trim
  rw [trimStart_gap_append hu]

/-- nor one behind. -/
theorem trim_append_gap (hu : IsGap u) (t : Text) : trim (t ++ u) = trim t := by
  induction u generalizing t with
  | nil => rw [List.append_nil]
  | cons c u ih =>
    obtain ⟨hc, hu⟩ := isGap_cons.1 hu
    have hsplit : t ++ c :: u = (t ++ [c]) ++ u := by simp
    rw [hsplit, ih hu, trim_append_of_isBlank hc]

/-- What trimming takes off a text is a gap at either end. -/
theorem eq_gap_trim_gap (t : Text) : ∃ u v, IsGap u ∧ IsGap v ∧ t = u ++ (trim t ++ v) := by
  refine ⟨t.takeWhile isBlank, ((trimStart t).reverse.takeWhile isBlank).reverse, ?_, ?_, ?_⟩
  · intro c hc
    exact List.all_eq_true.1 List.all_takeWhile c hc
  · intro c hc
    exact List.all_eq_true.1 List.all_takeWhile c (List.mem_reverse.1 hc)
  · have hend : trim t ++ ((trimStart t).reverse.takeWhile isBlank).reverse = trimStart t := by
      unfold trim trimEnd
      rw [← List.reverse_append, List.takeWhile_append_dropWhile, List.reverse_reverse]
    rw [hend, takeWhile_append_trimStart]

/-- What does not see a gap at either end of a text does not see trimming. -/
theorem apply_trim {α : Type} {f : Text → α} (hfront : ∀ u, IsGap u → ∀ t, f (u ++ t) = f t)
    (hback : ∀ v, IsGap v → ∀ t, f (t ++ v) = f t) (t : Text) : f (trim t) = f t := by
  obtain ⟨u, v, hu, hv, heq⟩ := eq_gap_trim_gap t
  calc f (trim t) = f (u ++ (trim t ++ v)) := by rw [hfront u hu, hback v hv]
    _ = f t := by rw [← heq]

/-- A trimmed text is trimmed: what is left has no gap at either end. -/
theorem trim_trim (t : Text) : trim (trim t) = trim t :=
  apply_trim (f := trim) (fun _ hu => trim_gap_append hu) (fun _ hv => trim_append_gap hv) t

/-- Of a gap nothing is left, -/
theorem trim_of_isGap (h : IsGap t) : trim t = [] := by
  rw [← List.append_nil t, trim_gap_append h, trim_nil]

/-- and of nothing else. -/
theorem trim_eq_nil_iff : trim t = [] ↔ IsGap t := by
  refine ⟨fun h => ?_, trim_of_isGap⟩
  obtain ⟨u, v, hu, hv, heq⟩ := eq_gap_trim_gap t
  rw [heq, h, List.nil_append]
  exact isGap_append.2 ⟨hu, hv⟩

/-- Trimming makes no text longer. -/
theorem length_trim_le (t : Text) : (trim t).length ≤ t.length := by
  obtain ⟨u, v, -, -, heq⟩ := eq_gap_trim_gap t
  have hlen := congrArg List.length heq
  rw [List.length_append, List.length_append] at hlen
  omega

/-- Trimming loses no character that is not blank. -/
theorem count_trim (hc : isBlank c = false) (t : Text) : (trim t).count c = t.count c := by
  have hgap : ∀ u, IsGap u → u.count c = 0 := by
    intro u hu
    rw [List.count_eq_zero]
    intro hmem
    rw [hu c hmem] at hc
    simp at hc
  obtain ⟨u, v, hu, hv, heq⟩ := eq_gap_trim_gap t
  have hcount := congrArg (List.count c) heq
  rw [List.count_append, List.count_append, hgap u hu, hgap v hv] at hcount
  omega

/-! ## Words

A blank parts the words in front of it from those behind. The two ways to use this are to put words
together (`words_append_cons`, `words_of_forall`) and to take the first one off
(`exists_of_words_eq_cons`). -/

/-- A gap in front has no word, -/
theorem words_gap_append (hu : IsGap u) (t : Text) : words (u ++ t) = words t := by
  induction u with
  | nil => rfl
  | cons c u ih =>
    obtain ⟨hc, hu⟩ := isGap_cons.1 hu
    rw [List.cons_append, words_cons_of_isBlank c _ hc, ih hu]

/-- nor has a gap alone. -/
theorem words_of_isGap (h : IsGap t) : words t = [] := by
  rw [← List.append_nil t, words_gap_append h, words_nil]

/-- A text that does not start with a blank has a word. -/
theorem words_cons_ne_nil (hc : isBlank c = false) (t : Text) : words (c :: t) ≠ [] := by
  rw [words, if_neg (by simp [hc])]
  split
  · simp
  · cases words t <;> simp [extend]

/-- The texts without a word are the gaps. -/
theorem words_eq_nil_iff : words t = [] ↔ IsGap t := by
  refine ⟨fun h => ?_, words_of_isGap⟩
  rcases isGap_or t with hgap | ⟨g, c, r, hg, hc, rfl⟩
  · exact hgap
  · rw [words_gap_append hg] at h
    exact absurd h (words_cons_ne_nil hc r)

/-- The words on both sides of a blank. -/
theorem words_append_cons (hc : isBlank c = true) (t u : Text) :
    words (t ++ c :: u) = words t ++ words u := by
  induction t with
  | nil => exact words_cons_of_isBlank c u hc
  | cons d t ih =>
    rw [List.cons_append, words, words, ih]
    by_cases hd : isBlank d = true
    · rw [if_pos hd, if_pos hd]
    · rw [if_neg hd, if_neg hd]
      cases t with
      | nil => simp [hc]
      | cons e t =>
        by_cases he : isBlank e = true
        · simp [he]
        · have hwords : words (e :: t) ≠ [] := words_cons_ne_nil (by simpa using he) t
          cases hw : words (e :: t) with
          | nil => exact absurd hw hwords
          | cons w ws => simp [he, extend]

/-- A gap behind has no word either. -/
theorem words_append_gap (hu : IsGap u) (t : Text) : words (t ++ u) = words t := by
  cases u with
  | nil => rw [List.append_nil]
  | cons c u =>
    obtain ⟨hc, hu⟩ := isGap_cons.1 hu
    rw [words_append_cons hc, words_of_isGap hu, List.append_nil]

/-- Trimming leaves the words as they are. -/
theorem words_trim (t : Text) : words (trim t) = words t :=
  apply_trim (fun _ hu => words_gap_append hu) (fun _ hv => words_append_gap hv) t

/-- Words on both sides of a gap that is not empty. -/
theorem words_append_gap_append (hu : IsGap u) (hne : u ≠ []) (t r : Text) :
    words (t ++ (u ++ r)) = words t ++ words r := by
  cases u with
  | nil => exact absurd rfl hne
  | cons c u =>
    obtain ⟨hc, hu⟩ := isGap_cons.1 hu
    rw [List.cons_append, words_append_cons hc, words_gap_append hu]

/-- A text without blanks is one word. -/
theorem words_of_forall (hne : w ≠ []) (h : ∀ c ∈ w, isBlank c = false) : words w = [w] := by
  induction w with
  | nil => exact absurd rfl hne
  | cons c w ih =>
    obtain ⟨hc, hw⟩ := List.forall_mem_cons.1 h
    rw [words, if_neg (by simp [hc])]
    cases w with
    | nil => simp
    | cons d w =>
      rw [ih (List.cons_ne_nil d w) hw]
      simp [hw d List.mem_cons_self, extend]

/-- A text of two words holds a blank. -/
theorem any_isBlank_of_words (h : 2 ≤ (words t).length) : t.any isBlank = true := by
  cases hany : t.any isBlank with
  | true => rfl
  | false =>
    rw [List.any_eq_false] at hany
    cases t with
    | nil => simp at h
    | cons c t =>
      rw [words_of_forall (List.cons_ne_nil c t) fun d hd => by simpa using hany d hd] at h
      simp at h

/-- In front of the first word is a gap, and behind it are the other words. -/
theorem exists_of_words_eq_cons {ws : List Text} (h : words t = w :: ws) :
    ∃ g r, IsGap g ∧ t = g ++ (w ++ r) ∧ words r = ws
      ∧ ∀ c, r.head? = some c → isBlank c = true := by
  induction t generalizing w with
  | nil => simp at h
  | cons c t ih =>
    rw [words] at h
    by_cases hc : isBlank c = true
    · rw [if_pos hc] at h
      obtain ⟨g, r, hg, rfl, hr, hhead⟩ := ih h
      exact ⟨c :: g, r, isGap_cons.2 ⟨hc, hg⟩, rfl, hr, hhead⟩
    · rw [if_neg hc] at h
      by_cases hend : t.head?.all isBlank = true
      · rw [if_pos hend] at h
        obtain ⟨rfl, rfl⟩ := List.cons.inj h
        refine ⟨[], t, isGap_nil, rfl, rfl, ?_⟩
        intro d hd
        rw [hd] at hend
        exact hend
      · rw [if_neg hend] at h
        cases hw : words t with
        | nil =>
          -- a word would go on behind `c`, but there is none
          have hgap := words_eq_nil_iff.1 hw
          cases t with
          | nil => simp at hend
          | cons d t => simp [hgap d List.mem_cons_self] at hend
        | cons v vs =>
          rw [hw, extend] at h
          obtain ⟨rfl, rfl⟩ := List.cons.inj h
          obtain ⟨g, r, hg, rfl, hr, hhead⟩ := ih hw
          cases g with
          | nil => exact ⟨[], r, isGap_nil, rfl, hr, hhead⟩
          | cons d g => simp [hg d List.mem_cons_self] at hend

/-- A character at the end that is not blank ends the last word. -/
theorem exists_words_concat (hc : isBlank c = false) (t : Text) :
    ∃ ws w, words (t ++ [c]) = ws ++ [w ++ [c]] := by
  induction t with
  | nil => exact ⟨[], [], by simp [words, hc]⟩
  | cons d t ih =>
    obtain ⟨ws, w, h⟩ := ih
    rw [List.cons_append, words, h]
    by_cases hd : isBlank d = true
    · exact ⟨ws, w, by rw [if_pos hd]⟩
    · rw [if_neg hd]
      by_cases hend : (t ++ [c]).head?.all isBlank = true
      · exact ⟨[d] :: ws, w, by rw [if_pos hend]; rfl⟩
      · rw [if_neg hend]
        cases ws with
        | nil => exact ⟨[], d :: w, rfl⟩
        | cons v vs => exact ⟨(d :: v) :: vs, w, rfl⟩

/-- The words hold every character that is not blank, in order. -/
theorem flatten_words (t : Text) : (words t).flatten = t.filter fun c => !isBlank c := by
  induction t with
  | nil => rfl
  | cons c t ih =>
    rw [words]
    by_cases hc : isBlank c = true
    · rw [if_pos hc, ih, List.filter_cons_of_neg (by simp [hc])]
    · rw [if_neg hc, List.filter_cons_of_pos (by simpa using hc), ← ih]
      by_cases hend : t.head?.all isBlank = true
      · rw [if_pos hend]
        rfl
      · rw [if_neg hend]
        cases words t <;> rfl

/-- So each character that is not blank stands in a word. -/
theorem exists_mem_words (hc : isBlank c = false) (h : c ∈ t) : ∃ w ∈ words t, c ∈ w := by
  apply List.mem_flatten.1
  rw [flatten_words]
  exact List.mem_filter.2 ⟨h, by simp [hc]⟩

/-! ## Texts that are put together

The separator is any text here; the library puts `, `, `::` and a space between texts. -/

/-- The separator stands in front of the last text too. -/
theorem intercalate_concat (sep : Text) {ps : List Text} (h : ps ≠ []) (p : Text) :
    sep.intercalate (ps ++ [p]) = sep.intercalate ps ++ (sep ++ p) := by
  induction ps with
  | nil => exact absurd rfl h
  | cons q ps ih =>
    cases ps with
    | nil => simp
    | cons r ps =>
      rw [List.cons_append, List.intercalate_cons_of_ne_nil (by simp), ih (by simp),
        List.intercalate_cons_of_ne_nil (List.cons_ne_nil r ps)]
      simp only [List.append_assoc]

/-- What is kept by putting one text behind another is kept by putting any number together. -/
theorem intercalate_of_append (holds : Text → Prop) {sep : Text} {ps : List Text}
    (hnil : holds []) (happend : ∀ {t u}, holds t → holds u → holds (t ++ u)) (hsep : holds sep)
    (hps : ∀ p ∈ ps, holds p) : holds (sep.intercalate ps) := by
  induction ps with
  | nil => exact hnil
  | cons p ps ih =>
    obtain ⟨hp, hps⟩ := List.forall_mem_cons.1 hps
    cases ps with
    | nil => rwa [List.intercalate_singleton]
    | cons q ps =>
      rw [List.intercalate_cons_of_ne_nil (List.cons_ne_nil q ps)]
      exact happend (happend hp hsep) (ih hps)

/-- The characters of some texts that are put together. -/
theorem forall_mem_intercalate {holds : Char → Prop} {sep : Text} {ps : List Text}
    (hsep : ∀ c ∈ sep, holds c) (hps : ∀ p ∈ ps, ∀ c ∈ p, holds c) :
    ∀ c ∈ sep.intercalate ps, holds c :=
  intercalate_of_append (fun t => ∀ c ∈ t, holds c) (List.forall_mem_nil _)
    (fun ht hu => List.forall_mem_append.2 ⟨ht, hu⟩) hsep hps

/-- How often a character stands in some texts that are put together. -/
theorem count_intercalate (c : Char) (sep : Text) (ps : List Text) :
    (sep.intercalate ps).count c
      = (ps.map (List.count c)).sum + (ps.length - 1) * sep.count c := by
  induction ps with
  | nil => simp
  | cons p ps ih =>
    cases ps with
    | nil => simp
    | cons q ps =>
      rw [List.intercalate_cons_of_ne_nil (by simp), List.append_assoc, List.count_append,
        List.count_append, ih]
      simp only [List.map_cons, List.sum_cons, List.length_cons, Nat.add_sub_cancel]
      ring

/-- Of two places with the same character, the one in front is told by how often the character
stands before it. -/
theorem append_cons_inj_of_count {a b x y : Text} (h : a ++ c :: x = b ++ c :: y)
    (hcount : a.count c = b.count c) :
    a = b ∧ x = y := by
  rcases List.append_eq_append_iff.1 h with ⟨s, rfl, hs⟩ | ⟨s, rfl, hs⟩
  · cases s with
    | nil => exact ⟨(List.append_nil a).symm, (List.cons.inj hs).2⟩
    | cons d s =>
      obtain ⟨rfl, -⟩ := List.cons.inj hs
      simp at hcount
  · cases s with
    | nil => exact ⟨List.append_nil b, (List.cons.inj hs).2.symm⟩
    | cons d s =>
      obtain ⟨rfl, -⟩ := List.cons.inj hs
      simp at hcount

/-- Trimmed texts with a separator between them are trimmed. -/
theorem trim_intercalate {ps : List Text} (sep : Text)
    (h : ∀ p ∈ ps, p ≠ [] ∧ trim p = p) : trim (sep.intercalate ps) = sep.intercalate ps := by
  apply trim_eq_self
  · -- the first character is that of the first text
    intro c hc
    cases ps with
    | nil => simp at hc
    | cons p ps =>
      obtain ⟨hne, htrim⟩ := h p List.mem_cons_self
      have hhead : p.head? = some c := by
        cases ps with
        | nil => simpa using hc
        | cons q ps =>
          rw [List.intercalate_cons_of_ne_nil (List.cons_ne_nil q ps), List.append_assoc,
            List.head?_append, List.head?_eq_some_head hne] at hc
          rw [List.head?_eq_some_head hne]
          exact hc
      rw [← htrim] at hhead
      exact head?_trim hhead
  · -- and the last one is that of the last text
    intro c hc
    rcases List.eq_nil_or_concat ps with rfl | ⟨ps, p, rfl⟩
    · simp at hc
    · rw [List.concat_eq_append] at h hc
      obtain ⟨hne, htrim⟩ := h p (List.mem_append_right ps List.mem_cons_self)
      have hlast : p.getLast? = some c := by
        cases ps with
        | nil => simpa using hc
        | cons q ps =>
          rw [intercalate_concat sep (List.cons_ne_nil q ps), ← List.append_assoc,
            List.getLast?_append, List.getLast?_eq_some_getLast hne] at hc
          rw [List.getLast?_eq_some_getLast hne]
          exact hc
      rw [← htrim] at hlast
      exact getLast?_trim hlast

/-! ## Squeezing

Every lemma goes by the words: two texts with the same words are squeezed to the same text. -/

/-- Words with single spaces between them are read as they are. -/
theorem words_intercalate {ws : List Text}
    (h : ∀ w ∈ ws, w ≠ [] ∧ ∀ c ∈ w, isBlank c = false) : words ([' '].intercalate ws) = ws := by
  induction ws with
  | nil => rfl
  | cons w ws ih =>
    obtain ⟨⟨hne, hw⟩, hws⟩ := List.forall_mem_cons.1 h
    cases ws with
    | nil =>
      rw [List.intercalate_singleton]
      exact words_of_forall hne hw
    | cons v ws =>
      rw [List.intercalate_cons_of_ne_nil (List.cons_ne_nil v ws), List.append_assoc,
        List.singleton_append, words_append_cons rfl, words_of_forall hne hw, ih hws]
      rfl

/-- Squeezing keeps the words, -/
theorem words_squeeze (t : Text) : words (squeeze t) = words t :=
  words_intercalate fun _ hw => mem_words hw

/-- so it does nothing the second time. -/
theorem squeeze_squeeze (t : Text) : squeeze (squeeze t) = squeeze t := by
  rw [squeeze, words_squeeze]
  rfl

/-- It does not see a gap in front, -/
theorem squeeze_gap_append (hu : IsGap u) (t : Text) : squeeze (u ++ t) = squeeze t := by
  rw [squeeze, words_gap_append hu]
  rfl

/-- nor one behind, -/
theorem squeeze_append_gap (hu : IsGap u) (t : Text) : squeeze (t ++ u) = squeeze t := by
  rw [squeeze, words_append_gap hu]
  rfl

/-- and leaves nothing of a gap alone. -/
theorem squeeze_eq_nil_iff : squeeze t = [] ↔ IsGap t := by
  rw [← words_eq_nil_iff]
  constructor
  · intro h
    rw [← words_squeeze, h]
    rfl
  · intro h
    rw [squeeze, h]
    rfl

/-- What is squeezed is trimmed, since words begin and end with no blank. -/
theorem trim_squeeze (t : Text) : trim (squeeze t) = squeeze t := by
  apply trim_intercalate
  intro w hw
  obtain ⟨hne, hblank⟩ := mem_words hw
  refine ⟨hne, trim_eq_self ?_ ?_⟩
  · exact fun c hc => hblank c (List.mem_of_head? hc)
  · exact fun c hc => hblank c (List.mem_of_getLast? hc)

/-- Squeezing only drops and adds blanks. -/
theorem filter_squeeze {keep : Char → Bool} (h : ∀ c, isBlank c = true → keep c = false)
    (t : Text) : (squeeze t).filter keep = t.filter keep := by
  have hjoin : ∀ ws : List Text,
      ([' '].intercalate ws).filter keep = ws.flatten.filter keep := by
    intro ws
    induction ws with
    | nil => rfl
    | cons w ws ih =>
      cases ws with
      | nil => simp
      | cons v ws =>
        have hspace : keep ' ' = false := h ' ' rfl
        rw [List.intercalate_cons_of_ne_nil (List.cons_ne_nil v ws), List.append_assoc,
          List.filter_append, List.filter_append, ih, List.flatten_cons, List.filter_append]
        simp [hspace]
  have hkeep : (t.filter fun c => !isBlank c).filter keep = t.filter keep := by
    rw [List.filter_filter]
    apply List.filter_congr
    intro c _
    cases hc : isBlank c with
    | false => simp
    | true => simp [h c hc]
  rw [squeeze, hjoin, flatten_words, hkeep]

/-- So it keeps the number of any character that is not blank. -/
theorem count_squeeze {c : Char} (hc : isBlank c = false) (t : Text) :
    (squeeze t).count c = t.count c := by
  have hkeep : ∀ d, isBlank d = true → (d == c) = false := by
    intro d hd
    rw [beq_eq_false_iff_ne]
    rintro rfl
    rw [hc] at hd
    simp at hd
  rw [List.count_eq_countP, List.count_eq_countP, List.countP_eq_length_filter,
    List.countP_eq_length_filter, filter_squeeze hkeep]

end Overlay.Text
