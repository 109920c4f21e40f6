/-
Where a word ends.

There are two kinds of words. The words of a text stand between blanks, and what is behind one of
them starts with a blank, or is nothing (`StartsBlank`). A keyword such as `operator` is looked for
inside of these as well. It counts where no character on either side of it can be part of a word
(`HasWord`). A blank ends a word of either kind, so a word of the second kind is part of one of the
first (`HasWord.exists_mem_words`).

Both notions say something of the text around a word and nothing of the word. That is what a reader
has before it: it knows the word, and the text behind it is whatever follows.
-/
import Overlay.Proofs.Text.Identifier
import Overlay.Proofs.Text.Words
import Overlay.Text.WordChar

set_option autoImplicit false

namespace Overlay.Text

variable {t u v w : Text} {c : Char}

/-! ## Words between blanks

Behind a word stands a blank, if anything does. A text that starts so can be put behind a word and
leaves it as it is. -/

/-- The first character is blank, if there is one. A word that stands in front ends there. -/
def StartsBlank (t : Text) : Prop := ∀ c, t.head? = some c → isBlank c = true

theorem startsBlank_nil : StartsBlank [] := by
  intro c hc
  simp at hc

theorem startsBlank_cons (hc : isBlank c = true) (t : Text) : StartsBlank (c :: t) := by
  intro d hd
  obtain rfl : c = d := by simpa using hd
  exact hc

theorem startsBlank_of_append (h : StartsBlank (t ++ u)) : StartsBlank t := by
  cases t with
  | nil => exact startsBlank_nil
  | cons c t => exact startsBlank_cons (h c rfl) t

/-- Only the first character counts, so what follows is no matter, unless there was nothing. -/
theorem startsBlank_append_of_ne_nil (h : StartsBlank t) (hne : t ≠ []) (u : Text) :
    StartsBlank (t ++ u) := by
  cases t with
  | nil => exact absurd rfl hne
  | cons c t => exact startsBlank_cons (h c rfl) (t ++ u)

/-- No character that is not blank comes first. -/
theorem head?_ne_of_startsBlank (h : StartsBlank t) (hc : isBlank c = false) :
    t.head? ≠ some c := by
  intro hhead
  rw [h c hhead] at hc
  simp at hc

theorem startsBlank_append (hu : StartsBlank u) (hv : StartsBlank v) : StartsBlank (u ++ v) := by
  cases u with
  | nil => exact hv
  | cons c u => exact startsBlank_cons (hu c rfl) (u ++ v)

/-- A gap is all blank, so it starts so if it is not empty. -/
theorem startsBlank_of_isGap (h : IsGap t) : StartsBlank t :=
  fun c hc => h c (List.mem_of_head? hc)

theorem startsBlank_gap_append (hu : IsGap u) (hne : u ≠ []) (t : Text) :
    StartsBlank (u ++ t) :=
  startsBlank_append_of_ne_nil (startsBlank_of_isGap hu) hne t

/-- Words are told apart by a blank between them. -/
theorem words_append_of_startsBlank (hu : StartsBlank u) (t : Text) :
    words (t ++ u) = words t ++ words u := by
  cases u with
  | nil => rw [List.append_nil, words_nil, List.append_nil]
  | cons c u =>
    have hc := hu c rfl
    rw [words_append_cons hc, words_cons_of_isBlank c u hc]

/-- A text that is no gap has a first word. -/
theorem exists_word (h : ¬ IsGap t) :
    ∃ g w r, t = g ++ (w ++ r) ∧ IsGap g ∧ w ≠ [] ∧ (∀ c ∈ w, isBlank c = false)
      ∧ StartsBlank r := by
  cases hw : words t with
  | nil => exact absurd (words_eq_nil_iff.1 hw) h
  | cons w ws =>
    obtain ⟨hne, hblank⟩ := mem_words (hw ▸ List.mem_cons_self : w ∈ words t)
    obtain ⟨g, r, hg, htext, -, hr⟩ := exists_of_words_eq_cons hw
    exact ⟨g, w, r, htext, hg, hne, hblank, hr⟩

/-- A word in front of a text that starts with a blank is kept by trimming. -/
theorem trim_word_append (hne : w ≠ []) (hw : ∀ c ∈ w, isBlank c = false)
    (ht : StartsBlank t) :
    ∃ u, trim (w ++ t) = w ++ (u ++ trim t) ∧ IsGap u ∧ StartsBlank (u ++ trim t) := by
  obtain ⟨u, v, hu, hv, heq⟩ := eq_gap_trim_gap t
  have hstart : ∀ c, w.head? = some c → isBlank c = false :=
    fun c hc => hw c (List.mem_of_head? hc)
  have hhead : ∀ t c, (w ++ t).head? = some c → isBlank c = false := by
    intro t c hc
    rw [List.head?_append, List.head?_eq_some_head hne] at hc
    exact hstart c ((List.head?_eq_some_head hne).trans hc)
  by_cases hnil : trim t = []
  · refine ⟨[], ?_, isGap_nil, ?_⟩
    · rw [trim_append_gap (trim_eq_nil_iff.1 hnil), hnil, List.append_nil, List.append_nil]
      exact trim_eq_self hstart fun c hc => hw c (List.mem_of_getLast? hc)
    · rw [hnil]
      exact startsBlank_nil
  · refine ⟨u, ?_, hu, ?_⟩
    · -- the word is in front, so only the end of the text is trimmed
      have htext : w ++ t = w ++ (u ++ trim t) ++ v := by
        rw [List.append_assoc, List.append_assoc, ← heq]
      rw [htext, trim_append_gap hv]
      apply trim_eq_self (hhead _)
      intro c hc
      rw [List.getLast?_append, List.getLast?_append,
        List.getLast?_eq_some_getLast hnil] at hc
      apply getLast?_trim (t := t)
      rw [List.getLast?_eq_some_getLast hnil]
      exact hc
    · rw [heq, ← List.append_assoc] at ht
      exact startsBlank_of_append ht

/-- A text without blanks in front of another belongs to the first word. -/
theorem prefix_of_words_append (hne : w ≠ []) (hw : ∀ c ∈ w, isBlank c = false) {first : Text}
    (h : (words (w ++ t)).head? = some first) : w <+: first := by
  cases hwords : words (w ++ t) with
  | nil => simp [hwords] at h
  | cons v ws =>
    obtain rfl : v = first := by simpa [hwords] using h
    obtain ⟨g, r, hg, htext, -, hr⟩ := exists_of_words_eq_cons hwords
    -- the text starts with a character that is not blank, so no gap is in front of its words
    have hnil : g = [] := by
      cases g with
      | nil => rfl
      | cons c g =>
        cases w with
        | nil => exact absurd rfl hne
        | cons d w =>
          obtain ⟨rfl, -⟩ := List.cons.inj htext
          have hblank := hg d List.mem_cons_self
          rw [hw d List.mem_cons_self] at hblank
          simp at hblank
    rw [hnil, List.nil_append] at htext
    rcases List.append_eq_append_iff.1 htext with ⟨s, rfl, -⟩ | ⟨s, rfl, rfl⟩
    · exact List.prefix_append w s
    · cases s with
      | nil => simp
      | cons c s =>
        have hblank := hr c rfl
        rw [hw c (by simp)] at hblank
        simp at hblank

/-! ## Words between boundaries

Such a word stands at the beginning of a text or behind something that is not part of a word, and
the same at its end. A search looks back at what it has passed, which it has backwards, and ahead at
what is left. So one notion does for both sides: `endsWord`. -/

/-- A blank is no word character, so a word ends in front of it. -/
theorem isWordChar_of_isBlank (h : isBlank c = true) : isWordChar c = false := by
  -- the blanks beyond ASCII are looked up in the ranges one by one
  have hranges : ∀ n ∈ [0x85, 0xA0, 0x1680, 0x2000, 0x2001, 0x2002, 0x2003, 0x2004, 0x2005,
      0x2006, 0x2007, 0x2008, 0x2009, 0x200A, 0x2028, 0x2029, 0x202F, 0x205F, 0x3000],
      wordRanges.any (fun range => range.1 ≤ n && n ≤ range.2) = false := by
    decide +kernel
  unfold isWordChar
  by_cases hascii : c.toNat < 0x80
  · rw [if_pos hascii, isIdentChar_of_isBlank h]
  · rw [if_neg hascii]
    apply hranges
    simp only [isBlank, Bool.or_eq_true, Bool.and_eq_true, decide_eq_true_eq, beq_iff_eq] at h
    simp only [List.mem_cons, List.not_mem_nil, or_false]
    omega

/-- A word ends in front of a blank. -/
theorem endsWord_cons_of_isBlank (h : isBlank c = true) (t : Text) :
    endsWord (c :: t) = true := by
  rw [endsWord, isWordChar_of_isBlank h]
  rfl

/-- Words of the second kind end as well where a text starts with a blank. -/
theorem endsWord_of_startsBlank (h : StartsBlank t) : endsWord t = true := by
  cases t with
  | nil => rfl
  | cons c t => exact endsWord_cons_of_isBlank (h c rfl) t

/-- The word `w` stands in a text, with no word character on either side. -/
def HasWord (w t : Text) : Prop :=
  ∃ p r, t = p ++ (w ++ r) ∧ endsWord p.reverse = true ∧ endsWord r = true

/-- Where nothing of two texts goes on with the word, nothing of both does. -/
theorem endsWord_append (ht : endsWord t = true) (hu : endsWord u = true) :
    endsWord (t ++ u) = true := by
  cases t with
  | nil => exact hu
  | cons d t => exact ht

/-- What a word ends in front of, it ends in front of without the end of it. -/
theorem endsWord_of_append (h : endsWord (t ++ u) = true) : endsWord t = true := by
  cases t with
  | nil => rfl
  | cons d t => exact h

/-- A word without blanks is on one side of a blank. -/
theorem hasWord_append_cons_iff (hc : isBlank c = true) (hne : w ≠ [])
    (hw : ∀ d ∈ w, isBlank d = false) :
    HasWord w (t ++ c :: u) ↔ HasWord w t ∨ HasWord w u := by
  constructor
  · rintro ⟨p, r, htext, hp, hr⟩
    have hblank : c ∉ w := by
      intro hmem
      rw [hw c hmem] at hc
      simp at hc
    rcases List.append_eq_append_iff.1 htext with ⟨p', rfl, hu⟩ | ⟨s, rfl, hs⟩
    · cases p' with
      | nil =>
        -- the word would start with the blank
        cases w with
        | nil => exact absurd rfl hne
        | cons d w =>
          obtain ⟨rfl, -⟩ := List.cons.inj hu
          exact absurd List.mem_cons_self hblank
      | cons d p' =>
        obtain ⟨rfl, rfl⟩ := List.cons.inj hu
        refine .inr ⟨p', r, rfl, ?_, hr⟩
        rw [List.reverse_append, List.reverse_cons, List.append_assoc] at hp
        exact endsWord_of_append hp
    · -- it starts in front of the blank, and cannot go on behind it
      rcases List.append_eq_append_iff.1 hs with ⟨r', rfl, hr'⟩ | ⟨w', rfl, hw'⟩
      · refine .inl ⟨p, r', rfl, hp, ?_⟩
        rw [hr'] at hr
        exact endsWord_of_append hr
      · cases w' with
        | nil => exact .inl ⟨p, [], by simp, hp, rfl⟩
        | cons d w' =>
          obtain ⟨rfl, -⟩ := List.cons.inj hw'
          simp at hblank
  · rintro (⟨p, r, rfl, hp, hr⟩ | ⟨p, r, rfl, hp, hr⟩)
    · refine ⟨p, r ++ c :: u, by simp, hp, ?_⟩
      exact endsWord_append hr (endsWord_cons_of_isBlank hc u)
    · refine ⟨t ++ c :: p, r, by simp, ?_, hr⟩
      rw [List.reverse_append, List.reverse_cons, List.append_assoc]
      exact endsWord_append hp (endsWord_cons_of_isBlank hc _)

/-- A word in a text is a word in the text with more behind it, unless the last word goes on
there. -/
theorem HasWord.append (h : HasWord w t) (hu : endsWord u = true) : HasWord w (t ++ u) := by
  obtain ⟨p, r, rfl, hp, hr⟩ := h
  exact ⟨p, r ++ u, by simp, hp, endsWord_append hr hu⟩

/-- A word without blanks stands in one of the words that the blanks make. -/
theorem HasWord.exists_mem_words (h : HasWord w t) (hne : w ≠ [])
    (hw : ∀ c ∈ w, isBlank c = false) : ∃ x ∈ words t, HasWord w x := by
  induction hn : t.length using Nat.strongRecOn generalizing t with
  | ind n ih =>
    by_cases hblank : ∃ c ∈ t, isBlank c = true
    · obtain ⟨c, hmem, hc⟩ := hblank
      obtain ⟨a, b, rfl⟩ := List.append_of_mem hmem
      rw [words_append_cons hc]
      rw [List.length_append, List.length_cons] at hn
      rcases (hasWord_append_cons_iff hc hne hw).1 h with ha | hb
      · obtain ⟨x, hx, hword⟩ := ih a.length (by omega) ha rfl
        exact ⟨x, List.mem_append_left _ hx, hword⟩
      · obtain ⟨x, hx, hword⟩ := ih b.length (by omega) hb rfl
        exact ⟨x, List.mem_append_right _ hx, hword⟩
    · have hplain : ∀ c ∈ t, isBlank c = false := by
        intro c hc
        rw [Bool.eq_false_iff]
        exact fun hblank' => hblank ⟨c, hc, hblank'⟩
      have htne : t ≠ [] := by
        rintro rfl
        obtain ⟨p, r, heq, -⟩ := h
        simp [hne] at heq
      exact ⟨t, by simp [words_of_forall htne hplain], h⟩

/-- A text of word characters is a word only as a whole. -/
theorem HasWord.eq_of_forall (h : HasWord w t) (ht : ∀ c ∈ t, isWordChar c = true) : t = w := by
  obtain ⟨p, r, rfl, hp, hr⟩ := h
  have hnil : ∀ {s : Text}, endsWord s = true → (∀ c ∈ s, isWordChar c = true) → s = [] := by
    intro s hs hall
    cases s with
    | nil => rfl
    | cons c s => simp [endsWord, hall c List.mem_cons_self] at hs
  have hp' : p.reverse = [] := hnil hp fun c hc => ht c (by simp [List.mem_reverse.1 hc])
  have hr' : r = [] := hnil hr fun c hc => ht c (by simp [hc])
  simp [List.reverse_eq_nil_iff.1 hp', hr']

end Overlay.Text
