/-
The carrier of all text, and what counts as blank in it.

Text is read as a list of characters: every reader of the library walks it from
the left, and every law about a reader is an induction over it. Strings appear
only where text enters or leaves the program.

A character is blank when it has the Unicode property White_Space. There are 25
of them, so they are listed; the zero width marks (U+200B, U+FEFF) are not among
them. Three operations rest on the class: `trim` drops the blanks at both ends,
`words` cuts at every run of blanks, and `squeeze` puts single spaces where the
runs were. The lemmas beside them say what is gone: a trimmed text starts and ends
with no blank, and no word holds one.
-/

set_option autoImplicit false

namespace Overlay

/-- Text, as the characters it consists of. -/
abbrev Text := List Char

namespace Text

/-! ## The class -/

/-- The characters with the property White_Space. -/
def isBlank (c : Char) : Bool :=
  let n := c.toNat
  (0x09 ≤ n && n ≤ 0x0D) || n == 0x20 || n == 0x85 || n == 0xA0 || n == 0x1680
    || (0x2000 ≤ n && n ≤ 0x200A) || n == 0x2028 || n == 0x2029 || n == 0x202F
    || n == 0x205F || n == 0x3000

/-- The blanks of the ASCII range that core knows are blank here too. -/
theorem isBlank_of_isWhitespace (c : Char) (h : c.isWhitespace = true) : isBlank c = true := by
  simp only [Char.isWhitespace, Bool.or_eq_true, decide_eq_true_eq] at h
  rcases h with ((rfl | rfl) | rfl) | rfl <;> decide

/-! ## Both ends -/

/-- The text from its first character on that is not blank. -/
def trimStart (t : Text) : Text := t.dropWhile isBlank

/-- The text up to its last character that is not blank. -/
def trimEnd (t : Text) : Text := (t.reverse.dropWhile isBlank).reverse

def trim (t : Text) : Text := trimEnd (trimStart t)

@[simp] theorem trimStart_nil : trimStart [] = [] := rfl

@[simp] theorem trimEnd_nil : trimEnd [] = [] := rfl

@[simp] theorem trim_nil : trim [] = [] := rfl

/-- Trimming the start never makes a text longer, which is what readers recurse on. -/
theorem length_trimStart_le (t : Text) : (trimStart t).length ≤ t.length :=
  (List.dropWhile_sublist isBlank).length_le

/-- The blanks that `trimStart` drops and the text that it keeps make up the whole. -/
theorem takeWhile_append_trimStart (t : Text) : t.takeWhile isBlank ++ trimStart t = t :=
  List.takeWhile_append_dropWhile

theorem trimStart_eq_self {t : Text} (h : ∀ c, t.head? = some c → isBlank c = false) :
    trimStart t = t := by
  cases t with
  | nil => rfl
  | cons c r =>
    have hc : isBlank c = false := h c rfl
    simp [trimStart, hc]

/-- After trimming the start no blank comes first. -/
theorem head?_trimStart {t : Text} {c : Char} (h : (trimStart t).head? = some c) :
    isBlank c = false := by
  have hd := List.head?_dropWhile_not isBlank t
  rw [show t.dropWhile isBlank = trimStart t from rfl, h] at hd
  simpa using hd

/-- A trimmed text does not end with a blank, -/
theorem getLast?_trim {t : Text} {c : Char} (h : (trim t).getLast? = some c) :
    isBlank c = false := by
  rw [trim, trimEnd, List.getLast?_reverse] at h
  exact head?_trimStart h

/-- Trimming the end keeps what comes first, as long as anything is kept. -/
theorem head?_trimEnd {t : Text} {c : Char} (h : (trimEnd t).head? = some c) :
    t.head? = some c := by
  have hparts : trimEnd t ++ (t.reverse.takeWhile isBlank).reverse = t := by
    rw [trimEnd, ← List.reverse_append, List.takeWhile_append_dropWhile, List.reverse_reverse]
  rw [← hparts, List.head?_append, h]
  rfl

/-- nor does it begin with one. -/
theorem head?_trim {t : Text} {c : Char} (h : (trim t).head? = some c) : isBlank c = false :=
  head?_trimStart (head?_trimEnd h)

/-! ## Words -/

/-- Puts a character in front of the first word. -/
def extend (c : Char) : List Text → List Text
  | [] => [[c]]
  | w :: ws => (c :: w) :: ws

/-- The maximal runs of characters that are not blank, in order. A character opens a
word of its own when a blank, or nothing, follows it. -/
def words : Text → List Text
  | [] => []
  | c :: r =>
    if isBlank c then words r
    else if r.head?.all isBlank then [c] :: words r
    else extend c (words r)

/-- The words of a text with single spaces between them. -/
def squeeze (t : Text) : Text := [' '].intercalate (words t)

@[simp] theorem words_nil : words [] = [] := rfl

theorem words_cons_of_isBlank (c : Char) (r : Text) (h : isBlank c = true) :
    words (c :: r) = words r := by
  simp [words, h]

/-- Words are not empty and hold no blank. -/
theorem mem_words {t w : Text} (h : w ∈ words t) : w ≠ [] ∧ ∀ c ∈ w, isBlank c = false := by
  induction t generalizing w with
  | nil => simp at h
  | cons c r ih =>
    rw [words] at h
    split at h
    · exact ih h
    · rename_i hc
      have hc : isBlank c = false := by simpa using hc
      split at h
      · rcases List.mem_cons.1 h with rfl | h
        · simp [hc]
        · exact ih h
      · cases hw : words r with
        | nil =>
          rw [hw, extend, List.mem_singleton] at h
          subst h
          simp [hc]
        | cons v vs =>
          rw [hw, extend] at h
          rcases List.mem_cons.1 h with rfl | h
          · have hv := ih (hw ▸ List.mem_cons_self)
            refine ⟨by simp, ?_⟩
            intro x hx
            rcases List.mem_cons.1 hx with rfl | hx
            · exact hc
            · exact hv.2 x hx
          · exact ih (hw ▸ List.mem_cons_of_mem v h)

end Text

end Overlay
