/-
Identifiers.

An identifier is a letter or an underscore, and then letters, digits and underscores, all of them
ASCII. The readers need to know three things of one. Nothing that structures a text stands in it: no
blank, no bracket, no colon, no quote. It is cut off as a whole, exactly where a character follows
that cannot go on with it (`cutIdentifier_eq_some_iff`). And so text that is added further behind
does not change where it ends, unless nothing was there before (`cutIdentifier_append`).

The ranges of the characters are looked at in one place, `isBlank_of_isIdentChar`. All else goes by
the kinds of characters, so it would stay as it is if identifiers could hold more.
-/
import Overlay.Proofs.Text.Brackets

set_option autoImplicit false

namespace Overlay.Text

variable {t p r : Text} {c : Char}

/-! ## What stands in an identifier -/

/-- No blank is an identifier character: the blanks of ASCII are below the digits, and all other
blanks are beyond it. -/
theorem isBlank_of_isIdentChar (h : isIdentChar c = true) :
    isBlank c = false := by
  delta isIdentChar isLetter Char.isAlpha Char.isUpper Char.isLower Char.isDigit at h
  simp only [Bool.or_eq_true, Bool.and_eq_true, decide_eq_true_eq, beq_iff_eq,
    UInt32.le_iff_toNat_le, ge_iff_le] at h
  have hc : c.toNat = c.val.toNat := rfl
  rw [Bool.eq_false_iff]
  intro hblank
  simp only [isBlank, Bool.or_eq_true, Bool.and_eq_true, decide_eq_true_eq,
    beq_iff_eq] at hblank
  rcases h with ((h | h) | rfl) | h
  · simp at h
    omega
  · simp at h
    omega
  · simp at hblank
  · simp at h
    omega

/-- The same from the side of the blank. -/
theorem isIdentChar_of_isBlank (h : isBlank c = true) : isIdentChar c = false := by
  rw [Bool.eq_false_iff]
  intro hident
  rw [isBlank_of_isIdentChar hident] at h
  simp at h

/-- An identifier holds nothing else. -/
theorem isIdentChar_of_mem (h : isIdentifier t = true) (hc : c ∈ t) : isIdentChar c = true := by
  cases t with
  | nil => simp at hc
  | cons d t =>
    simp only [isIdentifier, Bool.and_eq_true, List.all_eq_true] at h
    rcases List.mem_cons.1 hc with rfl | hc
    · exact isIdentChar_of_isLetter _ h.1
    · exact h.2 c hc

/-- So whatever is no identifier character is not in one. -/
theorem not_mem_of_isIdentifier (h : isIdentifier t = true) (hc : isIdentChar c = false) :
    c ∉ t := by
  intro hmem
  rw [isIdentChar_of_mem h hmem] at hc
  simp at hc

/-- In particular no blank is. -/
theorem isBlank_of_mem_identifier (h : isIdentifier t = true) (hc : c ∈ t) : isBlank c = false :=
  isBlank_of_isIdentChar (isIdentChar_of_mem h hc)

/-- And no bracket of a scope. -/
theorem isBracket_of_isIdentChar (h : isIdentChar c = true) :
    Brackets.angled.isBracket c = false :=
  Brackets.isBracket_eq_false h rfl rfl

/-- An identifier opens and closes nothing. -/
theorem depthAfter_of_isIdentifier (h : isIdentifier t = true) (depth : Nat) :
    Brackets.angled.depthAfter depth t = depth :=
  Brackets.depthAfter_of_forall
    (fun _ hc => isBracket_of_isIdentChar (isIdentChar_of_mem h hc)) depth

/-! ## Where an identifier ends -/

/-- A text of characters that count is all that is taken in front of one that does not. -/
theorem span_append {counts : Char → Bool} (hp : ∀ c ∈ p, counts c = true)
    (hr : ∀ c, r.head? = some c → counts c = false) :
    (p ++ r).takeWhile counts = p ∧ (p ++ r).dropWhile counts = r := by
  rw [List.takeWhile_append_of_pos hp, List.dropWhile_append_of_pos hp]
  cases r with
  | nil => exact ⟨List.append_nil p, rfl⟩
  | cons c r =>
    have hc : ¬ counts c = true := by simp [hr c rfl]
    rw [List.takeWhile_cons_of_neg hc, List.dropWhile_cons_of_neg hc, List.append_nil]
    exact ⟨rfl, rfl⟩

/-- The identifier in front of a text is the one that what follows does not go on with. -/
theorem cutIdentifier_eq_some_iff :
    cutIdentifier t = some (p, r)
      ↔ t = p ++ r ∧ isIdentifier p = true ∧ ∀ c, r.head? = some c → isIdentChar c = false := by
  constructor
  · intro h
    refine ⟨eq_of_cutIdentifier h, isIdentifier_of_cutIdentifier h, ?_⟩
    cases t with
    | nil => simp [cutIdentifier] at h
    | cons c t =>
      rw [cutIdentifier] at h
      split at h
      · simp only [Option.some.injEq, Prod.mk.injEq] at h
        obtain ⟨-, rfl⟩ := h
        intro d hd
        have hnot := List.head?_dropWhile_not isIdentChar t
        rw [hd] at hnot
        simpa using hnot
      · simp at h
  · rintro ⟨rfl, hp, hr⟩
    cases p with
    | nil => simp [isIdentifier] at hp
    | cons c p =>
      simp only [isIdentifier, Bool.and_eq_true, List.all_eq_true] at hp
      obtain ⟨htake, hdrop⟩ := span_append hp.2 hr
      rw [List.cons_append, cutIdentifier, if_pos hp.1, htake, hdrop]

/-- No identifier is cut off where no letter stands. -/
theorem cutIdentifier_eq_none_iff :
    cutIdentifier t = none ↔ ∀ c, t.head? = some c → isLetter c = false := by
  cases t <;> simp [cutIdentifier]

/-- Text that is added behind the rest does not go on with the identifier. Where there was no rest
it could, so the rest must not be empty. -/
theorem cutIdentifier_append (h : cutIdentifier t = some (p, r)) (hr : r ≠ []) (more : Text) :
    cutIdentifier (t ++ more) = some (p, r ++ more) := by
  obtain ⟨rfl, hp, hstop⟩ := cutIdentifier_eq_some_iff.1 h
  refine cutIdentifier_eq_some_iff.2 ⟨List.append_assoc p r more, hp, ?_⟩
  cases r with
  | nil => exact absurd rfl hr
  | cons d r => exact hstop

end Overlay.Text
