/-
The order of texts, told by their bytes.

Dictionaries are sorted by the characters of their keys, one after the other. A program that
keeps its texts in UTF-8 sorts them by their bytes. The two orders are the same
(`utf8_lt_iff`).

For one character the bytes are the digits of its number in base 64, the highest first, and the
first of them carries a mark for how many follow (`encode_eq`). The marks leave a range of first
bytes to each length, and the ranges ascend. So of two characters the smaller one has the
smaller byte at the first place where their bytes differ: at the first byte if the lengths
differ, and else at the highest digit where the numbers do. Both have that place, so whatever
follows the characters does not matter (`Precedes`).
-/
import Mathlib.Algebra.Group.Nat.Defs
import Overlay.Text.Blank

set_option autoImplicit false

namespace Overlay.Text

/-- The bytes of a text in UTF-8. -/
def utf8 (t : Text) : List UInt8 := t.flatMap String.utf8EncodeChar

namespace Utf8

variable {m n : Nat} {c d : Char}

/-! ## Lists that differ

The bytes of a text are those of its characters, one after the other. So two characters have to be
told apart with something behind them that is not known. -/

/-- The first list comes before the second one, whatever follows the two: they differ at a place
that both have. -/
def Precedes (xs ys : List UInt8) : Prop := ∀ us vs, xs ++ us < ys ++ vs

/-- Bytes of numbers compare as the numbers. -/
theorem precedes_cons {xs ys : List UInt8} (hm : m < 256) (hn : n < 256)
    (h : m < n ∨ m = n ∧ Precedes xs ys) :
    Precedes (UInt8.ofNat m :: xs) (UInt8.ofNat n :: ys) := by
  intro us vs
  rw [List.cons_append, List.cons_append, List.cons_lt_cons_iff]
  refine h.imp (fun hlt => ?_) fun hrest => ⟨congrArg UInt8.ofNat hrest.1, hrest.2 us vs⟩
  rw [UInt8.lt_iff_toNat_lt, UInt8.toNat_ofNat', UInt8.toNat_ofNat']
  omega

/-! ## The bytes of a character

A number in base 64: the digits but the highest are the bytes behind the first one, each with the
mark of such a byte. -/

/-- The bytes behind the first one: the lowest digits of a number. -/
def continuation : Nat → Nat → List UInt8
  | 0, _ => []
  | k + 1, n => UInt8.ofNat (n / 64 ^ k % 64 + 128) :: continuation k n

/-- How many bytes follow the first one. -/
def continuations (n : Nat) : Nat :=
  if n ≤ 127 then 0 else if n ≤ 2047 then 1 else if n ≤ 65535 then 2 else 3

/-- The least first byte in front of this many others. -/
def mark : Nat → Nat
  | 0 => 0
  | 1 => 192
  | 2 => 224
  | 3 => 240
  | _ => 248

/-- The first byte: the mark, and the highest digit. -/
def lead (n : Nat) : Nat := n / 64 ^ continuations n + mark (continuations n)

theorem toNat_lt (c : Char) : c.val.toNat < 0x110000 := by
  have hchar := c.valid
  simp only [UInt32.isValidChar, Nat.isValidChar] at hchar
  omega

/-- The bytes of a character, made of its digits and the mark for their number. -/
theorem encode_eq (c : Char) :
    String.utf8EncodeChar c
      = UInt8.ofNat (lead c.val.toNat) :: continuation (continuations c.val.toNat) c.val.toNat := by
  have hvalid := toNat_lt c
  rw [String.utf8EncodeChar, lead, continuations]
  generalize c.val.toNat = n at hvalid
  -- the highest digit fits behind its mark
  split
  · simp [continuation, mark]
  · split
    · have hdigit : n / 64 % 32 = n / 64 := Nat.mod_eq_of_lt (by omega)
      simp [continuation, mark, hdigit]
    · split
      · have hdigit : n / 4096 % 16 = n / 4096 := Nat.mod_eq_of_lt (by omega)
        simp [continuation, mark, hdigit]
      · have hdigit : n / 262144 % 8 = n / 262144 := Nat.mod_eq_of_lt (by omega)
        simp [continuation, mark, hdigit]

/-- The first bytes of each length are below those of the next. -/
theorem lead_bounds (hn : n < 0x110000) :
    mark (continuations n) ≤ lead n ∧ lead n < mark (continuations n + 1) := by
  rw [lead, continuations]
  split
  · simp only [mark]
    omega
  · split
    · simp only [mark]
      omega
    · split
      · simp only [mark]
        omega
      · simp only [mark]
        omega

/-- Numbers that agree above their lowest digits compare by these. -/
theorem precedes_continuation {k : Nat} (hhigh : m / 64 ^ k = n / 64 ^ k) (h : m < n) :
    Precedes (continuation k m) (continuation k n) := by
  induction k with
  | zero =>
    rw [Nat.pow_zero, Nat.div_one, Nat.div_one] at hhigh
    omega
  | succ k ih =>
    rw [Nat.pow_succ, ← Nat.div_div_eq_div_mul, ← Nat.div_div_eq_div_mul] at hhigh
    have hle : m / 64 ^ k ≤ n / 64 ^ k := Nat.div_le_div_right (Nat.le_of_lt h)
    refine precedes_cons (by omega) (by omega) ?_
    -- the next digit differs, or it is one more in which the numbers agree
    by_cases hdigit : m / 64 ^ k = n / 64 ^ k
    · exact .inr ⟨by rw [hdigit], ih hdigit⟩
    · exact .inl (by omega)

/-- A greater number has no fewer bytes, -/
theorem continuations_le (h : m ≤ n) : continuations m ≤ continuations n := by
  unfold continuations
  repeat' split
  all_goals omega

theorem mark_le_succ (k : Nat) : mark k ≤ mark (k + 1) := by
  match k with
  | 0 | 1 | 2 | 3 => decide
  | k + 4 => exact Nat.le_refl 248

/-- and with more bytes a greater mark. -/
theorem mark_le {j k : Nat} (h : j ≤ k) : mark j ≤ mark k := by
  induction h with
  | refl => exact Nat.le_refl (mark j)
  | step _ ih => exact Nat.le_trans ih (mark_le_succ _)

theorem mark_le_last (k : Nat) : mark k ≤ 248 := mark_le (Nat.le_add_right k 4)

/-- The bytes of two characters are in the order of the characters. -/
theorem precedes_encode (h : c < d) :
    Precedes (String.utf8EncodeChar c) (String.utf8EncodeChar d) := by
  have hlt : c.val.toNat < d.val.toNat := h
  have hc := lead_bounds (toNat_lt c)
  have hd := lead_bounds (toNat_lt d)
  rw [encode_eq, encode_eq]
  generalize c.val.toNat = m at hlt hc
  generalize d.val.toNat = n at hlt hd
  have hle := continuations_le (Nat.le_of_lt hlt)
  refine precedes_cons ?_ ?_ ?_
  · exact Nat.lt_of_lt_of_le hc.2 (Nat.le_trans (mark_le_last _) (by decide))
  · exact Nat.lt_of_lt_of_le hd.2 (Nat.le_trans (mark_le_last _) (by decide))
  · by_cases heq : continuations m = continuations n
    · -- of one length: the first bytes differ, or the numbers do below their highest digit
      rw [lead, lead, heq]
      have hdigit : m / 64 ^ continuations n ≤ n / 64 ^ continuations n :=
        Nat.div_le_div_right (Nat.le_of_lt hlt)
      rcases Nat.lt_or_eq_of_le hdigit with hless | hsame
      · exact .inl (Nat.add_lt_add_right hless _)
      · exact .inr ⟨by rw [hsame], precedes_continuation hsame hlt⟩
    · refine .inl (Nat.lt_of_lt_of_le hc.2 (Nat.le_trans (mark_le ?_) hd.1))
      omega

end Utf8

/-! ## Texts

Characters that are the same have the same bytes, and the first two that are not decide. -/

variable {s t : Text}

/-- A text that comes first does so by its bytes: it ends first, or the first character that differs
is less. -/
theorem utf8_lt_of_lt (h : s < t) : utf8 s < utf8 t := by
  induction s generalizing t with
  | nil =>
    cases t with
    | nil => exact absurd h (List.lt_irrefl [])
    | cons d t =>
      rw [utf8, utf8, List.flatMap_cons, Utf8.encode_eq]
      exact List.nil_lt_cons _ _
  | cons c s ih =>
    cases t with
    | nil => exact absurd h (List.not_lt_nil (c :: s))
    | cons d t =>
      rw [utf8, utf8, List.flatMap_cons, List.flatMap_cons]
      rcases List.cons_lt_cons_iff.1 h with hless | ⟨rfl, hrest⟩
      · exact Utf8.precedes_encode hless _ _
      · exact List.append_left_lt (ih hrest)

/-- **The order of the bytes is the order of the characters.** -/
theorem utf8_lt_iff : utf8 s < utf8 t ↔ s < t := by
  refine ⟨fun h => ?_, utf8_lt_of_lt⟩
  rcases List.le_iff_lt_or_eq.1 (List.not_lt.1 fun hlt => List.lt_asymm h (utf8_lt_of_lt hlt)) with
    hless | rfl
  · exact hless
  · exact absurd h (List.lt_irrefl _)

end Overlay.Text
