/-
Readers on a text with more behind it.

Every search of the library walks from the left and stops where it has found what it looks for.
So what it finds in a text it also finds, in the same way, in the text with more behind it:
the part in front is the same, and the rest has more behind it. For the cuts at a mark this is the
law about two texts; for the others it is an induction over the text for each of them.

One of them needs an argument at its last step. The first place of a piece stays the first, because
before it the piece does not fit in (`breakOn_append`). Of a piece of one character it can be said
outright what its first place is (`breakOn_singleton_eq_some_iff`), and that is how it is used
where a line is looked for, or a quote.
-/
import Overlay.Proofs.Text.Cuts

set_option autoImplicit false

namespace Overlay.Text

variable {t p r : Text} {c : Char}

/-! ## Dropping from the front -/

/-- As long as anything is left, only the start of the whole is trimmed. -/
theorem trimStart_append (h : trimStart t ≠ []) (more : Text) :
    trimStart (t ++ more) = trimStart t ++ more := by
  rw [trimStart, List.dropWhile_append, if_neg (by simpa [trimStart] using h)]
  rfl

/-- On a text that is no shorter than the piece, what follows makes no difference. -/
theorem dropPiece_append {piece : Text} (h : piece.length ≤ t.length) (more : Text) :
    dropPiece piece (t ++ more) = (dropPiece piece t).map (· ++ more) := by
  induction piece generalizing t with
  | nil => rfl
  | cons x piece ih =>
    cases t with
    | nil => simp at h
    | cons c t =>
      by_cases hx : x = c
      · simpa [dropPiece, hx] using ih (by simpa using h)
      · simp [dropPiece, hx]

/-! ## The first of a character

The readers look for pieces of any length. A piece of one character is the case in which the place
that is found can be described without the search. -/

/-- A piece of one character stands in front, or the search goes on. -/
theorem breakOn_singleton_cons (c d : Char) (t : Text) :
    breakOn [c] (d :: t)
      = if c = d then some ([], t) else (breakOn [c] t).map (consFst d) := by
  by_cases hd : c = d
  · subst hd
    simp [breakOn, dropPiece]
  · simp [breakOn, dropPiece, hd]

/-- It is not found exactly where the character is not in the text, -/
theorem breakOn_singleton_eq_none_iff : breakOn [c] t = none ↔ c ∉ t := by
  induction t with
  | nil => simp [breakOn]
  | cons d t ih =>
    rw [breakOn_singleton_cons]
    by_cases hd : c = d
    · simp [hd]
    · simp [hd, ih]

/-- and it is found behind the part that does not have it. -/
theorem breakOn_singleton_eq_some_iff {p r : Text} :
    breakOn [c] t = some (p, r) ↔ t = p ++ c :: r ∧ c ∉ p := by
  induction t generalizing p with
  | nil => simp [breakOn]
  | cons d t ih =>
    rw [breakOn_singleton_cons]
    by_cases hd : c = d
    · subst hd
      rw [if_pos rfl, Option.some.injEq, Prod.mk.injEq]
      constructor
      · rintro ⟨rfl, rfl⟩
        exact ⟨rfl, List.not_mem_nil⟩
      · rintro ⟨htext, hmem⟩
        cases p with
        | nil => exact ⟨rfl, (List.cons.inj htext).2⟩
        | cons e p => exact absurd ((List.cons.inj htext).1 ▸ List.mem_cons_self) hmem
    · rw [if_neg hd, map_consFst_eq_some_iff]
      constructor
      · rintro ⟨q, hq, rfl⟩
        obtain ⟨rfl, hmem⟩ := ih.1 hq
        exact ⟨rfl, by simp [hd, hmem]⟩
      · rintro ⟨htext, hmem⟩
        cases p with
        | nil => exact absurd (List.cons.inj htext).1.symm hd
        | cons e p =>
          obtain ⟨rfl, rfl⟩ := List.cons.inj htext
          exact ⟨p, ih.2 ⟨rfl, fun h => hmem (List.mem_cons_of_mem d h)⟩, rfl⟩

/-! ## Cuts -/

/-- A cut at a character is a cut of the longer text too: the mark looks at nothing behind it. -/
theorem cutFrom_char_append {b : Brackets} {m : Char} {depth : Nat} {before : Option Char}
    (h : cutFrom b (.char m) depth before t = some (p, r)) (more : Text) :
    cutFrom b (.char m) depth before (t ++ more) = some (p, r ++ more) := by
  rw [cutFrom_append (Mark.ignores_char m t more), h]

/-- A search that has gone on behind a character finds the same with more text behind it, if the
search from there does. -/
theorem map_consFst_append {search search' : Option (Text × Text)} {x : Char} {more : Text}
    (hsearch : ∀ q, search = some (q, r) → search' = some (q, r ++ more))
    (h : search.map (consFst x) = some (p, r)) :
    search'.map (consFst x) = some (p, r ++ more) := by
  obtain ⟨q, hq, rfl⟩ := map_consFst_eq_some_iff.1 h
  rw [hsearch q hq]
  rfl

/-- The bracket that closes is the same. The search goes on with one of three depths, and the step
is the same for each. -/
theorem closing_append {o c : Char} {depth : Nat} (h : closing o c depth t = some (p, r))
    (more : Text) : closing o c depth (t ++ more) = some (p, r ++ more) := by
  induction t generalizing depth p with
  | nil => simp [closing] at h
  | cons x t ih =>
    -- in whichever depth the search goes on
    have step : ∀ d, (closing o c d t).map (consFst x) = some (p, r) →
        (closing o c d (t ++ more)).map (consFst x) = some (p, r ++ more) :=
      fun d => map_consFst_append fun _ => ih
    rw [closing] at h
    rw [List.cons_append, closing]
    by_cases hc : x = c
    · rw [if_pos hc] at h ⊢
      by_cases hd : depth = 0
      · rw [if_pos hd, Option.some.injEq, Prod.mk.injEq] at h
        obtain ⟨rfl, rfl⟩ := h
        exact if_pos hd
      · rw [if_neg hd] at h ⊢
        exact step _ h
    · rw [if_neg hc] at h ⊢
      by_cases ho : x = o
      · rw [if_pos ho] at h ⊢
        exact step _ h
      · rw [if_neg ho] at h ⊢
        exact step _ h

/-- The first place of a piece stays the first: before it the piece cannot begin in the text
and end behind it. -/
theorem breakOn_append {piece : Text} (h : breakOn piece t = some (p, r)) (more : Text) :
    breakOn piece (t ++ more) = some (p, r ++ more) := by
  induction t generalizing p with
  | nil =>
    rw [breakOn] at h
    by_cases hp : piece = []
    · -- only the empty piece is found in no text
      rw [if_pos hp, Option.some.injEq, Prod.mk.injEq] at h
      obtain ⟨rfl, rfl⟩ := h
      subst hp
      cases more with
      | nil => rfl
      | cons c more => rfl
    · rw [if_neg hp] at h
      simp at h
  | cons c t ih =>
    -- the piece stands in the text as a whole, so what is dropped here does not reach behind it
    have hlen : piece.length ≤ (c :: t).length := by
      have hall := congrArg List.length (eq_of_breakOn h)
      simp only [List.length_append] at hall
      omega
    have hdrop := dropPiece_append hlen more
    rw [breakOn] at h
    rw [List.cons_append] at hdrop ⊢
    rw [breakOn, hdrop]
    cases hd : dropPiece piece (c :: t) with
    | some after =>
      rw [hd] at h
      simp only [Option.some.injEq, Prod.mk.injEq] at h
      obtain ⟨rfl, rfl⟩ := h
      rfl
    | none =>
      rw [hd] at h
      exact map_consFst_append (fun _ => ih) h

end Overlay.Text
