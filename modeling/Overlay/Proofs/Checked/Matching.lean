/-
Matching brackets, and literals, on bytes.

The bracket that closes another is found by counting the open ones, from the opening bracket on.
The count goes down at each closing bracket, and nothing guards it: it stays above zero because
the search ends where it would get there. Here the count is checked (`Crash.underflow`), and
the search is shown to find what the readers of the library find from behind the opening
bracket, where no check is needed.

The two counts differ by one. The library's starts at zero behind the opening bracket, and ends at
the closing bracket that it meets at zero; the one here has counted the opening bracket, so it ends
where it gets from one to zero. Hence the lemmas on the search are stated for a depth of `depth +
1`, and a depth of zero comes up only in the lemma about the opening bracket itself.

In the arguments of a directive the brackets inside of literals do not count. The bytes of a
character that is not ASCII leave a literal, or the text outside of one, as the character does;
so the commas outside of literals are the same as well.
-/
import Overlay.Proofs.Checked.Scan
import Overlay.Proofs.Script.Written

set_option autoImplicit false

namespace Overlay

/-! ## Literals on bytes

A character that is not ASCII has several bytes, and an escape covers one of them only. That does no
harm: behind the first byte the literal goes on, and the other bytes are as little a quote as the
first. -/

namespace Script

variable {q : Quoting} {t u : Text}

/-- Characters that are not ASCII are no marks. -/
theorem Quoting.free_of_not_isAscii {marks : List Char}
    (hmarks : marks.all Text.isAscii = true) (hu : ∀ c ∈ u, Text.isAscii c = false) :
    q.Free marks u := by
  induction u generalizing q with
  | nil => trivial
  | cons c u ih =>
    refine ⟨?_, ih fun d hd => hu d (List.mem_cons_of_mem c hd)⟩
    intro _ hc
    exact Text.ne_of_isAscii (hu c List.mem_cons_self) (List.all_eq_true.1 hmarks c hc) rfl

/-- A character that is not ASCII ends an escape and nothing else. -/
theorem Quoting.next_of_not_isAscii {c : Char} (hc : Text.isAscii c = false) :
    q.next c = if q = .escaped then .inside else q := by
  have hquote : c ≠ '"' := Text.ne_of_isAscii hc (by decide)
  have hback : c ≠ '\\' := Text.ne_of_isAscii hc (by decide)
  cases q <;> simp [Quoting.next, hquote, hback]

/-- Several of them are passed as one is. -/
theorem Quoting.after_of_not_isAscii {c : Char} (hne : u ≠ [])
    (hu : ∀ d ∈ u, Text.isAscii d = false) (hc : Text.isAscii c = false) :
    q.after u = q.next c := by
  induction u generalizing q with
  | nil => exact absurd rfl hne
  | cons d u ih =>
    -- neither is a quote or a backslash: the first ends an escape, and the others change nothing
    have hd : q.next d = q.next c := by
      rw [Quoting.next_of_not_isAscii (hu d List.mem_cons_self), Quoting.next_of_not_isAscii hc]
    show (q.next d).after u = q.next c
    by_cases hnil : u = []
    · rw [hnil]
      exact hd
    · rw [ih hnil fun e he => hu e (List.mem_cons_of_mem d he), hd, Quoting.next_of_not_isAscii hc,
        Quoting.next_of_not_isAscii hc]
      cases q <;> rfl

/-- The bytes of such a character leave a literal as the character does. -/
theorem Quoting.after_bytesOf {c : Char} (hc : Text.isAscii c = false) :
    q.after (Text.bytesOf c) = q.next c :=
  after_of_not_isAscii (Text.bytesOf_ne_nil c) (fun _ => Text.isAscii_of_mem_bytesOf hc) hc

/-- The arguments on bytes are the bytes of the arguments. -/
theorem splitArguments_bytes (q : Quoting) (t : Text) :
    splitArguments q t.bytes = (splitArguments q t).map Text.bytes := by
  induction t generalizing q with
  | nil => rfl
  | cons c t ih =>
    rw [Text.bytes_cons]
    cases hc : Text.isAscii c with
    | true =>
      rw [Text.bytesOf_of_isAscii hc, List.singleton_append, splitArguments, splitArguments, ih, ih]
      by_cases hcomma : q = .outside ∧ c = ','
      · rw [if_pos hcomma, if_pos hcomma]
        rfl
      · rw [if_neg hcomma, if_neg hcomma]
        cases splitArguments (q.next c) t with
        | nil => simp [Text.extend, Text.bytesOf_of_isAscii hc]
        | cons p ps => simp [Text.extend, Text.bytesOf_of_isAscii hc]
    | false =>
      have hfree : q.Free [','] (Text.bytesOf c) :=
        Quoting.free_of_not_isAscii rfl fun _ => Text.isAscii_of_mem_bytesOf hc
      have hcomma : ¬ (q = .outside ∧ c = ',') := fun h =>
        Text.ne_of_isAscii hc (by decide) h.2
      -- the bytes go to the first of the parts behind them, of which there is at least one
      obtain ⟨p, ps, hsplit⟩ := List.exists_cons_of_ne_nil (splitArguments_ne_nil (q.next c) t)
      rw [splitArguments_of_free hfree, Quoting.after_bytesOf hc, ih, splitArguments,
        if_neg hcomma, hsplit, List.map_cons, foldr_extend_cons]
      rfl

end Script

namespace Checked

open Script (Quoting)

variable {ε : Type} {q : Quoting} {o c : Char} {depth : Nat} {t u : Text}

/-- A character in front of the text belongs to its first part. -/
theorem Joined.extend {gap : Nat} {ps : List Text} (h : Joined gap ps t) (c : Char) :
    Joined gap (Text.extend c ps) (c :: t) := by
  cases h with
  | last => exact .last (c :: t)
  | cons hgap h => exact .cons hgap h

/-- A text is made of its arguments, with a comma between one and the next. -/
theorem joined_splitArguments (q : Quoting) (t : Text) :
    Joined 1 (Script.splitArguments q t) t := by
  induction t generalizing q with
  | nil => exact .last []
  | cons c t ih =>
    rw [Script.splitArguments]
    by_cases hcomma : q = .outside ∧ c = ','
    · rw [if_pos hcomma, hcomma.2]
      have hcons : Joined 1 ([] :: Script.splitArguments .outside t) ([] ++ ([','] ++ t)) :=
        .cons rfl (ih .outside)
      exact hcons
    · rw [if_neg hcomma]
      exact (ih _).extend c

/-- The parts between the commas outside of literals, from the places of the commas among the
bytes. -/
def splitArguments (t : Text) : Checked ε (List Text) :=
  parts t 1 0 ((Script.splitArguments .outside t.bytes).map List.length)

/-- Taken by offsets, the arguments are those of the library. -/
theorem splitArguments_eq (t : Text) :
    (splitArguments t : Checked ε _) = .ok (Script.splitArguments .outside t) := by
  rw [splitArguments, Script.splitArguments_bytes, Text.map_length_bytes]
  exact parts_of_joined (joined_splitArguments .outside t) []

/-! ## Matching brackets

The search returns a number of bytes. Passing a part of the text adds the size of that part to
whatever is found behind it (`behind`), so the induction moves through the text without an offset.
-/

/-- An offset that was found behind `n` bytes. -/
def behind (n : Nat) (x : Checked ε (Option Nat)) : Checked ε (Option Nat) :=
  x.map (Option.map (n + ·))

/-- Where nothing was passed, nothing is added. -/
theorem behind_zero (x : Checked ε (Option Nat)) : behind 0 x = x := by
  cases x with
  | error s => rfl
  | ok place => cases place <;> simp [behind, Except.map]

/-- What was passed in two steps was passed in one. -/
theorem behind_behind (m n : Nat) (x : Checked ε (Option Nat)) :
    behind m (behind n x) = behind (m + n) x := by
  cases x with
  | error s => rfl
  | ok place => cases place <;> simp [behind, Except.map, Nat.add_assoc]

/-- The offset of the bracket `c` that closes the first bracket `o`, where `depth` of them are
open before. The count of open brackets goes down at each `c`. -/
def matching (o c : Char) (depth : Nat) : Text → Checked ε (Option Nat)
  | [] => .ok none
  | x :: r =>
    if x = o then behind 1 (matching o c (depth + 1) r)
    else if x = c then
      if depth = 0 then crash .underflow
      else if depth - 1 = 0 then .ok (some 0)
      else behind 1 (matching o c (depth - 1) r)
    else behind 1 (matching o c depth r)

/-- Characters that are not ASCII are passed, and the count stays. -/
theorem matching_of_not_isAscii (ho : Text.isAscii o = true) (hc : Text.isAscii c = true)
    (hu : ∀ x ∈ u, Text.isAscii x = false) :
    (matching o c depth (u ++ t) : Checked ε _)
      = behind u.length (matching o c depth t) := by
  induction u with
  | nil => exact (behind_zero _).symm
  | cons x u ih =>
    have hx := hu x List.mem_cons_self
    have hxo : x ≠ o := Text.ne_of_isAscii hx ho
    have hxc : x ≠ c := Text.ne_of_isAscii hx hc
    rw [List.cons_append, matching, if_neg hxo, if_neg hxc,
      ih fun y hy => hu y (List.mem_cons_of_mem x hy), behind_behind, List.length_cons,
      Nat.add_comm 1]

/-- Behind the opening bracket the count is one more than the further brackets. -/
theorem matching_bytes (ho : Text.isAscii o = true) (hc : Text.isAscii c = true) (hne : o ≠ c)
    (depth : Nat) (t : Text) :
    (matching o c (depth + 1) t.bytes : Checked ε _)
      = .ok ((Text.closing o c depth t).map fun parts => parts.1.size) := by
  induction t generalizing depth with
  | nil => rfl
  | cons x t ih =>
    -- wherever the search goes on, it has passed the bytes of `x`
    have step : ∀ d, (behind x.utf8Size (matching o c (d + 1) (Text.bytes t)) : Checked ε _)
        = .ok (((Text.closing o c d t).map (Text.consFst x)).map fun parts => parts.1.size) := by
      intro d
      rw [ih d]
      cases Text.closing o c d t <;> rfl
    rw [Text.bytes_cons, Text.closing]
    cases hx : Text.isAscii x with
    | true =>
      rw [Text.utf8Size_of_isAscii hx] at step
      rw [Text.bytesOf_of_isAscii hx, List.singleton_append, matching]
      by_cases hxo : x = o
      · have hxc : x ≠ c := hxo ▸ hne
        rw [if_pos hxo, if_neg hxc, if_pos hxo]
        exact step (depth + 1)
      · rw [if_neg hxo, if_neg hxo]
        by_cases hxc : x = c
        · rw [if_pos hxc, if_pos hxc]
          cases depth with
          | zero => rfl
          | succ d =>
            rw [if_neg (Nat.succ_ne_zero _), if_neg (by omega), if_neg (Nat.succ_ne_zero d)]
            exact step d
        -- no bracket at all
        · rw [if_neg hxc, if_neg hxc]
          exact step depth
    | false =>
      have hxo : x ≠ o := Text.ne_of_isAscii hx ho
      have hxc : x ≠ c := Text.ne_of_isAscii hx hc
      rw [matching_of_not_isAscii ho hc fun _ => Text.isAscii_of_mem_bytesOf hx,
        Text.length_bytesOf, if_neg hxc, if_neg hxo]
      exact step depth

/-- **The bracket that closes this one.** It is where the library finds it behind the opening
bracket, and the count does not fall below zero on the way. -/
theorem matching_opening (ho : Text.isAscii o = true) (hc : Text.isAscii c = true) (hne : o ≠ c)
    (t : Text) :
    (matching o c 0 (Text.bytes (o :: t)) : Checked ε _)
      = .ok ((Text.closing o c 0 t).map fun parts => 1 + parts.1.size) := by
  rw [Text.bytes_cons, Text.bytesOf_of_isAscii ho, List.singleton_append, matching, if_pos rfl,
    matching_bytes ho hc hne]
  cases Text.closing o c 0 t <;> rfl

/-- A closing bracket that no other opens would take the count below zero. -/
example : (matching '(' ')' 0 [')'] : Checked ε _) = crash .underflow := rfl

/-! ## What brackets enclose

A body stands between its brackets, and the rest behind them. The offsets of all four are those of
parts that the text is made of. -/

section Enclosed

variable {p inside body rest : Text}

/-- The offset behind the closing bracket, as it is added up from that of the opening one. -/
theorem size_enclosed (ho : Text.isAscii o = true) (hc : Text.isAscii c = true) (p body : Text) :
    p.size + (1 + body.size) + 1 = (p ++ [o] ++ body ++ [c]).size := by
  have hopen : Text.size [o] = 1 := Text.size_of_forall (by simpa using ho)
  have hclose : Text.size [c] = 1 := Text.size_of_forall (by simpa using hc)
  simp only [Text.size_append, hopen, hclose, Nat.add_assoc]

/-- A text with brackets in it, with the rest behind the closing one taken off. -/
theorem append_enclosed (h : inside = body ++ c :: rest) :
    p ++ o :: inside = (p ++ [o] ++ body ++ [c]) ++ rest := by
  rw [h]
  simp

/-- The slice behind the opening bracket, up to the one that closes it. -/
theorem slice_enclosed (ho : Text.isAscii o = true) (h : inside = body ++ c :: rest) :
    (slice (p ++ o :: inside) (p.size + 1) (p.size + (1 + body.size)) : Checked ε Text)
      = .ok body := by
  have hsize : (p ++ [o]).size = p.size + 1 := by
    rw [Text.size_append, Text.size_of_forall (t := [o]) (by simpa using ho)]
    rfl
  refine slice_of_eq (p := p ++ [o]) (r := c :: rest) ?_ hsize.symm (by omega)
  rw [h]
  simp

end Enclosed

/-! ## The parenthesis that closes arguments

The same search, except that it passes what stands in literals. So it goes on with the quoting
that the text left behind it as well as with the depth. -/

/-- The offset of the parenthesis that closes the first one, where `depth` of them are open
before; parentheses inside of literals do not count. -/
def matchingArguments (q : Quoting) (depth : Nat) : Text → Checked ε (Option Nat)
  | [] => .ok none
  | x :: r =>
    if q = .outside ∧ x = '(' then
      behind 1 (matchingArguments .outside (depth + 1) r)
    else if q = .outside ∧ x = ')' then
      if depth = 0 then crash .underflow
      else if depth - 1 = 0 then .ok (some 0)
      else behind 1 (matchingArguments .outside (depth - 1) r)
    else behind 1 (matchingArguments (q.next x) depth r)

/-- A text without parentheses outside of literals is passed, and leaves the quoting that it
leaves. -/
theorem matchingArguments_of_free (h : q.Free ['(', ')'] u) :
    (matchingArguments q depth (u ++ t) : Checked ε _)
      = behind u.length (matchingArguments (q.after u) depth t) := by
  induction u generalizing q with
  | nil => exact (behind_zero _).symm
  | cons x u ih =>
    have hopen : ¬ (q = .outside ∧ x = '(') := fun hx => h.1 hx.1 (by simp [hx.2])
    have hclose : ¬ (q = .outside ∧ x = ')') := fun hx => h.1 hx.1 (by simp [hx.2])
    rw [List.cons_append, matchingArguments, if_neg hopen, if_neg hclose, ih h.2, behind_behind,
      List.length_cons, Nat.add_comm 1]
    rfl

/-- The search from behind the opening parenthesis finds what the library finds there. -/
theorem matchingArguments_bytes (q : Quoting) (depth : Nat) (t : Text) :
    (matchingArguments q (depth + 1) t.bytes : Checked ε _)
      = .ok ((Script.closeArguments q depth t).map fun parts => parts.1.size) := by
  induction t generalizing q depth with
  | nil => rfl
  | cons x t ih =>
    -- wherever the search goes on, it has passed the bytes of `x`
    have step : ∀ q' d,
        (behind x.utf8Size (matchingArguments q' (d + 1) (Text.bytes t)) : Checked ε _)
        = .ok (((Script.closeArguments q' d t).map (Text.consFst x)).map
            fun parts => parts.1.size) := by
      intro q' d
      rw [ih q' d]
      cases Script.closeArguments q' d t <;> rfl
    rw [Text.bytes_cons, Script.closeArguments]
    cases hx : Text.isAscii x with
    | true =>
      rw [Text.utf8Size_of_isAscii hx] at step
      rw [Text.bytesOf_of_isAscii hx, List.singleton_append, matchingArguments]
      by_cases hopen : q = .outside ∧ x = '('
      · have hclose : ¬ (q = .outside ∧ x = ')') := by
          rintro ⟨-, rfl⟩
          exact absurd hopen.2 (by decide)
        rw [if_pos hopen, if_neg hclose, if_pos hopen]
        exact step .outside (depth + 1)
      · rw [if_neg hopen, if_neg hopen]
        by_cases hclose : q = .outside ∧ x = ')'
        · rw [if_pos hclose, if_pos hclose]
          cases depth with
          | zero => rfl
          | succ d =>
            rw [if_neg (Nat.succ_ne_zero _), if_neg (by omega), if_neg (Nat.succ_ne_zero d)]
            exact step .outside d
        · rw [if_neg hclose, if_neg hclose]
          exact step (q.next x) depth
    | false =>
      -- inside a literal or not, none of its bytes is a parenthesis
      have hfree : q.Free ['(', ')'] (Text.bytesOf x) :=
        Quoting.free_of_not_isAscii rfl fun _ => Text.isAscii_of_mem_bytesOf hx
      have hopen : ¬ (q = .outside ∧ x = '(') := fun h =>
        Text.ne_of_isAscii hx (by decide) h.2
      have hclose : ¬ (q = .outside ∧ x = ')') := fun h =>
        Text.ne_of_isAscii hx (by decide) h.2
      rw [matchingArguments_of_free hfree, Quoting.after_bytesOf hx, Text.length_bytesOf,
        if_neg hclose, if_neg hopen]
      exact step (q.next x) depth

/-- **The parenthesis that closes the arguments**, counted from the one that opens them. -/
theorem matchingArguments_opening (t : Text) :
    (matchingArguments .outside 0 (Text.bytes ('(' :: t)) : Checked ε _)
      = .ok ((Script.closeArguments .outside 0 t).map fun parts => 1 + parts.1.size) := by
  rw [Text.bytes_cons, Text.bytesOf_of_isAscii rfl, List.singleton_append, matchingArguments,
    if_pos ⟨rfl, rfl⟩, matchingArguments_bytes]
  cases Script.closeArguments .outside 0 t <;> rfl

end Checked

end Overlay
