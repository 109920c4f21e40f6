/-
Cutting text at a mark outside brackets.

Types, parameter lists, scoped names and statements are all cut the same way: walk
from the left, count how many brackets are open, and stop at the first character that
is a mark and stands inside none. What differs is which brackets count, and which
characters are marks; so both are parameters of one function, `cut`, and the marks of
the library are listed beside it. A mark may look at the character before it and at
the text after it, which is how `=` is told from `==` and `:` from `::`.

A bracket that closes more than was opened is ignored: the count stays at zero.

The other cuts are of the same shape: `closing` finds the bracket that closes one
already open, and `breakOn` finds a fixed piece of text wherever it stands. Each
comes with the equation that says nothing is lost: the parts, with the mark between
them, are the whole text again.
-/
import Overlay.Text.WordChar

set_option autoImplicit false

namespace Overlay.Text

/-! ## Brackets and marks -/

/-- The brackets that a reader counts. -/
structure Brackets where
  openers : List Char
  closers : List Char

namespace Brackets

/-- All four pairs, for parameter lists and default expressions. -/
def all : Brackets := ⟨['<', '(', '[', '{'], ['>', ')', ']', '}']⟩

/-- Template arguments and parentheses, for scoped names. -/
def angled : Brackets := ⟨['<', '('], ['>', ')']⟩

/-- Parentheses alone, for whole statements. -/
def round : Brackets := ⟨['('], [')']⟩

def step (b : Brackets) (depth : Nat) (c : Char) : Nat :=
  if c ∈ b.openers then depth + 1 else if c ∈ b.closers then depth - 1 else depth

def depthAfter (b : Brackets) (depth : Nat) (t : Text) : Nat := t.foldl b.step depth

@[simp] theorem depthAfter_nil (b : Brackets) (depth : Nat) : b.depthAfter depth [] = depth := rfl

@[simp] theorem depthAfter_cons (b : Brackets) (depth : Nat) (c : Char) (t : Text) :
    b.depthAfter depth (c :: t) = b.depthAfter (b.step depth c) t := rfl

end Brackets

/-- A test for a mark: the character before it, the character itself, the text after it. -/
abbrev Mark := Option Char → Char → Text → Bool

namespace Mark

def char (m : Char) : Mark := fun _ c _ => c == m

/-- A `=` that belongs to no comparison. -/
def assign : Mark := fun before c after =>
  c == '=' && !(before ∈ [some '=', some '!', some '<', some '>']) && after.head? != some '='

/-- The first colon of a `::`. -/
def scope : Mark := fun _ c after => c == ':' && after.head? == some ':'

/-- A colon that belongs to no `::`. -/
def colon : Mark := fun before c after =>
  c == ':' && before != some ':' && after.head? != some ':'

end Mark

/-! ## Cuts -/

def consFst (c : Char) (parts : Text × Text) : Text × Text := (c :: parts.1, parts.2)

/-- A cut further on has the character at the front of its first part. -/
theorem map_consFst_eq_some_iff {cut : Option (Text × Text)} {c : Char} {p r : Text} :
    cut.map (consFst c) = some (p, r) ↔ ∃ q, cut = some (q, r) ∧ p = c :: q := by
  rw [Option.map_eq_some_iff]
  constructor
  · rintro ⟨⟨q, s⟩, hcut, heq⟩
    obtain ⟨rfl, rfl⟩ := Prod.mk.inj heq
    exact ⟨q, hcut, rfl⟩
  · rintro ⟨q, hcut, rfl⟩
    exact ⟨(q, r), hcut, rfl⟩

/-- `cut`, with the number of brackets open so far and the character just passed. -/
def cutFrom (b : Brackets) (mark : Mark) (depth : Nat) (before : Option Char) :
    Text → Option (Text × Text)
  | [] => none
  | c :: r =>
    if depth = 0 ∧ mark before c r = true then some ([], r)
    else (cutFrom b mark (b.step depth c) (some c) r).map (consFst c)

/-- The text before the first mark outside brackets and the text after that character;
`none` if there is no such mark. -/
def cut (b : Brackets) (mark : Mark) (t : Text) : Option (Text × Text) :=
  cutFrom b mark 0 none t

/-- The parts of a cut, with the character of the mark between them, are the text. -/
theorem eq_of_cutFrom {b : Brackets} {mark : Mark} {depth : Nat} {before : Option Char}
    {t p r : Text} (h : cutFrom b mark depth before t = some (p, r)) :
    ∃ c, t = p ++ c :: r := by
  induction t generalizing depth before p with
  | nil => simp [cutFrom] at h
  | cons c t ih =>
    rw [cutFrom] at h
    split at h
    · simp only [Option.some.injEq, Prod.mk.injEq] at h
      obtain ⟨rfl, rfl⟩ := h
      exact ⟨c, rfl⟩
    · obtain ⟨q, hq, rfl⟩ := map_consFst_eq_some_iff.1 h
      obtain ⟨d, rfl⟩ := ih hq
      exact ⟨d, rfl⟩

/-- A cut takes the mark away, so what is behind it is shorter. -/
theorem length_lt_of_cut {b : Brackets} {mark : Mark} {t p r : Text}
    (h : cut b mark t = some (p, r)) : r.length < t.length := by
  obtain ⟨c, rfl⟩ := eq_of_cutFrom h
  simp only [List.length_append, List.length_cons]
  omega

/-- All parts between the marks outside brackets, in order. Of each mark, `more`
characters after its first are dropped as well. -/
def split (b : Brackets) (mark : Mark) (more : Nat) (t : Text) : List Text :=
  match _h : cut b mark t with
  | none => [t]
  | some (p, r) => p :: split b mark more (r.drop more)
termination_by t.length
decreasing_by
  have := length_lt_of_cut _h
  simp only [List.length_drop]
  omega

/-- The parts between the commas outside brackets. -/
def splitCommas (t : Text) : List Text := split .all (.char ',') 0 t

/-- The trimmed parts between the `::` outside template arguments and parentheses. -/
def splitScopes (t : Text) : List Text := (split .angled .scope 1 t).map trim

theorem split_of_cut_eq_none {b : Brackets} {mark : Mark} {more : Nat} {t : Text}
    (h : cut b mark t = none) : split b mark more t = [t] := by
  rw [split]
  split
  · rfl
  · rename_i p r hs
    rw [h] at hs
    simp at hs

/-- The part before the first mark comes first, then the parts of what follows. -/
theorem split_of_cut_eq_some {b : Brackets} {mark : Mark} {more : Nat} {t p r : Text}
    (h : cut b mark t = some (p, r)) :
    split b mark more t = p :: split b mark more (r.drop more) := by
  rw [split]
  split
  · rename_i hs
    rw [h] at hs
    simp at hs
  · rename_i q s hs
    rw [h] at hs
    simp only [Option.some.injEq, Prod.mk.injEq] at hs
    rw [hs.1, hs.2]

/-- There is always a first part. -/
theorem split_ne_nil (b : Brackets) (mark : Mark) (more : Nat) (t : Text) :
    split b mark more t ≠ [] := by
  cases h : cut b mark t with
  | none => simp [split_of_cut_eq_none h]
  | some parts => simp [split_of_cut_eq_some h]

/-! ## The bracket that closes an open one -/

/-- Cuts the text inside an open bracket at the bracket that closes it. `depth` counts the
further brackets `o` that are open; `none` if the text ends first. -/
def closing (o c : Char) (depth : Nat) : Text → Option (Text × Text)
  | [] => none
  | x :: r =>
    if x = c then
      if depth = 0 then some ([], r) else (closing o c (depth - 1) r).map (consFst x)
    else if x = o then (closing o c (depth + 1) r).map (consFst x)
    else (closing o c depth r).map (consFst x)

/-- The inside, the closing bracket and the rest are the text. -/
theorem eq_of_closing {o c : Char} {depth : Nat} {t p r : Text}
    (h : closing o c depth t = some (p, r)) : t = p ++ c :: r := by
  induction t generalizing depth p with
  | nil => simp [closing] at h
  | cons x t ih =>
    rw [closing] at h
    split at h
    · rename_i hx
      subst hx
      split at h
      · simp only [Option.some.injEq, Prod.mk.injEq] at h
        obtain ⟨rfl, rfl⟩ := h
        rfl
      · obtain ⟨q, hq, rfl⟩ := map_consFst_eq_some_iff.1 h
        rw [ih hq]
        rfl
    · split at h <;>
      · obtain ⟨q, hq, rfl⟩ := map_consFst_eq_some_iff.1 h
        rw [ih hq]
        rfl

/-! ## A fixed piece of text -/

/-- What follows `piece` at the front of a text; `none` if the text starts otherwise. -/
def dropPiece : Text → Text → Option Text
  | [], t => some t
  | _ :: _, [] => none
  | p :: piece, c :: r => if p = c then dropPiece piece r else none

/-- A text from which a piece can be dropped is the piece followed by the rest. -/
theorem dropPiece_eq_some_iff {piece t r : Text} :
    dropPiece piece t = some r ↔ t = piece ++ r := by
  induction piece generalizing t with
  | nil => simp [dropPiece]
  | cons p piece ih =>
    cases t with
    | nil => simp [dropPiece]
    | cons c t =>
      by_cases hp : p = c
      · simp [dropPiece, hp, ih]
      · simp [dropPiece, hp, Ne.symm hp]

def startsWith (piece t : Text) : Bool := (dropPiece piece t).isSome

/-- The text before the first occurrence of `piece` and the text after it. -/
def breakOn (piece : Text) : Text → Option (Text × Text)
  | [] => if piece = [] then some ([], []) else none
  | c :: r =>
    match dropPiece piece (c :: r) with
    | some after => some ([], after)
    | none => (breakOn piece r).map (consFst c)

/-- The two parts and the piece between them are the text. -/
theorem eq_of_breakOn {piece t p r : Text} (h : breakOn piece t = some (p, r)) :
    t = p ++ (piece ++ r) := by
  induction t generalizing p with
  | nil =>
    rw [breakOn] at h
    split at h
    · rename_i hp
      simp only [Option.some.injEq, Prod.mk.injEq] at h
      obtain ⟨rfl, rfl⟩ := h
      simp [hp]
    · simp at h
  | cons c t ih =>
    rw [breakOn] at h
    split at h
    · rename_i after ha
      simp only [Option.some.injEq, Prod.mk.injEq] at h
      obtain ⟨rfl, rfl⟩ := h
      simpa using dropPiece_eq_some_iff.1 ha
    · obtain ⟨q, hq, rfl⟩ := map_consFst_eq_some_iff.1 h
      rw [ih hq]
      rfl

/-! ## A leading identifier -/

/-- The identifier at the front of a text and what follows it; `none` if the text starts
with no letter or underscore. -/
def cutIdentifier : Text → Option (Text × Text)
  | [] => none
  | c :: r =>
    if isLetter c then some (c :: r.takeWhile isIdentChar, r.dropWhile isIdentChar) else none

/-- Where an identifier is found, the text begins with a letter. -/
theorem exists_of_cutIdentifier {t p r : Text} (h : cutIdentifier t = some (p, r)) :
    ∃ c s, t = c :: s ∧ isLetter c = true ∧ p = c :: s.takeWhile isIdentChar
      ∧ r = s.dropWhile isIdentChar := by
  cases t with
  | nil => simp [cutIdentifier] at h
  | cons c t =>
    simp only [cutIdentifier] at h
    split at h
    · rename_i hc
      simp only [Option.some.injEq, Prod.mk.injEq] at h
      obtain ⟨rfl, rfl⟩ := h
      exact ⟨c, t, rfl, hc, rfl, rfl⟩
    · simp at h

theorem eq_of_cutIdentifier {t p r : Text} (h : cutIdentifier t = some (p, r)) :
    t = p ++ r := by
  obtain ⟨c, s, rfl, -, rfl, rfl⟩ := exists_of_cutIdentifier h
  rw [List.cons_append, List.takeWhile_append_dropWhile]

theorem isIdentifier_of_cutIdentifier {t p r : Text} (h : cutIdentifier t = some (p, r)) :
    isIdentifier p = true := by
  obtain ⟨c, s, -, hc, rfl, -⟩ := exists_of_cutIdentifier h
  simp only [isIdentifier, hc, Bool.true_and]
  exact List.all_takeWhile

end Overlay.Text
