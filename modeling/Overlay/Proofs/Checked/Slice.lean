/-
Texts in bytes, and what stops a program that slices them.

The readers of the library walk over characters, and have no way to go wrong: each of them
gives a result or an error of the text. A program that reads the same texts in UTF-8 works with
offsets in bytes, and it can be stopped: by a slice outside of the text or inside a character, by
a count that would fall below zero, by an element that is not there, by a builder that refuses
what it is given, and by a loop that does not come to an end. The files of this directory write
the readers once more in that way, with every such place as a `Crash`, and show for each that it
comes to the same as the reader of the library. So none of the crashes is ever reached.

A checked reader therefore has one lemma, an equation: it is `ofExcept` of the reader of the
library, or `.ok` of it where that cannot fail. It is not said apart that it does not crash, since
`ofExcept` has no crash to give (`ofExcept_ne_crash`). And because these are equations, a reader
that calls others is dealt with by rewriting its calls and nothing else.

Here are the crashes and the slices. All that the later files need to know of a slice is that one
behind a first part of the text gives the rest (`sliceFrom_append` and its like): an offset is
shown to be right by naming the part in front of it.
-/
import Overlay.Violation

set_option autoImplicit false

namespace Overlay

/-! ## Crashes

The crash and the fault of a text are kept apart, as the two ways in which a reader can end without
a result. A fault is reported, and the program goes on; so whatever works on faults, such as
`mapFault`, passes a crash on as it is. -/

/-- What stops a program. -/
inductive Crash where
  /-- An end of a slice lies outside of the text or inside a character, or the ends cross. -/
  | slice
  /-- There is no element at this place of a list. -/
  | index
  /-- A number falls below zero. -/
  | underflow
  /-- A builder asserts what does not hold. -/
  | refused (violation : Violation)
  /-- A variant has an arity that its declaration does not have. -/
  | arity
  /-- The cursor of a loop does not move on. -/
  | stuck
  deriving DecidableEq, Repr

/-- How a checked function ends where it has no result. -/
inductive Stop (ε : Type) where
  | crash (c : Crash)
  /-- The fault is one of the text, and is reported. -/
  | fault (e : ε)
  deriving DecidableEq, Repr

abbrev Checked (ε α : Type) := Except (Stop ε) α

namespace Checked

variable {ε ε' α β : Type}

def crash (c : Crash) : Checked ε α := .error (.crash c)

/-- A function that does not crash. -/
def ofExcept (x : Except ε α) : Checked ε α := x.mapError .fault

def mapFault (f : ε → ε') (x : Checked ε α) : Checked ε' α :=
  x.mapError fun
    | .crash c => .crash c
    | .fault e => .fault (f e)

@[simp] theorem ofExcept_ok (a : α) : ofExcept (.ok a : Except ε α) = .ok a := rfl

@[simp] theorem ofExcept_error (e : ε) :
    ofExcept (.error e : Except ε α) = .error (.fault e) := rfl

@[simp] theorem ok_bind (a : α) (f : α → Checked ε β) : ((.ok a : Checked ε α) >>= f) = f a := rfl

@[simp] theorem error_bind (s : Stop ε) (f : α → Checked ε β) :
    ((.error s : Checked ε α) >>= f) = .error s := rfl

/-- Steps of the library that follow each other are steps without a crash that do so. -/
theorem ofExcept_bind (x : Except ε α) (f : α → Except ε β) :
    ofExcept (x >>= f) = ofExcept x >>= fun a => ofExcept (f a) := by
  cases x <;> rfl

/-- A result can be changed before or after. -/
theorem ofExcept_map (x : Except ε α) (f : α → β) :
    ofExcept (x.map f) = (ofExcept x).map f := by
  cases x <;> rfl

/-- A fault can be changed before or after. -/
theorem mapFault_ofExcept (x : Except ε α) (f : ε → ε') :
    mapFault f (ofExcept x) = ofExcept (x.mapError f) := by
  cases x <;> rfl

/-- A branch that does not look at the text is the same on both sides. -/
theorem ofExcept_ite {p : Prop} [Decidable p] (x y : Except ε α) :
    ofExcept (if p then x else y) = if p then ofExcept x else ofExcept y :=
  apply_ite ofExcept p x y

/-- A function that does not crash can be applied to all elements of a list. -/
theorem mapM_ofExcept (f : α → Except ε β) (xs : List α) :
    xs.mapM (fun x => ofExcept (f x)) = ofExcept (xs.mapM f) := by
  induction xs with
  | nil => rfl
  | cons x xs ih =>
    rw [List.mapM_cons, List.mapM_cons, ih]
    cases f x with
    | error e => rfl
    | ok y => cases xs.mapM f <;> rfl

/-- The same for a function that has no fault either. It may be known of the elements of this list
only. -/
theorem mapM_eq_ok {f : α → Checked ε β} {g : α → β} {xs : List α}
    (h : ∀ x ∈ xs, f x = .ok (g x)) : xs.mapM f = .ok (xs.map g) := by
  induction xs with
  | nil => rfl
  | cons x xs ih =>
    rw [List.mapM_cons, h x List.mem_cons_self, ih fun y hy => h y (List.mem_cons_of_mem x hy)]
    rfl

/-- A function that does not crash ends as the function that it stands for. -/
theorem ofExcept_ne_crash (x : Except ε α) (c : Crash) : ofExcept x ≠ .error (.crash c) := by
  cases x <;> simp

end Checked

/-! ## Sizes

The size is by recursion on the characters, and so is the search for an offset. Both go one
character at a time, so an offset inside a character is never come to. -/

namespace Text

/-- The number of bytes of a text. -/
def size : Text → Nat
  | [] => 0
  | c :: t => c.utf8Size + size t

@[simp] theorem size_nil : size [] = 0 := rfl

@[simp] theorem size_cons (c : Char) (t : Text) : size (c :: t) = c.utf8Size + size t := rfl

/-- The sizes of the parts add up. -/
@[simp] theorem size_append (t u : Text) : size (t ++ u) = size t + size u := by
  induction t with
  | nil => exact (Nat.zero_add _).symm
  | cons c t ih => rw [List.cons_append, size_cons, size_cons, ih, Nat.add_assoc]

/-- Each character takes a byte at least. -/
theorem length_le_size (t : Text) : t.length ≤ size t := by
  induction t with
  | nil => exact Nat.le_refl 0
  | cons c t ih =>
    have := c.utf8Size_pos
    rw [List.length_cons, size_cons]
    omega

/-- The text in front of an offset and the text behind it; `none` if the offset lies outside of
the text or inside a character. -/
def splitAt? : Text → Nat → Option (Text × Text)
  | t, 0 => some ([], t)
  | [], _ + 1 => none
  | c :: t, n + 1 =>
    if c.utf8Size ≤ n + 1 then (splitAt? t (n + 1 - c.utf8Size)).map (consFst c) else none

/-- The offset behind a first part splits the text there. -/
theorem splitAt?_append (p r : Text) : splitAt? (p ++ r) (size p) = some (p, r) := by
  induction p with
  | nil => cases r <;> rfl
  | cons c p ih =>
    -- a character has bytes, so the offset of a text that is not empty is no zero
    obtain ⟨n, hn⟩ : ∃ n, size (c :: p) = n + 1 :=
      Nat.exists_eq_add_one.2 (Nat.lt_of_lt_of_le c.utf8Size_pos (Nat.le_add_right _ _))
    have hle : c.utf8Size ≤ n + 1 := hn ▸ Nat.le_add_right _ _
    have hrest : n + 1 - c.utf8Size = size p := by
      rw [← hn, size_cons]
      omega
    rw [hn, List.cons_append, splitAt?, if_pos hle, hrest, ih]
    rfl

/-- Where an offset splits a text, it is the size of the part in front. -/
theorem append_of_splitAt? {t p r : Text} {i : Nat} (h : splitAt? t i = some (p, r)) :
    t = p ++ r ∧ i = size p := by
  fun_induction splitAt? t i generalizing p with
  | case1 t =>
    obtain ⟨rfl, rfl⟩ := Prod.mk.inj (Option.some.inj h)
    exact ⟨rfl, rfl⟩
  | case2 => simp at h
  | case3 c t n hle ih =>
    obtain ⟨q, hq, rfl⟩ := map_consFst_eq_some_iff.1 h
    obtain ⟨rfl, hsize⟩ := ih hq
    refine ⟨rfl, ?_⟩
    rw [size_cons, ← hsize]
    omega
  | case4 => simp at h

end Text

/-! ## Differences and slices

Each is stated twice. The first form has the text and the offset put together from the parts, and is
proved by the search. The second takes them as they come in a reader, with the equations that say
what they are made of. -/

namespace Checked

variable {ε : Type}

/-- The difference of two numbers, the second of which must not be greater. -/
def sub (m n : Nat) : Checked ε Nat := if n ≤ m then .ok (m - n) else crash .underflow

/-- A difference does not crash if the second number is not the greater one. -/
theorem sub_eq {m n : Nat} (h : n ≤ m) : (sub m n : Checked ε Nat) = .ok (m - n) := if_pos h

/-- The text from an offset on. -/
def sliceFrom (t : Text) (i : Nat) : Checked ε Text :=
  match Text.splitAt? t i with
  | some (_, r) => .ok r
  | none => crash .slice

/-- The text up to an offset. -/
def sliceTo (t : Text) (i : Nat) : Checked ε Text :=
  match Text.splitAt? t i with
  | some (p, _) => .ok p
  | none => crash .slice

/-- The text between two offsets. -/
def slice (t : Text) (i j : Nat) : Checked ε Text :=
  if i ≤ j then sliceTo t j >>= fun front => sliceFrom front i else crash .slice

/-- A slice that starts behind a first part is the rest. -/
theorem sliceFrom_append (p r : Text) : (sliceFrom (p ++ r) p.size : Checked ε Text) = .ok r := by
  rw [sliceFrom, Text.splitAt?_append]

/-- An offset inside a character is none. -/
example : (sliceFrom ['é', 'a'] 1 : Checked ε Text) = crash .slice := rfl

/-- A slice that ends behind a first part is that part. -/
theorem sliceTo_append (p r : Text) : (sliceTo (p ++ r) p.size : Checked ε Text) = .ok p := by
  rw [sliceTo, Text.splitAt?_append]

/-- A slice between two parts is the part in the middle. -/
theorem slice_append (p m r : Text) :
    (slice (p ++ (m ++ r)) p.size (p.size + m.size) : Checked ε Text) = .ok m := by
  rw [slice, if_pos (Nat.le_add_right _ _), ← List.append_assoc, ← Text.size_append,
    sliceTo_append, ok_bind, sliceFrom_append]

section OfEq

variable {t p m r : Text} {i j : Nat}

/-- A slice from an offset, where the text and the offset are known by their parts. -/
theorem sliceFrom_of_eq (h : t = p ++ r) (hi : i = p.size) :
    (sliceFrom t i : Checked ε Text) = .ok r := by
  rw [h, hi, sliceFrom_append]

/-- A slice up to an offset, where they are known by their parts. -/
theorem sliceTo_of_eq (h : t = p ++ r) (hi : i = p.size) :
    (sliceTo t i : Checked ε Text) = .ok p := by
  rw [h, hi, sliceTo_append]

/-- A slice between two offsets, where they are known by their parts. -/
theorem slice_of_eq (h : t = p ++ (m ++ r)) (hi : i = p.size) (hj : j = p.size + m.size) :
    (slice t i j : Checked ε Text) = .ok m := by
  rw [h, hi, hj, slice_append]

end OfEq

end Checked

/-! ## Offsets of what is left

The readers of the library hand on the text that is left, and a reader of bytes hands on the offset
where it starts. The offset belongs to what is left as long as that is an end of the text; then what
was read moves the offset by its size, and no offset is told in another way. -/

namespace Text

variable {t p r s : Text}

/-- The offset in a text from which on `r` is left. -/
def offset (t r : Text) : Nat := size t - size r

theorem offset_self (t : Text) : offset t t = 0 := Nat.sub_self _

/-- Behind a first part the offset is its size. -/
theorem offset_append (p r : Text) : offset (p ++ r) r = size p := by
  rw [offset, size_append]
  omega

/-- No offset lies outside of the text. -/
theorem offset_le (t r : Text) : offset t r ≤ size t := Nat.sub_le _ _

/-- An end of a text is not larger than the text. -/
theorem size_le_of_suffix (h : r <:+ t) : size r ≤ size t := by
  obtain ⟨p, rfl⟩ := h
  rw [size_append]
  omega

/-- Behind `p` the offset is greater by the size of `p`. -/
theorem offset_add {n : Nat} (hs : s <:+ t) (h : s = p ++ r) (hn : n = size p) :
    offset t s + n = offset t r := by
  have hle := size_le_of_suffix hs
  rw [h, size_append] at hle
  rw [offset, offset, h, size_append]
  omega

/-- Where less is left the offset is greater. -/
theorem offset_lt (h : r <:+ t) (hs : s <:+ r) (hlt : s.length < r.length) :
    offset t r < offset t s := by
  obtain ⟨p, rfl⟩ := hs
  have hp : 0 < size p := by
    have := length_le_size p
    rw [List.length_append] at hlt
    omega
  have := offset_add h rfl rfl
  omega

end Text

namespace Checked

variable {ε α : Type} {t r : Text}

/-- The size of the part in front of an end of the text. -/
theorem sub_size_of_eq {p : Text} (h : t = p ++ r) :
    (sub t.size r.size : Checked ε Nat) = .ok p.size := by
  subst h
  rw [sub_eq (Text.size_le_of_suffix (List.suffix_append p r))]
  exact congrArg Except.ok (Text.offset_append p r)

/-- The size of the blanks in front, as the difference of two sizes. -/
theorem sub_size_trimStart (t : Text) :
    (sub t.size (Text.trimStart t).size : Checked ε Nat)
      = .ok (Text.size (t.takeWhile Text.isBlank)) :=
  sub_size_of_eq (Text.takeWhile_append_trimStart t).symm

/-- The slice from the offset of what is left is what is left. -/
theorem sliceFrom_offset (h : r <:+ t) :
    (sliceFrom t (t.offset r) : Checked ε Text) = .ok r := by
  obtain ⟨p, rfl⟩ := h
  rw [Text.offset_append, sliceFrom_append]

/-- What is left at an offset is an end of the text, and the offset is its own. -/
theorem suffix_of_sliceFrom {i : Nat} (h : (sliceFrom t i : Checked ε _) = .ok r) :
    r <:+ t ∧ i = t.offset r := by
  rw [sliceFrom] at h
  cases hsplit : Text.splitAt? t i with
  | none =>
    rw [hsplit] at h
    simp [crash] at h
  | some parts =>
    obtain ⟨p, s⟩ := parts
    rw [hsplit] at h
    obtain rfl := Except.ok.inj h
    obtain ⟨rfl, rfl⟩ := Text.append_of_splitAt? hsplit
    exact ⟨List.suffix_append p s, (Text.offset_append p s).symm⟩

/-- What a reader gives that works on a text `t`, with the offset of what it leaves. -/
def located (t : Text) (x : Except ε (α × Text)) : Checked ε (α × Nat) :=
  (ofExcept x).map fun parts => (parts.1, t.offset parts.2)

variable {β : Type} {f : α × Text → Except ε (β × Text)} {g : α × Nat → Checked ε (β × Nat)}

@[simp] theorem located_ok (t : Text) (a : α) (r : Text) :
    located t (.ok (a, r) : Except ε (α × Text)) = .ok (a, t.offset r) := rfl

@[simp] theorem located_error (t : Text) (e : ε) :
    located t (.error e : Except ε (α × Text)) = .error (.fault e) := rfl

/-- A reader goes on where the one before it stands. -/
theorem located_bind {x : Except ε (α × Text)}
    (h : ∀ a r, x = .ok (a, r) → g (a, t.offset r) = located t (f (a, r))) :
    (located t x >>= g) = located t (x >>= f) := by
  cases x with
  | error e => rfl
  | ok parts => exact h parts.1 parts.2 rfl

/-- A reader goes on where nothing was read before it. -/
theorem ofExcept_bind_located {x : Except ε α} {f : α → Except ε (β × Text)}
    {g : α → Checked ε (β × Nat)} (h : ∀ a, g a = located t (f a)) :
    (ofExcept x >>= g) = located t (x >>= f) := by
  cases x with
  | error e => rfl
  | ok a => exact h a

end Checked

end Overlay
