/-
Scanning the bytes of a text.

The marks, brackets and quotes that the readers look for are ASCII characters. In UTF-8 such a
character is one byte, and no byte of any other character is one of them. So a reader that walks
over the bytes does what it does over the characters: it passes the bytes of a character that is
not ASCII without a change, and finds the same places. The bytes of a text are a text again
here, with one character for each byte, so the readers of the library themselves are run on them
(`bytes`); what they find are the bytes of what they find in the text.

That needs no second definition of a cut for bytes, and no list of the characters that are looked
for. A mark is asked two things, that it is an ASCII character, and that of the characters beside it
it sees the ASCII ones only (`Mark.OnBytes`); brackets are asked that no other character opens or
closes one. From this one induction over the text gives the cut (`cutFrom_bytes`), and one over the
cuts gives the split (`split_bytes`), for all marks and brackets at once.

A reader of bytes returns offsets, and takes its slices by them. The second part does that for
the cuts and for the splits at separators. The parts of a split are taken by their sizes, one after
the other, so a text is first said to be made of parts with so many bytes between them (`Joined`),
and then read by these sizes.
-/
import Overlay.Proofs.Checked.Slice
import Overlay.Proofs.Text.Cuts

set_option autoImplicit false

namespace Overlay

namespace Text

variable {b : Brackets} {mark : Mark} {depth : Nat} {before before' : Option Char} {t u : Text}

/-! ## Bytes

The one place where the encoding is looked at is `isAscii_of_mem_bytesOf`: a byte of two, three or
four has its highest bit set, and an ASCII character has not. -/

/-- The characters that are one byte in UTF-8. -/
def isAscii (c : Char) : Bool := c.toNat < 0x80

/-- The bytes of a character, each as the character of its number. -/
def bytesOf (c : Char) : Text := (String.utf8EncodeChar c).map Char.ofUInt8

/-- The bytes of a text. -/
def bytes (t : Text) : Text := t.flatMap bytesOf

/-- A byte keeps its number as a character. -/
theorem toNat_ofUInt8 (x : UInt8) : (Char.ofUInt8 x).toNat = x.toNat := rfl

/-- An ASCII character is its only byte. -/
theorem bytesOf_of_isAscii {c : Char} (h : isAscii c = true) : bytesOf c = [c] := by
  have hlt : c.val.toNat < 0x80 := by simpa [isAscii] using h
  have hbyte : (UInt8.ofNat c.val.toNat).toNat = c.val.toNat := by
    rw [UInt8.toNat_ofNat']
    omega
  rw [bytesOf, String.utf8EncodeChar, if_pos (by omega), List.map_singleton]
  congr 1
  refine Char.toNat_inj.1 ?_
  rw [toNat_ofUInt8, hbyte]
  rfl

/-- No byte of a character that is not ASCII is an ASCII character. -/
theorem isAscii_of_mem_bytesOf {c d : Char} (h : isAscii c = false) (hd : d ∈ bytesOf c) :
    isAscii d = false := by
  have hge : 0x80 ≤ c.val.toNat := by simpa [isAscii] using h
  obtain ⟨x, hx, rfl⟩ := List.mem_map.1 hd
  have hbyte : 0x80 ≤ x.toNat := by
    rw [String.utf8EncodeChar, if_neg (by omega)] at hx
    -- two, three or four bytes
    split at hx
    · simp only [List.mem_cons, List.not_mem_nil, or_false] at hx
      rcases hx with rfl | rfl <;>
      · rw [UInt8.toNat_ofNat']
        omega
    · split at hx
      · simp only [List.mem_cons, List.not_mem_nil, or_false] at hx
        rcases hx with rfl | rfl | rfl <;>
        · rw [UInt8.toNat_ofNat']
          omega
      · simp only [List.mem_cons, List.not_mem_nil, or_false] at hx
        rcases hx with rfl | rfl | rfl | rfl <;>
        · rw [UInt8.toNat_ofNat']
          omega
  rw [isAscii, toNat_ofUInt8, decide_eq_false_iff_not]
  omega

/-- A character that is not ASCII is none of those that are. -/
theorem ne_of_isAscii {c d : Char} (hc : isAscii c = false) (hd : isAscii d = true) : c ≠ d := by
  rintro rfl
  rw [hc] at hd
  exact Bool.false_ne_true hd

/-- A character has as many bytes as its size says. -/
theorem length_bytesOf (c : Char) : (bytesOf c).length = c.utf8Size := by
  rw [bytesOf, List.length_map, String.length_utf8EncodeChar]

/-- An ASCII character has the size of one byte. -/
theorem utf8Size_of_isAscii {c : Char} (h : isAscii c = true) : c.utf8Size = 1 := by
  rw [← length_bytesOf, bytesOf_of_isAscii h]
  rfl

/-- Every character has a byte. -/
theorem bytesOf_ne_nil (c : Char) : bytesOf c ≠ [] := by
  rw [← List.length_pos_iff, length_bytesOf]
  exact c.utf8Size_pos

@[simp] theorem bytes_nil : bytes [] = [] := rfl

@[simp] theorem bytes_cons (c : Char) (t : Text) : bytes (c :: t) = bytesOf c ++ bytes t := rfl

/-- The size of a text is the number of its bytes. -/
theorem length_bytes (t : Text) : (bytes t).length = size t := by
  induction t with
  | nil => rfl
  | cons c t ih => rw [bytes_cons, List.length_append, length_bytesOf, ih, size_cons]

/-- So the parts of a text are as long in bytes as their sizes say. -/
theorem map_length_bytes (ps : List Text) : (ps.map bytes).map List.length = ps.map size := by
  rw [List.map_map]
  exact List.map_congr_left fun p _ => length_bytes p

/-! ## Cuts on bytes

A mark looks at the character before it and at the one behind it. On bytes these are other than in
the text where a character is not ASCII, but then the mark sees nothing there in either (`seen`).
The induction is for any character before the text that is seen as the same. -/

/-- What a mark can see of the character beside it. -/
def seen (beside : Option Char) : Option Char := beside.filter isAscii

/-- A character that is not ASCII is not seen. -/
theorem seen_of_not_isAscii {c : Char} (h : isAscii c = false) : seen (some c) = none := by
  simp [seen, h]

/-- The mark is an ASCII character, and looks for none but such beside it. -/
structure Mark.OnBytes (mark : Mark) : Prop where
  isAscii : ∀ {before c after}, mark before c after = true → Text.isAscii c = true
  congr : ∀ {before before' c after after'}, seen before = seen before' →
    seen after.head? = seen after'.head? → mark before c after = mark before' c after'

/-- The brackets are ASCII characters. -/
def Brackets.OnBytes (b : Brackets) : Prop :=
  ∀ c, isAscii c = false → ∀ depth, b.step depth c = depth

/-- What is seen behind a place of the text is seen behind it among the bytes. -/
theorem seen_head?_bytes (t : Text) : seen (bytes t).head? = seen t.head? := by
  cases t with
  | nil => rfl
  | cons c t =>
    cases hc : isAscii c with
    | true => rw [bytes_cons, bytesOf_of_isAscii hc, List.singleton_append, List.head?_cons,
        List.head?_cons]
    | false =>
      obtain ⟨d, u, hu⟩ := List.exists_cons_of_ne_nil (bytesOf_ne_nil c)
      have hd : isAscii d = false := isAscii_of_mem_bytesOf hc (hu ▸ List.mem_cons_self)
      rw [bytes_cons, hu, List.cons_append, List.head?_cons, List.head?_cons,
        seen_of_not_isAscii hd, seen_of_not_isAscii hc]

/-- Characters that are not ASCII are passed. -/
theorem cutFrom_of_not_isAscii (hmark : mark.OnBytes) (hb : b.OnBytes)
    (hu : ∀ c ∈ u, isAscii c = false) :
    cutFrom b mark depth before (u ++ t)
      = (cutFrom b mark depth (u.getLast?.or before) t).map fun parts =>
          (u ++ parts.1, parts.2) := by
  induction u generalizing before with
  | nil => simp
  | cons c u ih =>
    have hc := hu c List.mem_cons_self
    have hnot : ¬ (depth = 0 ∧ mark before c (u ++ t) = true) := by
      rintro ⟨-, hm⟩
      rw [hmark.isAscii hm] at hc
      simp at hc
    -- the mark in `t` sees the last character of `u` before it, or what stood before `u`
    have hlast : (c :: u).getLast?.or before = u.getLast?.or (some c) := by
      rw [List.getLast?_cons]
      cases u.getLast? <;> rfl
    rw [List.cons_append, cutFrom, if_neg hnot, hb c hc,
      ih fun d hd => hu d (List.mem_cons_of_mem c hd), Option.map_map, hlast]
    rfl

/-- **A cut on bytes is the cut.** It is made at the same place, whatever stands before the text, as
long as the mark sees it as the same. -/
theorem cutFrom_bytes (hmark : mark.OnBytes) (hb : b.OnBytes) (h : seen before' = seen before) :
    cutFrom b mark depth before' (bytes t)
      = (cutFrom b mark depth before t).map fun parts => (bytes parts.1, bytes parts.2) := by
  induction t generalizing depth before before' with
  | nil => rfl
  | cons c t ih =>
    have hsame : mark before' c (bytes t) = mark before c t :=
      hmark.congr h (seen_head?_bytes t)
    rw [bytes_cons, cutFrom]
    cases hc : isAscii c with
    | true =>
      rw [bytesOf_of_isAscii hc, List.singleton_append, cutFrom, hsame]
      by_cases hm : depth = 0 ∧ mark before c t = true
      · rw [if_pos hm, if_pos hm]
        rfl
      · rw [if_neg hm, if_neg hm, ih rfl, Option.map_map, Option.map_map]
        congr 1
        funext parts
        rw [Function.comp_apply, Function.comp_apply, consFst, consFst, bytes_cons,
          bytesOf_of_isAscii hc]
        rfl
    | false =>
      have hnot : ¬ (depth = 0 ∧ mark before c t = true) := by
        rintro ⟨-, hm⟩
        rw [hmark.isAscii hm] at hc
        simp at hc
      -- the character before `t` is `c`, and before its bytes the last byte of `c`: a mark sees
      -- neither of them
      obtain ⟨d, hd⟩ : ∃ d, (bytesOf c).getLast? = some d :=
        ⟨_, List.getLast?_eq_some_getLast (bytesOf_ne_nil c)⟩
      have hlast : seen ((bytesOf c).getLast?.or before') = seen (some c) := by
        rw [hd, Option.some_or, seen_of_not_isAscii hc,
          seen_of_not_isAscii (isAscii_of_mem_bytesOf hc (List.mem_of_getLast? hd))]
      rw [if_neg hnot, hb c hc, cutFrom_of_not_isAscii hmark hb fun d => isAscii_of_mem_bytesOf hc,
        ih hlast, Option.map_map, Option.map_map]
      rfl

/-- The same where nothing stands before the text. -/
theorem cut_bytes (hmark : mark.OnBytes) (hb : b.OnBytes) (t : Text) :
    cut b mark (bytes t) = (cut b mark t).map fun parts => (bytes parts.1, bytes parts.2) :=
  cutFrom_bytes hmark hb rfl

/-! ## The marks and brackets of the library

Each mark is an ASCII character next to which certain ASCII characters may or may not stand. -/

/-- Whether an ASCII character stands beside a mark is told by what is seen there. -/
theorem eq_some_congr {c : Char} {o o' : Option Char} (hc : isAscii c = true)
    (h : seen o = seen o') : o = some c ↔ o' = some c := by
  have hseen : ∀ o : Option Char, o = some c ↔ seen o = some c := by
    intro o
    simp [seen, Option.filter_eq_some_iff, hc]
  rw [hseen o, hseen o', h]

/-- A mark that is a single character looks at nothing beside it. -/
theorem Mark.onBytes_char {m : Char} (h : Text.isAscii m = true) : (Mark.char m).OnBytes where
  isAscii hm := by
    rw [Mark.char, beq_iff_eq] at hm
    rwa [hm]
  congr _ _ := rfl

/-- The mark between scopes looks at the character behind it. -/
theorem Mark.onBytes_scope : Mark.scope.OnBytes where
  isAscii hm := by
    simp only [Mark.scope, Bool.and_eq_true, beq_iff_eq] at hm
    rw [hm.1]
    rfl
  congr _ hafter := by
    rw [Bool.eq_iff_iff]
    simp only [Mark.scope, Bool.and_eq_true, beq_iff_eq]
    exact and_congr_right fun _ => eq_some_congr (by decide) hafter

/-- The colon looks at both sides. -/
theorem Mark.onBytes_colon : Mark.colon.OnBytes where
  isAscii hm := by
    simp only [Mark.colon, Bool.and_eq_true, beq_iff_eq] at hm
    rw [hm.1.1]
    rfl
  congr hbefore hafter := by
    rw [Bool.eq_iff_iff]
    simp only [Mark.colon, Bool.and_eq_true, beq_iff_eq, bne_iff_ne]
    exact and_congr (and_congr_right fun _ => not_congr (eq_some_congr (by decide) hbefore))
      (not_congr (eq_some_congr (by decide) hafter))

/-- The sign of assignment looks at both sides, and at several characters before it. -/
theorem Mark.onBytes_assign : Mark.assign.OnBytes where
  isAscii hm := by
    simp only [Mark.assign, Bool.and_eq_true, beq_iff_eq] at hm
    rw [hm.1.1]
    rfl
  congr hbefore hafter := by
    rw [Bool.eq_iff_iff]
    simp only [Mark.assign, Bool.and_eq_true, beq_iff_eq, bne_iff_ne, Bool.not_eq_true',
      decide_eq_false_iff_not, List.mem_cons, List.not_mem_nil, or_false]
    refine and_congr (and_congr_right fun _ => not_congr ?_)
      (not_congr (eq_some_congr (by decide) hafter))
    exact or_congr (eq_some_congr (by decide) hbefore)
      (or_congr (eq_some_congr (by decide) hbefore)
        (or_congr (eq_some_congr (by decide) hbefore) (eq_some_congr (by decide) hbefore)))

/-- Brackets can be looked for among bytes if all of them are ASCII characters. -/
theorem Brackets.onBytes_of_all (hopeners : b.openers.all isAscii = true)
    (hclosers : b.closers.all isAscii = true) : b.OnBytes := by
  intro c hc depth
  have hopener : c ∉ b.openers := fun hmem => by
    simp [List.all_eq_true.1 hopeners c hmem] at hc
  have hcloser : c ∉ b.closers := fun hmem => by
    simp [List.all_eq_true.1 hclosers c hmem] at hc
  rw [step, if_neg hopener, if_neg hcloser]

theorem Brackets.onBytes_all : Brackets.all.OnBytes := onBytes_of_all rfl rfl

theorem Brackets.onBytes_angled : Brackets.angled.OnBytes := onBytes_of_all rfl rfl

theorem Brackets.onBytes_round : Brackets.round.OnBytes := onBytes_of_all rfl rfl

/-! ## Splits on bytes

Behind a mark a split drops so many characters, and on bytes so many bytes. These are the same only
if what is dropped is ASCII, which the mark has to see to. -/

/-- The mark and the `more` characters that are dropped behind it are ASCII. -/
structure Mark.Separates (mark : Mark) (more : Nat) : Prop extends mark.OnBytes where
  wide : ∀ {before c after}, mark before c after = true →
    more ≤ after.length ∧ ∀ d ∈ after.take more, Text.isAscii d = true

/-- Behind a single character nothing is dropped. -/
theorem Mark.separates_char {m : Char} (h : Text.isAscii m = true) :
    (Mark.char m).Separates 0 where
  toOnBytes := onBytes_char h
  wide _ := ⟨Nat.zero_le _, by simp⟩

/-- The second colon of a separator is one byte as well. -/
theorem Mark.separates_scope : Mark.scope.Separates 1 where
  toOnBytes := onBytes_scope
  wide {before c after} hm := by
    simp only [Mark.scope, Bool.and_eq_true, beq_iff_eq] at hm
    cases after with
    | nil => simp at hm
    | cons d after =>
      obtain ⟨-, hd⟩ := hm
      obtain rfl := Option.some.inj hd
      simp [Text.isAscii]

/-- The bytes of a text are those of its parts. -/
theorem bytes_append (t u : Text) : bytes (t ++ u) = bytes t ++ bytes u := List.flatMap_append

/-- Dropping the bytes of a first part leaves the bytes of the rest. -/
theorem drop_bytes_append (p r : Text) : (bytes (p ++ r)).drop p.size = bytes r := by
  rw [bytes_append, List.drop_left' (length_bytes p)]

/-- A text of ASCII characters is its own bytes. -/
theorem bytes_of_forall (h : ∀ c ∈ t, isAscii c = true) : bytes t = t := by
  induction t with
  | nil => rfl
  | cons c t ih =>
    rw [bytes_cons, bytesOf_of_isAscii (h c List.mem_cons_self),
      ih fun d hd => h d (List.mem_cons_of_mem c hd)]
    rfl

/-- So its size is its length. -/
theorem size_of_forall (h : ∀ c ∈ t, isAscii c = true) : size t = t.length := by
  rw [← length_bytes, bytes_of_forall h]

/-- **A split on bytes is the split.** The parts are the bytes of its parts. -/
theorem split_bytes {more : Nat} (hmark : mark.Separates more) (hb : b.OnBytes) (t : Text) :
    split b mark more (bytes t) = (split b mark more t).map bytes := by
  fun_induction split b mark more t with
  | case1 t hcut =>
    have hbytes := cut_bytes hmark.toOnBytes hb t
    rw [hcut] at hbytes
    exact split_of_cut_eq_none hbytes
  | case2 t p r hcut ih =>
    have hbytes := cut_bytes hmark.toOnBytes hb t
    rw [hcut] at hbytes
    obtain ⟨-, c, before, hm, -⟩ := depth_of_cutFrom hcut
    obtain ⟨hlen, hascii⟩ := hmark.wide hm
    -- what is dropped behind the mark is ASCII, so it is as many bytes as characters
    have hdrop : (bytes r).drop more = bytes (r.drop more) := by
      have htake : bytes r = r.take more ++ bytes (r.drop more) := by
        rw [← bytes_of_forall hascii, ← bytes_append, List.take_append_drop]
      rw [htake]
      exact List.drop_left' (by rw [List.length_take, Nat.min_eq_left hlen])
    rw [split_of_cut_eq_some hbytes, hdrop, ih]
    rfl

end Text

/-! ## Cuts and splits by offsets

Here the places among the bytes are used as offsets in the text. -/

namespace Checked

variable {ε : Type}

open Text (Brackets Mark)

/-- `Text.cut`, from the place of the mark among the bytes. -/
def cut (b : Brackets) (mark : Mark) (t : Text) : Checked ε (Option (Text × Text)) :=
  match Text.cut b mark t.bytes with
  | none => .ok none
  | some (p, _) => do
    let front ← sliceTo t p.length
    let rest ← sliceFrom t (p.length + 1)
    return some (front, rest)

/-- A cut by offsets gives the two parts of the text, and crashes on no text. -/
theorem cut_eq {b : Brackets} {mark : Mark} (hmark : mark.OnBytes) (hb : b.OnBytes) (t : Text) :
    (cut b mark t : Checked ε _) = .ok (Text.cut b mark t) := by
  rw [cut, Text.cut_bytes hmark hb]
  cases h : Text.cut b mark t with
  | none => rfl
  | some parts =>
    obtain ⟨p, r⟩ := parts
    obtain ⟨-, c, before, hm, rfl⟩ := Text.depth_of_cutFrom h
    have hc : ∀ d ∈ [c], Text.isAscii d = true := by simpa using hmark.isAscii hm
    -- the mark itself is one byte
    have hsize : p.size + 1 = (p ++ [c]).size := by
      rw [Text.size_append, Text.size_of_forall hc]
      rfl
    have hback : p ++ c :: r = (p ++ [c]) ++ r := by simp
    simp only [Option.map_some, Text.length_bytes]
    rw [sliceTo_append, hsize, hback, sliceFrom_append]
    rfl

/-- The parts of a text from the offset `i` on, which have the sizes given and `gap` bytes between
one and the next. The last part goes to the end. -/
def parts (t : Text) (gap i : Nat) : List Nat → Checked ε (List Text)
  | [] => .ok []
  | [_] => do
    let last ← sliceFrom t i
    return [last]
  | n :: m :: ns => do
    let part ← slice t i (i + n)
    let rest ← parts t gap (i + n + gap) (m :: ns)
    return part :: rest

/-- A text is made of parts with `gap` bytes between one and the next. -/
inductive Joined (gap : Nat) : List Text → Text → Prop
  | last (p : Text) : Joined gap [p] p
  | cons {p between t : Text} {ps : List Text} :
    between.size = gap → Joined gap ps t → Joined gap (p :: ps) (p ++ (between ++ t))

/-- There is always a last part. -/
theorem Joined.ne_nil {gap : Nat} {ps : List Text} {t : Text} (h : Joined gap ps t) : ps ≠ [] := by
  cases h <;> simp

/-- Read by their sizes, the parts of a text are those that it is made of. The text in front is for
the induction: the part read before belongs to it. -/
theorem parts_of_joined {gap : Nat} {ps : List Text} {t : Text} (h : Joined gap ps t)
    (front : Text) :
    (parts (front ++ t) gap front.size (ps.map Text.size) : Checked ε _) = .ok ps := by
  induction h generalizing front with
  | last p =>
    rw [List.map_singleton, parts, sliceFrom_append]
    rfl
  | @cons p between t ps hgap h ih =>
    have hnext : front ++ (p ++ (between ++ t)) = (front ++ p ++ between) ++ t := by simp
    have hsize : front.size + p.size + gap = (front ++ p ++ between).size := by
      rw [Text.size_append, Text.size_append, hgap]
    -- the rest of the parts is read with this one and the bytes behind it in front
    have hrest := ih (front ++ p ++ between)
    obtain ⟨q, qs, rfl⟩ := List.exists_cons_of_ne_nil h.ne_nil
    rw [List.map_cons, List.map_cons, parts, slice_append, ok_bind, hnext, hsize,
      ← List.map_cons, hrest]
    rfl

/-- `Text.split`, from the places of the marks among the bytes. -/
def split (b : Brackets) (mark : Mark) (more : Nat) (t : Text) : Checked ε (List Text) :=
  parts t (1 + more) 0 ((Text.split b mark more t.bytes).map List.length)

/-- A text is made of the parts of its split. -/
theorem joined_split {b : Brackets} {mark : Mark} {more : Nat} (hmark : mark.Separates more)
    (t : Text) : Joined (1 + more) (Text.split b mark more t) t := by
  fun_induction Text.split b mark more t with
  | case1 t => exact .last t
  | case2 t p r hcut ih =>
    obtain ⟨-, c, before, hm, rfl⟩ := Text.depth_of_cutFrom hcut
    obtain ⟨hlen, hascii⟩ := hmark.wide hm
    -- between two parts stands the mark, with what is dropped behind it
    have hbetween : Text.size (c :: r.take more) = 1 + more := by
      rw [Text.size_of_forall, List.length_cons, List.length_take, Nat.min_eq_left hlen,
        Nat.add_comm]
      exact List.forall_mem_cons.2 ⟨hmark.isAscii hm, hascii⟩
    have htext : p ++ c :: r = p ++ (c :: r.take more ++ r.drop more) := by
      rw [List.cons_append, List.take_append_drop]
    rw [htext]
    exact .cons hbetween ih

/-- A split by offsets gives the parts of the split, and crashes on no text. -/
theorem split_eq {b : Brackets} {mark : Mark} {more : Nat} (hmark : mark.Separates more)
    (hb : b.OnBytes) (t : Text) :
    (split b mark more t : Checked ε _) = .ok (Text.split b mark more t) := by
  rw [split, Text.split_bytes hmark hb, Text.map_length_bytes]
  exact parts_of_joined (joined_split hmark t) []

def splitCommas (t : Text) : Checked ε (List Text) := split .all (.char ',') 0 t

def splitScopes (t : Text) : Checked ε (List Text) :=
  (split .angled .scope 1 t).map fun ps => ps.map Text.trim

/-- At commas. -/
theorem splitCommas_eq (t : Text) : (splitCommas t : Checked ε _) = .ok (Text.splitCommas t) :=
  split_eq (Mark.separates_char rfl) Text.Brackets.onBytes_all t

/-- At the separators of scopes, without the blanks around them. -/
theorem splitScopes_eq (t : Text) : (splitScopes t : Checked ε _) = .ok (Text.splitScopes t) := by
  rw [splitScopes, split_eq Mark.separates_scope Text.Brackets.onBytes_angled]
  rfl

end Checked

end Overlay
