/-
Scripts, by a cursor.

The reader keeps an offset of the script. In turns it moves the offset past blanks, comments and
stray semicolons, and past an item. Nothing in its two loops says that they end: that is what
`Crash.stuck` stands for, which a loop ends in if a round of it does not move the offset forward,
or moves it out of the script. It never does, since an item, a comment and a semicolon each take
a character.

So the whole reading is that of the library, with the same errors on the same lines
(`parse_eq`).
-/
import Overlay.Proofs.Checked.Directive
import Overlay.Proofs.Checked.Statement
import Overlay.Proofs.Script.Composition

set_option autoImplicit false

namespace Overlay

/-! ## Comments and their ends

The library goes through comments character by character. The reader looks for their ends as pieces
of the text. So here the library is told by pieces as well: what it does at a line comment, at a
block comment, and at anything else. -/

namespace Script

variable {t : Text}

/-- A blank is skipped. -/
theorem skipTrivia_gap_blank {c : Char} (hc : Text.isBlank c = true) (t : Text) :
    skipTrivia .gap (c :: t) = skipTrivia .gap t := by
  have hslash : c ≠ '/' := by
    rintro rfl
    exact absurd hc (by decide)
  have hhash : c ≠ '#' := by
    rintro rfl
    exact absurd hc (by decide)
  rw [skipTrivia_gap_cons fun h => absurd h hslash, if_neg hhash, if_pos (.inr hc)]

/-- So are any number of them, at once. -/
theorem skipTrivia_gap_trimStart (t : Text) :
    skipTrivia .gap (Text.trimStart t) = skipTrivia .gap t := by
  induction t with
  | nil => rfl
  | cons c t ih =>
    cases hc : Text.isBlank c with
    | true =>
      rw [skipTrivia_gap_blank hc, ← ih, Text.trimStart, List.dropWhile_cons_of_pos hc]
      rfl
    | false => rw [Text.trimStart, List.dropWhile_cons_of_neg (by simp [hc])]

/-- A comment of one line ends at the line break, which is left as a blank. -/
theorem skipTrivia_line (t : Text) :
    skipTrivia .line t
      = match Text.breakOn ['\n'] t with
        | some (_, r) => skipTrivia .gap ('\n' :: r)
        | none => .ok [] := by
  induction t with
  | nil => rfl
  | cons c t ih =>
    rw [skipTrivia]
    by_cases hc : c = '\n'
    · subst hc
      rw [if_pos rfl]
      exact (skipTrivia_gap_blank rfl t).symm
    · rw [if_neg hc, ih, Text.breakOn_singleton_cons, if_neg (Ne.symm hc)]
      cases Text.breakOn ['\n'] t <;> rfl

/-- A comment up to the end of its line, with either of its marks. -/
theorem skipTrivia_gap_comment
    (h : Text.startsWith ['/', '/'] t = true ∨ Text.startsWith ['#'] t = true) :
    skipTrivia .gap t
      = match Text.breakOn ['\n'] t with
        | some (_, r) => skipTrivia .gap ('\n' :: r)
        | none => .ok [] := by
  rcases h with h | h
  · obtain ⟨s, hs⟩ := Option.isSome_iff_exists.1 h
    obtain rfl := Text.dropPiece_eq_some_iff.1 hs
    show skipTrivia .line s = _
    rw [skipTrivia_line, List.cons_append, List.cons_append, List.nil_append,
      Text.breakOn_singleton_cons, if_neg (by decide), Text.breakOn_singleton_cons,
      if_neg (by decide)]
    cases Text.breakOn ['\n'] s <;> rfl
  · obtain ⟨s, hs⟩ := Option.isSome_iff_exists.1 h
    obtain rfl := Text.dropPiece_eq_some_iff.1 hs
    rw [List.singleton_append, skipTrivia_gap_cons fun h => absurd h (by decide), if_pos rfl,
      skipTrivia_line, Text.breakOn_singleton_cons, if_neg (by decide)]
    cases Text.breakOn ['\n'] s <;> rfl

/-- Where none of the trivia starts, an item does. -/
theorem skipTrivia_gap_item (hblank : ∀ c, t.head? = some c → Text.isBlank c = false)
    (hcomment : ¬ (Text.startsWith ['/', '/'] t = true ∨ Text.startsWith ['#'] t = true))
    (hblock : Text.dropPiece ['/', '*'] t = none) (hstop : ¬ Text.startsWith [';'] t = true) :
    skipTrivia .gap t = .ok t := by
  cases t with
  | nil => rfl
  | cons c t =>
    obtain ⟨hline, hhash⟩ := not_or.1 hcomment
    have hopens : c = '/' → t.head? ≠ some '/' ∧ t.head? ≠ some '*' := by
      rintro rfl
      constructor
      · intro hhead
        obtain ⟨s, rfl⟩ := List.head?_eq_some_iff.1 hhead
        exact hline rfl
      · intro hhead
        obtain ⟨s, rfl⟩ := List.head?_eq_some_iff.1 hhead
        exact absurd hblock (by simp [Text.dropPiece])
    have hhash : ¬ c = '#' := by
      rintro rfl
      exact hhash rfl
    have hstop : ¬ (c = ';' ∨ Text.isBlank c = true) := by
      rintro (rfl | hc)
      · exact hstop rfl
      · rw [hblank c rfl] at hc
        exact Bool.false_ne_true hc
    rw [skipTrivia_gap_cons hopens, if_neg hhash, if_neg hstop]

end Script

namespace Checked

open Script (Cause Error Item)

variable {ε : Type} {script t : Text}

/-! ## Lines

A line break is one byte, so the breaks can be counted among the bytes. -/

/-- The line of an offset, from the line breaks among the bytes before it. -/
def lineOf (script : Text) (pos : Nat) : Checked ε Nat := do
  let front ← sliceTo script pos
  return Script.lineBreaks front.bytes + 1

/-- No byte of another character is a line break. -/
theorem lineBreaks_bytes (t : Text) : Script.lineBreaks t.bytes = Script.lineBreaks t := by
  induction t with
  | nil => rfl
  | cons c t ih =>
    have hc : (Text.bytesOf c).count '\n' = [c].count '\n' := by
      cases hascii : Text.isAscii c with
      | true => rw [Text.bytesOf_of_isAscii hascii]
      | false =>
        have hmem : '\n' ∉ Text.bytesOf c := fun hmem =>
          Text.ne_of_isAscii (Text.isAscii_of_mem_bytesOf hascii hmem) (by decide) rfl
        have hne : c ≠ '\n' := Text.ne_of_isAscii hascii (by decide)
        rw [List.count_eq_zero.2 hmem, List.count_singleton, beq_eq_false_iff_ne.2 hne]
        rfl
    show (Text.bytesOf c ++ Text.bytes t).count '\n' = ([c] ++ t).count '\n'
    rw [List.count_append, List.count_append, hc]
    exact congrArg _ ih

/-- The line of an offset is that of the text that is left there. -/
theorem lineOf_eq (h : t <:+ script) :
    (lineOf script (script.offset t) : Checked ε _) = .ok (Script.lineAt script t) := by
  obtain ⟨front, rfl⟩ := h
  have hbreaks : Script.lineBreaks (front ++ t) - Script.lineBreaks t
      = Script.lineBreaks front := by
    rw [Script.lineBreaks, List.count_append]
    exact Nat.add_sub_cancel _ _
  rw [lineOf, Text.offset_append, sliceTo_append, ok_bind, lineBreaks_bytes, Script.lineAt, hbreaks]
  rfl

/-! ## Between the items

The reader skips one thing at a time, blanks with the comment or the semicolon behind them, and asks
after each whether there is more to skip. It must be shown to move on each time, or the loop would
be stuck: that is the other half of every case here. -/

/-- The offset behind a comment or a semicolon that the text starts with, which is left from the
offset `pos` on; a comment of one line is passed up to its line break. -/
def skipOne (script : Text) (pos : Nat) (t : Text) : Checked Error (Option Nat) :=
  if Text.startsWith ['/', '/'] t ∨ Text.startsWith ['#'] t then
    .ok (some (pos + (find ['\n'] t).getD t.size))
  else
    match Text.dropPiece ['/', '*'] t with
    | some comment =>
      match find ['*', '/'] comment with
      | some n => .ok (some (pos + (n + 4)))
      | none => do
        let line ← lineOf script pos
        .error (.fault ⟨line, .unterminated .comment⟩)
    | none => if Text.startsWith [';'] t then .ok (some (pos + 1)) else .ok none

/-- The offset of the next item. -/
def skip (script : Text) (pos : Nat) : Checked Error Nat := do
  let rest ← sliceFrom script pos
  let trimmed := Text.trimStart rest
  let blanks ← sub rest.size trimmed.size
  match ← skipOne script (pos + blanks) trimmed with
  | none => return pos + blanks
  | some next =>
    if pos < next ∧ next ≤ script.size then skip script next else crash .stuck
termination_by script.size - pos

/-- What skipping comes to in a script. -/
def skipped (script : Text) : Except Text Text → Checked Error Nat
  | .ok r => .ok (script.offset r)
  | .error opening => .error (.fault ⟨Script.lineAt script opening, .unterminated .comment⟩)

/-- One round of skipping moves on: less is left to skip, and that comes to the same. -/
def Moves (script t : Text) : Prop :=
  ∃ r, r <:+ t ∧ r.length < t.length
    ∧ skipOne script (script.offset t) t = .ok (some (script.offset r))
    ∧ Script.skipTrivia .gap t = Script.skipTrivia .gap r

/-- A comment of one line, up to its line break or to the end. -/
theorem moves_of_comment (h : t <:+ script)
    (hblank : ∀ c, t.head? = some c → Text.isBlank c = false)
    (hcomment : Text.startsWith ['/', '/'] t = true ∨ Text.startsWith ['#'] t = true) :
    Moves script t := by
  rw [Moves, skipOne, if_pos hcomment, Script.skipTrivia_gap_comment hcomment, find]
  cases hbreak : Text.breakOn ['\n'] t with
  | none =>
    have hlen : 0 < t.length := by
      rw [List.length_pos_iff]
      rintro rfl
      rcases hcomment with h | h <;> exact absurd h (by decide)
    have hpos : script.offset t + t.size = script.offset [] :=
      Text.offset_add h (List.append_nil t).symm rfl
    exact ⟨[], List.nil_suffix, hlen, by rw [← hpos]; rfl, rfl⟩
  | some parts =>
    obtain ⟨p, r⟩ := parts
    have htext : t = p ++ '\n' :: r := Text.eq_of_breakOn hbreak
    -- a text that starts with a line break would start with a blank
    have hp : 0 < p.length := by
      rw [List.length_pos_iff]
      rintro rfl
      exact absurd (hblank '\n' (htext ▸ rfl)) (by decide)
    have hpos : script.offset t + p.size = script.offset ('\n' :: r) :=
      Text.offset_add h htext rfl
    refine ⟨'\n' :: r, htext ▸ List.suffix_append _ _, ?_, by rw [← hpos]; rfl, rfl⟩
    rw [htext, List.length_append]
    omega

/-- A comment that is closed, or left open to the end. -/
theorem skipOne_block_cases {comment : Text} (h : t <:+ script)
    (htext : t = ['/', '*'] ++ comment) :
    (skipOne script (script.offset t) t
          = .error (.fault ⟨Script.lineAt script t, .unterminated .comment⟩)
        ∧ Script.skipTrivia .gap t = .error t)
      ∨ Moves script t := by
  have hskip : Script.skipTrivia .gap t = Script.skipTrivia (.block t) comment := by
    rw [htext]
    rfl
  -- the search starts behind the opening mark, so both marks are passed with what is between
  have hone : skipOne script (script.offset t) t
      = match find ['*', '/'] comment with
        | some n => .ok (some (script.offset t + (n + 4)))
        | none => lineOf script (script.offset t) >>= fun line =>
          .error (.fault ⟨line, .unterminated .comment⟩) := by
    rw [skipOne, htext]
    rfl
  rw [Moves, hone, hskip, Script.skipTrivia_block, find]
  cases hfind : Text.breakOn ['*', '/'] comment with
  | none =>
    refine .inl ⟨?_, rfl⟩
    simp only [Option.map_none, lineOf_eq h, ok_bind]
  | some parts =>
    obtain ⟨p, r⟩ := parts
    have hclosed : t = ['/', '*'] ++ p ++ ['*', '/'] ++ r := by
      rw [htext, Text.eq_of_breakOn hfind]
      simp
    have hsize : p.size + 4 = Text.size (['/', '*'] ++ p ++ ['*', '/']) := by
      have hmark : Text.size ['/', '*'] = 2 ∧ Text.size ['*', '/'] = 2 := ⟨rfl, rfl⟩
      rw [Text.size_append, Text.size_append, hmark.1, hmark.2]
      omega
    have hpos : script.offset t + (p.size + 4) = script.offset r :=
      Text.offset_add h hclosed hsize
    refine .inr ⟨r, hclosed ▸ List.suffix_append _ _, ?_, by rw [← hpos]; rfl, rfl⟩
    rw [hclosed, List.length_append, List.length_append]
    simp only [List.length_cons, List.length_nil]
    omega

/-- One round of skipping: it is done, or a comment is left open, or it moves on. -/
theorem skipOne_cases (h : t <:+ script)
    (hblank : ∀ c, t.head? = some c → Text.isBlank c = false) :
    (skipOne script (script.offset t) t = .ok none ∧ Script.skipTrivia .gap t = .ok t)
      ∨ (skipOne script (script.offset t) t
          = .error (.fault ⟨Script.lineAt script t, .unterminated .comment⟩)
        ∧ Script.skipTrivia .gap t = .error t)
      ∨ Moves script t := by
  by_cases hcomment : Text.startsWith ['/', '/'] t = true ∨ Text.startsWith ['#'] t = true
  · exact .inr (.inr (moves_of_comment h hblank hcomment))
  · cases hblock : Text.dropPiece ['/', '*'] t with
    | some comment => exact .inr (skipOne_block_cases h (Text.dropPiece_eq_some_iff.1 hblock))
    | none =>
      by_cases hstop : Text.startsWith [';'] t = true
      · obtain ⟨r, hr⟩ := Option.isSome_iff_exists.1 hstop
        have htext : t = [';'] ++ r := Text.dropPiece_eq_some_iff.1 hr
        have hpos : script.offset t + 1 = script.offset r := Text.offset_add h htext rfl
        refine .inr (.inr ⟨r, htext ▸ List.suffix_append _ _, ?_, ?_, ?_⟩)
        · rw [htext]
          exact Nat.lt_succ_self _
        · simp only [skipOne, if_neg hcomment, hblock, if_pos hstop, hpos]
        · rw [htext, List.singleton_append,
            Script.skipTrivia_gap_cons fun h => absurd h (by decide)]
          rfl
      · refine .inl ⟨?_, Script.skipTrivia_gap_item hblank hcomment hblock hstop⟩
        simp only [skipOne, if_neg hcomment, hblock, if_neg hstop]

/-- **What is skipped is what the library skips**, with its error for a comment that is not
closed. -/
theorem skip_eq (h : t <:+ script) :
    skip script (script.offset t) = skipped script (Script.skipTrivia .gap t) := by
  induction hn : t.length using Nat.strongRecOn generalizing t with
  | ind n ih =>
    have hblanks := Text.takeWhile_append_trimStart t
    have htrim : Text.trimStart t <:+ t := List.dropWhile_suffix Text.isBlank
    have hpos : script.offset t + Text.size (t.takeWhile Text.isBlank)
        = script.offset (Text.trimStart t) := Text.offset_add h hblanks.symm rfl
    rw [skip, sliceFrom_offset h, ← Script.skipTrivia_gap_trimStart t]
    simp only [sub_size_trimStart, ok_bind, hpos]
    rcases skipOne_cases (htrim.trans h) fun c => Text.head?_trimStart with
      ⟨hone, hskip⟩ | ⟨hone, hskip⟩ | ⟨r, hr, hlt, hone, hskip⟩
    · rw [hone, hskip]
      rfl
    · rw [hone, hskip]
      rfl
    -- one round, and the others by the induction: less is left, so the offset is greater
    · have hsuffix := hr.trans htrim
      have hshort : r.length < t.length :=
        Nat.lt_of_lt_of_le hlt (Text.length_trimStart_le t)
      have hmoved : script.offset t < script.offset r ∧ script.offset r ≤ script.size :=
        ⟨Text.offset_lt h hsuffix hshort, Text.offset_le script r⟩
      simp only [hone, ok_bind, if_pos hmoved]
      rw [hskip]
      exact ih r.length (hn ▸ hshort) (hsuffix.trans h) rfl

/-! ## Items

The loop over the items stops if the cursor has not moved behind an item. It has, since every item
takes a character at least. -/

def readItem (script : Text) (pos : Nat) : Checked Cause (Item × Nat) := do
  let rest ← sliceFrom script pos
  if rest.head? = some '%' then
    (readDirective script (pos + 1)).map fun parts => (.directive parts.1, parts.2)
  else
    match ← cut .round (.char ';') rest with
    | none => .error (.fault (.unterminated .statement))
    | some (statement, _) =>
      let item ← readStatement statement
      return (item, pos + (statement.size + 1))

/-- An item is read as a directive or as a statement up to its semicolon, and the cursor stands
behind it. -/
theorem readItem_eq (h : t <:+ script) :
    readItem script (script.offset t) = located script (Script.readItem t) := by
  rw [readItem, sliceFrom_offset h, ok_bind]
  by_cases hhead : t.head? = some '%'
  · obtain ⟨r, rfl⟩ := List.head?_eq_some_iff.1 hhead
    have hr : r <:+ script := (List.suffix_cons '%' r).trans h
    have hpos : script.offset ('%' :: r) + 1 = script.offset r :=
      Text.offset_add (p := ['%']) h rfl rfl
    rw [if_pos hhead, hpos, readDirective_eq hr, Script.readItem]
    cases Script.readDirective r <;> rfl
  · rw [if_neg hhead, cut_eq (Text.Mark.onBytes_char rfl) Text.Brackets.onBytes_round, ok_bind,
      Script.readItem.eq_2 t fun r hr => hhead (hr ▸ rfl)]
    cases hcut : Text.cut .round (.char ';') t with
    | none => rfl
    | some parts =>
      obtain ⟨statement, r⟩ := parts
      have htext : t = statement ++ [';'] ++ r := by
        obtain ⟨-, c, before, hc, htext⟩ := Text.depth_of_cutFrom hcut
        rw [Text.Mark.char, beq_iff_eq] at hc
        rw [htext, hc]
        simp
      have hpos : script.offset t + (statement.size + 1) = script.offset r :=
        Text.offset_add h htext (Text.size_append statement [';']).symm
      simp only [readStatement_eq, hpos]
      cases Script.readStatement statement <;> rfl

/-- The next item and the offset behind it; `none` at the end of the script. -/
def nextItem (script : Text) (pos : Nat) : Checked Error (Option (Item × Nat)) := do
  let start ← skip script pos
  let rest ← sliceFrom script start
  if rest = [] then return none
  else
    let line ← lineOf script start
    (mapFault (fun cause => ⟨line, cause⟩) (readItem script start)).map some

def readItems (script : Text) (pos : Nat) : Checked Error (List Item) := do
  match ← nextItem script pos with
  | none => return []
  | some (item, next) =>
    if pos < next ∧ next ≤ script.size then (readItems script next).map (item :: ·)
    else crash .stuck
termination_by script.size - pos

def parse (script : Text) : Checked Error (List Item) := readItems script 0

/-- The next item, told by what is skipped in front of it. -/
theorem nextItem_eq (h : t <:+ script) :
    nextItem script (script.offset t)
      = match Script.skipTrivia .gap t with
        | .error opening =>
          .error (.fault ⟨Script.lineAt script opening, .unterminated .comment⟩)
        | .ok [] => .ok none
        | .ok (c :: s) =>
          match Script.readItem (c :: s) with
          | .error cause => .error (.fault ⟨Script.lineAt script (c :: s), cause⟩)
          | .ok (item, r) => .ok (some (item, script.offset r)) := by
  rw [nextItem, skip_eq h]
  cases hskip : Script.skipTrivia .gap t with
  | error opening => rfl
  | ok rest =>
    have hrest : rest <:+ script := (Script.suffix_of_skipTrivia hskip).trans h
    simp only [skipped, ok_bind, sliceFrom_offset hrest, lineOf_eq hrest, readItem_eq hrest]
    cases rest with
    | nil => rfl
    | cons c s =>
      rw [if_neg (List.cons_ne_nil c s)]
      simp only
      cases Script.readItem (c :: s) <;> rfl

/-- Behind an item less is left of the script. -/
theorem offset_lt_of_readItem (h : t <:+ script) {c : Char} {s r : Text} {item : Item}
    (hskip : Script.skipTrivia .gap t = .ok (c :: s))
    (hitem : Script.readItem (c :: s) = .ok (item, r)) :
    r <:+ script ∧ r.length < t.length
      ∧ script.offset t < script.offset r ∧ script.offset r ≤ script.size := by
  have hrest := Script.suffix_of_skipTrivia hskip
  have hr : r <:+ t := (Script.suffix_of_readItem hitem).trans hrest
  have hshort : r.length < t.length :=
    Nat.lt_of_lt_of_le (Script.length_lt_of_readItem hitem) hrest.length_le
  exact ⟨hr.trans h, hshort, Text.offset_lt h hr hshort, Text.offset_le script r⟩

/-- **The loop reads what the library reads**, from any place of the script on. -/
theorem readItems_eq (h : t <:+ script) :
    readItems script (script.offset t) = ofExcept (Script.readFrom script t) := by
  induction hn : t.length using Nat.strongRecOn generalizing t with
  | ind n ih =>
    rw [readItems, nextItem_eq h, Script.readFrom_eq]
    cases hskip : Script.skipTrivia .gap t with
    | error opening => rfl
    | ok rest =>
      cases rest with
      | nil => rfl
      | cons c s =>
        simp only
        cases hitem : Script.readItem (c :: s) with
        | error cause => rfl
        | ok parts =>
          obtain ⟨item, r⟩ := parts
          -- the check of the loop holds, as the item has taken at least a character
          obtain ⟨hr, hshort, hmoved⟩ := offset_lt_of_readItem h hskip hitem
          rw [ofExcept_map, ← ih r.length (hn ▸ hshort) hr rfl]
          exact if_pos hmoved

/-- A script is read from its beginning. -/
theorem parse_eq (script : Text) : parse script = ofExcept (Script.parse script) := by
  have hitems := readItems_eq (List.suffix_refl script)
  rwa [Text.offset_self] at hitems

example : parse "class Ä; # all".toList = .ok [.scope (.parse ['Ä']) [] none] := by cbv

example : parse "class Ä;\n%".toList = .error (.fault ⟨2, .directive .unnamed⟩) := by cbv

end Checked

end Overlay
