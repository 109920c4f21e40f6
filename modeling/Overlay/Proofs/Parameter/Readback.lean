/-
Parameter lists that are written and read again.

A parameter is written as its type and, behind ` = `, its default. It is read as itself exactly if
its type is (`parse_display_iff`): a type may lose another name when it is read a second time, and
that is the only thing that can go wrong. A list of parameters, with `, ` between them, is read as
itself exactly if each parameter is and the list is not the word `void` (`readList_display_iff`).
What is asked of the list beside that is that its commas stand where they should: no parameter has
one outside brackets, and all but the last close their brackets. A list that was read is of this
kind (`isListed_of_readList`), because reading keeps brackets and commas.
-/
import Overlay.Parameter.Listing
import Overlay.Proofs.Parameter.Building
import Overlay.Proofs.Text.Cuts

set_option autoImplicit false

namespace Overlay

/-! ## Marks of lists

Where a list is cut depends on brackets and commas alone. So two texts that have the same of these,
in the same order, are cut alike, and at corresponding places. To compare a list with what is
written for it one need only compare these characters. -/

namespace Text

variable {b : Brackets} {depth : Nat} {t : Text} {c : Char}

/-- The characters that take a parameter list apart. -/
def isListMark (c : Char) : Bool := Brackets.all.isBracket c || c == ','

/-- Blanks take no list apart, -/
theorem isListMark_of_isBlank (h : isBlank c = true) : isListMark c = false := by
  simp [isListMark, Brackets.skipsBlanks_all c h, ne_of_kind h (rfl : isBlank ',' = false)]

/-- and neither do the characters of words. -/
theorem isListMark_of_isIdentChar (h : isIdentChar c = true) : isListMark c = false := by
  have hbracket : Brackets.all.isBracket c = false := Brackets.isBracket_eq_false h rfl rfl
  simp [isListMark, hbracket, ne_of_kind h (rfl : isIdentChar ',' = false)]

/-- Where a text is cut at a character depends on the brackets and that character alone. -/
theorem cutFrom_char_filter_eq_none_iff {m : Char} {keep : Char → Bool}
    (hb : ∀ c, b.isBracket c = true → keep c = true) (hm : keep m = true)
    (before before' : Option Char) :
    cutFrom b (.char m) depth before (t.filter keep) = none
      ↔ cutFrom b (.char m) depth before' t = none := by
  induction t generalizing depth before before' with
  | nil => simp [cutFrom]
  | cons c t ih =>
    by_cases hc : keep c = true
    · rw [List.filter_cons_of_pos hc, cutFrom, cutFrom]
      by_cases hcut : depth = 0 ∧ Mark.char m before' c t = true
      · have hcut' : depth = 0 ∧ Mark.char m before c (t.filter keep) = true := hcut
        rw [if_pos hcut, if_pos hcut']
        simp
      · have hcut' : ¬ (depth = 0 ∧ Mark.char m before c (t.filter keep) = true) := hcut
        rw [if_neg hcut, if_neg hcut', Option.map_eq_none_iff, Option.map_eq_none_iff, ih]
    · have hplain : b.isBracket c = false := by
        rw [Bool.eq_false_iff]
        exact fun hbracket => hc (hb c hbracket)
      have hcut : ¬ (depth = 0 ∧ Mark.char m before' c t = true) := by
        rintro ⟨-, hmark⟩
        obtain rfl : c = m := by simpa [Mark.char] using hmark
        exact hc hm
      rw [List.filter_cons_of_neg hc, cutFrom, if_neg hcut, Option.map_eq_none_iff,
        Brackets.step_of_not_isBracket hplain, ih]

/-- Brackets do. -/
theorem keep_isListMark (c : Char) (h : Brackets.all.isBracket c = true) :
    isListMark c = true := by
  rw [isListMark, h, Bool.true_or]

/-- Texts with the same marks have their commas outside brackets at the same places. -/
theorem cut_comma_congr {u : Text} (h : t.filter isListMark = u.filter isListMark) :
    cut .all (.char ',') t = none ↔ cut .all (.char ',') u = none := by
  unfold cut
  rw [← cutFrom_char_filter_eq_none_iff keep_isListMark rfl none, h,
    cutFrom_char_filter_eq_none_iff keep_isListMark rfl]

/-- The depth behind a text is told by its marks. -/
theorem depthAfter_congr {u : Text} (h : t.filter isListMark = u.filter isListMark) :
    Brackets.all.depthAfter 0 t = Brackets.all.depthAfter 0 u := by
  rw [← Brackets.depthAfter_filter keep_isListMark, h,
    Brackets.depthAfter_filter keep_isListMark]

/-! ## Commas between texts

Texts are joined with commas, and are to be found again between them. -/

/-- Texts that a list of parameters can be made up of: none has a comma outside brackets, and all
but the last close their brackets. -/
structure IsListed (ps : List Text) : Prop where
  whole : ∀ p ∈ ps, cut .all (.char ',') p = none
  closed : ∀ p ∈ ps.dropLast, Brackets.all.depthAfter 0 p = 0

/-- Whether texts can stand in a list is told by their marks. -/
theorem IsListed.congr {ps qs : List Text} (h : IsListed qs)
    (heq : ps.map (List.filter isListMark) = qs.map (List.filter isListMark)) : IsListed ps where
  whole p hp := by
    have hmem := List.mem_map_of_mem (f := List.filter isListMark) hp
    rw [heq] at hmem
    obtain ⟨q, hq, hmarks⟩ := List.mem_map.1 hmem
    exact (cut_comma_congr hmarks).1 (h.whole q hq)
  closed p hp := by
    have hmem := List.mem_map_of_mem (f := List.filter isListMark) hp
    rw [List.map_dropLast, heq, ← List.map_dropLast] at hmem
    obtain ⟨q, hq, hmarks⟩ := List.mem_map.1 hmem
    rw [← depthAfter_congr hmarks]
    exact h.closed q hq

/-- The parts of some texts that are put together with a comma and a space. -/
def spacedParts : List Text → List Text
  | [] => []
  | p :: ps => p :: ps.map (' ' :: ·)

/-- A space behind each comma can be counted to the text that follows. -/
theorem intercalate_spacedParts (ps : List Text) :
    [','].intercalate (spacedParts ps) = ", ".toList.intercalate ps := by
  cases ps with
  | nil => rfl
  | cons p ps =>
    induction ps generalizing p with
    | nil => rfl
    | cons q ps ih =>
      have hq : [','].intercalate ((' ' :: q) :: ps.map (' ' :: ·))
          = ' ' :: [','].intercalate (spacedParts (q :: ps)) := by
        cases ps with
        | nil => rfl
        | cons r ps => rfl
      rw [spacedParts, List.map_cons, List.intercalate_cons_of_ne_nil (by simp), hq, ih,
        List.intercalate_cons_of_ne_nil (List.cons_ne_nil q ps)]
      simp

/-- With that space the texts can stand in a list as they could before. -/
theorem isListed_spacedParts {ps : List Text} (h : IsListed ps) : IsListed (spacedParts ps) := by
  apply h.congr
  cases ps with
  | nil => rfl
  | cons p ps =>
    have hspace : ∀ p : Text, (' ' :: p).filter isListMark = p.filter isListMark :=
      fun p => List.filter_cons_of_neg (by decide)
    simp [spacedParts, hspace]

/-- Listed texts are taken apart where they were put together. -/
theorem splitCommas_intercalate {ps : List Text} (h : IsListed ps) (hne : ps ≠ []) :
    splitCommas (", ".toList.intercalate ps) = spacedParts ps := by
  obtain ⟨hwhole, hclosed⟩ := isListed_spacedParts h
  have hne' : spacedParts ps ≠ [] := by
    cases ps with
    | nil => exact absurd rfl hne
    | cons p ps => simp [spacedParts]
  have hparts := List.dropLast_concat_getLast hne'
  have hcut : ∀ p ∈ (spacedParts ps).dropLast, ∀ s : Text,
      cut .all (.char ',') (p ++ ([','] ++ s)) = some (p, [','].tail ++ s) := by
    intro p hp s
    exact cutFrom_char_cons (hwhole p (List.dropLast_subset _ hp)) (hclosed p hp) s
  have hlast := hwhole _ (List.getLast_mem hne')
  rw [← intercalate_spacedParts, splitCommas, ← hparts]
  exact split_intercalate rfl hcut hlast

end Text

namespace Parameter

open CType (tokenize)
open Text (isBlank isListMark IsListed spacedParts squeeze trim)

variable {t u : Text} {p : Parameter} {c : Char}

/-! ## Reading one parameter

The reader of a parameter has three places where it gives up, and it is told here without them. -/

/-- A parameter is read if it has a type, and a default that is not blank if it has one. -/
theorem parse_eq_some_iff :
    parse t = some p
      ↔ stripName (tokenize (splitDefault t).1) ≠ []
        ∧ p.type = .ofTokens (stripName (tokenize (splitDefault t).1))
        ∧ (∀ e, (splitDefault t).2 = some e → ¬ Text.IsGap e)
        ∧ p.default = (splitDefault t).2.map squeeze := by
  obtain ⟨type, default⟩ := p
  rw [parse]
  by_cases htokens : stripName (tokenize (splitDefault t).1) = []
  · simp [htokens]
  · simp only [ne_eq, htokens, not_false_eq_true, true_and]
    cases (splitDefault t).2 with
    | none => simp [eq_comm]
    | some e =>
      by_cases hgap : Text.IsGap e
      · have hall : e.all isBlank = true := List.all_eq_true.2 hgap
        simp [hall, hgap]
      · have hall : e.all isBlank = false := by
          rw [Bool.eq_false_iff]
          exact fun hall => hgap (List.all_eq_true.1 hall)
        simp [hall, hgap, eq_comm]

/-- Blanks in front stay in front of the type. -/
theorem splitDefault_gap_append (hu : Text.IsGap u) (t : Text) :
    splitDefault (u ++ t) = (u ++ (splitDefault t).1, (splitDefault t).2) := by
  rw [splitDefault, splitDefault,
    Text.cut_gap_append Text.Brackets.skipsBlanks_all Text.Mark.skipsBlanks_assign hu]
  cases Text.cut .all .assign t <;> rfl

/-- Blanks in front of a parameter do not matter. -/
theorem parse_gap_append (hu : Text.IsGap u) (t : Text) : parse (u ++ t) = parse t := by
  apply Option.ext
  intro p
  rw [parse_eq_some_iff, parse_eq_some_iff, splitDefault_gap_append hu,
    CType.tokenize_gap_append hu]

/-- Nor do blanks behind it. -/
theorem parse_append_gap (hu : Text.IsGap u) (t : Text) : parse (t ++ u) = parse t := by
  have hcut := Text.cut_append_gap (b := .all) Text.Mark.skipsBlanks_assign hu t
  apply Option.ext
  intro p
  rw [parse_eq_some_iff, parse_eq_some_iff, splitDefault, splitDefault, hcut]
  cases Text.cut .all .assign t with
  | none => simp [CType.tokenize_append_gap hu]
  | some parts =>
    have hsqueeze := Text.squeeze_append_gap hu parts.2
    simp [Text.isGap_append, hu, hsqueeze]

/-- A default stands behind an `=` outside brackets. -/
theorem eq_of_splitDefault {type e : Text} (h : splitDefault t = (type, some e)) :
    t = type ++ '=' :: e ∧ Text.Brackets.all.depthAfter 0 type = 0 := by
  unfold splitDefault at h
  split at h
  next a b hcut =>
    obtain ⟨rfl, hb⟩ := Prod.mk.inj h
    obtain rfl := Option.some.inj hb
    obtain ⟨hdepth, d, before, hmark, htext⟩ := Text.depth_of_cutFrom hcut
    obtain rfl : d = '=' := by
      simp only [Text.Mark.assign, Bool.and_eq_true, beq_iff_eq] at hmark
      exact hmark.1.1
    exact ⟨htext, hdepth⟩
  next => simp at h

/-- There is no default where there is no place to cut. -/
theorem splitDefault_eq_none_iff :
    (splitDefault t).2 = none ↔ Text.cut .all .assign t = none := by
  unfold splitDefault
  cases Text.cut .all .assign t <;> simp

/-- Then the text is the type. -/
theorem splitDefault_of_cut (h : Text.cut .all .assign t = none) : splitDefault t = (t, none) := by
  rw [splitDefault, h]

/-! ## What was read

A parameter that was read is in a normal form: its type has no blanks around it and no sign of
assignment outside brackets, and its default is squeezed. What is written for such a parameter is
cut where it was put together, so only the type has to be read again. -/

/-- A parameter as it is once it was read. -/
structure IsNormal (p : Parameter) : Prop where
  nonempty : p.type.text ≠ []
  trimmed : trim p.type.text = p.type.text
  closed : p.default ≠ none → Text.Brackets.all.depthAfter 0 p.type.text = 0
  squeezed : ∀ e, p.default = some e → squeeze e = e ∧ e ≠ []

/-- Dropping a name adds no token. -/
theorem stripName_subset (ts : List CType.Token) : stripName ts ⊆ ts := by
  rw [stripName]
  split
  · exact List.dropLast_subset ts
  · exact List.Subset.refl ts

/-- A type has the marks of the text that it was read from. -/
theorem filter_type (h : parse t = some p) :
    p.type.text.filter isListMark = (splitDefault t).1.filter isListMark := by
  obtain ⟨-, htype, -, -⟩ := parse_eq_some_iff.1 h
  rw [htype]
  exact CType.filter_stripped (fun _ => Text.isListMark_of_isBlank)
    (fun _ => Text.isListMark_of_isIdentChar) _

/-- **A parameter that was read is in normal form.** -/
theorem isNormal_of_parse (h : parse t = some p) : IsNormal p := by
  have hmarks := filter_type h
  obtain ⟨-, htype, hgap, hdefault⟩ := parse_eq_some_iff.1 h
  refine ⟨?_, ?_, ?_, ?_⟩
  · have hempty := isEmpty_of_parse h
    rw [CType.isEmpty] at hempty
    simpa using hempty
  · rw [htype]
    exact CType.trim_ofTokens (stripName_subset _)
  · intro hsome
    cases hsplit : splitDefault t with
    | mk type e =>
      rw [hsplit] at hdefault hmarks
      cases e with
      | none => exact absurd hdefault hsome
      | some e =>
        rw [Text.depthAfter_congr hmarks]
        exact (eq_of_splitDefault hsplit).2
  · intro e he
    rw [hdefault, Option.map_eq_some_iff] at he
    obtain ⟨e', he', rfl⟩ := he
    refine ⟨Text.squeeze_squeeze e', ?_⟩
    intro hnil
    exact hgap e' he' (Text.squeeze_eq_nil_iff.1 hnil)

/-- Reading a parameter and writing it keeps brackets and commas. -/
theorem filter_display (h : parse t = some p) :
    p.display.filter isListMark = t.filter isListMark := by
  have hmarks := filter_type h
  obtain ⟨-, -, -, hdefault⟩ := parse_eq_some_iff.1 h
  cases hsplit : splitDefault t with
  | mk type e =>
    rw [hsplit] at hdefault hmarks
    cases e with
    | none =>
      have htext : type = t := by
        have hcut := splitDefault_eq_none_iff.1 (congrArg Prod.snd hsplit)
        rw [splitDefault_of_cut hcut] at hsplit
        exact (Prod.mk.inj hsplit).1.symm
      rw [display, hdefault, ← htext]
      exact hmarks
    | some e =>
      rw [display, hdefault, (eq_of_splitDefault hsplit).1]
      have hequal : " = ".toList.filter isListMark = [] := rfl
      have hequal' : isListMark '=' = false := rfl
      simp only [Option.map_some, List.filter_append, hmarks, hequal, List.append_nil,
        Text.filter_squeeze (fun _ => Text.isListMark_of_isBlank)]
      rw [List.filter_cons_of_neg (by simp [hequal'])]

/-- A parameter is written without a blank at either end. -/
theorem trim_display (h : IsNormal p) : p.display ≠ [] ∧ trim p.display = p.display := by
  obtain ⟨type, default⟩ := p
  cases default with
  | none => exact ⟨h.nonempty, h.trimmed⟩
  | some e =>
    obtain ⟨hsqueeze, hne⟩ := h.squeezed e rfl
    refine ⟨?_, ?_⟩
    · simp [display]
    · have htrim : ∀ p ∈ [type.text, e], p ≠ [] ∧ trim p = p := by
        rintro p hp
        rcases List.mem_pair.1 hp with rfl | rfl
        · exact ⟨h.nonempty, h.trimmed⟩
        · refine ⟨hne, ?_⟩
          rw [← hsqueeze]
          exact Text.trim_squeeze p
      simpa [display, List.intercalate_cons_of_ne_nil]
        using Text.trim_intercalate " = ".toList htrim

/-- What is written with a default is cut at the `=` that was written. -/
theorem splitDefault_display {type e : Text} (hcut : Text.cut .all .assign type = none)
    (hclosed : Text.Brackets.all.depthAfter 0 type = 0) :
    splitDefault (type ++ " = ".toList ++ e) = (type ++ [' '], some (' ' :: e)) := by
  have hignores : Text.Mark.assign.Ignores type (" = ".toList ++ e) :=
    Text.Mark.ignores_assign (by simp) type
  have hnone : Text.cutFrom .all .assign 0 none type = none := hcut
  have hsome : Text.cut .all .assign (type ++ (" = ".toList ++ e))
      = some (type ++ [' '], ' ' :: e) := by
    rw [Text.cut, Text.cutFrom_append hignores, hnone, hclosed]
    simp [Text.cutFrom, Text.Mark.assign, Text.Brackets.step, Text.Brackets.all, Text.consFst]
  rw [List.append_assoc, splitDefault, hsome]

/-- A parameter is read back exactly if its type is. -/
theorem parse_display_iff (h : IsNormal p) :
    parse p.display = some p ↔ parse p.type.text = some ⟨p.type, none⟩ := by
  obtain ⟨type, default⟩ := p
  cases default with
  | none => exact Iff.rfl
  | some e =>
    have hclosed := h.closed (by simp)
    obtain ⟨hsqueeze, hne⟩ := h.squeezed e rfl
    have hgap : ¬ Text.IsGap (' ' :: e) := by
      intro hgap
      apply hne
      rw [← hsqueeze, Text.squeeze_eq_nil_iff]
      exact (Text.isGap_cons.1 hgap).2
    have hdisplay : display ⟨type, some e⟩ = type.text ++ " = ".toList ++ e := rfl
    rw [hdisplay, parse_eq_some_iff, parse_eq_some_iff]
    cases hcut : Text.cut .all .assign type.text with
    | none =>
      have hspace : Text.IsGap [' '] := Text.isGap_cons.2 ⟨rfl, Text.isGap_nil⟩
      have htokens := CType.tokenize_append_gap hspace type.text
      have hsame : squeeze (' ' :: e) = e := (Text.squeeze_gap_append hspace e).trans hsqueeze
      rw [splitDefault_display hcut hclosed, splitDefault_of_cut hcut, htokens]
      simp [hgap, hsame]
    | some parts =>
      obtain ⟨a, b⟩ := parts
      -- an `=` of the type would be taken for that of the default
      have hsplit : splitDefault (type.text ++ " = ".toList ++ e)
          = (a, some (b ++ (" = ".toList ++ e))) := by
        have hignores : Text.Mark.assign.Ignores type.text (" = ".toList ++ e) :=
          Text.Mark.ignores_assign (by simp) type.text
        have hsome : Text.cutFrom .all .assign 0 none type.text = some (a, b) := hcut
        rw [List.append_assoc, splitDefault, Text.cut, Text.cutFrom_append hignores, hsome]
      have hsplit' : splitDefault type.text = (a, some b) := by
        rw [splitDefault, hcut]
      rw [hsplit, hsplit']
      constructor
      · rintro ⟨-, -, -, hdefault⟩
        have hcount := congrArg (fun t => (t.map (List.count '=')).getD 0) hdefault
        simp [Text.count_squeeze (show isBlank '=' = false from rfl)] at hcount
        omega
      · rintro ⟨-, -, -, hdefault⟩
        simp at hdefault

/-! ## Reading a list

The reader goes through the pieces with a note whether the last parameter had a default. As that is
what the order of defaults says of a list, the pieces of a list that was read can be read again. -/

/-- A list that was read has read each of its pieces. -/
theorem map_parse_of_readPieces {list : Text} {afterDefault : Bool} {pieces : List Text}
    {ps : List Parameter} (h : readPieces list afterDefault pieces = .ok ps) :
    pieces.map parse = ps.map some := by
  induction pieces generalizing afterDefault ps with
  | nil =>
    obtain rfl := Except.ok.inj h
    rfl
  | cons piece pieces ih =>
    rw [readPieces] at h
    cases hparse : parse piece with
    | none => simp [hparse] at h
    | some p =>
      simp only [hparse] at h
      split at h
      · simp at h
      · obtain ⟨more, hmore, rfl⟩ := map_eq_ok_iff.1 h
        rw [List.map_cons, List.map_cons, hparse, ih hmore]

/-- And if each piece can be read, and defaults stand last, the list is read. -/
theorem readPieces_of_map_parse {list : Text} {afterDefault : Bool} {pieces : List Text}
    {ps : List Parameter} (h : pieces.map parse = ps.map some)
    (htrailing : ps.Pairwise fun p q => p.default.isSome = true → q.default.isSome = true)
    (hafter : afterDefault = true → ∀ p ∈ ps, p.default.isSome = true) :
    readPieces list afterDefault pieces = .ok ps := by
  induction pieces generalizing afterDefault ps with
  | nil =>
    obtain rfl : ps = [] := by simpa using h.symm
    rfl
  | cons piece pieces ih =>
    cases ps with
    | nil => simp at h
    | cons p ps =>
      obtain ⟨hpiece, hpieces⟩ := List.cons.inj h
      obtain ⟨hp, htrailing⟩ := List.pairwise_cons.1 htrailing
      have hallowed : ¬ ((p.default.isNone && afterDefault) = true) := by
        rw [Bool.and_eq_true]
        rintro ⟨hnone, ha⟩
        have hsome := hafter ha p List.mem_cons_self
        rw [Option.isNone_iff_eq_none] at hnone
        simp [hnone] at hsome
      have hmore := ih hpieces htrailing fun hsome q hq => hp q hq hsome
      rw [readPieces, hpiece]
      simp only [if_neg hallowed, hmore]
      rfl

/-- What is read of the pieces does not depend on the list they are from, if each can be read. -/
theorem readPieces_congr {list list' : Text} {afterDefault : Bool} {pieces pieces' : List Text}
    (h : pieces.map parse = pieces'.map parse) (hread : ∀ piece ∈ pieces, parse piece ≠ none) :
    readPieces list afterDefault pieces = readPieces list' afterDefault pieces' := by
  induction pieces generalizing afterDefault pieces' with
  | nil =>
    obtain rfl : pieces' = [] := by simpa using h.symm
    rfl
  | cons piece pieces ih =>
    cases pieces' with
    | nil => simp at h
    | cons piece' pieces' =>
      obtain ⟨hpiece, hpieces⟩ := List.cons.inj h
      obtain ⟨hfirst, hread⟩ := List.forall_mem_cons.1 hread
      obtain ⟨p, hp⟩ := Option.ne_none_iff_exists'.1 hfirst
      have hp' : parse piece' = some p := hpiece.symm.trans hp
      simp only [readPieces, hp, hp', ih hpieces hread]

/-- The space behind a comma does not matter to the piece that follows. -/
theorem map_parse_spacedParts (ps : List Text) : (spacedParts ps).map parse = ps.map parse := by
  have hspace : ∀ t, parse (' ' :: t) = parse t :=
    parse_gap_append (Text.isGap_cons.2 ⟨rfl, Text.isGap_nil⟩)
  cases ps with
  | nil => rfl
  | cons p ps => simp [spacedParts, hspace]

/-- The pieces of a list are read as they were written, whatever blanks are around it. -/
theorem map_parse_splitCommas {ps : List Text} (h : IsListed ps) (hne : ps ≠ []) :
    (Text.splitCommas (trim (", ".toList.intercalate ps))).map parse = ps.map parse := by
  rw [← map_parse_spacedParts ps, ← Text.splitCommas_intercalate h hne]
  exact Text.map_split_trim Text.Brackets.skipsBlanks_all (Text.Mark.skipsBlanks_char rfl)
    (Text.Mark.marks_char ',') rfl (fun _ => parse_gap_append) (fun _ => parse_append_gap) _

/-- A list is empty or is read by its pieces. -/
theorem exists_of_readList {ps : List Parameter} (h : readList t = .ok ps) :
    ps = [] ∨ (Text.splitCommas (trim t)).map parse = ps.map some := by
  unfold readList at h
  simp only at h
  split at h
  · exact .inl (Except.ok.inj h).symm
  · exact .inr (map_parse_of_readPieces h)

/-- The parameters of a list that was read are as they are once they were read. -/
theorem isNormal_of_readList {ps : List Parameter} (h : readList t = .ok ps) (hp : p ∈ ps) :
    IsNormal p := by
  rcases exists_of_readList h with rfl | hparse
  · simp at hp
  · have hmem := List.mem_map_of_mem (f := some) hp
    rw [← hparse] at hmem
    obtain ⟨piece, -, hpiece⟩ := List.mem_map.1 hmem
    exact isNormal_of_parse hpiece

/-- Parameters are displayed with the marks that their pieces had. -/
theorem map_filter_display {pieces : List Text} {ps : List Parameter}
    (h : pieces.map parse = ps.map some) :
    (ps.map display).map (List.filter isListMark) = pieces.map (List.filter isListMark) := by
  induction pieces generalizing ps with
  | nil =>
    obtain rfl : ps = [] := by simpa using h.symm
    rfl
  | cons piece pieces ih =>
    cases ps with
    | nil => simp at h
    | cons p ps =>
      obtain ⟨hpiece, hpieces⟩ := List.cons.inj h
      rw [List.map_cons, List.map_cons, List.map_cons, filter_display hpiece, ih hpieces]

/-- A list that was read is written with its commas where they were. -/
theorem isListed_of_readList {ps : List Parameter} (h : readList t = .ok ps) :
    IsListed (ps.map display) := by
  rcases exists_of_readList h with rfl | hparse
  · exact ⟨List.forall_mem_nil _, List.forall_mem_nil _⟩
  · obtain ⟨init, last, hsplit, hlast, hinit⟩ :=
      Text.parts_split .all (Text.Mark.marks_char ',') 0 (trim t)
    have hlisted : IsListed (Text.splitCommas (trim t)) := by
      rw [Text.splitCommas, hsplit]
      refine ⟨?_, ?_⟩
      · intro p hp
        rcases List.mem_append.1 hp with hp | hp
        · exact (hinit p hp).2
        · rw [List.mem_singleton.1 hp]
          exact hlast
      · rw [List.dropLast_concat]
        exact fun p hp => (hinit p hp).1
    exact hlisted.congr (map_filter_display hparse)

/-- As a piece `void` is read as a parameter, while as a list it is read as none. -/
theorem parse_void : parse "void".toList = some ⟨⟨"void".toList⟩, none⟩ := by decide +kernel

/-- The word `void` is the list of that type alone, if it is a list of parameters at all. -/
theorem eq_void_of_intercalate {ps : List Parameter} (hne : ps ≠ [])
    (hlisted : IsListed (ps.map display)) (hread : ∀ p ∈ ps, parse p.display = some p)
    (h : ", ".toList.intercalate (ps.map display) = "void".toList) :
    ps = [⟨⟨"void".toList⟩, none⟩] := by
  have hsplit := Text.splitCommas_intercalate hlisted (by simpa using hne)
  have hcut : Text.cut .all (.char ',') "void".toList = none := rfl
  rw [h, Text.splitCommas, Text.split_of_cut_eq_none hcut] at hsplit
  match ps with
  | [] => exact absurd rfl hne
  | [p] =>
    have hdisplay : "void".toList = p.display := (List.cons.inj hsplit).1
    have hp := hread p List.mem_cons_self
    rw [← hdisplay, parse_void, Option.some.injEq] at hp
    rw [hp]
  | p :: q :: ps => simp [Text.spacedParts] at hsplit

/-- The parameters of a list, one or more, are written without a blank at either end. -/
theorem trim_intercalate_display {ps : List Parameter} (hnormal : ∀ p ∈ ps, IsNormal p) :
    trim (", ".toList.intercalate (ps.map display))
      = ", ".toList.intercalate (ps.map display) := by
  apply Text.trim_intercalate
  intro d hd
  obtain ⟨p, hp, rfl⟩ := List.mem_map.1 hd
  exact trim_display (hnormal p hp)

/-- A list with a parameter is not displayed as nothing. -/
theorem intercalate_display_ne_nil {ps : List Parameter} (hne : ps ≠ [])
    (hnormal : ∀ p ∈ ps, IsNormal p) : ", ".toList.intercalate (ps.map display) ≠ [] := by
  cases ps with
  | nil => exact absurd rfl hne
  | cons p ps =>
    have hp : p.display ≠ [] := (trim_display (hnormal p List.mem_cons_self)).1
    cases ps with
    | nil => simpa using hp
    | cons q ps => simp [List.intercalate_cons_of_ne_nil, hp]

/-- When a list that is written is read as itself. -/
theorem readList_display_iff {ps : ParameterList} (hnormal : ∀ p ∈ ps.items, IsNormal p)
    (hlisted : IsListed (ps.items.map display)) :
    readList (", ".toList.intercalate (ps.items.map display)) = .ok ps.items
      ↔ (∀ p ∈ ps.items, parse p.display = some p) ∧ ps.items ≠ [⟨⟨"void".toList⟩, none⟩] := by
  by_cases hne : ps.items = []
  · rw [hne]
    exact iff_of_true rfl ⟨List.forall_mem_nil _, by simp⟩
  by_cases hvoid : ", ".toList.intercalate (ps.items.map display) = "void".toList
  · -- `void` is read as no parameters, and is written for that type alone
    rw [hvoid]
    have hempty : readList "void".toList = .ok [] := rfl
    constructor
    · intro h
      rw [hempty] at h
      exact absurd (Except.ok.inj h).symm hne
    · rintro ⟨hall, hother⟩
      exact absurd (eq_void_of_intercalate hne hlisted hall hvoid) hother
  · have hsplit := Text.splitCommas_intercalate hlisted (by simpa using hne)
    have hparts : (spacedParts (ps.items.map display)).map parse
        = ps.items.map fun p => parse p.display := by
      rw [map_parse_spacedParts, List.map_map]
      rfl
    have hread : (ps.items.map fun p => parse p.display) = ps.items.map some
        ↔ ∀ p ∈ ps.items, parse p.display = some p := List.map_inj_left
    rw [readList]
    simp only [trim_intercalate_display hnormal, intercalate_display_ne_nil hne hnormal, hvoid,
      or_self, if_false, hsplit]
    constructor
    · intro h
      have hall := map_parse_of_readPieces h
      rw [hparts, hread] at hall
      refine ⟨hall, ?_⟩
      intro hitems
      apply hvoid
      rw [hitems]
      rfl
    · rintro ⟨hall, -⟩
      apply readPieces_of_map_parse _ ps.trailing (by simp)
      rw [hparts, hread]
      exact hall

end Parameter

end Overlay
