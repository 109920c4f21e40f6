/-
Directives, by a cursor.

A reader of a directive stands at an offset of the whole script, takes the text from there on,
and moves the offset forward by what it has read. All offsets that it computes on the way are
relative to the text in front of it: that of the parenthesis that closes the arguments, that of
the ending of a pattern, and that of the brace that closes a body.

Each reader is shown to do what the one of the library does with the text that is left, and to
stand, when it is done, where the text is left that the other one leaves (`located`). The lemmas
have one hypothesis, that the text which is left is an end of the script. It is what makes the
offset of the cursor mean anything, and every reader of the library leaves such a text
(`suffix_of_readDirective`), so it is handed on from one reader to the next.

The search for the end of a pattern walks over the bytes and looks back into the text: at each
`%` and each line break outside of parentheses it takes the text from there on, to see whether a
new statement starts. Such a byte is a character, so that slice is one of the text.
-/
import Overlay.Proofs.Checked.Parameter
import Overlay.Proofs.Script.Success
import Overlay.Proofs.Text.Extension

set_option autoImplicit false

namespace Overlay.Checked

open Script (Arguments Cause DirectiveFault Ending Target)

variable {ε : Type} {script t : Text}

/-! ## Arguments

The parenthesis that closes the arguments is found among the bytes, the arguments are the slice up
to it. -/

def cutArguments (script : Text) (pos : Nat) : Checked Cause (Text × Nat) := do
  let rest ← sliceFrom script pos
  let trimmed := Text.trimStart rest
  if trimmed.head? = some '(' then
    let start ← sub rest.size trimmed.size
    match ← matchingArguments .outside 0 trimmed.bytes with
    | none => .error (.fault (.unterminated .arguments))
    | some n =>
      let inside ← slice trimmed 1 n
      return (inside, pos + (start + n + 1))
  else .error (.fault (.directive .noArguments))

def readArguments (t : Text) : Checked DirectiveFault Arguments := do
  let pieces ← splitArguments t
  match pieces.map Text.trim with
  | [] => .error (.fault .noFeature)
  | first :: parts =>
    match Script.unquote first with
    | none => .error (.fault .noFeature)
    | some feature =>
      if feature = [] then .error (.fault .noFeature)
      else
        ofExcept ((Script.readOptions feature parts).map fun options =>
          ⟨feature, options.1, Dictionary.ofList options.2⟩)

/-- The arguments are cut as in the library, and the cursor stands behind the parenthesis. -/
theorem cutArguments_eq (h : t <:+ script) :
    cutArguments script (script.offset t) = located script (Script.cutArguments t) := by
  have hblanks := Text.takeWhile_append_trimStart t
  rw [cutArguments, sliceFrom_offset h, Script.cutArguments]
  simp only [sub_size_trimStart, ok_bind]
  generalize t.takeWhile Text.isBlank = blanks at hblanks
  generalize Text.trimStart t = trimmed at hblanks
  by_cases hhead : trimmed.head? = some '('
  · obtain ⟨inside, rfl⟩ := List.head?_eq_some_iff.1 hhead
    simp only [if_pos hhead, matchingArguments_opening, ok_bind]
    cases hclose : Script.closeArguments .outside 0 inside with
    | none => rfl
    | some parts =>
      obtain ⟨p, r⟩ := parts
      have hinside := Script.eq_of_closeArguments hclose
      -- the arguments are what is between the two parentheses
      have hslice : (slice ('(' :: inside) 1 (1 + p.size) : Checked Cause _) = .ok p := by
        have henclosed := slice_enclosed (ε := Cause) (p := []) (o := '(') rfl hinside
        rwa [List.nil_append, Text.size_nil, Nat.zero_add, Nat.zero_add] at henclosed
      have hpos : script.offset t + (Text.size blanks + (1 + p.size) + 1) = script.offset r :=
        Text.offset_add h (hblanks.symm.trans (append_enclosed hinside))
          (size_enclosed rfl rfl blanks p)
      simp only [Option.map_some, hslice, ok_bind, hpos]
      rfl
  · rw [if_neg hhead]
    split
    · exact absurd rfl hhead
    · rfl

/-- The commas between the arguments are found among the bytes. Each argument is then read as a text
of its own. -/
theorem readArguments_eq (t : Text) :
    readArguments t = ofExcept (Script.readArguments t) := by
  rw [readArguments, splitArguments_eq, ok_bind, Script.readArguments]
  cases (Script.splitArguments .outside t).map Text.trim with
  | nil => rfl
  | cons first parts =>
    simp only
    cases Script.unquote first with
    | none => rfl
    | some feature =>
      simp only [ofExcept_ite]
      rfl

/-! ## The end of a pattern

The library looks at the text from every place on; the search looks at one byte, and at the text
only where that byte is one of the few that can matter. So first it is said of the library's tests
that they fail at all other characters. -/

/-- The offset and the kind of the ending of a pattern in `t`, of which `i` bytes are passed and
`bs` are left. -/
def endingFrom (t : Text) (i depth : Nat) : Text → Checked ε (Option (Nat × Ending))
  | [] => .ok none
  | c :: bs =>
    if depth = 0 ∧ c = ';' then .ok (some (i, .stop))
    else if depth = 0 ∧ c = '%' ∧ bs.head? = some '{' then .ok (some (i, .verbatim))
    else if depth = 0 ∧ c = '{' then .ok (some (i, .braced))
    else if depth = 0 ∧ (c = '%' ∨ c = '\n') then do
      let ahead ← sliceFrom t i
      if Script.startsAnew ahead then return none
      else endingFrom t (i + 1) depth bs
    else endingFrom t (i + 1) (Text.Brackets.round.step depth c) bs

/-- Characters that are not ASCII are passed: they end no pattern and start no statement. -/
theorem endingFrom_of_not_isAscii {u bs : Text} {i depth : Nat}
    (hu : ∀ c ∈ u, Text.isAscii c = false) :
    (endingFrom t i depth (u ++ bs) : Checked ε _) = endingFrom t (i + u.length) depth bs := by
  induction u generalizing i with
  | nil => rfl
  | cons c u ih =>
    have hc := hu c List.mem_cons_self
    have hne : ∀ {d : Char}, Text.isAscii d = true → c ≠ d := Text.ne_of_isAscii hc
    have hstop : ¬ (depth = 0 ∧ c = ';') := fun h => hne (by decide) h.2
    have hverbatim : ¬ (depth = 0 ∧ c = '%' ∧ (u ++ bs).head? = some '{') :=
      fun h => hne (by decide) h.2.1
    have hbrace : ¬ (depth = 0 ∧ c = '{') := fun h => hne (by decide) h.2
    have hanew : ¬ (depth = 0 ∧ (c = '%' ∨ c = '\n')) := by
      rintro ⟨-, h | h⟩
      · exact hne (by decide) h
      · exact hne (by decide) h
    rw [List.cons_append, endingFrom, if_neg hstop, if_neg hverbatim, if_neg hbrace,
      if_neg hanew, Text.Brackets.onBytes_round c hc,
      ih fun d hd => hu d (List.mem_cons_of_mem c hd), List.length_cons, Nat.add_assoc,
      Nat.add_comm 1]

/-- What ends a pattern, by its first character and the one behind it. -/
theorem cutEnding_cons (c : Char) (r : Text) :
    Script.cutEnding (c :: r)
      = if c = ';' then some (.stop, r)
        else if c = '%' ∧ r.head? = some '{' then some (.verbatim, r.tail)
        else if c = '{' then some (.braced, r)
        else none := by
  rw [Script.cutEnding.eq_def]
  split
  · rename_i heq
    obtain ⟨rfl, rfl⟩ := List.cons.inj heq
    rfl
  · rename_i heq
    obtain ⟨rfl, rfl⟩ := List.cons.inj heq
    rfl
  · rename_i heq
    obtain ⟨rfl, rfl⟩ := List.cons.inj heq
    rfl
  · rename_i hstop hverbatim hbraced
    have h1 : ¬ c = ';' := by
      rintro rfl
      exact hstop r rfl
    have h2 : ¬ (c = '%' ∧ r.head? = some '{') := by
      rintro ⟨rfl, hhead⟩
      obtain ⟨s, rfl⟩ := List.head?_eq_some_iff.1 hhead
      exact hverbatim s rfl
    have h3 : ¬ c = '{' := by
      rintro rfl
      exact hbraced r rfl
    rw [if_neg h1, if_neg h2, if_neg h3]

/-- Only a percent sign starts a directive. -/
theorem startsDirective_cons_of_ne {c : Char} (hpercent : c ≠ '%') (r : Text) :
    Script.startsDirective (c :: r) = false := by
  rw [Script.startsDirective.eq_def]
  split
  · rename_i heq
    exact absurd (List.cons.inj heq).1 hpercent
  · rfl

/-- And only that or a line break comes before a new statement. -/
theorem startsAnew_cons_of_ne {c : Char} (hpercent : c ≠ '%') (hbreak : c ≠ '\n') (r : Text) :
    Script.startsAnew (c :: r) = false := by
  rw [Script.startsAnew.eq_def]
  split
  · rename_i heq
    exact absurd (List.cons.inj heq).1 hbreak
  · exact startsDirective_cons_of_ne hpercent r

/-- At a character that is a byte of its own the search decides as the library does. -/
theorem endingFrom_cons_of_isAscii {c : Char} (hc : Text.isAscii c = true) (p u : Text)
    (depth : Nat) :
    (endingFrom (p ++ c :: u) p.size depth (c :: Text.bytes u) : Checked ε _)
      = match if depth = 0 then Script.cutEnding (c :: u) else none with
        | some (ending, _) => .ok (some (p.size, ending))
        | none =>
          if depth = 0 ∧ Script.startsAnew (c :: u) = true then .ok none
          else endingFrom (p ++ c :: u) (p.size + 1) (Text.Brackets.round.step depth c)
            (Text.bytes u) := by
  have hhead : (Text.bytes u).head? = some '{' ↔ u.head? = some '{' :=
    Text.eq_some_congr (by decide) (Text.seen_head?_bytes u)
  have hslice : (sliceFrom (p ++ c :: u) p.size : Checked ε _) = .ok (c :: u) :=
    sliceFrom_append p (c :: u)
  rw [endingFrom, hslice, cutEnding_cons]
  simp only [hhead]
  by_cases hdepth : depth = 0
  · simp only [hdepth, true_and, if_true]
    by_cases hstop : c = ';'
    · simp only [if_pos hstop]
    · by_cases hverbatim : c = '%' ∧ u.head? = some '{'
      · simp only [if_neg hstop, if_pos hverbatim]
      · by_cases hbraced : c = '{'
        · simp only [if_neg hstop, if_neg hverbatim, if_pos hbraced]
        · simp only [if_neg hstop, if_neg hverbatim, if_neg hbraced, ok_bind]
          -- no ending: only here the rest of the text is sliced, at `%` and at a line break
          by_cases hanew : c = '%' ∨ c = '\n'
          · have hopen : c ≠ '(' := by rcases hanew with rfl | rfl <;> decide
            have hclose : c ≠ ')' := by rcases hanew with rfl | rfl <;> decide
            rw [if_pos hanew, Text.Brackets.round_step_of_ne hopen hclose]
            rfl
          · obtain ⟨hpercent, hbreak⟩ := not_or.1 hanew
            rw [if_neg hanew, startsAnew_cons_of_ne hpercent hbreak, if_neg Bool.false_ne_true]
  · simp only [hdepth, false_and, if_false]

/-- At each character of a text the search decides as the library does. -/
theorem endingFrom_bytes_cons (p : Text) (c : Char) (u : Text) (depth : Nat) :
    (endingFrom (p ++ c :: u) p.size depth (Text.bytes (c :: u)) : Checked ε _)
      = match if depth = 0 then Script.cutEnding (c :: u) else none with
        | some (ending, _) => .ok (some (p.size, ending))
        | none =>
          if depth = 0 ∧ Script.startsAnew (c :: u) = true then .ok none
          else endingFrom (p ++ c :: u) (p.size + c.utf8Size) (Text.Brackets.round.step depth c)
            (Text.bytes u) := by
  rw [Text.bytes_cons]
  cases hc : Text.isAscii c with
  | true =>
    rw [Text.bytesOf_of_isAscii hc, Text.utf8Size_of_isAscii hc, List.singleton_append]
    exact endingFrom_cons_of_isAscii hc p u depth
  | false =>
    -- no byte of it is a mark, so all of them are passed
    have hne : ∀ {d : Char}, Text.isAscii d = true → c ≠ d := Text.ne_of_isAscii hc
    have hstop : ¬ c = ';' := hne (by decide)
    have hpercent : ¬ c = '%' := hne (by decide)
    have hbraced : ¬ c = '{' := hne (by decide)
    rw [endingFrom_of_not_isAscii fun d => Text.isAscii_of_mem_bytesOf hc, Text.length_bytesOf,
      Text.Brackets.onBytes_round c hc, startsAnew_cons_of_ne hpercent (hne (by decide)),
      cutEnding_cons]
    simp [hstop, hpercent, hbraced]

/-- **The end of a pattern is found where the library finds it.** The text that was passed stays in
front, since the search takes slices of the whole. -/
theorem endingFrom_eq (p u : Text) (depth : Nat) :
    (endingFrom (p ++ u) p.size depth (Text.bytes u) : Checked ε _)
      = .ok ((Script.cutPattern depth u).map fun parts =>
          (p.size + Text.size parts.1, parts.2.1)) := by
  induction u generalizing p depth with
  | nil => rfl
  | cons c u ih =>
    rw [endingFrom_bytes_cons, Script.cutPattern]
    cases if depth = 0 then Script.cutEnding (c :: u) else none with
    | some ending => rfl
    | none =>
      dsimp only
      split
      · rfl
      · -- the character goes over to the text in front of the offset
        have hnext := ih (p ++ [c]) (Text.Brackets.round.step depth c)
        rw [List.append_assoc, List.singleton_append, Text.size_append] at hnext
        rw [Option.map_map]
        refine hnext.trans ?_
        congr 2
        funext parts
        simp [Nat.add_assoc]

/-! ## The target

A pattern with what ends it, and a body if it ends in an opening brace. -/

def cutTarget (script : Text) (pos : Nat) : Checked Cause (Target × Nat) := do
  let rest ← sliceFrom script pos
  match ← endingFrom rest 0 0 rest.bytes with
  | none => .error (.fault (.directive .noEnd))
  | some (i, .stop) =>
    let pattern ← sliceTo rest i
    return (⟨pattern, none⟩, pos + (i + 1))
  | some (i, .verbatim) =>
    let inner ← sliceFrom rest (i + 2)
    match find ['%', '}'] inner with
    | none => .error (.fault (.unterminated .verbatimBody))
    | some n =>
      let pattern ← sliceTo rest i
      let body ← sliceTo inner n
      return (⟨pattern, some (Text.trim body)⟩, pos + (i + 2 + n + 2))
  | some (i, .braced) =>
    let ahead ← sliceFrom rest i
    match ← matching '{' '}' 0 ahead.bytes with
    | none => .error (.fault (.unterminated .bracedBody))
    | some n =>
      let pattern ← sliceTo rest i
      let body ← slice rest (i + 1) (i + n)
      return (⟨pattern, some (Text.trim body)⟩, pos + (i + n + 1))

/-- In a whole text the search starts at its first byte, outside of parentheses. -/
theorem endingFrom_bytes (t : Text) :
    (endingFrom t 0 0 t.bytes : Checked ε _)
      = .ok ((Script.cutPattern 0 t).map fun parts => (Text.size parts.1, parts.2.1)) := by
  have h := endingFrom_eq (ε := ε) [] t 0
  simpa only [List.nil_append, Text.size_nil, Nat.zero_add] using h

/-- A pattern that ends in a semicolon has no body, and the cursor stands behind that. -/
theorem cutTarget_of_stop {pattern r : Text} (h : t <:+ script)
    (hcut : Script.cutPattern 0 t = some (pattern, .stop, r)) :
    cutTarget script (script.offset t) = located script (Script.cutTarget t) := by
  have htext : t = pattern ++ [';'] ++ r := by
    simpa [Ending.mark] using Script.eq_of_cutPattern hcut
  have hpattern : (sliceTo t pattern.size : Checked Cause _) = .ok pattern :=
    sliceTo_of_eq (Script.eq_of_cutPattern hcut) rfl
  have hpos : script.offset t + (pattern.size + 1) = script.offset r :=
    Text.offset_add h htext (Text.size_append pattern [';']).symm
  rw [cutTarget, sliceFrom_offset h, ok_bind, endingFrom_bytes, Script.cutTarget, hcut]
  simp only [Option.map_some, ok_bind, hpattern, hpos]
  rfl

/-- A body in `%{ %}` is the slice up to its closing mark. -/
theorem cutTarget_of_verbatim {pattern r : Text} (h : t <:+ script)
    (hcut : Script.cutPattern 0 t = some (pattern, .verbatim, r)) :
    cutTarget script (script.offset t) = located script (Script.cutTarget t) := by
  have hopened : t = pattern ++ ['%', '{'] ++ r := by
    simpa [Ending.mark] using Script.eq_of_cutPattern hcut
  have hpattern : (sliceTo t pattern.size : Checked Cause _) = .ok pattern :=
    sliceTo_of_eq (Script.eq_of_cutPattern hcut) rfl
  have hinner : (sliceFrom t (pattern.size + 2) : Checked Cause _) = .ok r :=
    sliceFrom_of_eq hopened (Text.size_append pattern ['%', '{']).symm
  rw [cutTarget, sliceFrom_offset h, ok_bind, endingFrom_bytes, Script.cutTarget, hcut]
  simp only [Option.map_some, hinner, ok_bind, find, Script.cutBody]
  cases hbody : Text.breakOn ['%', '}'] r with
  | none => rfl
  | some parts =>
    obtain ⟨body, rest⟩ := parts
    have hr := Text.eq_of_breakOn hbody
    have hslice : (sliceTo r body.size : Checked Cause _) = .ok body := sliceTo_of_eq hr rfl
    -- two bytes each for the mark in front of the body and for that behind it
    have hpos : script.offset t + (pattern.size + 2 + body.size + 2) = script.offset rest := by
      refine Text.offset_add (p := pattern ++ ['%', '{'] ++ body ++ ['%', '}']) h ?_ ?_
      · rw [hopened, hr]
        simp
      · simp only [Text.size_append]
        rfl
    simp only [Option.map_some, hpattern, hslice, ok_bind, hpos]
    rfl

/-- A body in braces is the slice up to the brace that closes the one in front of it. -/
theorem cutTarget_of_braced {pattern r : Text} (h : t <:+ script)
    (hcut : Script.cutPattern 0 t = some (pattern, .braced, r)) :
    cutTarget script (script.offset t) = located script (Script.cutTarget t) := by
  have htext : t = pattern ++ '{' :: r := Script.eq_of_cutPattern hcut
  have hpattern : (sliceTo t pattern.size : Checked Cause _) = .ok pattern :=
    sliceTo_of_eq htext rfl
  -- the brace that opens the body is searched along with it
  have hahead : (sliceFrom t pattern.size : Checked Cause _) = .ok ('{' :: r) :=
    sliceFrom_of_eq htext rfl
  rw [cutTarget, sliceFrom_offset h, ok_bind, endingFrom_bytes, Script.cutTarget, hcut]
  simp only [Option.map_some, hahead, ok_bind,
    matching_opening (o := '{') (c := '}') rfl rfl (by decide), Script.cutBody]
  cases hbody : Text.closing '{' '}' 0 r with
  | none => rfl
  | some parts =>
    obtain ⟨body, rest⟩ := parts
    have hr := Text.eq_of_closing hbody
    have hslice : (slice t (pattern.size + 1) (pattern.size + (1 + body.size))
        : Checked Cause _) = .ok body := htext ▸ slice_enclosed rfl hr
    have hpos : script.offset t + (pattern.size + (1 + body.size) + 1) = script.offset rest :=
      Text.offset_add h (htext.trans (append_enclosed hr)) (size_enclosed rfl rfl pattern body)
    simp only [Option.map_some, hpattern, hslice, ok_bind, hpos]
    rfl

/-- A target is cut as in the library, and the cursor stands behind it. -/
theorem cutTarget_eq (h : t <:+ script) :
    cutTarget script (script.offset t) = located script (Script.cutTarget t) := by
  cases hcut : Script.cutPattern 0 t with
  | none =>
    rw [cutTarget, sliceFrom_offset h, ok_bind, endingFrom_bytes, Script.cutTarget, hcut]
    rfl
  | some parts =>
    obtain ⟨pattern, ending, r⟩ := parts
    cases ending with
    | stop => exact cutTarget_of_stop h hcut
    | verbatim => exact cutTarget_of_verbatim h hcut
    | braced => exact cutTarget_of_braced h hcut

/-! ## Directives

The readers of the library put together, with the cursor for the text that is left. -/

def entryOf (arguments : Arguments) (target : Target) : Checked Cause Feature.Entry := do
  let pattern ← mapFault Cause.pattern (parsePattern target.pattern)
  return {
    feature := arguments.feature
    pattern := pattern
    value := .ofToken (arguments.value.getD ['1'])
    body := target.body.map Template.ofText
    attributes := arguments.attributes
    sequence := 0 }

def readFeature (script : Text) (pos : Nat) : Checked Cause (Feature.Entry × Nat) := do
  let (inside, pos) ← cutArguments script pos
  let arguments ← mapFault Cause.directive (readArguments inside)
  let (target, pos) ← cutTarget script pos
  let entry ← entryOf arguments target
  return (entry, pos)

def readAlias (name script : Text) (pos : Nat) : Checked Cause (Feature.Entry × Nat) :=
  match Alias.ofDirective? name with
  | none => .error (.fault (.unknownDirective name))
  | some a => do
    let (target, pos) ← cutTarget script pos
    if target.body.isSome && !a.takesBody then .error (.fault (.directive (.strayBody name)))
    else
      let entry ← entryOf ⟨a.feature, some (a.token target.body.isSome), .empty⟩ target
      return (entry, pos)

def readDirective (script : Text) (pos : Nat) : Checked Cause (Feature.Entry × Nat) := do
  let rest ← sliceFrom script pos
  match Text.cutIdentifier rest with
  | none => .error (.fault (.directive .unnamed))
  | some (name, _) =>
    if name = "feature".toList then readFeature script (pos + name.size)
    else readAlias name script (pos + name.size)

/-- The pattern is read by offsets, the value and the body are taken as they are. -/
theorem entryOf_eq (arguments : Arguments) (target : Target) :
    entryOf arguments target = ofExcept (Script.entryOf arguments target) := by
  rw [entryOf, parsePattern_eq, mapFault_ofExcept, Script.entryOf]
  cases Pattern.parse target.pattern <;> rfl

/-- The target starts where the arguments end. -/
theorem readFeature_eq (h : t <:+ script) :
    readFeature script (script.offset t) = located script (Script.readFeature t) := by
  rw [readFeature, cutArguments_eq h, Script.readFeature]
  refine located_bind fun inside after hcut => ?_
  have hafter : after <:+ script := (Script.suffix_of_cutArguments hcut).trans h
  simp only [readArguments_eq, mapFault_ofExcept, cutTarget_eq hafter, entryOf_eq]
  refine ofExcept_bind_located fun arguments => located_bind fun target rest _ => ?_
  exact ofExcept_bind_located fun entry => rfl

/-- Such a directive has no arguments, so its target starts behind its name. -/
theorem readAlias_eq (name : Text) (h : t <:+ script) :
    readAlias name script (script.offset t) = located script (Script.readAlias name t) := by
  rw [readAlias, Script.readAlias]
  cases Alias.ofDirective? name with
  | none => rfl
  | some a =>
    simp only [cutTarget_eq h, entryOf_eq]
    refine located_bind fun target rest _ => ?_
    by_cases hbody : (target.body.isSome && !a.takesBody) = true
    · simp only [if_pos hbody]
      rfl
    · simp only [if_neg hbody]
      exact ofExcept_bind_located fun entry => rfl

/-- **Directives are read without a crash**, and the cursor stands behind what was read. -/
theorem readDirective_eq (h : t <:+ script) :
    readDirective script (script.offset t) = located script (Script.readDirective t) := by
  rw [readDirective, sliceFrom_offset h, ok_bind, Script.readDirective]
  cases hcut : Text.cutIdentifier t with
  | none => rfl
  | some parts =>
    obtain ⟨name, rest⟩ := parts
    have htext := Text.eq_of_cutIdentifier hcut
    have hrest : rest <:+ script := (htext ▸ List.suffix_append name rest).trans h
    have hpos : script.offset t + name.size = script.offset rest := Text.offset_add h htext rfl
    simp only [hpos, readFeature_eq hrest, readAlias_eq name hrest]
    by_cases hname : name = "feature".toList
    · rw [if_pos hname, if_pos hname]
    · rw [if_neg hname, if_neg hname]

end Overlay.Checked
