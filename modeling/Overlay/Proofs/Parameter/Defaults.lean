/-
The `=` in front of a default.

A type without an `=`, all brackets closed, is cut off at the `=` behind it (`splitDefault_assign`),
unless its last character makes a comparison of that: in `A<int>=5` the `=` is part of `>=`, and no
default is read. With a blank in front of it the `=` is always that of a default. So spaces around
the `=` matter behind a type that ends with such a character, and nowhere else
(`parse_assign_iff`).

The other direction, that the two readings differ, does not need to know what is read without the
spaces. Behind a comparison the first `=` is passed, so wherever the text is cut, the type has an
`=` in it (`mem_of_splitDefault`). The type that is read with spaces has none, and a type keeps
every `=` it is read from (`filter_assign`).
-/
import Overlay.Proofs.Parameter.Readback
import Overlay.Proofs.Text.Brackets

set_option autoImplicit false

namespace Overlay

namespace Text

variable {b : Brackets} {depth : Nat} {before : Option Char} {t u : Text}

/-- No other character is the mark. -/
theorem Mark.assign_of_ne {c : Char} (hc : c ≠ '=') (before : Option Char) (r : Text) :
    Mark.assign before c r = false := by
  simp [Mark.assign, hc]

/-- A text without an `=` has no such mark in it, whatever stands behind. -/
theorem Mark.ignores_assign_of_not_mem (h : '=' ∉ t) (u : Text) : Mark.assign.Ignores t u := by
  rintro q c r rfl before
  have hc : c ≠ '=' := by
    rintro rfl
    simp at h
  rw [assign_of_ne hc, assign_of_ne hc]

/-- It is not cut. -/
theorem cutFrom_assign_of_not_mem (h : '=' ∉ t) : cutFrom b .assign depth before t = none := by
  apply cutFrom_of_forall
  rintro q c r rfl before
  apply Mark.assign_of_ne
  rintro rfl
  simp at h

end Text

namespace Parameter

open CType (tokenize)
open Text (IsGap isBlank squeeze)

variable {t type e : Text}

/-! ## Where the default begins

The mark looks for a single `=`, so it looks at the characters on both sides. -/

/-- Characters that make a comparison of an `=` behind them. -/
def comparisons : List Char := ['!', '<', '>']

section Assign

variable (hplain : '=' ∉ type) (hclosed : Text.Brackets.all.depthAfter 0 type = 0)
include hplain hclosed

/-- **The text is cut at the `=` behind a type**, if that makes no comparison with what stands
beside it. -/
theorem splitDefault_assign (hhead : e.head? ≠ some '=')
    (hlast : ∀ c ∈ type.getLast?, c ∉ comparisons) :
    splitDefault (type ++ '=' :: e) = (type, some e) := by
  have hnone : Text.cutFrom .all .assign 0 none type = none :=
    Text.cutFrom_assign_of_not_mem hplain
  have hmark : Text.Mark.assign (type.getLast?.or none) '=' e = true := by
    have hbefore : type.getLast? ∉ [some '=', some '!', some '<', some '>'] := by
      intro hmem
      simp only [List.mem_cons, List.not_mem_nil, or_false] at hmem
      rcases hmem with h | h | h | h
      · exact hplain (List.mem_of_getLast? h)
      all_goals exact hlast _ h (by decide)
    simp [Text.Mark.assign, hbefore, hhead]
  rw [splitDefault, Text.cut, Text.cutFrom_append (Text.Mark.ignores_assign_of_not_mem hplain _),
    hnone, hclosed, Text.cutFrom, if_pos ⟨rfl, hmark⟩]
  simp

/-- An `=` that is part of a comparison is not that of the default. -/
theorem mem_of_splitDefault (hlast : ∃ c ∈ type.getLast?, c ∈ comparisons) :
    '=' ∈ (splitDefault (type ++ '=' :: e)).1 := by
  have hnone : Text.cutFrom .all .assign 0 none type = none :=
    Text.cutFrom_assign_of_not_mem hplain
  have hmark : ¬ Text.Mark.assign (type.getLast?.or none) '=' e = true := by
    obtain ⟨c, hc, hmem⟩ := hlast
    rw [hc]
    simp only [comparisons, List.mem_cons, List.not_mem_nil, or_false] at hmem
    rcases hmem with rfl | rfl | rfl <;> simp [Text.Mark.assign]
  rw [splitDefault, Text.cut, Text.cutFrom_append (Text.Mark.ignores_assign_of_not_mem hplain _),
    hnone, hclosed, Text.cutFrom, if_neg (fun h => hmark h.2), Option.map_map]
  cases Text.cutFrom .all .assign (Text.Brackets.all.step 0 '=') (some '=') e with
  | none => simp
  | some parts => simp [Text.consFst]

end Assign

/-! ## Reading the default

A parameter is read from what is in front of the mark and what is behind it. Both must not be blank,
and for the one in front that is to have a token. -/

/-- A text has no tokens if it is blank. -/
theorem tokenize_eq_nil_iff : tokenize t = [] ↔ IsGap t := by
  constructor
  · intro h
    have htext := CType.flatMap_text_tokenize t
    rw [h, List.flatMap_nil, eq_comm, List.filter_eq_nil_iff] at htext
    intro c hc
    simpa using htext c hc
  · intro h
    rw [← List.append_nil t, CType.tokenize_gap_append h, CType.tokenize_nil]

/-- A parameter with a default is read from the two parts of the cut. -/
theorem parse_of_splitDefault (htype : ¬ IsGap type) (he : ¬ IsGap e)
    (h : splitDefault t = (type, some e)) :
    parse t = some ⟨.ofTokens (stripName (tokenize type)), some (squeeze e)⟩ := by
  rw [parse_eq_some_iff, h]
  refine ⟨?_, rfl, ?_, rfl⟩
  · exact stripName_ne_nil _ (mt tokenize_eq_nil_iff.1 htype)
  · intro e' he'
    rwa [← Option.some.inj he']

/-- The signs `=` of a type are those of the text. -/
theorem filter_assign (t : Text) :
    (CType.ofTokens (stripName (tokenize t))).text.filter (· == '=') = t.filter (· == '=') := by
  apply CType.filter_stripped
  · intro c hc
    rw [beq_eq_false_iff_ne]
    rintro rfl
    simp [isBlank] at hc
  · intro c hc
    rw [beq_eq_false_iff_ne]
    rintro rfl
    simp [Text.isIdentChar, Text.isLetter] at hc

/-- A balanced text does not end with an open bracket. -/
theorem getLast?_ne_of_isBalanced (h : Text.Brackets.all.IsBalanced t) :
    t.getLast? ≠ some '<' := by
  intro hlast
  obtain ⟨p, rfl⟩ := List.getLast?_eq_some_iff.1 hlast
  obtain ⟨hopened, hclosed⟩ : (∀ q ∈ (p ++ ['<']).inits, q.count '>' ≤ q.count '<')
      ∧ (p ++ ['<']).count '<' = (p ++ ['<']).count '>' :=
    h ('<', '>') (by simp [Text.Brackets.all])
  have hp := hopened p ((List.mem_inits _ _).2 (List.prefix_append p ['<']))
  have hopen : (p ++ ['<']).count '<' = p.count '<' + 1 := by simp
  have hclose : (p ++ ['<']).count '>' = p.count '>' := by simp
  omega

section Spaced

variable (hplain : '=' ∉ type)
include hplain

/-- A text without a default is read as its type. -/
theorem parse_type (htype : ¬ IsGap type) :
    parse type = some ⟨.ofTokens (stripName (tokenize type)), none⟩ := by
  rw [parse_eq_some_iff, splitDefault_of_cut (Text.cutFrom_assign_of_not_mem hplain)]
  exact ⟨stripName_ne_nil _ (mt tokenize_eq_nil_iff.1 htype), rfl, by simp, rfl⟩

/-- With spaces around it an `=` is always that of the default. -/
theorem parse_spaced (hclosed : Text.Brackets.all.depthAfter 0 type = 0) (htype : ¬ IsGap type)
    (he : ¬ IsGap e) :
    parse (type ++ " = ".toList ++ e)
      = some ⟨.ofTokens (stripName (tokenize type)), some (squeeze e)⟩ := by
  have hspace : IsGap [' '] := Text.isGap_cons.2 ⟨rfl, Text.isGap_nil⟩
  have htokens := CType.tokenize_append_gap hspace type
  have hsqueeze : squeeze (' ' :: e) = squeeze e := Text.squeeze_gap_append hspace e
  have htype' : ¬ IsGap (type ++ [' ']) := fun h => htype (Text.isGap_append.1 h).1
  have he' : ¬ IsGap (' ' :: e) := fun h => he (Text.isGap_cons.1 h).2
  have hcut : Text.cut .all .assign type = none := Text.cutFrom_assign_of_not_mem hplain
  rw [parse_of_splitDefault htype' he' (splitDefault_display hcut hclosed), htokens, hsqueeze]

end Spaced

/-- Spaces around the `=` of a default do not matter, unless the text in front of it ends with a
character that makes a comparison of the `=`. -/
theorem parse_assign_iff (htype : ¬ IsGap type) (hbalanced : Text.Brackets.all.IsBalanced type)
    (hplain : '=' ∉ type) (he : ¬ IsGap e) (hhead : e.head? ≠ some '=') :
    (∃ ty, parse type = some ⟨ty, none⟩
        ∧ parse (type ++ " = ".toList ++ e) = some ⟨ty, some (squeeze e)⟩)
      ∧ (parse (type ++ '=' :: e) = parse (type ++ " = ".toList ++ e)
        ↔ type.getLast? ≠ some '>' ∧ type.getLast? ≠ some '!') := by
  have hclosed : Text.Brackets.all.depthAfter 0 type = 0 :=
    hbalanced.depthAfter Text.Brackets.isPaired_all 0
  have hspaced := parse_spaced hplain hclosed htype he
  refine ⟨⟨_, parse_type hplain htype, hspaced⟩, ?_⟩
  rw [hspaced]
  by_cases hlast : ∃ c ∈ type.getLast?, c ∈ comparisons
  · -- the `=` stays in the type, and the other type has none
    have hmem := mem_of_splitDefault (e := e) hplain hclosed hlast
    refine iff_of_false ?_ ?_
    · intro hparse
      obtain ⟨-, hsame, -⟩ := parse_eq_some_iff.1 hparse
      have hmarks := congrArg (fun ty : CType => ty.text.filter (· == '=')) hsame
      simp only [filter_assign] at hmarks
      have hnil : type.filter (· == '=') = [] := by
        rw [List.filter_eq_nil_iff]
        rintro c hc heq
        rw [beq_iff_eq.1 heq] at hc
        exact hplain hc
      rw [hnil, eq_comm, List.filter_eq_nil_iff] at hmarks
      exact hmarks '=' hmem rfl
    · obtain ⟨c, hc, hcomparison⟩ := hlast
      rintro ⟨hclose, hnot⟩
      simp only [comparisons, List.mem_cons, List.not_mem_nil, or_false] at hcomparison
      rcases hcomparison with rfl | rfl | rfl
      · exact hnot hc
      · exact getLast?_ne_of_isBalanced hbalanced hc
      · exact hclose hc
  · refine iff_of_true ?_ ?_
    · have hother : ∀ c ∈ type.getLast?, c ∉ comparisons := fun c hc hmem => hlast ⟨c, hc, hmem⟩
      exact parse_of_splitDefault htype he (splitDefault_assign hplain hclosed hhead hother)
    · exact ⟨fun h => hlast ⟨_, h, by decide⟩, fun h => hlast ⟨_, h, by decide⟩⟩

/-- A type that ends in a name, with and without spaces around the `=`. -/
theorem parse_assign_mapReference :
    let type := " std::map<int, A>& m".toList
    let e := "f({ 1 >= 2 ,  3 })".toList
    ¬ IsGap type ∧ Text.Brackets.all.IsBalanced type ∧ '=' ∉ type ∧ ¬ IsGap e
      ∧ e.head? ≠ some '='
      ∧ parse (type ++ " = ".toList ++ e)
        = some ⟨⟨"std::map<int, A> &".toList⟩, some "f({ 1 >= 2 , 3 })".toList⟩
      ∧ parse (type ++ '=' :: e) = parse (type ++ " = ".toList ++ e) := by
  intro type e
  have htype : ¬ IsGap type := fun h => by simpa [isBlank] using h 's' (by decide)
  have he : ¬ IsGap e := fun h => by simpa [isBlank] using h 'f' (by decide)
  have hbalanced : Text.Brackets.all.IsBalanced type := by decide +kernel
  have hplain : '=' ∉ type := by decide
  have hhead : e.head? ≠ some '=' := by decide
  exact ⟨htype, hbalanced, hplain, he, hhead, by decide +kernel,
    (parse_assign_iff htype hbalanced hplain he hhead).2.2 ⟨by decide, by decide⟩⟩

/-- **Behind a closing `>` no default begins.** The `=` is read as part of `>=`, and the number
behind it as part of the type. -/
theorem parse_assign_templateType :
    let type := "A<int>".toList
    let e := "5".toList
    ¬ IsGap type ∧ Text.Brackets.all.IsBalanced type ∧ '=' ∉ type ∧ ¬ IsGap e
      ∧ Text.Brackets.all.IsBalanced e ∧ e.head? ≠ some '='
      ∧ parse (type ++ " = ".toList ++ e) = some ⟨⟨"A<int>".toList⟩, some "5".toList⟩
      ∧ parse (type ++ '=' :: e) = some ⟨⟨"A<int> = 5".toList⟩, none⟩
      ∧ parse (type ++ '=' :: e) ≠ parse (type ++ " = ".toList ++ e) := by
  intro type e
  have htype : ¬ IsGap type := fun h => by simpa [isBlank] using h 'A' (by decide)
  have he : ¬ IsGap e := fun h => by simpa [isBlank] using h '5' (by decide)
  exact ⟨htype, by decide +kernel, by decide, he, by decide +kernel, by decide, by decide +kernel,
    by decide +kernel, by decide +kernel⟩

end Parameter

end Overlay
