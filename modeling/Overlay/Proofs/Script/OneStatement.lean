/-
Scripts of one statement.

A statement ends at its `;`, unless that stands inside parentheses. A text without such a `;`, and
with its parentheses closed, is a statement if a `;` is put behind it (`IsStatement`), and a script
with nothing else in it comes to what the statement is read as (`parse_statement`). In the other
direction, a script of one item whose only `;` is its last character is a directive or such a
statement (`statement_of_parse`).
-/
import Overlay.Proofs.Script.Composition
import Overlay.Proofs.Text.Cuts

set_option autoImplicit false

namespace Overlay.Script

variable {t u s r : Text}

/-! ## What is skipped in front of a `;`

In front of a `;` skipping ends where it would end at the end of the text. No comment begins with a
`;` and none ends with one, so putting it behind a text neither opens nor closes a comment. -/

/-- What is left is left with more behind it that does not go on a comment. -/
theorem skipTrivia_append_of_head {c : Char} {more : Text} (h : skipTrivia .gap t = .ok (c :: r))
    (hslash : more.head? ≠ some '/') (hstar : more.head? ≠ some '*') :
    skipTrivia .gap (t ++ more) = .ok (c :: r ++ more) := by
  by_cases hend : c = '/' ∧ r = []
  · obtain ⟨rfl, rfl⟩ := hend
    obtain ⟨s', rfl | ⟨-, hnil⟩, heq⟩ := exists_skipTrivia_append h more
    · rw [heq, List.singleton_append, skipTrivia_gap_cons fun _ => ⟨hslash, hstar⟩,
        if_neg (by decide), if_neg (by decide)]
    · simp at hnil
  · exact skipTrivia_append h (fun hc hr => hend ⟨hc, hr⟩) more

/-- Whether a comment ends does not depend on where it opened. -/
theorem isOk_skipTrivia_block (opening opening' t : Text) :
    (skipTrivia (.block opening) t).isOk = (skipTrivia (.block opening') t).isOk := by
  rw [skipTrivia_block, skipTrivia_block]
  cases Text.breakOn ['*', '/'] t <;> rfl

/-- No comment ends with a `;`, so one that is left open in front of it is left open. -/
theorem isOk_skipTrivia_of_append {s : Skip} (h : (skipTrivia s (t ++ [';'])).isOk = true) :
    (skipTrivia s t).isOk = true := by
  fun_induction skipTrivia s t with
  | case1 | case6 | case7 => rfl
  | case2 _ ih | case11 _ _ ih => exact ih h
  | case3 inside ih => exact ih ((isOk_skipTrivia_block _ _ _).trans h)
  | case4 _ _ _ ih =>
    rw [List.cons_append, skipTrivia_gap_cons (by simp), if_pos rfl] at h
    exact ih h
  | case5 d s _ _ hhash hskip ih =>
    have hd : d ≠ '/' := by
      rintro rfl
      exact absurd hskip (by decide)
    rw [List.cons_append, skipTrivia_gap_cons (fun heq => absurd heq hd), if_neg hhash,
      if_pos hskip] at h
    exact ih h
  | case8 _ ih =>
    rw [List.cons_append, skipTrivia, if_pos rfl] at h
    exact ih h
  | case9 _ _ hbreak ih =>
    rw [List.cons_append, skipTrivia, if_neg hbreak] at h
    exact ih h
  | case10 => exact absurd h Bool.false_ne_true
  | case12 opening d s hend ih =>
    -- the `;` that is added cannot complete the mark that closes the comment
    rw [List.cons_append, skipTrivia] at h
    · exact ih h
    · cases s with
      | nil => simp
      | cons x s =>
        rintro _ hd ⟨⟩
        exact hend s hd rfl

/-! ## The keywords of statements

What is needed of the keywords is that none of them is the beginning of a comment or of a directive,
and that none of them alone is a statement. -/

/-- What all keywords have in common; looked up in the list. -/
theorem statementKeywords_facts : ∀ k ∈ statementKeywords,
    k ≠ [] ∧ k ≠ "const".toList ∧ k ≠ "as".toList
      ∧ (k.all fun c =>
          Text.isLetter c && !Text.isBlank c && c != '/' && c != '#' && c != '%') = true
      ∧ (readStatement k).isOk = false := by
  decide +kernel

/-- A statement starts with a keyword and a blank. -/
theorem startsStatement_iff :
    startsStatement t = true
      ↔ ∃ k ∈ statementKeywords, ∃ c r, t = k ++ c :: r ∧ Text.isBlank c = true := by
  have hkeyword : ∀ k, (Text.dropPiece k t).any (fun r => r.head?.any Text.isBlank) = true
      ↔ ∃ c r, t = k ++ c :: r ∧ Text.isBlank c = true := by
    intro k
    rw [Option.any_eq_true]
    constructor
    · rintro ⟨r, hr, hblank⟩
      cases r with
      | nil => simp at hblank
      | cons c r => exact ⟨c, r, Text.dropPiece_eq_some_iff.1 hr, hblank⟩
    · rintro ⟨c, r, ht, hc⟩
      exact ⟨c :: r, Text.dropPiece_eq_some_iff.2 ht, hc⟩
  simp only [startsStatement, List.any_eq_true, hkeyword]

/-- Nothing is skipped in front of a statement. -/
theorem skipTrivia_of_startsStatement (h : startsStatement t = true) :
    skipTrivia .gap t = .ok t ∧ t.head? ≠ some '%' := by
  obtain ⟨k, hk, c, r, rfl, -⟩ := startsStatement_iff.1 h
  obtain ⟨hne, -, -, hall, -⟩ := statementKeywords_facts k hk
  cases k with
  | nil => exact absurd rfl hne
  | cons x k => ?_
  have hx := List.all_eq_true.1 hall x List.mem_cons_self
  simp only [Bool.and_eq_true, bne_iff_ne, Bool.not_eq_true'] at hx
  obtain ⟨⟨⟨⟨hletter, hblank⟩, hslash⟩, hhash⟩, hpercent⟩ := hx
  have hsemi : x ≠ ';' := by
    rintro rfl
    exact absurd hletter (by decide)
  constructor
  · rw [List.cons_append, skipTrivia_gap_cons fun h => absurd h hslash, if_neg hhash,
      if_neg (by simp [hsemi, hblank])]
  · simpa using hpercent

/-! ## One statement

Whether a text is a statement does not depend on what it says: parentheses and `;` decide. So a
statement is put together from its parts, each of which has its parentheses closed. -/

/-- A text that is a statement, if a `;` follows. -/
structure IsStatement (s : Text) : Prop where
  nonempty : s ≠ []
  undirected : s.head? ≠ some '%'
  whole : Text.cut .round (.char ';') s = none
  closed : Text.Brackets.round.depthAfter 0 s = 0

/-- A text with closed parentheses can be put behind a statement if it has no `;` outside of
them. -/
theorem IsStatement.append (hs : IsStatement s) (hwhole : Text.cut .round (.char ';') u = none)
    (hclosed : Text.Brackets.round.depthAfter 0 u = 0) : IsStatement (s ++ u) where
  nonempty h := hs.nonempty (List.append_eq_nil_iff.1 h).1
  undirected := by
    rw [List.head?_append_of_ne_nil s hs.nonempty]
    exact hs.undirected
  whole := Text.cut_char_append hs.whole hs.closed hwhole
  closed := by rw [Text.Brackets.depthAfter_append, hs.closed, hclosed]

/-- Without any `;` it is enough that the parentheses are balanced, -/
theorem IsStatement.append_of_balanced (hs : IsStatement s) (hu : ';' ∉ u)
    (hbalanced : Text.Balanced u) : IsStatement (s ++ u) :=
  hs.append (Text.cutFrom_char_of_not_mem hu) hbalanced.depthAfter_eq_zero

/-- A character that neither ends a statement nor belongs to its parentheses. -/
def isInner (c : Char) : Bool := c != ';' && c != '(' && c != ')'

theorem isInner_of_isIdentChar {c : Char} (h : Text.isIdentChar c = true) : isInner c = true := by
  have hother : ∀ m : Char, Text.isIdentChar m = false → (c != m) = true := by
    intro m hm
    rw [bne_iff_ne]
    rintro rfl
    rw [h] at hm
    simp at hm
  rw [isInner, hother ';' rfl, hother '(' rfl, hother ')' rfl]
  rfl

/-- and without parentheses there is nothing to ask for. -/
theorem IsStatement.append_of_all (hs : IsStatement s) (hu : u.all isInner = true) :
    IsStatement (s ++ u) := by
  have hother : ∀ m : Char, isInner m = false → m ∉ u := by
    intro m hm hmem
    rw [List.all_eq_true.1 hu m hmem] at hm
    simp at hm
  exact hs.append_of_balanced (hother ';' rfl)
    (Text.balanced_of_not_mem (hother '(' rfl) (hother ')' rfl))

/-- A script of one statement is what the statement is read as. -/
theorem parse_statement (hskip : skipTrivia .gap t = .ok s) (hs : IsStatement s) :
    parse (t ++ [';'])
      = match readStatement s with
        | .ok item => .ok [item]
        | .error cause => .error ⟨lineAt (t ++ [';']) (s ++ [';']), cause⟩ := by
  cases s with
  | nil => exact absurd rfl hs.nonempty
  | cons c s => ?_
  have hskip' : skipTrivia .gap (t ++ [';']) = .ok (c :: s ++ [';']) :=
    skipTrivia_append_of_head hskip (by decide) (by decide)
  have hcut : Text.cut .round (.char ';') (c :: s ++ [';']) = some (c :: s, []) :=
    Text.cutFrom_char_cons hs.whole hs.closed []
  have hitem : readItem (c :: s ++ [';'])
      = (readStatement (c :: s)).map fun item => (item, []) := by
    have hpercent : c ≠ '%' := fun hc => hs.undirected (congrArg some hc)
    rw [readItem, hcut]
    rintro r ⟨⟩
    exact hpercent rfl
  rw [parse]
  cases hread : readStatement (c :: s) with
  | error cause =>
    rw [hread] at hitem
    exact readFrom_of_fault hskip' hitem
  | ok item =>
    rw [hread] at hitem
    rw [List.cons_append] at hskip' hitem
    rw [readFrom_of_item hskip' hitem, readFrom_of_end rfl]
    rfl

/-- What a script of one item without further `;` is: a directive or a statement. -/
theorem statement_of_parse {item : Item} (ht : ';' ∉ t) (hskip : skipTrivia .gap t = .ok s)
    (h : parse (t ++ [';']) = .ok [item]) :
    (s.head? = some '%' ∧ ∃ e, item = .directive e)
      ∨ (IsStatement s ∧ readStatement s = .ok item) := by
  have hs : ';' ∉ s := fun hmem => ht ((suffix_of_skipTrivia hskip).mem hmem)
  cases s with
  | nil =>
    obtain ⟨s', hs', heq⟩ := exists_skipTrivia_append hskip [';']
    have hend : skipTrivia .gap (t ++ [';']) = .ok [] := by
      rcases hs' with rfl | ⟨rfl, -⟩ <;> exact heq
    rw [parse, readFrom_of_end hend] at h
    simp at h
  | cons c s =>
    have hskip' : skipTrivia .gap (t ++ [';']) = .ok (c :: s ++ [';']) :=
      skipTrivia_append_of_head hskip (by decide) (by decide)
    rw [List.cons_append] at hskip'
    cases hitem : readItem (c :: (s ++ [';'])) with
    | error cause =>
      rw [parse, readFrom_of_fault hskip' hitem] at h
      simp at h
    | ok parts =>
      obtain ⟨item', rest⟩ := parts
      rw [parse, readFrom_of_item hskip' hitem] at h
      obtain ⟨items, -, hitems⟩ := map_eq_ok_iff.1 h
      obtain ⟨rfl, -⟩ := List.cons.inj hitems
      rcases readItem_eq_ok_iff.1 hitem with ⟨r, e, hr, -, he⟩ | ⟨hhead, statement, hcut, hread⟩
      · exact .inl ⟨by rw [(List.cons.inj hr).1]; rfl, e, he⟩
      · -- the only `;` is the last character, so the cut that was made is the one there
        have hnone : Text.cutFrom .round (.char ';') 0 none (c :: s) = none :=
          Text.cutFrom_char_of_not_mem hs
        have hcut' : Text.cutFrom .round (.char ';') 0 none (c :: s ++ [';'])
            = some (statement, rest) := hcut
        rw [Text.cutFrom_append (Text.Mark.ignores_char ';' _ _), hnone] at hcut'
        obtain ⟨⟨p, r⟩, hmark, hparts⟩ := Option.map_eq_some_iff.1 hcut'
        obtain ⟨hdepth, d, -, -, hp⟩ := Text.depth_of_cutFrom hmark
        have hnil : p = [] := by
          cases p with
          | nil => rfl
          | cons d p => simp at hp
        rw [hnil, Text.Brackets.depthAfter_nil] at hdepth
        rw [hnil, List.append_nil] at hparts
        refine .inr ⟨⟨List.cons_ne_nil c s, hhead, hnone, hdepth⟩, ?_⟩
        rw [(Prod.mk.inj hparts).1]
        exact hread

end Overlay.Script
