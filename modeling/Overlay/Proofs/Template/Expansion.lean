/-
What a template expands to.

A text is split into tokens and single characters. The split is told here without the reader:
the pieces make up the text, no character begins a token, and no token could be longer
(`IsSplit`). That leaves one split of each text, and the reader finds it. The induction is over
the pieces: what follows a piece in the text decides whether it may stand there, and nothing in
front of it is looked at.

The facts are in a table under the tokens that ask for them, as they are written in a template.
Expanding writes down every piece, with the fact in place of a token that the table has. A
template that knows of no placeholder in its text is left alone; since the placeholders are
those of the table, that comes to the same (`expand_eq_substitute`).

Where a text does not go on with an identifier, the split of what is in front of it ends there.
So the two parts are expanded one by one.
-/
import Mathlib.Data.List.Nodup
import Overlay.Proofs.Text.Identifier
import Overlay.Template

set_option autoImplicit false

namespace Overlay

/-! ## Tokens and their facts

A token is looked up by its text, `$` included. No two placeholders share a word, so the table gives
back what was put under each of them. -/

/-- A token belongs to a placeholder exactly if it is `$` and the placeholder's word. -/
theorem Placeholder.ofToken?_eq_some_iff {token : Text} {p : Placeholder} :
    ofToken? token = some p ↔ token = '$' :: p.word := by
  rw [ofToken?.eq_def]
  split
  · rename_i w
    rw [ofWord?_eq_some_iff, List.cons.injEq, eq_comm (a := w)]
    simp
  · rename_i hother
    constructor
    · intro h
      simp at h
    · rintro rfl
      exact absurd rfl (hother p.word)

namespace FactSheet

/-- The facts, each under the token that asks for it. -/
def table (f : FactSheet) : List (Text × Text) :=
  [("$action".toList, f.action),
   ("$name".toList, f.name),
   ("$symname".toList, f.symbol),
   ("$overname".toList, f.overloadSuffix),
   ("$wrapname".toList, f.wrapperName),
   ("$decl".toList, f.decl),
   ("$fulldecl".toList, f.fullDecl),
   ("$parentclassname".toList, f.parentClass),
   ("$parentclasssymname".toList, f.parentClassTarget)]

/-- The table has each fact under the token that asks for it. -/
theorem table_eq (f : FactSheet) :
    f.table = Placeholder.all.map fun p => ('$' :: p.word, f.get p) := rfl

/-- The table has a fact for the token of each placeholder, and for no other. -/
theorem lookup_table (f : FactSheet) (token : Text) : f.table.lookup token = f.get? token := by
  have hlookup : ∀ ps : List Placeholder,
      (ps.map fun p => ('$' :: p.word, f.get p)).lookup token
        = (ps.find? fun p => '$' :: p.word == token).map f.get := by
    intro ps
    induction ps with
    | nil => rfl
    | cons p ps ih =>
      rw [List.map_cons, List.lookup_cons, List.find?_cons, ih, BEq.comm]
      cases '$' :: p.word == token <;> rfl
  rw [table_eq, hlookup, get?]
  congr 1
  refine Option.ext fun p => ?_
  rw [Placeholder.ofToken?_eq_some_iff]
  constructor
  · intro h
    have htoken := List.find?_some h
    exact (beq_iff_eq.1 htoken).symm
  · rintro rfl
    cases p <;> decide

end FactSheet

namespace Template

variable {t u r : Text} {p : Piece} {ps qs : List Piece}

/-! ## The split of a text

The split is told by two conditions, one on the pieces together and one on each piece and what
follows it. That they leave one split is an induction over the pieces in which the text goes along.
-/

/-- A piece may stand in front of `rest`: as a character that begins no token there, or as a
token that does not go on in `rest`. -/
def Piece.Stands (rest : Text) : Piece → Prop
  | plain c => c = '$' → ∀ d, rest.head? = some d → Text.isLetter d = false
  | token name =>
    Text.isIdentifier name = true ∧ ∀ d, rest.head? = some d → Text.isIdentChar d = false

/-- **The split of a text.** The pieces make up the text, and each of them may stand where it
does. -/
structure IsSplit (t : Text) (ps : List Piece) : Prop where
  whole : ps.flatMap Piece.text = t
  stands : ∀ before p after, ps = before ++ p :: after → p.Stands (after.flatMap Piece.text)

/-- Only an empty text is split into nothing. -/
theorem isSplit_nil : IsSplit t [] ↔ t = [] := by
  constructor
  · intro h
    exact h.whole.symm
  · rintro rfl
    exact ⟨rfl, by simp⟩

/-- A split is a first piece that may stand in front of the rest, and a split of that. -/
theorem isSplit_cons : IsSplit t (p :: ps) ↔ ∃ r, t = p.text ++ r ∧ p.Stands r ∧ IsSplit r ps := by
  constructor
  · rintro ⟨rfl, hstands⟩
    refine ⟨ps.flatMap Piece.text, rfl, hstands [] p ps rfl, rfl, ?_⟩
    rintro before q after rfl
    exact hstands (p :: before) q after rfl
  · rintro ⟨r, rfl, hp, rfl, hstands⟩
    refine ⟨rfl, ?_⟩
    intro before q after heq
    rcases List.cons_eq_append_iff.1 heq with ⟨rfl, hq⟩ | ⟨before, rfl, hps⟩
    · obtain ⟨rfl, rfl⟩ := List.cons.inj hq
      exact hp
    · exact hstands before q after hps

/-- The reader finds a split. -/
theorem isSplit_pieces (t : Text) : IsSplit t (pieces t) := by
  fun_induction pieces t with
  | case1 => exact isSplit_nil.2 rfl
  | case2 r name rest h ih =>
    obtain ⟨rfl, hname, hrest⟩ := Text.cutIdentifier_eq_some_iff.1 h
    exact isSplit_cons.2 ⟨rest, rfl, ⟨hname, hrest⟩, ih⟩
  | case3 r h ih =>
    exact isSplit_cons.2 ⟨r, rfl, fun _ => Text.cutIdentifier_eq_none_iff.1 h, ih⟩
  | case4 c r hc ih =>
    exact isSplit_cons.2 ⟨r, rfl, fun hdollar => absurd hdollar hc, ih⟩

/-- A character that is no `$` is a piece of its own. -/
theorem pieces_cons_of_ne {c : Char} (hc : c ≠ '$') (t : Text) :
    pieces (c :: t) = .plain c :: pieces t := by
  rw [pieces, if_neg hc]

/-- So is a `$` without an identifier behind it. -/
theorem pieces_dollar_of_none (h : Text.cutIdentifier t = none) :
    pieces ('$' :: t) = .plain '$' :: pieces t := by
  rw [pieces, if_pos rfl]
  split <;> simp_all

/-- With an identifier behind it, it is a token together with that. -/
theorem pieces_dollar_of_some {name : Text} (h : Text.cutIdentifier t = some (name, r)) :
    pieces ('$' :: t) = .token name :: pieces r := by
  rw [pieces, if_pos rfl]
  split <;> simp_all

/-- There is no other split than the one that the reader finds. -/
theorem IsSplit.eq_pieces (h : IsSplit t ps) : ps = pieces t := by
  induction ps generalizing t with
  | nil =>
    obtain rfl := isSplit_nil.1 h
    exact pieces_nil.symm
  | cons p ps ih =>
    obtain ⟨r, rfl, hp, hr⟩ := isSplit_cons.1 h
    obtain rfl := ih hr
    cases p with
    | token name =>
      exact (pieces_dollar_of_some (Text.cutIdentifier_eq_some_iff.2 ⟨rfl, hp⟩)).symm
    | plain c =>
      by_cases hc : c = '$'
      · subst hc
        exact (pieces_dollar_of_none (Text.cutIdentifier_eq_none_iff.2 (hp rfl))).symm
      · exact (pieces_cons_of_ne hc r).symm

/-! A token is as long as it can be, and a `$` that is none stands for itself. -/

example :
    pieces "$names $$name[".toList
      = [.token "names".toList, .plain ' ', .plain '$', .token "name".toList, .plain '['] := by
  cbv

/-! ## Two texts

A piece looks at one character behind it at most. So where two texts are joined, only the last piece
of the first could change, and only if the second goes on with an identifier. -/

/-- What goes on with no identifier takes no piece away from what is in front of it. -/
theorem Piece.Stands.append (h : p.Stands t)
    (hu : ∀ d, u.head? = some d → Text.isIdentChar d = false) : p.Stands (t ++ u) := by
  cases t with
  | nil =>
    cases p with
    | token name => exact ⟨h.1, hu⟩
    | plain c =>
      intro _ d hd
      rw [Bool.eq_false_iff]
      intro hletter
      have hident := hu d hd
      rw [Text.isIdentChar_of_isLetter d hletter] at hident
      simp at hident
  | cons c t => exact h

/-- Two splits make one, if the second text does not go on with an identifier. -/
theorem IsSplit.append (ht : IsSplit t ps) (hu : IsSplit u qs)
    (hstop : ∀ d, u.head? = some d → Text.isIdentChar d = false) : IsSplit (t ++ u) (ps ++ qs) := by
  induction ps generalizing t with
  | nil =>
    obtain rfl := isSplit_nil.1 ht
    exact hu
  | cons p ps ih =>
    obtain ⟨r, rfl, hp, hr⟩ := isSplit_cons.1 ht
    exact isSplit_cons.2 ⟨r ++ u, List.append_assoc _ _ _, hp.append hstop, ih hr⟩

/-- Therefore two texts are split one by one. -/
theorem pieces_append (t : Text) (hstop : ∀ d, u.head? = some d → Text.isIdentChar d = false) :
    pieces (t ++ u) = pieces t ++ pieces u :=
  ((isSplit_pieces t).append (isSplit_pieces u) hstop).eq_pieces.symm

/-! ## Expanding

What is written for a piece is its fact, or its own text where the table has none for it. -/

/-- The placeholder of a piece is told by its text. -/
theorem Piece.placeholder?_eq (p : Piece) : p.placeholder? = Placeholder.ofToken? p.text := by
  cases p with
  | token name => rfl
  | plain c =>
    -- one character is no token: every placeholder has a word
    have hword : ∀ q : Placeholder, [c] ≠ '$' :: q.word := by
      intro q hq
      have hnil : q.word ≠ [] := by cases q <;> decide
      exact hnil (List.cons.inj hq).2.symm
    refine Option.ext fun q => ?_
    rw [Placeholder.ofToken?_eq_some_iff]
    exact iff_of_false (by simp [placeholder?]) (hword q)

/-- A piece comes to its fact, if it is a token of the table, and stays as it is written
otherwise. -/
theorem Piece.fill_eq (facts : FactSheet) (p : Piece) :
    p.fill facts = (facts.table.lookup p.text).getD p.text := by
  rw [fill, placeholder?_eq, FactSheet.lookup_table, FactSheet.get?]
  cases Placeholder.ofToken? p.text <;> rfl

/-- The placeholders that are found in a text are the tokens of its split. -/
theorem mem_scan_iff {q : Placeholder} : q ∈ scan t ↔ .token q.word ∈ pieces t := by
  have htoken : ∀ p : Piece, p.placeholder? = some q ↔ p = .token q.word := by
    intro p
    cases p with
    | plain c => simp [Piece.placeholder?]
    | token name =>
      rw [Piece.placeholder?, Placeholder.ofWord?_eq_some_iff, Piece.token.injEq, eq_comm]
  rw [scan, List.mem_filter, List.any_eq_true]
  simp only [Placeholder.mem_all, true_and, beq_iff_eq, htoken, exists_eq_right]

/-- Where no placeholder occurs there is nothing to fill in. -/
theorem substitute_of_scan_eq_nil (h : scan t = []) (facts : FactSheet) :
    substitute t facts = t := by
  have hfill : ∀ p ∈ pieces t, p.fill facts = p.text := by
    intro p hp
    rw [Piece.fill]
    cases hq : p.placeholder? with
    | none => rfl
    | some q =>
      have hmem : q ∈ scan t := by
        rw [scan, List.mem_filter]
        exact ⟨Placeholder.mem_all q, List.any_eq_true.2 ⟨p, hp, by simp [hq]⟩⟩
      rw [h] at hmem
      exact absurd hmem List.not_mem_nil
  rw [substitute, List.flatMap_congr hfill, flatMap_text_pieces]

/-- Expanding fills in all pieces, be there placeholders among them or not. -/
theorem expand_eq_substitute (tpl : Template) (facts : FactSheet) :
    tpl.expand facts = substitute tpl.text facts := by
  rw [expand]
  split
  · rename_i hnone
    rw [tpl.scanned] at hnone
    exact (substitute_of_scan_eq_nil hnone facts).symm
  · rfl

/-- And two texts are expanded one by one. -/
theorem substitute_append (t : Text)
    (hstop : ∀ d, u.head? = some d → Text.isIdentChar d = false) (facts : FactSheet) :
    substitute (t ++ u) facts = substitute t facts ++ substitute u facts := by
  rw [substitute, pieces_append t hstop, List.flatMap_append]
  rfl

/-- **What a template expands to.** There is one split of a text. The placeholders of the template
are those whose tokens are among its pieces, each once; and whether there are any or not, the
expansion is the pieces one after the other, with the fact in place of each token that has one.
So it is put together from the expansions of two parts, if the second does not begin with a
character of an identifier. -/
theorem expand_ofText (t : Text) (facts : FactSheet) :
    (∃! ps, IsSplit t ps)
      ∧ (∀ ps, IsSplit t ps →
        (∀ q, q ∈ (ofText t).placeholders ↔ .token q.word ∈ ps)
          ∧ (ofText t).placeholders.Nodup
          ∧ (ofText t).expand facts
            = ps.flatMap fun p => (facts.table.lookup p.text).getD p.text)
      ∧ ∀ u, (∀ d, u.head? = some d → Text.isIdentChar d = false) →
        (ofText (t ++ u)).expand facts = (ofText t).expand facts ++ (ofText u).expand facts := by
  refine ⟨⟨pieces t, isSplit_pieces t, fun ps h => h.eq_pieces⟩, ?_, ?_⟩
  · intro ps h
    obtain rfl := h.eq_pieces
    refine ⟨fun q => mem_scan_iff, List.Nodup.filter _ (by decide), ?_⟩
    rw [expand_eq_substitute]
    exact List.flatMap_congr fun p _ => p.fill_eq facts
  · intro u hstop
    rw [expand_eq_substitute, expand_eq_substitute, expand_eq_substitute]
    exact substitute_append t hstop facts

/-- A token is expanded alone if what is behind it begins with a bracket. -/
theorem expand_ofText_name :
    let facts : FactSheet := ⟨[], ['f'], [], [], "_wrap_f".toList, [], [], [], []⟩
    let t := "$name".toList
    let u := "[$wrapname]".toList
    IsSplit t [.token "name".toList] ∧ (ofText t).expand facts = ['f']
      ∧ (∀ d, u.head? = some d → Text.isIdentChar d = false)
      ∧ (ofText (t ++ u)).expand facts = "f[_wrap_f]".toList := by
  intro facts t u
  have hsplit : IsSplit t [.token "name".toList] := by
    have hpieces : pieces t = [.token "name".toList] := by decide +kernel
    exact hpieces ▸ isSplit_pieces t
  have hstop : ∀ d, u.head? = some d → Text.isIdentChar d = false := by
    intro d hd
    obtain rfl := Option.some.inj hd
    rfl
  obtain ⟨-, hwhole, hparts⟩ := expand_ofText t facts
  have hname : (ofText t).expand facts = ['f'] := (hwhole _ hsplit).2.2
  have hwrapper : (ofText u).expand facts = "[_wrap_f]".toList := by decide +kernel
  refine ⟨hsplit, hname, hstop, ?_⟩
  rw [hparts u hstop, hname, hwrapper]
  rfl

end Template

end Overlay
