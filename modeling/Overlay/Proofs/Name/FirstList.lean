/-
Which parameter list is found.

The list of a text is meant to be the first one behind the declared name. The only parentheses in
a name are those of the call operator: a `()` that stands, perhaps after blanks, behind the keyword
`operator` (`IsOwn`). So a name has no parenthesis but that one, and the list opens at the first
that is not its own (`IsNameOf`).

The search starts behind the first keyword of the text (`exists_firstKeyword_of_cutOperator`),
wherever that stands. What is found is there in any case: a list with its parentheses balanced, or
one that is never closed. But it is the one behind the name exactly if no parenthesis stands in
front of the keyword (`isNameOf_split_iff`): a keyword in a default hides the list around it.
-/
import Mathlib.Data.List.Basic
import Overlay.Proofs.Name.Operator

set_option autoImplicit false

namespace Overlay.AppliedName

variable {t n m a a' p r x y before : Text}

/-! ## The first keyword

The search of the library goes through the text with the part that it has passed turned round. What
it finds is told here by a place in the text, behind which the keyword stands, and by there being no
such place before it. -/

/-- The keyword stands in `t` behind `a`, as a word where a name can start. -/
structure KeywordAt (t a : Text) : Prop where
  opens : opensName a.reverse = true
  stands : ∃ b, t = a ++ (keyword ++ b) ∧ Text.endsWord b = true

/-- The keyword stands there, and nowhere before. -/
structure FirstKeyword (t a : Text) : Prop where
  found : KeywordAt t a
  first : ∀ a', KeywordAt t a' → a <+: a'

/-- There is one first place. -/
theorem FirstKeyword.unique (h : FirstKeyword t a) (h' : FirstKeyword t a') : a = a' :=
  (h.first a' h'.found).eq_of_length_le (h'.first a h.found).length_le

/-- The keyword further on in a text, told by what was passed and what is left. -/
theorem keywordAt_append_iff {q : Text} :
    KeywordAt (before.reverse ++ t) (before.reverse ++ q)
      ↔ opensName (q.reverse ++ before) = true
        ∧ ∃ b, t = q ++ (keyword ++ b) ∧ Text.endsWord b = true := by
  have hreverse : (before.reverse ++ q).reverse = q.reverse ++ before := by simp
  constructor
  · rintro ⟨hopens, b, hb, hends⟩
    rw [List.append_assoc] at hb
    exact ⟨hreverse ▸ hopens, b, List.append_cancel_left hb, hends⟩
  · rintro ⟨hopens, b, rfl, hends⟩
    exact ⟨hreverse.symm ▸ hopens, b, (List.append_assoc ..).symm, hends⟩

/-- One step of the search: a keyword begins here. -/
theorem keywordAt_here_iff :
    KeywordAt (before.reverse ++ t) before.reverse
      ↔ ∃ b, (if opensName before then dropKeyword t else none) = some b := by
  have hhere : KeywordAt (before.reverse ++ t) (before.reverse ++ []) ↔ _ := keywordAt_append_iff
  rw [List.append_nil] at hhere
  rw [hhere, List.reverse_nil, List.nil_append]
  by_cases hopens : opensName before = true
  · simp [hopens, dropKeyword_eq_some_iff]
  · simp [hopens]

/-- A keyword begins here or behind the next character. -/
theorem keywordAt_cons_cases {c : Char} {q : Text}
    (h : KeywordAt (before.reverse ++ c :: t) (before.reverse ++ q)) :
    q = [] ∨ ∃ q', q = c :: q'
      ∧ KeywordAt ((c :: before).reverse ++ t) ((c :: before).reverse ++ q') := by
  cases q with
  | nil => exact .inl rfl
  | cons d q =>
    obtain ⟨-, b, hb, -⟩ := keywordAt_append_iff.1 h
    obtain ⟨rfl, -⟩ := List.cons.inj hb
    refine .inr ⟨q, rfl, ?_⟩
    simpa using h

/-- Where the search finds nothing there is no keyword. -/
theorem not_keywordAt_of_cutOperator (h : cutOperator before t = none) (q : Text) :
    ¬ KeywordAt (before.reverse ++ t) (before.reverse ++ q) := by
  induction t generalizing before q with
  | nil =>
    rw [keywordAt_append_iff]
    rintro ⟨-, b, hb, -⟩
    have hkey : keyword = [] := (List.append_eq_nil_iff.1 (List.append_eq_nil_iff.1 hb.symm).2).1
    exact absurd hkey (by decide)
  | cons c t ih =>
    rw [cutOperator] at h
    split at h
    next => simp at h
    next hnone =>
      intro hat
      rcases keywordAt_cons_cases hat with rfl | ⟨q', -, hlater⟩
      · rw [List.append_nil, keywordAt_here_iff, hnone] at hat
        simp at hat
      · exact ih h q' hlater

/-- What the search finds is the first keyword from where it starts. -/
theorem exists_of_cutOperator_eq_some (h : cutOperator before t = some (p, r)) :
    ∃ q, p = before.reverse ++ q ++ keyword ∧ t = q ++ (keyword ++ r)
      ∧ KeywordAt (before.reverse ++ t) (before.reverse ++ q)
      ∧ ∀ q', KeywordAt (before.reverse ++ t) (before.reverse ++ q') → q <+: q' := by
  induction t generalizing before with
  | nil => simp [cutOperator] at h
  | cons c t ih =>
    rw [cutOperator] at h
    split at h
    next b hb =>
      obtain ⟨rfl, rfl⟩ := Prod.mk.inj (Option.some.inj h)
      have hat := keywordAt_here_iff.2 ⟨b, hb⟩
      refine ⟨[], by simp, ?_, by simpa using hat, fun q' _ => List.nil_prefix⟩
      split at hb
      next => exact (dropKeyword_eq_some_iff.1 hb).1
      next => simp at hb
    next hnone =>
      obtain ⟨q, rfl, rfl, hat, hfirst⟩ := ih h
      refine ⟨c :: q, by simp, rfl, by simpa using hat, ?_⟩
      intro q' hq'
      rcases keywordAt_cons_cases hq' with rfl | ⟨q'', rfl, hlater⟩
      · rw [List.append_nil, keywordAt_here_iff, hnone] at hq'
        simp at hq'
      · exact (List.prefix_cons_inj c).2 (hfirst q'' hlater)

/-- **What the search finds is the first keyword.** -/
theorem exists_firstKeyword_of_cutOperator (h : cutOperator [] t = some (p, r)) :
    ∃ a, FirstKeyword t a ∧ p = a ++ keyword ∧ t = a ++ (keyword ++ r) := by
  obtain ⟨a, hp, ht, hat, hfirst⟩ := exists_of_cutOperator_eq_some h
  exact ⟨a, ⟨hat, hfirst⟩, hp, ht⟩

/-! ## The parentheses of the name

Only one pair of parentheses can belong to a name. Whether a parenthesis is of that pair is a matter
of its place, since the same two characters elsewhere are a list. -/

/-- The parenthesis behind `x` in `t` is that of the call operator: it is closed at once, and
between it and the first keyword there are blanks at most. -/
def IsOwn (t x : Text) : Prop :=
  ∃ a gap r, FirstKeyword t a ∧ Text.IsGap gap ∧ x = a ++ (keyword ++ gap)
    ∧ t = x ++ '(' :: ')' :: r

/-- In `t` the declared name and what belongs to it is `n`, if a list follows: all parentheses in
it are its own, and the next one is not. -/
structure IsNameOf (t n : Text) : Prop where
  own : ∀ x y, n = x ++ '(' :: y → IsOwn t x
  whole : ¬ IsOwn t n

/-- Where the search for the list starts: in front, behind the first keyword, or behind the
parentheses of the call operator. -/
theorem searchStart_cases (t : Text) :
    ((∀ a, ¬ FirstKeyword t a) ∧ (searchStart t).1 = [])
      ∨ (∃ a, FirstKeyword t a ∧ (∀ x, ¬ IsOwn t x) ∧ (searchStart t).1 = a ++ keyword)
      ∨ ∃ a gap, FirstKeyword t a ∧ Text.IsGap gap ∧ IsOwn t (a ++ (keyword ++ gap))
        ∧ (searchStart t).1 = a ++ (keyword ++ gap) ++ "()".toList := by
  rw [searchStart]
  cases hcut : cutOperator [] t with
  | none =>
    refine .inl ⟨?_, rfl⟩
    intro a ha
    exact not_keywordAt_of_cutOperator hcut a ha.found
  | some parts =>
    obtain ⟨head, after⟩ := parts
    obtain ⟨a, hfirst, rfl, htext⟩ := exists_firstKeyword_of_cutOperator hcut
    have hparts := Text.takeWhile_append_trimStart after
    right
    cases hdrop : Text.dropPiece "()".toList (Text.trimStart after) with
    | some rest =>
      have hgap : Text.IsGap (after.takeWhile Text.isBlank) :=
        List.all_eq_true.1 List.all_takeWhile
      have hafter : after.takeWhile Text.isBlank ++ '(' :: ')' :: rest = after := by
        rwa [Text.dropPiece_eq_some_iff.1 hdrop] at hparts
      simp only [hdrop]
      refine .inr ⟨a, _, hfirst, hgap, ⟨a, _, rest, hfirst, hgap, rfl, ?_⟩, by simp⟩
      rw [List.append_assoc, List.append_assoc, hafter]
      exact htext
    | none =>
      simp only [hdrop]
      refine .inl ⟨a, hfirst, ?_, rfl⟩
      -- a name of the call operator would start with the same keyword, and have `()` behind it
      rintro x ⟨a', gap, r, hfirst', hgap, rfl, ht⟩
      obtain rfl := hfirst.unique hfirst'
      have hafter : after = gap ++ '(' :: ')' :: r := by
        rw [htext, List.append_assoc, List.append_assoc] at ht
        exact List.append_cancel_left (List.append_cancel_left ht)
      have htrim : Text.trimStart after = "()".toList ++ r := by
        rw [hafter, Text.trimStart_gap_append hgap]
        rfl
      rw [Text.dropPiece_eq_some_iff.2 htrim] at hdrop
      simp at hdrop

/-- Everything in front of the first keyword is passed over. -/
theorem FirstKeyword.prefix_searchStart (h : FirstKeyword t a) : a <+: (searchStart t).1 := by
  rcases searchStart_cases t with ⟨hnone, -⟩ | ⟨a', h', -, hstart⟩ | ⟨a', gap, h', -, -, hstart⟩
  · exact absurd h (hnone a)
  · rw [h.unique h', hstart]
    exact List.prefix_append a' keyword
  · rw [h.unique h', hstart, List.append_assoc]
    exact List.prefix_append a' _

/-- A parenthesis in front of the first keyword is not one of the name. -/
theorem FirstKeyword.not_isOwn (h : FirstKeyword t (x ++ '(' :: y)) : ¬ IsOwn t x := by
  rintro ⟨a, gap, r, ha, -, hx, -⟩
  have hlen := congrArg List.length hx
  rw [← h.unique ha] at hlen
  simp only [List.length_append, List.length_cons] at hlen
  omega

/-- What is passed up to the list is the name exactly if no parenthesis stands in front of the
first keyword. -/
theorem isNameOf_iff (hn : n = (searchStart t).1 ++ m) (hm : '(' ∉ m) :
    IsNameOf t n ↔ ∀ a, FirstKeyword t a → '(' ∉ a := by
  constructor
  · intro h a ha hmem
    obtain ⟨x, y, rfl⟩ := List.append_of_mem hmem
    obtain ⟨r, hr⟩ := ha.prefix_searchStart
    refine ha.not_isOwn (h.own x (y ++ r ++ m) ?_)
    rw [hn, ← hr]
    simp
  · intro hfront
    have hkey : '(' ∉ keyword := by decide
    rcases searchStart_cases t with
      ⟨hnone, hstart⟩ | ⟨a, ha, hnone, hstart⟩ | ⟨a, gap, ha, hgap, hown, hstart⟩
    · rw [hstart, List.nil_append] at hn
      refine ⟨?_, fun ⟨a, _, _, ha, _⟩ => hnone a ha⟩
      rintro x y rfl
      simp [← hn] at hm
    · refine ⟨?_, hnone n⟩
      rintro x y rfl
      have hmem : '(' ∈ a ++ keyword ++ m := by
        rw [← hstart, ← hn]
        simp
      simp [hfront a ha, hkey, hm] at hmem
    · have hgap' : '(' ∉ gap := by
        intro hmem
        exact absurd (hgap '(' hmem) (by decide)
      have hn' : n = a ++ (keyword ++ gap) ++ '(' :: ')' :: m := by
        rw [hn, hstart, List.append_assoc]
        rfl
      constructor
      · intro x y hxy
        rw [hn'] at hxy
        -- no other parenthesis stands in front or behind
        obtain ⟨rfl, -, -⟩ := (List.append_cons_inj_of_notMem (by simp [hfront a ha, hkey, hgap'])
          (by simp [hm])).1 hxy
        exact hown
      · rintro ⟨a', gap', r, ha', hblanks, hx, -⟩
        -- the parentheses would be blanks
        rw [hn', ← ha.unique ha', List.append_assoc, List.append_assoc] at hx
        have hrest := List.append_cancel_left (List.append_cancel_left hx)
        have hmem : '(' ∈ gap' := by simp [← hrest]
        exact absurd (hblanks _ hmem) (by decide)

/-! ## What is found

The search is compared with what it is meant to find, for every text. Where they differ is told by
the text alone. -/

/-- Whatever is found, a list or none, is there: a list is closed by the parenthesis behind it, or
by none. And what is in front of it (all of the text, where none is found) is the name exactly if
no parenthesis stands in front of the first keyword. -/
theorem isNameOf_split_iff (t : Text) :
    match split t with
    | .bare => IsNameOf t t ↔ ∀ a, FirstKeyword t a → '(' ∉ a
    | .unclosed => ∃ name inside, t = name ++ '(' :: inside
        ∧ (∀ p r, inside = p ++ ')' :: r → ¬ Text.Balanced p)
        ∧ (IsNameOf t name ↔ ∀ a, FirstKeyword t a → '(' ∉ a)
    | .applied name params rest => t = name ++ '(' :: (params ++ ')' :: rest)
        ∧ Text.Balanced params ∧ (IsNameOf t name ↔ ∀ a, FirstKeyword t a → '(' ∉ a) := by
  have hparts := searchStart_append t
  cases hsplit : split t with
  | bare => exact isNameOf_iff hparts.symm (split_eq_bare_iff.1 hsplit)
  | unclosed =>
    rw [split] at hsplit
    split at hsplit
    · simp at hsplit
    next name inside hbreak =>
      obtain ⟨hrest, hname⟩ := Text.breakOn_singleton_eq_some_iff.1 hbreak
      refine ⟨(searchStart t).1 ++ name, inside, ?_, ?_, isNameOf_iff rfl hname⟩
      · rw [List.append_assoc, ← hrest, hparts]
      · intro p r hinside hp
        rw [Text.closing_eq_some_iff_balanced.2 ⟨hinside, hp⟩] at hsplit
        simp at hsplit
  | applied name params rest =>
    obtain ⟨htext, hbalanced⟩ := eq_of_split hsplit
    obtain ⟨m, hname, hm⟩ := exists_of_split hsplit
    exact ⟨htext, hbalanced, isNameOf_iff hname hm⟩

/-- **An operator in a default hides the list.** The list that is found is that of the operator. -/
theorem split_operatorDefault :
    let t := "f(int = operator+(1))".toList
    split t = .applied "f(int = operator+".toList "1".toList ")".toList
      ∧ "f(int = operator+".toList = "f".toList ++ '(' :: "int = operator+".toList
      ∧ ¬ IsOwn t "f".toList ∧ ¬ IsNameOf t "f(int = operator+".toList := by
  intro t
  have hown : ¬ IsOwn t "f".toList := by
    rintro ⟨a, gap, r, -, -, hx, -⟩
    have hlen := congrArg List.length hx
    have hkey : keyword.length = 8 := rfl
    simp [hkey] at hlen
    omega
  have hname : "f(int = operator+".toList = "f".toList ++ '(' :: "int = operator+".toList := rfl
  exact ⟨by rfl, hname, hown, fun h => hown (h.own _ _ hname)⟩

end Overlay.AppliedName
