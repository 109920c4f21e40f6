/-
Where a parameter list starts.

Two things decide it: the first parenthesis, and the keyword `operator`, behind which the search
starts. The keyword counts only as a word (`hasWord_of_cutOperator`), so a text without that word
is split at its first parenthesis (`split_eq_applied_iff_of_not_hasWord`). A text with the word is
another matter, because the keyword may also stand behind the list: then the list is passed over.
`split_append_iff` says when a list in the front of a text is the one that is found, and what has
to be true of the text behind it: nothing, if the keyword stands in front of the list already, and
otherwise that it does not hold the keyword.

That is what the files on scripts and patterns need. A name and its list are put together there with
something behind them that is not known, and the question is whether the list is found again. So the
statement keeps the text behind the list apart from the list, and says what it has to fulfil.
-/
import Overlay.Name.Applied
import Overlay.Proofs.Text.Cuts
import Overlay.Proofs.Text.Extension
import Overlay.Proofs.Text.Identifier
import Overlay.Proofs.Text.WordEnds

set_option autoImplicit false

namespace Overlay

namespace AppliedName

variable {t u p r before : Text} {c : Char}

/-! ## The keyword

The search goes on until it has found the keyword as a word, with a name in front that can be that
of an operator. The induction is over the text that is left, with the text that was passed. -/

/-- The keyword has no blank in it. -/
theorem isBlank_of_mem_keyword (h : c ∈ keyword) : Text.isBlank c = false := by
  have hall : keyword.all Text.isIdentChar = true := rfl
  exact Text.isBlank_of_isIdentChar (List.all_eq_true.1 hall c h)

/-- Behind what a name can open with, a word can start. -/
theorem endsWord_of_opensName (h : opensName before = true) : Text.endsWord before = true := by
  unfold opensName at h
  split at h
  · rfl
  · exact rfl
  · exact Text.endsWord_cons_of_isBlank h _

/-- The keyword is dropped where it stands as a word. -/
theorem dropKeyword_eq_some_iff :
    dropKeyword t = some r ↔ t = keyword ++ r ∧ Text.endsWord r = true := by
  rw [dropKeyword, Option.filter_eq_some_iff, Text.dropPiece_eq_some_iff]

/-- Where a text is cut, the keyword stands as a word. -/
theorem hasWord_of_cutOperator (h : cutOperator before t = some (p, r)) :
    Text.HasWord keyword t := by
  obtain ⟨q, htext, hq, hr⟩ : ∃ q, t = q ++ (keyword ++ r)
      ∧ Text.endsWord (q.reverse ++ before) = true ∧ Text.endsWord r = true := by
    induction t generalizing before with
    | nil => simp [cutOperator] at h
    | cons c t ih =>
      rw [cutOperator] at h
      split at h
      next after ha =>
        split at ha
        next hopens =>
          obtain ⟨htext, hends⟩ := dropKeyword_eq_some_iff.1 ha
          rw [← (Prod.mk.inj (Option.some.inj h)).2]
          exact ⟨[], htext, endsWord_of_opensName hopens, hends⟩
        next => simp at ha
      next =>
        obtain ⟨q, rfl, hq, hr⟩ := ih h
        rw [← List.singleton_append, ← List.append_assoc] at hq
        exact ⟨c :: q, rfl, by rwa [List.reverse_cons], hr⟩
  exact ⟨q, r, htext, Text.endsWord_of_append hq, hr⟩

/-- A text without the word is not cut at one. -/
theorem cutOperator_of_not_hasWord (h : ¬ Text.HasWord keyword t) (before : Text) :
    cutOperator before t = none := by
  cases hcut : cutOperator before t with
  | none => rfl
  | some parts => exact absurd (hasWord_of_cutOperator hcut) h

/-- A text without a character of the keyword does not hold it. -/
theorem not_hasWord_of_not_mem (h : 'p' ∉ t) : ¬ Text.HasWord keyword t := by
  rintro ⟨q, r, rfl, -⟩
  exact h (List.mem_append_right q (List.mem_append_left r (by decide)))

/-- A keyword in front of a character that it does not hold is found without what is behind. -/
theorem dropKeyword_append_cons (hc : c ∉ keyword) (t u : Text) :
    dropKeyword (t ++ c :: u) = (dropKeyword (t ++ [c])).map (· ++ u) := by
  apply Option.ext
  intro r
  rw [Option.map_eq_some_iff, dropKeyword_eq_some_iff]
  constructor
  · rintro ⟨htext, hends⟩
    rcases List.append_eq_append_iff.1 htext with ⟨k, hk, hu⟩ | ⟨s, rfl, hs⟩
    · cases k with
      | nil =>
        -- the keyword ends in front of the character
        rw [List.append_nil] at hk
        rw [List.nil_append] at hu
        subst hk hu
        exact ⟨[c], dropKeyword_eq_some_iff.2 ⟨rfl, hends⟩, rfl⟩
      | cons d k =>
        obtain ⟨rfl, -⟩ := List.cons.inj hu
        rw [hk] at hc
        simp at hc
    · subst hs
      refine ⟨s ++ [c], dropKeyword_eq_some_iff.2 ⟨by simp, ?_⟩, by simp⟩
      have hsplit : s ++ c :: u = (s ++ [c]) ++ u := by simp
      rw [hsplit] at hends
      exact Text.endsWord_of_append hends
  · rintro ⟨s, hs, rfl⟩
    obtain ⟨htext, hends⟩ := dropKeyword_eq_some_iff.1 hs
    have hsplit : t ++ c :: u = (t ++ [c]) ++ u := by simp
    refine ⟨by rw [hsplit, htext, List.append_assoc], ?_⟩
    cases s with
    | nil =>
      -- the character would be the last one of the keyword
      rw [List.append_nil] at htext
      rw [← htext] at hc
      simp at hc
    | cons d s => exact hends

/-- A search for the keyword goes through a text up to a character that it does not hold, and
then through the rest. -/
theorem cutOperator_append_cons (hc : c ∉ keyword) (before t u : Text) :
    cutOperator before (t ++ c :: u)
      = match cutOperator before (t ++ [c]) with
        | some (p, r) => some (p, r ++ u)
        | none => cutOperator ((t ++ [c]).reverse ++ before) u := by
  induction t generalizing before with
  | nil =>
    -- the keyword does not begin with this character
    have hkey : ∀ s, dropKeyword (c :: s) = none := by
      intro s
      rw [Option.eq_none_iff_forall_ne_some]
      intro r hr
      obtain ⟨htext, -⟩ := dropKeyword_eq_some_iff.1 hr
      have hmem : c ∈ keyword := by
        obtain ⟨rfl, -⟩ := List.cons.inj (htext : c :: s = 'o' :: ("perator".toList ++ r))
        decide
      exact hc hmem
    simp [cutOperator, hkey]
  | cons d t ih =>
    rw [List.cons_append, List.cons_append, cutOperator, cutOperator, ← List.cons_append,
      ← List.cons_append, dropKeyword_append_cons hc]
    by_cases hopens : opensName before = true
    · rw [if_pos hopens, if_pos hopens]
      cases dropKeyword (d :: t ++ [c]) with
      | some after => rfl
      | none =>
        simp only [Option.map_none]
        rw [ih]
        simp
    · rw [if_neg hopens, if_neg hopens]
      simp only
      rw [ih]
      simp

/-! ## The list

First what a split is made of, then when a text is split at a given place. Whether there is a
keyword tells two cases apart, and each has a lemma of its own. -/

/-- The parts of a text with a list are the text, and the list is balanced. -/
theorem eq_of_split {n : Text} (h : split t = .applied n p r) :
    t = n ++ '(' :: (p ++ ')' :: r) ∧ Text.Balanced p := by
  rw [split] at h
  have hstart := searchStart_append t
  split at h
  · simp at h
  next name inside hbreak =>
    split at h
    · simp at h
    next params rest hclosing =>
      obtain ⟨rfl, rfl, rfl⟩ := AppliedName.applied.inj h
      obtain ⟨hinside, hbalanced⟩ := Text.closing_eq_some_iff_balanced.1 hclosing
      refine ⟨?_, hbalanced⟩
      calc t = (searchStart t).1 ++ (searchStart t).2 := hstart.symm
        _ = (searchStart t).1 ++ (name ++ '(' :: (params ++ ')' :: rest)) := by
            rw [Text.eq_of_breakOn hbreak, hinside]
            rfl
        _ = (searchStart t).1 ++ name ++ '(' :: (params ++ ')' :: rest) :=
            (List.append_assoc ..).symm

/-- A text is split at the first parenthesis behind where the search starts. -/
theorem split_of_searchStart {a b m n : Text} (hstart : searchStart t = (a, b))
    (hb : b = m ++ '(' :: (p ++ ')' :: r)) (hn : n = a ++ m) (hm : '(' ∉ m)
    (hp : Text.Balanced p) : split t = .applied n p r := by
  subst hn
  have hbreak : Text.breakOn ['('] b = some (m, p ++ ')' :: r) :=
    Text.breakOn_singleton_eq_some_iff.2 ⟨hb, hm⟩
  have hclosing : Text.closing '(' ')' 0 (p ++ ')' :: r) = some (p, r) :=
    Text.closing_eq_some_iff_balanced.2 ⟨rfl, hp⟩
  simp only [split, hstart, hbreak, hclosing]

/-- The name reaches at least as far as the search has passed over, and has no parenthesis behind
that. -/
theorem exists_of_split {n : Text} (h : split t = .applied n p r) :
    ∃ m, n = (searchStart t).1 ++ m ∧ '(' ∉ m := by
  rw [split] at h
  split at h
  · simp at h
  next name inside hbreak =>
    split at h
    · simp at h
    next params rest hclosing =>
      obtain ⟨rfl, rfl, rfl⟩ := AppliedName.applied.inj h
      exact ⟨name, rfl, (Text.breakOn_singleton_eq_some_iff.1 hbreak).2⟩

/-- Without the keyword the search starts at the front. -/
theorem searchStart_of_not_hasWord (h : ¬ Text.HasWord keyword t) : searchStart t = ([], t) := by
  rw [searchStart, cutOperator_of_not_hasWord h []]

/-- Without the keyword a text is split at its first parenthesis. -/
theorem split_eq_applied_iff_of_not_hasWord {n : Text} (h : ¬ Text.HasWord keyword t) :
    split t = .applied n p r
      ↔ t = n ++ '(' :: (p ++ ')' :: r) ∧ '(' ∉ n ∧ Text.Balanced p := by
  have hstart := searchStart_of_not_hasWord h
  constructor
  · intro hsplit
    obtain ⟨htext, hbalanced⟩ := eq_of_split hsplit
    obtain ⟨m, hn, hm⟩ := exists_of_split hsplit
    rw [hstart, List.nil_append] at hn
    exact ⟨htext, hn ▸ hm, hbalanced⟩
  · rintro ⟨htext, hn, hbalanced⟩
    exact split_of_searchStart hstart htext rfl hn hbalanced

/-- A text without parentheses has no list. -/
theorem split_of_not_mem (h : '(' ∉ t) : split t = .bare := by
  have hbreak : Text.breakOn ['('] (searchStart t).2 = none := by
    rw [Text.breakOn_singleton_eq_none_iff]
    intro hmem
    apply h
    rw [← searchStart_append t]
    exact List.mem_append_right _ hmem
  simp only [split, hbreak]

/-- The front part of a cut goes on from the text already passed, and ends with the keyword. -/
theorem exists_of_cutOperator (h : cutOperator before t = some (p, r)) :
    ∃ q, p = before.reverse ++ (q ++ keyword) := by
  induction t generalizing before with
  | nil => simp [cutOperator] at h
  | cons c t ih =>
    rw [cutOperator] at h
    split at h
    next after ha =>
      obtain ⟨rfl, -⟩ := Prod.mk.inj (Option.some.inj h)
      exact ⟨[], rfl⟩
    next =>
      obtain ⟨q, rfl⟩ := ih h
      exact ⟨c :: q, by simp⟩

/-- A keyword that is found is found with more text behind it. -/
theorem cutOperator_append (h : cutOperator before t = some (p, r))
    (hu : Text.endsWord u = true) : cutOperator before (t ++ u) = some (p, r ++ u) := by
  induction t generalizing before with
  | nil => simp [cutOperator] at h
  | cons c t ih =>
    rw [cutOperator] at h
    rw [List.cons_append, cutOperator, ← List.cons_append]
    split at h
    next after ha =>
      obtain ⟨rfl, rfl⟩ := Prod.mk.inj (Option.some.inj h)
      split at ha
      next hopens =>
        obtain ⟨htext, hends⟩ := dropKeyword_eq_some_iff.1 ha
        have hdrop : dropKeyword (c :: t ++ u) = some (after ++ u) := by
          rw [dropKeyword_eq_some_iff, htext, List.append_assoc]
          exact ⟨rfl, Text.endsWord_append hends hu⟩
        rw [if_pos hopens, hdrop]
      next => simp at ha
    next hnone =>
      -- the keyword is further behind, so none begins here and ends in the text that was added
      have hdrop : (if opensName before then dropKeyword (c :: t ++ u) else none) = none := by
        by_cases hopens : opensName before = true
        · rw [if_pos hopens] at hnone ⊢
          rw [Option.eq_none_iff_forall_ne_some]
          intro after hafter
          obtain ⟨htext, hends⟩ := dropKeyword_eq_some_iff.1 hafter
          obtain ⟨q, s, hq, -⟩ := hasWord_of_cutOperator h
          rcases List.append_eq_append_iff.1 htext with ⟨k, hk, -⟩ | ⟨k, hk, hs⟩
          · have hlen := congrArg List.length hk
            rw [hq] at hlen
            simp only [List.length_append, List.length_cons] at hlen
            omega
          · rw [hs] at hends
            rw [dropKeyword_eq_some_iff.2 ⟨hk, Text.endsWord_of_append hends⟩] at hnone
            simp at hnone
        · rw [if_neg hopens]
      rw [hdrop]
      exact ih h

/-- The search starts behind the keyword, or further on. -/
theorem prefix_searchStart (h : cutOperator [] t = some (p, r)) : p <+: (searchStart t).1 := by
  rw [searchStart, h]
  simp only
  cases Text.dropPiece "()".toList (Text.trimStart r) with
  | some rest =>
    rw [List.append_assoc]
    exact List.prefix_append p _
  | none => exact List.prefix_refl p

/-- With more text the search does not start further in front. -/
theorem prefix_searchStart_append (hu : Text.endsWord u = true) (t : Text) :
    (searchStart t).1 <+: (searchStart (t ++ u)).1 := by
  cases hcut : cutOperator [] t with
  | none =>
    rw [searchStart, hcut]
    exact List.nil_prefix
  | some parts =>
    obtain ⟨head, after⟩ := parts
    have hcut' := cutOperator_append hcut hu
    cases hdrop : Text.dropPiece "()".toList (Text.trimStart after) with
    | none =>
      rw [searchStart, hcut]
      simp only [hdrop]
      exact prefix_searchStart hcut'
    | some rest =>
      have htrim := Text.dropPiece_eq_some_iff.1 hdrop
      -- the `()` ends the blanks behind the keyword, so both searches pass over the same text
      have hparen : Text.isBlank '(' = false := rfl
      have hafter := Text.takeWhile_append_trimStart after
      rw [htrim] at hafter
      have htake : ∀ v : Text,
          (after ++ v).takeWhile Text.isBlank = after.takeWhile Text.isBlank := by
        intro v
        rw [← hafter]
        simp only [List.append_assoc]
        exact (Text.takeWhile_append_cons hparen _ _).trans
          (Text.takeWhile_append_cons hparen _ _).symm
      have hdrop' : Text.dropPiece "()".toList (Text.trimStart (after ++ u))
          = some (rest ++ u) := by
        rw [Text.trimStart_append (by simp [htrim]), htrim, Text.dropPiece_eq_some_iff]
        exact List.append_assoc ..
      rw [searchStart, searchStart, hcut, hcut']
      simp only [hdrop, hdrop', htake]
      exact List.prefix_rfl

/-- There is no list if there is no parenthesis from there on. -/
theorem split_eq_bare_iff : split t = .bare ↔ '(' ∉ (searchStart t).2 := by
  rw [← Text.breakOn_singleton_eq_none_iff, split]
  cases Text.breakOn ['('] (searchStart t).2 with
  | none => simp
  | some parts =>
    simp only [reduceCtorEq, iff_false]
    cases Text.closing '(' ')' 0 parts.2 <;> simp

/-- A text without a list is all name, if a list follows. -/
theorem prefix_of_split_bare {n : Text} (ht : split t = .bare) (hu : Text.endsWord u = true)
    (h : split (t ++ u) = .applied n p r) : t <+: n := by
  obtain ⟨htext, -⟩ := eq_of_split h
  obtain ⟨m, hn, -⟩ := exists_of_split h
  rcases List.append_eq_append_iff.1 htext with ⟨s, rfl, -⟩ | ⟨s, rfl, hs⟩
  · exact List.prefix_append t s
  cases s with
  | nil => simp
  | cons c s =>
    -- the parenthesis would stand behind the start of the search in the first text
    obtain ⟨rfl, -⟩ := List.cons.inj hs
    obtain ⟨k, hk⟩ := (prefix_searchStart_append hu (n ++ '(' :: s)).trans ⟨m, hn.symm⟩
    have hparts := searchStart_append (n ++ '(' :: s)
    conv_rhs at hparts => rw [← hk]
    rw [List.append_assoc] at hparts
    rw [split_eq_bare_iff, List.append_cancel_left hparts] at ht
    simp at ht

/-- Behind a parenthesis, more text does not move the start of the search, as long as the
keyword stands in front. -/
theorem searchStart_append_of_cutOperator {head after : Text}
    (h : cutOperator [] (t ++ [')']) = some (head, after)) (u : Text) :
    searchStart (t ++ ')' :: u)
      = ((searchStart (t ++ [')'])).1, (searchStart (t ++ [')'])).2 ++ u) := by
  have hcut : cutOperator [] (t ++ ')' :: u) = some (head, after ++ u) := by
    rw [cutOperator_append_cons (by decide), h]
  obtain ⟨s, rfl⟩ : ∃ s, after = s ++ [')'] := by
    obtain ⟨q, rfl⟩ := exists_of_cutOperator h
    have hlast := congrArg List.getLast? (eq_of_cutOperator h)
    simp only [List.reverse_nil, List.nil_append, List.getLast?_concat, List.append_assoc] at hlast
    rw [List.getLast?_append] at hlast
    rcases List.eq_nil_or_concat after with rfl | ⟨s, c, rfl⟩
    · -- the keyword does not end with a parenthesis
      have hkey : (keyword ++ []).getLast? = some 'r' := rfl
      rw [hkey] at hlast
      simp at hlast
    · rw [List.concat_eq_append, ← List.append_assoc, List.getLast?_concat] at hlast
      obtain rfl : ')' = c := by simpa using hlast
      exact ⟨s, List.concat_eq_append⟩
  have hparen : Text.isBlank ')' = false := rfl
  have hdrop : ∀ v, Text.dropPiece "()".toList (v ++ ')' :: u)
      = (Text.dropPiece "()".toList (v ++ [')'])).map (· ++ u) := by
    intro v
    cases v with
    | nil => rfl
    | cons d v =>
      have hlen : "()".toList.length ≤ (d :: v ++ [')']).length := by simp
      rw [← Text.dropPiece_append hlen]
      simp
  have hsplit : s ++ [')'] ++ u = s ++ ')' :: u := by simp
  rw [hsplit] at hcut
  simp only [searchStart, hcut, h, Text.trimStart_append_cons hparen,
    Text.takeWhile_append_cons hparen, hdrop]
  cases Text.dropPiece "()".toList (Text.trimStart s ++ [')']) <;> simp

/-- With the keyword in front of the list the text behind the list does not count. -/
theorem split_append_iff_of_some {n front : Text} {parts : Text × Text}
    (hfront : n ++ '(' :: p = front) (hkey : cutOperator [] (front ++ [')']) = some parts) :
    split (front ++ ')' :: r) = .applied n p r
      ↔ Text.Balanced p ∧ ∃ m, n = (searchStart (front ++ [')'])).1 ++ m ∧ '(' ∉ m := by
  have hparts := searchStart_append (front ++ [')'])
  have hstart := searchStart_append_of_cutOperator hkey r
  constructor
  · intro h
    obtain ⟨m, hn, hm⟩ := exists_of_split h
    rw [hstart] at hn
    exact ⟨(eq_of_split h).2, m, hn, hm⟩
  · rintro ⟨hbalanced, m, hn, hm⟩
    refine split_of_searchStart (m := m) hstart ?_ hn hm hbalanced
    -- the rest of the front, behind the start of the search
    have hrest : (searchStart (front ++ [')'])).2 = m ++ '(' :: (p ++ [')']) := by
      apply (List.append_right_inj (searchStart (front ++ [')'])).1).1
      rw [hparts, ← List.append_assoc, ← hn, ← hfront]
      simp
    rw [hrest]
    simp

/-- Without it the first parenthesis starts the list, unless the keyword is found behind it. -/
theorem split_append_iff_of_none {n front : Text} (hfront : n ++ '(' :: p = front)
    (hkey : cutOperator [] (front ++ [')']) = none) :
    split (front ++ ')' :: r) = .applied n p r
      ↔ Text.Balanced p ∧ '(' ∉ n ∧ cutOperator (front ++ [')']).reverse r = none := by
  have hcut := cutOperator_append_cons (c := ')') (by decide) [] front r
  rw [hkey, List.append_nil] at hcut
  constructor
  · intro h
    obtain ⟨m, hn, hm⟩ := exists_of_split h
    cases hlater : cutOperator (front ++ [')']).reverse r with
    | none =>
      rw [searchStart, hcut, hlater, List.nil_append] at hn
      exact ⟨(eq_of_split h).2, hn ▸ hm, rfl⟩
    | some parts =>
      -- the search would start behind the list
      obtain ⟨q, hq⟩ := exists_of_cutOperator hlater
      have hlen := (prefix_searchStart (hcut.trans hlater)).length_le
      rw [hq] at hlen
      have hn' := congrArg List.length hn
      have hfront' := congrArg List.length hfront
      simp at hlen hn' hfront'
      omega
  · rintro ⟨hbalanced, hn, hlater⟩
    have hstart : searchStart (front ++ ')' :: r) = ([], front ++ ')' :: r) := by
      rw [searchStart, hcut, hlater]
    refine split_of_searchStart (m := n) hstart ?_ rfl hn hbalanced
    simp [← hfront]

/-- When the list in the front of a text is the one that is found. -/
theorem split_append_iff {n : Text} :
    split (n ++ '(' :: (p ++ ')' :: r)) = .applied n p r
      ↔ Text.Balanced p
        ∧ (∃ m, n = (searchStart (n ++ '(' :: (p ++ [')']))).1 ++ m ∧ '(' ∉ m)
        ∧ (cutOperator [] (n ++ '(' :: (p ++ [')'])) = none →
            cutOperator (n ++ '(' :: (p ++ [')'])).reverse r = none) := by
  generalize hfront : n ++ '(' :: p = front
  have happlied : n ++ '(' :: (p ++ [')']) = front ++ [')'] := by simp [← hfront]
  have htext : n ++ '(' :: (p ++ ')' :: r) = front ++ ')' :: r := by simp [← hfront]
  rw [happlied, htext]
  cases hkey : cutOperator [] (front ++ [')']) with
  | some parts =>
    rw [split_append_iff_of_some hfront hkey]
    simp
  | none =>
    have hstart : searchStart (front ++ [')']) = ([], front ++ [')']) := by
      rw [searchStart, hkey]
    rw [split_append_iff_of_none hfront hkey, hstart]
    simp

/-- Where the keyword is found behind a list, the list is a part of the name. -/
theorem prefix_of_cutOperator {n n' p' r' head after : Text}
    (hkey : cutOperator [] (n ++ '(' :: (p ++ [')'])) = none)
    (hlater : cutOperator (n ++ '(' :: (p ++ [')'])).reverse (r ++ u) = some (head, after))
    (hr : 'p' ∉ r) (h : split (n ++ '(' :: (p ++ ')' :: r) ++ u) = .applied n' p' r') :
    n ++ '(' :: (p ++ ')' :: r) <+: n' := by
  have hcut : cutOperator [] (n ++ '(' :: (p ++ ')' :: r) ++ u) = some (head, after) := by
    have hfront : n ++ '(' :: (p ++ [')']) = n ++ '(' :: p ++ [')'] := by simp
    have htext : n ++ '(' :: (p ++ ')' :: r) ++ u = n ++ '(' :: p ++ ')' :: (r ++ u) := by simp
    rw [hfront] at hkey hlater
    rw [htext, cutOperator_append_cons (by decide), hkey, List.append_nil, hlater]
  obtain ⟨q, hq⟩ := exists_of_cutOperator hlater
  obtain ⟨m, hm, -⟩ := exists_of_split h
  have hhead : head <+: n' := (prefix_searchStart hcut).trans ⟨m, hm.symm⟩
  have hn' : n' <+: n ++ '(' :: (p ++ ')' :: r) ++ u := ⟨_, (eq_of_split h).1.symm⟩
  rcases List.prefix_or_prefix_of_prefix hn' (List.prefix_append _ u) with hshort | hlong
  · -- the keyword would stand between the list and the end of the first text
    have hq' : n ++ '(' :: p ++ ')' :: (q ++ keyword) <+: n ++ '(' :: p ++ ')' :: r := by
      have hhead' := hhead.trans hshort
      rw [hq] at hhead'
      simpa using hhead'
    rw [List.prefix_append_right_inj, List.prefix_cons_inj] at hq'
    exact absurd (hq'.subset (List.mem_append_right q (by decide))) hr
  · exact hlong

end AppliedName

end Overlay
