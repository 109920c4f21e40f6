/-
The segments of a qualified name.

A segment that was read has blanks at neither end, closes its brackets and holds no `::` outside
of them (`isSegment_of_mem`). Such segments, with `::` between them, are read back as they are
exactly if none of them ends with a colon (`parse_intercalate_iff`): of three colons in a row the
first two are the separator, so a colon at the end of a segment goes to the next one.

Reading keeps every character that is neither blank nor a colon (`count_of_parse`), and text at
the end of a name that starts no separator goes to the leaf (`leaf_append`).

The leaf is no segment: it may be empty, and it may leave a bracket open, since nothing is cut
behind it. So it is spoken of apart from the segments in all that follows. -/
import Overlay.Name.Qualified
import Overlay.Proofs.Text.Gaps
import Overlay.Proofs.Text.Identifier

set_option autoImplicit false

namespace Overlay

namespace Text

variable {b : Brackets} {mark : Mark} {s t u v : Text} {c : Char}

/-- A segment of a name. -/
structure IsSegment (s : Text) : Prop where
  nonempty : s ≠ []
  trimmed : trim s = s
  closed : Brackets.angled.depthAfter 0 s = 0
  whole : cut .angled .scope s = none

/-! ## Putting segments together

Segments are cut off one by one from the front. Each must not lend a colon to the separator behind
it. -/

/-- A segment that does not end with a colon is cut off at the separator behind it. -/
theorem cut_segment (hs : IsSegment s) (hlast : s.getLast? ≠ some ':') (t : Text) :
    cut .angled .scope (s ++ ("::".toList ++ t)) = some (s, ':' :: t) := by
  have hignores : Mark.scope.Ignores s ("::".toList ++ t) := Mark.ignores_scope fun _ => hlast
  rw [cut, cutFrom_append hignores]
  have hwhole : cutFrom .angled .scope 0 none s = none := hs.whole
  rw [hwhole, hs.closed]
  simp [cutFrom, Mark.scope]

/-- Where a mark stands outside brackets, a cut is there or further in front. -/
theorem exists_cutFrom_le {depth : Nat} {before : Option Char}
    (hdepth : b.depthAfter depth s = 0) (hmark : ∀ before, mark before c t = true) :
    ∃ p r, cutFrom b mark depth before (s ++ c :: t) = some (p, r) ∧ p.length ≤ s.length := by
  induction s generalizing depth before with
  | nil =>
    rw [Brackets.depthAfter_nil] at hdepth
    exact ⟨[], t, by rw [List.nil_append, cutFrom, if_pos ⟨hdepth, hmark before⟩], le_refl _⟩
  | cons d s ih =>
    by_cases hd : depth = 0 ∧ mark before d (s ++ c :: t) = true
    · exact ⟨[], _, by rw [List.cons_append, cutFrom, if_pos hd], Nat.zero_le _⟩
    · obtain ⟨p, r, hcut, hlen⟩ :
          ∃ p r, cutFrom b mark (b.step depth d) (some d) (s ++ c :: t) = some (p, r)
            ∧ p.length ≤ s.length := ih hdepth
      refine ⟨d :: p, r, ?_, Nat.succ_le_succ hlen⟩
      rw [List.cons_append, cutFrom, if_neg hd, hcut]
      rfl

/-- Segments and a last part are read back, up to blanks, only if no segment ends with a colon. -/
theorem getLast?_ne_of_split {leaf last : Text} {segments init : List Text}
    (hsegments : ∀ s ∈ segments, IsSegment s)
    (hsplit : split .angled .scope 1 ("::".toList.intercalate (segments ++ [leaf]))
      = init ++ [last])
    (htrim : init.map trim = segments) : ∀ s ∈ segments, s.getLast? ≠ some ':' := by
  induction segments generalizing init with
  | nil => exact List.forall_mem_nil _
  | cons s segments ih =>
    obtain ⟨hs, hsegments⟩ := List.forall_mem_cons.1 hsegments
    rw [List.cons_append, List.intercalate_cons_of_ne_nil (by simp), List.append_assoc] at hsplit
    obtain ⟨p, init, rfl⟩ : ∃ p ps, init = p :: ps := by
      cases init with
      | nil => simp at htrim
      | cons p ps => exact ⟨p, ps, rfl⟩
    obtain ⟨hp, htrim⟩ := List.cons.inj htrim
    have hlast : s.getLast? ≠ some ':' := by
      intro hcolon
      obtain ⟨q, rfl⟩ := List.getLast?_eq_some_iff.1 hcolon
      -- the cut is in front of the colon, so the part is too short
      have hclosed : Brackets.angled.depthAfter 0 q = 0 := by
        have hclosed := hs.closed
        rwa [Brackets.depthAfter_append] at hclosed
      obtain ⟨p', r, hcut, hlen⟩ :
          ∃ p' r, cut .angled .scope (q ++ ':' :: ("::".toList ++
              "::".toList.intercalate (segments ++ [leaf]))) = some (p', r)
            ∧ p'.length ≤ q.length := exists_cutFrom_le hclosed fun _ => rfl
      have hjoin : ∀ t : Text, q ++ [':'] ++ t = q ++ ':' :: t := by simp
      rw [hjoin, split_of_cut_eq_some hcut] at hsplit
      obtain ⟨rfl, -⟩ := List.cons.inj hsplit
      have hshort := length_trim_le p'
      rw [hp, List.length_append, List.length_singleton] at hshort
      omega
    refine List.forall_mem_cons.2 ⟨hlast, ?_⟩
    rw [split_of_cut_eq_some (cut_segment hs hlast _)] at hsplit
    exact ih hsegments (List.cons.inj hsplit).2 htrim

/-! ## Identifiers

These are the segments that names are mostly made of. -/

/-- An identifier is a segment. -/
theorem isSegment_of_isIdentifier (h : isIdentifier t = true) : IsSegment t where
  nonempty := by
    rintro rfl
    simp [isIdentifier] at h
  trimmed := trim_eq_self (fun _ hc => isBlank_of_mem_identifier h (List.mem_of_head? hc))
    fun _ hc => isBlank_of_mem_identifier h (List.mem_of_getLast? hc)
  closed := depthAfter_of_isIdentifier h 0
  whole := by
    have hcolon : ':' ∉ t := not_mem_of_isIdentifier h rfl
    exact cutFrom_scope_of_not_infix fun hpiece => hcolon (hpiece.subset (by simp))

/-- A name of identifiers has no colon that stands alone. -/
theorem cutFrom_colon_intercalate {ps : List Text} (h : ∀ p ∈ ps, isIdentifier p = true)
    (before : Option Char) :
    cutFrom .angled .colon 0 before ("::".toList.intercalate ps) = none := by
  have hplain : ∀ {p : Text} (before : Option Char), isIdentifier p = true →
      cutFrom .angled .colon 0 before p = none := by
    intro p before hp
    apply cutFrom_of_forall
    rintro q c r rfl before
    have hc : (c == ':') = false := by
      rw [beq_eq_false_iff_ne]
      rintro rfl
      exact not_mem_of_isIdentifier (c := ':') hp rfl (by simp)
    rw [Mark.colon, hc]
    rfl
  induction ps generalizing before with
  | nil => rfl
  | cons p ps ih =>
    obtain ⟨hp, hps⟩ := List.forall_mem_cons.1 h
    cases ps with
    | nil =>
      rw [List.intercalate_singleton]
      exact hplain before hp
    | cons q ps =>
      have hignores : ∀ u, Mark.colon.Ignores p u :=
        Mark.ignores_colon_of_not_mem (not_mem_of_isIdentifier hp rfl)
      -- neither of the two colons stands alone
      have hpair : ∀ before t, cutFrom .angled .colon 0 before ("::".toList ++ t)
          = (cutFrom .angled .colon 0 (some ':') t).map fun parts =>
              (':' :: ':' :: parts.1, parts.2) := by
        intro before t
        have hsecond : cutFrom .angled .colon 0 (some ':') (':' :: t)
            = (cutFrom .angled .colon 0 (some ':') t).map (consFst ':') := by
          rw [cutFrom, if_neg (by simp [Mark.colon]), Brackets.step_of_not_isBracket rfl]
        rw [String.toList_ofList, List.cons_append, List.singleton_append, cutFrom,
          if_neg (by simp [Mark.colon]), Brackets.step_of_not_isBracket rfl, hsecond,
          Option.map_map]
        rfl
      rw [List.intercalate_cons_of_ne_nil (List.cons_ne_nil q ps), List.append_assoc,
        cutFrom_append (hignores _), hplain before hp, depthAfter_of_isIdentifier hp, hpair, ih hps]
      rfl

/-! ## Text around the segments

Blanks around a name do not matter to its parts, and a text at its end without a separator belongs
to the last of them. -/

/-- Text that starts no separator goes to the last part. -/
theorem split_scope_append (hhead : v.head? ≠ some ':') (hv : ¬ "::".toList <:+: v)
    {init : List Text} {last : Text} (h : split .angled .scope 1 t = init ++ [last]) :
    split .angled .scope 1 (t ++ v) = init ++ [last ++ v] :=
  split_append Mark.marks_scope rfl
    (fun _ => Mark.ignores_scope fun hc => absurd hc hhead)
    (fun _ _ => cutFrom_scope_of_not_infix hv) h

/-- A text without a separator has none without its blanks. -/
theorem cut_scope_trim (h : cut .angled .scope t = none) : cut .angled .scope (trim t) = none :=
  (cut_trim_eq_none_iff Brackets.skipsBlanks_angled Mark.skipsBlanks_scope).2 h

/-- Blanks around a name do not matter to its segments. -/
theorem splitScopes_trim (t : Text) : splitScopes (trim t) = splitScopes t :=
  map_split_trim Brackets.skipsBlanks_angled Mark.skipsBlanks_scope Mark.marks_scope rfl
    (fun _ => trim_gap_append) (fun _ => trim_append_gap) t

end Text

namespace QualifiedName

open Text (IsSegment splitScopes trim cut IsGap)

variable {t u v s : Text} {c : Char}

/-- A name is displayed as its segments and its leaf, with `::` between them. -/
theorem display_eq_intercalate (n : QualifiedName) :
    n.display = "::".toList.intercalate (n.scope.segments ++ [n.leaf]) := by
  obtain ⟨⟨segments⟩, leaf⟩ := n
  cases segments with
  | nil => simp [display, ScopePath.isGlobal]
  | cons s segments =>
    rw [Text.intercalate_concat _ (List.cons_ne_nil s segments)]
    simp [display, ScopePath.isGlobal, ScopePath.display]

/-! ## What is read

All that the other files need to know of a name that was read, without opening the reader. -/

/-- Of an empty text nothing is read. -/
theorem parse_nil : parse [] = ⟨.global, []⟩ := by
  rw [parse, splitScopes, Text.trim_nil, Text.split_of_cut_eq_none rfl]
  rfl

/-- What is read of a name, part by part. -/
theorem exists_of_parse (t : Text) :
    ∃ init last, trim t = "::".toList.intercalate (init ++ [last])
      ∧ Text.split .angled .scope 1 (trim t) = init ++ [last]
      ∧ parse t = ⟨⟨(init.map trim).filter fun s => !s.isEmpty⟩, trim last⟩
      ∧ cut .angled .scope last = none
      ∧ ∀ p ∈ init, Text.Brackets.angled.depthAfter 0 p = 0 ∧ cut .angled .scope p = none := by
  obtain ⟨init, last, hsplit, hlast, hinit⟩ :=
    Text.parts_split .angled Text.Mark.marks_scope 1 (trim t)
  have hlen : "::".toList.length = 1 + 1 := rfl
  have htext := Text.intercalate_split .angled Text.Mark.marks_scope hlen (trim t)
  rw [hsplit] at htext
  refine ⟨init, last, htext.symm, hsplit, ?_, hlast, hinit⟩
  rw [parse, splitScopes, hsplit]
  simp

/-- **Segments that were read are segments.** -/
theorem isSegment_of_mem (h : s ∈ (parse t).scope.segments) : IsSegment s := by
  obtain ⟨init, last, -, -, hparse, -, hinit⟩ := exists_of_parse t
  rw [hparse] at h
  obtain ⟨hmem, hne⟩ := List.mem_filter.1 h
  obtain ⟨p, hp, rfl⟩ := List.mem_map.1 hmem
  obtain ⟨hclosed, hwhole⟩ := hinit p hp
  have hdepth := Text.Brackets.skipsBlanks_angled.depthAfter_trim p
  exact ⟨by simpa using hne, Text.trim_trim p, hdepth.trans hclosed, Text.cut_scope_trim hwhole⟩

/-- A leaf has no blanks around it, -/
theorem trim_leaf (t : Text) : trim (parse t).leaf = (parse t).leaf := by
  obtain ⟨init, last, -, -, hparse, -, -⟩ := exists_of_parse t
  rw [hparse]
  exact Text.trim_trim last

/-- and no separator in it. -/
theorem cut_leaf (t : Text) : cut .angled .scope (parse t).leaf = none := by
  obtain ⟨init, last, -, -, hparse, hlast, -⟩ := exists_of_parse t
  rw [hparse]
  exact Text.cut_scope_trim hlast

/-- Dropping blanks and empty parts loses no character that is not blank. -/
theorem sum_count_parts (hc : Text.isBlank c = false) (ps : List Text) :
    (((ps.map trim).filter fun s => !s.isEmpty).map (List.count c)).sum
      = (ps.map (List.count c)).sum := by
  induction ps with
  | nil => rfl
  | cons p ps ih =>
    have hcount := Text.count_trim hc p
    cases htrim : trim p with
    | nil =>
      rw [htrim, List.count_nil] at hcount
      simp [htrim, ih, ← hcount]
    | cons d r =>
      rw [htrim] at hcount
      simp [htrim, ih, ← hcount]

/-- A character that is neither blank nor a colon is as often in a name as in what is read. -/
theorem count_of_parse (hc : Text.isBlank c = false) (hcolon : c ≠ ':') (t : Text) :
    ((parse t).scope.segments.map (List.count c)).sum + (parse t).leaf.count c = t.count c := by
  obtain ⟨init, last, htext, -, hparse, -, -⟩ := exists_of_parse t
  have hsep : "::".toList.count c = 0 := by
    rw [List.count_eq_zero]
    simpa using hcolon
  rw [hparse, sum_count_parts hc, Text.count_trim hc, ← Text.count_trim hc t, htext,
    Text.count_intercalate, hsep]
  simp

/-- Two texts that are read as the same name hold every character equally often, but for blanks and
colons. -/
theorem count_eq_of_parse_eq (hc : Text.isBlank c = false) (hcolon : c ≠ ':')
    (h : parse t = parse u) : t.count c = u.count c := by
  rw [← count_of_parse hc hcolon t, h, count_of_parse hc hcolon]

/-- Blanks around a name do not matter. -/
theorem parse_trim (t : Text) : parse (trim t) = parse t := by
  rw [parse, Text.trim_trim]
  rfl

/-! ## Reading segments that are put together

The segments are read back exactly if none of them ends with a colon. That it is necessary is seen
by counting colons. If the segments are read back, all colons of the text are in them again or in
the marks between the parts, so there are as many parts as segments, and none was empty. Then every
part is a segment with blanks around it, and a part never ends with a colon. -/

section Intercalate

variable {segments : List Text} {leaf : Text}

/-- Segments that are put together with a leaf have no blanks around them. -/
theorem trim_segments (hsegments : ∀ s ∈ segments, IsSegment s) (hne : leaf ≠ [])
    (hleaf : trim leaf = leaf) :
    trim ("::".toList.intercalate (segments ++ [leaf]))
      = "::".toList.intercalate (segments ++ [leaf]) := by
  apply Text.trim_intercalate
  intro p hp
  rcases List.mem_append.1 hp with hp | hp
  · exact ⟨(hsegments p hp).nonempty, (hsegments p hp).trimmed⟩
  · rw [List.mem_singleton.1 hp]
    exact ⟨hne, hleaf⟩

/-- Segments that do not end with a colon are read back as they are. -/
theorem parse_intercalate (hsegments : ∀ s ∈ segments, IsSegment s) (hne : leaf ≠ [])
    (hleaf : trim leaf = leaf) (hwhole : cut .angled .scope leaf = none)
    (hlast : ∀ s ∈ segments, s.getLast? ≠ some ':') :
    parse ("::".toList.intercalate (segments ++ [leaf])) = ⟨⟨segments⟩, leaf⟩ := by
  have hsplit : Text.split .angled .scope 1 ("::".toList.intercalate (segments ++ [leaf]))
      = segments ++ [leaf] :=
    Text.split_intercalate rfl (fun s hs t => Text.cut_segment (hsegments s hs) (hlast s hs) t)
      hwhole
  have hmap : segments.map trim = segments := by
    conv_rhs => rw [← List.map_id segments]
    exact List.map_congr_left fun s hs => (hsegments s hs).trimmed
  have hfilter : segments.filter (fun s => !s.isEmpty) = segments := by
    rw [List.filter_eq_self]
    intro s hs
    have hne := (hsegments s hs).nonempty
    simpa using hne
  rw [parse, trim_segments hsegments hne hleaf, splitScopes, hsplit, List.map_append, hmap]
  simp [hfilter, hleaf]

/-- When segments are read back as they are. -/
theorem parse_intercalate_iff (hsegments : ∀ s ∈ segments, IsSegment s) (hne : leaf ≠ [])
    (hleaf : trim leaf = leaf) (hwhole : cut .angled .scope leaf = none) :
    parse ("::".toList.intercalate (segments ++ [leaf])) = ⟨⟨segments⟩, leaf⟩
      ↔ ∀ s ∈ segments, s.getLast? ≠ some ':' := by
  refine ⟨fun h => ?_, parse_intercalate hsegments hne hleaf hwhole⟩
  obtain ⟨init, last, htext, hsplit, hparse, -, -⟩ :=
    exists_of_parse ("::".toList.intercalate (segments ++ [leaf]))
  rw [trim_segments hsegments hne hleaf] at htext hsplit
  rw [hparse] at h
  obtain ⟨hscope, hlast⟩ := QualifiedName.mk.inj h
  have hfilter := ScopePath.mk.inj hscope
  -- all the colons are there again, so no part was empty
  have hcolon : Text.isBlank ':' = false := rfl
  have hcount := congrArg (List.count ':') htext
  have hsum := sum_count_parts hcolon init
  rw [hfilter] at hsum
  have hlastcount := Text.count_trim hcolon last
  rw [hlast] at hlastcount
  have hlen : init.length = segments.length := by
    simp only [Text.count_intercalate, List.map_append, List.sum_append, List.length_append,
      List.map_cons, List.map_nil, List.sum_cons, List.sum_nil, List.length_singleton,
      Nat.add_sub_cancel, hsum, hlastcount] at hcount
    have hsep : "::".toList.count ':' = 2 := rfl
    rw [hsep] at hcount
    omega
  have hmap : init.map trim = segments := by
    rw [← hfilter, eq_comm, List.filter_eq_self, ← List.length_filter_eq_length_iff, hfilter,
      List.length_map, hlen]
  exact Text.getLast?_ne_of_split hsegments hsplit hmap

end Intercalate

/-! ## Text behind a name

A name may be followed by something that is read together with it. -/

/-- Text that starts no separator goes to the leaf. -/
theorem leaf_append (hhead : v.head? ≠ some ':') (hv : ¬ "::".toList <:+: v) (t : Text) :
    ∃ last, (parse t).leaf = trim last ∧ (parse (t ++ v)).leaf = trim (last ++ v) := by
  obtain ⟨init, last, hsplit, -⟩ := Text.parts_split .angled Text.Mark.marks_scope 1 t
  refine ⟨last, ?_, ?_⟩
  · rw [parse, Text.splitScopes_trim, splitScopes, hsplit]
    simp
  · rw [parse, Text.splitScopes_trim, splitScopes, Text.split_scope_append hhead hv hsplit]
    simp

end QualifiedName

end Overlay
