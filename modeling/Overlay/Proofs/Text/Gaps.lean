/-
Blanks at the ends of a text that is cut.

A blank is no bracket and no mark, and does not tell whether the character next to it is one
(`Mark.SkipsBlanks`). So a text is cut where it was with blanks at its ends (`cut_gap_append`,
`cut_append_gap`): those in front go to its first part, those behind to its last. To whoever drops
the blanks around a part, the parts are those of the trimmed text (`map_split_trim`).
-/
import Overlay.Proofs.Text.Cuts
import Overlay.Proofs.Text.Words

set_option autoImplicit false

namespace Overlay.Text

variable {b : Brackets} {mark : Mark} {more : Nat} {t u v first last : Text}
  {init rest : List Text} {c m : Char}

/-! ## Blanks beside brackets and marks

What has to be known of a set of brackets and of a mark, and that the ones in use are so. The two
conditions are used apart: a gap behind a text does not depend on the brackets. -/

/-- No blank is one of the brackets. -/
def Brackets.SkipsBlanks (b : Brackets) : Prop := ∀ c, isBlank c = true → b.isBracket c = false

/-- The brackets of a scope are of this kind, -/
theorem Brackets.skipsBlanks_angled : angled.SkipsBlanks :=
  fun _ hc => isBracket_eq_false hc rfl rfl

/-- and so are all brackets. -/
theorem Brackets.skipsBlanks_all : all.SkipsBlanks := fun _ hc => isBracket_eq_false hc rfl rfl

/-- So a gap does not move the depth, -/
theorem Brackets.SkipsBlanks.depthAfter (hb : b.SkipsBlanks) (h : IsGap t) (depth : Nat) :
    b.depthAfter depth t = depth :=
  depthAfter_of_forall (fun c hc => hb c (h c hc)) depth

/-- and neither does trimming. -/
theorem Brackets.SkipsBlanks.depthAfter_trim (hb : b.SkipsBlanks) (t : Text) :
    b.depthAfter 0 (trim t) = b.depthAfter 0 t := by
  obtain ⟨u, v, hu, hv, heq⟩ := eq_gap_trim_gap t
  conv_rhs => rw [heq]
  rw [depthAfter_append, depthAfter_append, hb.depthAfter hu, hb.depthAfter hv]

/-- No blank is a mark, and a character is one or not whatever blanks are around it. -/
structure Mark.SkipsBlanks (mark : Mark) : Prop where
  blank : ∀ c, isBlank c = true → ∀ before r, mark before c r = false
  front : ∀ d, isBlank d = true → ∀ c r, mark (some d) c r = mark none c r
  back : ∀ v, IsGap v → ∀ t, mark.Ignores t v

/-- A character that is not blank is such a mark. -/
theorem Mark.skipsBlanks_char (hm : isBlank m = false) : (Mark.char m).SkipsBlanks where
  blank c hc before r := by simp [Mark.char, ne_of_kind hc hm]
  front _ _ _ _ := rfl
  back v _ t := ignores_char m t v

/-- So is the separator of scopes: a gap does not begin with a colon. -/
theorem Mark.skipsBlanks_scope : Mark.scope.SkipsBlanks where
  blank c hc before r := by simp [Mark.scope, ne_of_kind hc (rfl : isBlank ':' = false)]
  front _ _ _ _ := rfl
  back v hv t := by
    apply ignores_scope
    intro hhead
    exact absurd rfl (ne_of_kind (hv ':' (List.mem_of_head? hhead)) rfl)

/-- So is the `=` of a default, which looks at both sides: no comparison has a blank in it. -/
theorem Mark.skipsBlanks_assign : Mark.assign.SkipsBlanks where
  blank c hc before r := by simp [Mark.assign, ne_of_kind hc (rfl : isBlank '=' = false)]
  front d hd c r := by
    have hnot : d ∉ ['=', '!', '<', '>'] := not_mem_of_all hd rfl
    simp only [List.mem_cons, List.not_mem_nil, or_false, not_or] at hnot
    simp [Mark.assign, hnot]
  back v hv t := by
    apply ignores_assign
    intro hhead
    exact absurd rfl (ne_of_kind (hv '=' (List.mem_of_head? hhead)) rfl)

/-! ## Cuts -/

section Skipping

variable (hb : b.SkipsBlanks) (hmark : mark.SkipsBlanks)
include hmark

/-- There is no mark in a gap. -/
theorem cutFrom_of_isGap (h : IsGap t) (depth : Nat) (before : Option Char) :
    cutFrom b mark depth before t = none := by
  apply cutFrom_of_forall
  rintro q c r rfl before
  exact hmark.blank c (h c (by simp)) before r

/-- A gap behind a text goes to what is left behind the mark, -/
theorem cut_append_gap (hv : IsGap v) (t : Text) :
    cut b mark (t ++ v) = (cut b mark t).map fun parts => (parts.1, parts.2 ++ v) :=
  cut_append_of_plain (hmark.back v hv t) (cutFrom_of_isGap hmark hv)

include hb

/-- and a gap in front to the part in front of it. This one needs that the brackets skip blanks
too. -/
theorem cut_gap_append (hu : IsGap u) (t : Text) :
    cut b mark (u ++ t) = (cut b mark t).map fun parts => (u ++ parts.1, parts.2) := by
  have hignores : mark.Ignores u t := by
    rintro q c r rfl before
    have hc : isBlank c = true := hu c (by simp)
    rw [hmark.blank c hc, hmark.blank c hc]
  have hbefore : cutFrom b mark 0 (u.getLast?.or none) t = cut b mark t := by
    apply cutFrom_congr_before
    intro c r
    cases hlast : u.getLast? with
    | none => rfl
    | some d => exact hmark.front d (hu d (List.mem_of_getLast? hlast)) c r
  rw [cut, cutFrom_append hignores, cutFrom_of_isGap hmark hu, hb.depthAfter hu, hbefore]

/-- Trimming makes no mark and drops none. -/
theorem cut_trim_eq_none_iff : cut b mark (trim t) = none ↔ cut b mark t = none := by
  obtain ⟨u, v, hu, hv, heq⟩ := eq_gap_trim_gap t
  conv_rhs => rw [heq, cut_gap_append hb hmark hu, cut_append_gap hmark hv]
  rw [Option.map_eq_none_iff, Option.map_eq_none_iff]

/-! ## Parts -/

/-- A gap in front of a text is in front of its first part. -/
theorem split_gap_append (hu : IsGap u) (h : split b mark more t = first :: rest) :
    split b mark more (u ++ t) = (u ++ first) :: rest := by
  have hcut := cut_gap_append hb hmark hu t
  cases ht : cut b mark t with
  | none =>
    rw [split_of_cut_eq_none ht] at h
    obtain ⟨rfl, rfl⟩ := List.cons.inj h
    rw [ht] at hcut
    rw [split_of_cut_eq_none hcut]
  | some parts =>
    rw [split_of_cut_eq_some ht] at h
    obtain ⟨rfl, rfl⟩ := List.cons.inj h
    rw [ht] at hcut
    rw [split_of_cut_eq_some hcut]

/-- Blanks around a text do not matter where those around its parts do not. -/
theorem map_split_trim {α : Type} {sep : Text} {f : Text → α} (hsep : mark.Marks sep)
    (hlen : sep.length = more + 1) (hfront : ∀ u, IsGap u → ∀ t, f (u ++ t) = f t)
    (hback : ∀ v, IsGap v → ∀ t, f (t ++ v) = f t) (t : Text) :
    (split b mark more (trim t)).map f = (split b mark more t).map f := by
  obtain ⟨u, v, hu, hv, heq⟩ := eq_gap_trim_gap t
  obtain ⟨init, last, hsplit, -⟩ := parts_split b hsep more (trim t)
  have hbehind : split b mark more (trim t ++ v) = init ++ [last ++ v] :=
    split_append hsep hlen (hmark.back v hv) (cutFrom_of_isGap hmark hv) hsplit
  conv_rhs => rw [heq]
  cases init with
  | nil | cons =>
    rw [split_gap_append hb hmark hu hbehind, hsplit]
    simp [hfront u hu, hback v hv]

end Skipping

end Overlay.Text
