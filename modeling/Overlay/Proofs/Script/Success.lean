/-
When the readers of a script succeed, and what they leave.

A reader of a directive is a chain of smaller readers, each of which works on what the one
before it left. The first part of this file says for each chain when it succeeds: exactly if
its links do, one after the other. Later files take a successful reading apart by these
lemmas, and put one together by them, and do not open the readers themselves.

The second part is the first use of them. What a reader leaves is the end of the text that it
was given: nothing is left out, moved or made up. Places in a script are known by the text
that is left there, so this is what makes them places of the script.
-/
import Overlay.Proofs.Chain
import Overlay.Script.Reader

set_option autoImplicit false

namespace Overlay.Script

variable {t r : Text}

/-! ## The readers of a directive

A directive is read by one reader after the other: the arguments, the pattern, what stands behind
it. The statements below have the shape of the readers. Where a reader calls three others, its
statement names three results, and the text that each of the readers left to the next. -/

/-- Arguments are found behind an opening parenthesis, with blanks in front of it at most. -/
theorem cutArguments_eq_ok_iff {inside : Text} :
    cutArguments t = .ok (inside, r)
      ↔ ∃ s, Text.trimStart t = '(' :: s ∧ closeArguments .outside 0 s = some (inside, r) := by
  rw [cutArguments]
  split
  · rename_i s hs
    rw [hs]
    cases hc : closeArguments .outside 0 s with
    | none => simp [hc]
    | some parts => simp [hc]
  · rename_i hs
    constructor
    · intro h
      simp at h
    · rintro ⟨s, hs', -⟩
      exact absurd hs' (hs s)

/-- The search for the end of a body. Behind a `;` there is none to search for. -/
def Ending.cutInside : Ending → Text → Option (Text × Text)
  | stop, _ => none
  | verbatim, t => Text.breakOn ['%', '}'] t
  | braced, t => Text.closing '{' '}' 0 t

/-- What a body comes from. The two kinds of bodies differ in how their end is found and in nothing
else, so whoever takes a body apart has one search to speak of. -/
theorem cutBody_eq_ok_iff {e : Ending} {body : Option Text} :
    cutBody e t = .ok (body, r)
      ↔ (e = .stop ∧ body = none ∧ r = t)
        ∨ ∃ b, e.cutInside t = some (b, r) ∧ body = some (Text.trim b) := by
  cases e with
  | stop => simp [cutBody, Ending.cutInside, eq_comm]
  | verbatim | braced =>
    rw [cutBody, Ending.cutInside]
    split
    · rename_i b s hfound
      simp only [hfound, Except.ok.injEq, Prod.mk.injEq, Option.some.injEq, reduceCtorEq,
        false_and, false_or]
      constructor
      · rintro ⟨rfl, rfl⟩
        exact ⟨b, ⟨rfl, rfl⟩, rfl⟩
      · rintro ⟨_, ⟨rfl, rfl⟩, rfl⟩
        exact ⟨rfl, rfl⟩
    · rename_i hfound
      simp [hfound]

/-- A target is a pattern up to its ending, and the body that this ending announces. -/
theorem cutTarget_eq_ok_iff {target : Target} :
    cutTarget t = .ok (target, r)
      ↔ ∃ ending s, cutPattern 0 t = some (target.pattern, ending, s)
        ∧ cutBody ending s = .ok (target.body, r) := by
  rw [cutTarget]
  cases h : cutPattern 0 t with
  | none => simp
  | some parts =>
    obtain ⟨pattern, ending, s⟩ := parts
    simp only [map_eq_ok_iff, Prod.exists, Prod.mk.injEq, Option.some.injEq]
    constructor
    · rintro ⟨body, r', hbody, rfl, rfl⟩
      exact ⟨ending, s, ⟨rfl, rfl, rfl⟩, hbody⟩
    · rintro ⟨ending', s', ⟨rfl, rfl, rfl⟩, hbody⟩
      exact ⟨target.body, r, hbody, rfl, rfl⟩

/-- A `%feature` has arguments, a target behind them, and the two together are an entry. -/
theorem readFeature_eq_ok_iff {e : Feature.Entry} :
    readFeature t = .ok (e, r)
      ↔ ∃ inside after arguments target, cutArguments t = .ok (inside, after)
        ∧ readArguments inside = .ok arguments ∧ cutTarget after = .ok (target, r)
        ∧ entryOf arguments target = .ok e := by
  simp only [readFeature, bind_eq_ok_iff, mapError_eq_ok_iff, Prod.exists, pure, Except.pure,
    Except.ok.injEq, Prod.mk.injEq]
  constructor
  · rintro ⟨inside, after, hargs, arguments, hread, target, r', htarget, e', he, rfl, rfl⟩
    exact ⟨inside, after, arguments, target, hargs, hread, htarget, he⟩
  · rintro ⟨inside, after, arguments, target, hargs, hread, htarget, he⟩
    exact ⟨inside, after, hargs, arguments, hread, target, r, htarget, e, he, rfl, rfl⟩

/-- An alias has no arguments to read: they come with its name. What can go wrong with it is the
target, and a body where it takes none. -/
theorem readAlias_eq_ok_iff {name : Text} {e : Feature.Entry} :
    readAlias name t = .ok (e, r)
      ↔ ∃ a target, Alias.ofDirective? name = some a ∧ cutTarget t = .ok (target, r)
        ∧ (target.body.isSome && !a.takesBody) = false
        ∧ entryOf ⟨a.feature, some (a.token target.body.isSome), .empty⟩ target = .ok e := by
  rw [readAlias]
  cases ha : Alias.ofDirective? name with
  | none => simp
  | some a =>
    simp only [bind_eq_ok_iff, Prod.exists, Option.some.injEq]
    constructor
    · rintro ⟨target, r', htarget, h⟩
      by_cases hstray : (target.body.isSome && !a.takesBody) = true
      · simp [hstray, throw, throwThe, MonadExceptOf.throw, bind, Except.bind] at h
      · rw [if_neg hstray] at h
        simp only [pure, Except.pure, bind_eq_ok_iff, Except.ok.injEq, Prod.mk.injEq] at h
        obtain ⟨_, he, rfl, rfl⟩ := h
        exact ⟨a, target, rfl, htarget, by simpa using hstray, he⟩
    · rintro ⟨_, target, rfl, htarget, hstray, he⟩
      refine ⟨target, r, htarget, ?_⟩
      rw [if_neg (by simp [hstray]), he]
      rfl

/-- The name decides which of the two readers has the rest. -/
theorem readDirective_eq_ok_iff {e : Feature.Entry} :
    readDirective t = .ok (e, r)
      ↔ ∃ name rest, Text.cutIdentifier t = some (name, rest)
        ∧ (name = "feature".toList ∧ readFeature rest = .ok (e, r)
          ∨ name ≠ "feature".toList ∧ readAlias name rest = .ok (e, r)) := by
  rw [readDirective]
  cases h : Text.cutIdentifier t with
  | none => simp
  | some parts =>
    obtain ⟨name, rest⟩ := parts
    simp only [Option.some.injEq, Prod.mk.injEq]
    constructor
    · intro hread
      refine ⟨name, rest, ⟨rfl, rfl⟩, ?_⟩
      by_cases hname : name = "feature".toList
      · rw [if_pos hname] at hread
        exact .inl ⟨hname, hread⟩
      · rw [if_neg hname] at hread
        exact .inr ⟨hname, hread⟩
    · rintro ⟨_, _, ⟨rfl, rfl⟩, ⟨hname, hread⟩ | ⟨hname, hread⟩⟩
      · rw [if_pos hname]
        exact hread
      · rw [if_neg hname]
        exact hread

/-! ## Items

The loop reads one item and goes on with what the item left. It ends in one of four ways
(`readFrom_of_end`, `readFrom_of_open`, `readFrom_of_item`, `readFrom_of_fault`), and whoever
follows it through a script has these four cases. -/

/-- An item is a directive behind its `%`, or a statement up to its `;`. -/
theorem readItem_eq_ok_iff {item : Item} :
    readItem t = .ok (item, r)
      ↔ (∃ s e, t = '%' :: s ∧ readDirective s = .ok (e, r) ∧ item = .directive e)
        ∨ (t.head? ≠ some '%' ∧ ∃ statement,
          Text.cut .round (.char ';') t = some (statement, r)
            ∧ readStatement statement = .ok item) := by
  rw [readItem.eq_def]
  split
  · rename_i s
    simp only [map_eq_ok_iff, Prod.exists, Prod.mk.injEq, List.cons.injEq, true_and,
      List.head?_cons, ne_eq, not_true_eq_false, false_and, or_false]
    constructor
    · rintro ⟨e, r', hd, rfl, rfl⟩
      exact ⟨s, e, rfl, hd, rfl⟩
    · rintro ⟨_, e, rfl, hd, rfl⟩
      exact ⟨e, r, hd, rfl, rfl⟩
  · -- no directive, so the item is what is cut off
    rename_i hpercent
    have hhead : t.head? ≠ some '%' := by
      intro h
      cases t with
      | nil => simp at h
      | cons c s =>
        rw [List.head?_cons, Option.some_inj] at h
        exact hpercent s (h ▸ rfl)
    have hnot : ∀ s e, ¬ (t = '%' :: s ∧ readDirective s = .ok (e, r) ∧ item = .directive e) :=
      fun s _ h => hpercent s h.1
    cases hcut : Text.cut .round (.char ';') t with
    | none => simp [hnot]
    | some parts =>
      obtain ⟨statement, rest⟩ := parts
      simp only [map_eq_ok_iff, Prod.mk.injEq, Option.some.injEq]
      constructor
      · rintro ⟨item', hs, rfl, rfl⟩
        exact .inr ⟨hhead, statement, ⟨rfl, rfl⟩, hs⟩
      · rintro (⟨s, e, h⟩ | ⟨-, statement', ⟨rfl, rfl⟩, hs⟩)
        · exact absurd h (hnot s e)
        · exact ⟨item, hs, rfl, rfl⟩

/-- One round of the loop. -/
theorem readFrom_eq (script t : Text) :
    readFrom script t
      = match skipTrivia .gap t with
        | .error opening => .error ⟨lineAt script opening, .unterminated .comment⟩
        | .ok [] => .ok []
        | .ok (c :: s) =>
          match readItem (c :: s) with
          | .error cause => .error ⟨lineAt script (c :: s), cause⟩
          | .ok (item, rest) => (readFrom script rest).map (item :: ·) := by
  rw [readFrom]
  split
  · rename_i hs
    rw [hs]
  · rename_i hs
    rw [hs]
  · rename_i c s hs
    rw [hs]
    split
    · rename_i hr
      simp only [hr]
    · rename_i hr
      simp only [hr]

/-- At the end of the text there is nothing more. -/
theorem readFrom_of_end {script : Text} (h : skipTrivia .gap t = .ok []) :
    readFrom script t = .ok [] := by
  rw [readFrom_eq, h]

/-- A comment that is left open is reported where it opens. -/
theorem readFrom_of_open {script opening : Text} (h : skipTrivia .gap t = .error opening) :
    readFrom script t = .error ⟨lineAt script opening, .unterminated .comment⟩ := by
  rw [readFrom_eq, h]

theorem readFrom_of_item {script : Text} {c : Char} {s : Text} {item : Item}
    (h : skipTrivia .gap t = .ok (c :: s)) (hitem : readItem (c :: s) = .ok (item, r)) :
    readFrom script t = (readFrom script r).map (item :: ·) := by
  rw [readFrom_eq, h]
  simp only [hitem]

/-- An item that cannot be read is reported where it starts. -/
theorem readFrom_of_fault {script : Text} {c : Char} {s : Text} {cause : Cause}
    (h : skipTrivia .gap t = .ok (c :: s)) (hitem : readItem (c :: s) = .error cause) :
    readFrom script t = .error ⟨lineAt script (c :: s), cause⟩ := by
  rw [readFrom_eq, h]
  simp only [hitem]

/-! ## What is left is an end of the text

The readers follow one another, so each of the lemmas is put together from those of the parts, and
only the smallest readers are opened. -/

/-- What is left behind a gap is an end of the text. -/
theorem suffix_of_skipTrivia {s : Skip} (h : skipTrivia s t = .ok r) : r <:+ t := by
  fun_induction skipTrivia s t with
  | case1 | case6 | case7 =>
    rw [Except.ok.injEq] at h
    exact h ▸ List.suffix_rfl
  | case4 _ _ _ ih | case5 _ _ _ _ _ _ ih | case8 _ ih | case9 _ _ _ ih | case12 _ _ _ _ ih =>
    exact (ih h).trans (List.suffix_cons _ _)
  | case2 _ ih | case3 _ ih | case11 _ _ ih =>
    exact (ih h).trans ((List.suffix_cons _ _).trans (List.suffix_cons _ _))
  | case10 => simp at h

/-- The place where a comment is left open is in the text as well, unless it was open before. -/
theorem suffix_of_skipTrivia_eq_error {s : Skip} {opening : Text}
    (h : skipTrivia s t = .error opening) : opening <:+ t ∨ s = .block opening := by
  fun_induction skipTrivia s t with
  | case1 | case6 | case7 => simp at h
  | case4 _ _ _ ih | case5 _ _ _ _ _ _ ih | case8 _ ih | case9 _ _ _ ih =>
    exact .inl (((ih h).resolve_right (by simp)).trans (List.suffix_cons _ _))
  | case2 _ ih | case11 _ _ ih =>
    exact .inl (((ih h).resolve_right (by simp)).trans
      ((List.suffix_cons _ _).trans (List.suffix_cons _ _)))
  | case3 _ ih =>
    rcases ih h with hs | hs
    · exact .inl (hs.trans ((List.suffix_cons _ _).trans (List.suffix_cons _ _)))
    · rw [Skip.block.injEq] at hs
      exact .inl (hs ▸ List.suffix_rfl)
  | case12 _ _ _ _ ih => exact (ih h).imp_left fun hs => hs.trans (List.suffix_cons _ _)
  | case10 =>
    rw [Except.error.injEq] at h
    exact .inr (h ▸ rfl)

/-- What an ending looks like. -/
def Ending.mark : Ending → Text
  | stop => [';']
  | verbatim => ['%', '{']
  | braced => ['{']

theorem cutEnding_eq_some_iff {e : Ending} : cutEnding t = some (e, r) ↔ t = e.mark ++ r := by
  constructor
  · intro h
    rw [cutEnding.eq_def] at h
    split at h <;> simp only [Option.some.injEq, Prod.mk.injEq, reduceCtorEq] at h <;>
    · obtain ⟨rfl, rfl⟩ := h
      rfl
  · rintro rfl
    cases e <;> rfl

/-- One step of the search for an ending: it stands here, or further on. Outside parentheses it
is not further on where a new statement starts here. -/
theorem cutPattern_cons_eq_some_iff {depth : Nat} {c : Char} {p : Text} {e : Ending} :
    cutPattern depth (c :: t) = some (p, e, r)
      ↔ (depth = 0 ∧ cutEnding (c :: t) = some (e, r) ∧ p = [])
        ∨ ((depth = 0 → cutEnding (c :: t) = none ∧ startsAnew (c :: t) = false)
          ∧ ∃ q, cutPattern (Text.Brackets.round.step depth c) t = some (q, e, r)
            ∧ p = c :: q) := by
  have hmap : ((cutPattern (Text.Brackets.round.step depth c) t).map fun parts =>
        (c :: parts.1, parts.2)) = some (p, e, r)
      ↔ ∃ q, cutPattern (Text.Brackets.round.step depth c) t = some (q, e, r) ∧ p = c :: q := by
    rw [Option.map_eq_some_iff]
    constructor
    · rintro ⟨⟨q, parts⟩, hq, heq⟩
      obtain ⟨rfl, rfl⟩ := Prod.mk.inj heq
      exact ⟨q, hq, rfl⟩
    · rintro ⟨q, hq, rfl⟩
      exact ⟨(q, e, r), hq, rfl⟩
  rw [cutPattern]
  by_cases hd : depth = 0
  · rw [if_pos hd]
    cases he : cutEnding (c :: t) with
    | some ending =>
      -- an ending that stands here is taken, whatever follows
      simp only [hd, Option.some.injEq, Prod.mk.injEq, true_and, forall_const, reduceCtorEq,
        false_and, or_false]
      constructor
      · rintro ⟨rfl, rfl⟩
        exact ⟨rfl, rfl⟩
      · rintro ⟨rfl, rfl⟩
        exact ⟨rfl, rfl⟩
    | none =>
      by_cases hnew : startsAnew (c :: t) = true
      · simp [hd, hnew]
      · simp only [hd, hnew, and_false, if_false, Bool.false_eq_true]
        rw [hd] at hmap
        simpa [hnew] using hmap
  · rw [if_neg hd]
    simp only [hd, false_and, if_false, false_or, false_implies, true_and]
    exact hmap

/-- The pattern, the ending and the rest are the text. -/
theorem eq_of_cutPattern {depth : Nat} {p : Text} {e : Ending}
    (h : cutPattern depth t = some (p, e, r)) : t = p ++ (e.mark ++ r) := by
  induction t generalizing depth p with
  | nil => simp [cutPattern] at h
  | cons c t ih =>
    rcases cutPattern_cons_eq_some_iff.1 h with ⟨-, he, rfl⟩ | ⟨-, q, hq, rfl⟩
    · exact cutEnding_eq_some_iff.1 he
    · exact congrArg (c :: ·) (ih hq)

theorem suffix_of_cutArguments {inside : Text} (h : cutArguments t = .ok (inside, r)) :
    r <:+ t := by
  obtain ⟨s, hs, hclose⟩ := cutArguments_eq_ok_iff.1 h
  have hr : r <:+ '(' :: s := by
    rw [eq_of_closeArguments hclose]
    exact ((List.suffix_cons _ _).trans (List.suffix_append _ _)).trans (List.suffix_cons _ _)
  exact hr.trans (hs ▸ List.dropWhile_suffix Text.isBlank)

theorem Ending.suffix_of_cutInside {e : Ending} {b : Text} (h : e.cutInside t = some (b, r)) :
    r <:+ t := by
  cases e with
  | stop => simp [cutInside] at h
  | verbatim =>
    rw [Text.eq_of_breakOn h]
    exact (List.suffix_append _ _).trans (List.suffix_append _ _)
  | braced =>
    rw [Text.eq_of_closing h]
    exact (List.suffix_cons _ _).trans (List.suffix_append _ _)

theorem suffix_of_cutBody {e : Ending} {body : Option Text} (h : cutBody e t = .ok (body, r)) :
    r <:+ t := by
  rcases cutBody_eq_ok_iff.1 h with ⟨-, -, rfl⟩ | ⟨b, hb, -⟩
  · exact List.suffix_rfl
  · exact Ending.suffix_of_cutInside hb

/-- Between a pattern and its body nothing is left out, whatever the ending is. -/
theorem suffix_of_cutTarget {target : Target} (h : cutTarget t = .ok (target, r)) : r <:+ t := by
  obtain ⟨e, s, hcut, hbody⟩ := cutTarget_eq_ok_iff.1 h
  refine (suffix_of_cutBody hbody).trans ?_
  rw [eq_of_cutPattern hcut]
  exact (List.suffix_append _ _).trans (List.suffix_append _ _)

theorem suffix_of_readDirective {e : Feature.Entry} (h : readDirective t = .ok (e, r)) :
    r <:+ t := by
  obtain ⟨name, rest, hname, h⟩ := readDirective_eq_ok_iff.1 h
  have hrest : rest <:+ t := Text.eq_of_cutIdentifier hname ▸ List.suffix_append name rest
  refine List.IsSuffix.trans ?_ hrest
  rcases h with ⟨-, h⟩ | ⟨-, h⟩
  · obtain ⟨inside, after, _, target, hargs, -, htarget, -⟩ := readFeature_eq_ok_iff.1 h
    exact (suffix_of_cutTarget htarget).trans (suffix_of_cutArguments hargs)
  · obtain ⟨_, target, -, htarget, -⟩ := readAlias_eq_ok_iff.1 h
    exact suffix_of_cutTarget htarget

/-- What an item leaves is the end of the text. -/
theorem suffix_of_readItem {item : Item} (h : readItem t = .ok (item, r)) : r <:+ t := by
  rcases readItem_eq_ok_iff.1 h with ⟨s, e, rfl, hd, -⟩ | ⟨-, statement, hcut, -⟩
  · exact (suffix_of_readDirective hd).trans (List.suffix_cons _ _)
  · obtain ⟨c, rfl⟩ := Text.eq_of_cutFrom hcut
    exact (List.suffix_cons _ _).trans (List.suffix_append _ _)

end Overlay.Script
