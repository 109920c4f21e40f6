/-
The two spellings of an option with a value.

An option takes the next argument as its value, or has the value joined on with `=`. Reading goes
argument by argument and looks at nothing behind (`readArguments_append`), so all that matters of a
place is what one argument is read as, or one and the next. An option followed by its value is read
as it is written. Of a joined value the option and its `=` are dropped as often as they stand in
front (`dropRepeated_spec`). So the spellings agree on all values but those that repeat the option
(`readArguments_joint_iff`), and the value of a joined one is never such a value.

That holds at every place where an argument is read, so the theorem is about reading on from any
request, with any arguments in front that were read and any behind.
-/
import Mathlib.Data.List.Basic
import Overlay.CommandLine

set_option autoImplicit false

namespace Overlay.CommandLine

variable {r s : Request} {before : List Text} {value : Text}

/-! ## Reading on

The reader has a request that it changes with each argument. Reading a list of arguments in two
parts is reading the second with the request that the first has left. -/

/-- What is read of arguments does not depend on those behind them. -/
theorem readArguments_append (h : readArguments r before = .ok s) (args : List Text) :
    readArguments r (before ++ args) = readArguments s args := by
  fun_induction readArguments r before with
  | case1 r =>
    obtain rfl := Except.ok.inj h
    rfl
  | case2 | case5 | case7 => simp at h
  | case3 r arg rest switch harg ih =>
    rw [List.cons_append, readArguments, harg]
    exact ih h
  | case4 r arg rest o value harg ih =>
    rw [List.cons_append, readArguments, harg]
    exact ih h
  | case6 r arg o harg value rest ih =>
    rw [List.cons_append, List.cons_append, readArguments, harg]
    exact ih h
  | case8 r arg rest path harg hpath ih =>
    rw [List.cons_append, readArguments, harg]
    simp only [if_neg hpath]
    exact ih h

/-! ## Dropping an option

The function that drops the option repeatedly has the length of its text as a bound. It is told here
by what it leaves: the text without some number of repetitions in front, and with none left there.
-/

/-- Starting with a piece is having it as a beginning. -/
theorem startsWith_iff {piece t : Text} : Text.startsWith piece t = true ↔ piece <+: t := by
  rw [Text.startsWith, Option.isSome_iff_exists]
  simp only [Text.dropPiece_eq_some_iff]
  exact ⟨fun ⟨r, hr⟩ => ⟨r, hr.symm⟩, fun ⟨r, hr⟩ => ⟨r, hr.symm⟩⟩

namespace ValueOption

/-- A piece is dropped until the text begins with something else. -/
theorem dropRepeated_spec {piece t : Text} {fuel : Nat} (hpiece : piece ≠ [])
    (hfuel : t.length ≤ fuel) :
    (∃ k, t = (List.replicate k piece).flatten ++ dropRepeated piece fuel t)
      ∧ ¬ piece <+: dropRepeated piece fuel t := by
  induction fuel generalizing t with
  | zero =>
    obtain rfl := List.length_eq_zero_iff.1 (Nat.le_zero.1 hfuel)
    exact ⟨⟨0, rfl⟩, fun h => hpiece (List.prefix_nil.1 h)⟩
  | succ fuel ih =>
    rw [dropRepeated]
    cases hdrop : Text.dropPiece piece t with
    | some rest =>
      obtain rfl := Text.dropPiece_eq_some_iff.1 hdrop
      have hlen : rest.length ≤ fuel := by
        have hpos := List.length_pos_iff.2 hpiece
        rw [List.length_append] at hfuel
        omega
      obtain ⟨⟨k, hk⟩, hrest⟩ := ih hlen
      refine ⟨⟨k + 1, ?_⟩, hrest⟩
      rw [List.replicate_succ, List.flatten_cons, List.append_assoc, ← hk]
    | none =>
      refine ⟨⟨0, rfl⟩, ?_⟩
      rw [← startsWith_iff, Text.startsWith, hdrop]
      simp

/-- What is dropped is not empty, so something is dropped each time. -/
theorem joint_ne_nil (o : ValueOption) : o.joint ≠ [] := by simp [joint]

/-- What is left of a joined value. -/
theorem exists_dropRepeated_joint (o : ValueOption) (value : Text) :
    ∃ k rest, value = (List.replicate k o.joint).flatten ++ rest ∧ ¬ o.joint <+: rest
      ∧ dropRepeated o.joint (o.joint ++ value).length (o.joint ++ value) = rest := by
  obtain ⟨⟨k, hk⟩, hrest⟩ :=
    dropRepeated_spec o.joint_ne_nil (Nat.le_refl (o.joint ++ value).length)
  cases k with
  | zero =>
    rw [List.replicate_zero, List.flatten_nil, List.nil_append] at hk
    rw [← hk] at hrest
    exact absurd (List.prefix_append o.joint value) hrest
  | succ k =>
    rw [List.replicate_succ, List.flatten_cons, List.append_assoc] at hk
    exact ⟨k, _, List.append_cancel_left hk, hrest, rfl⟩

end ValueOption

/-! ## The two spellings

Each of them is one step of the reader, and they come to the same request if they set the same
value. -/

/-- The spelling of an option is read as the option. -/
theorem ofText_spelling (o : ValueOption) : Argument.ofText o.spelling = .option o := by
  cases o <;> rfl

/-- A joined value is read with the option and every repetition of it dropped. -/
theorem ofText_joint (o : ValueOption) (value : Text) :
    Argument.ofText (o.joint ++ value)
      = .joined o
          (ValueOption.dropRepeated o.joint (o.joint ++ value).length (o.joint ++ value)) := by
  cases o <;> rfl

/-- An option takes the next argument, whatever that is. -/
theorem readArguments_spelling (h : readArguments r before = .ok s) (o : ValueOption)
    (value : Text) (after : List Text) :
    readArguments r (before ++ o.spelling :: value :: after)
      = readArguments (s.set o value) after := by
  rw [readArguments_append h, readArguments, ofText_spelling]

/-- A joined value is read without the options that it begins with. -/
theorem exists_readArguments_joint (h : readArguments r before = .ok s) (o : ValueOption)
    (value : Text) :
    ∃ k rest, value = (List.replicate k o.joint).flatten ++ rest ∧ ¬ o.joint <+: rest
      ∧ ∀ after, readArguments r (before ++ (o.joint ++ value) :: after)
          = readArguments (s.set o rest) after := by
  obtain ⟨k, rest, hvalue, hrest, hdrop⟩ := o.exists_dropRepeated_joint value
  refine ⟨k, rest, hvalue, hrest, ?_⟩
  intro after
  rw [readArguments_append h, readArguments, ofText_joint, hdrop]

/-- Two values that make the same request are the same. -/
theorem Request.set_inj {o : ValueOption} {value' : Text}
    (h : r.set o value = r.set o value') : value = value' := by
  cases o with
  | wrapperLead => exact congrArg (fun r : Request => r.options.wrapperLead) h
  | overloadLead => exact congrArg (fun r : Request => r.options.overloadLead) h
  | feature =>
    have hfeatures := congrArg (fun r : Request => r.selection.features) h
    exact List.singleton_inj.1 (List.append_cancel_left hfeatures)

/-- The program sees of its arguments what is read of them. -/
theorem run_congr {args args' : List Text} {color : Bool}
    (h : readArguments (.plain color) args = readArguments (.plain color) args')
    (files : Text → Except Text Text) (standard : Text) (time : Timing) :
    run files standard color time args = run files standard color time args' := by
  rw [run, run, h]

/-- Where a new argument is read, an option with its value joined on is the option followed by
the rest of the value behind the options that it begins with. So it is the option followed by the
value, for the request and for all that the program does, exactly if the value does not begin with
the option and `=`. -/
theorem readArguments_joint_iff {color : Bool} (h : readArguments (.plain color) before = .ok r)
    (o : ValueOption) (value : Text) :
    (∃ k rest, value = (List.replicate k o.joint).flatten ++ rest ∧ ¬ o.joint <+: rest
      ∧ ∀ after, readArguments (.plain color) (before ++ (o.joint ++ value) :: after)
          = readArguments (.plain color) (before ++ o.spelling :: rest :: after))
    ∧ ((∀ after, readArguments (.plain color) (before ++ o.spelling :: value :: after)
          = readArguments (.plain color) (before ++ (o.joint ++ value) :: after))
        ↔ ¬ o.joint <+: value)
    ∧ (¬ o.joint <+: value → ∀ files standard time after,
        run files standard color time (before ++ o.spelling :: value :: after)
          = run files standard color time (before ++ (o.joint ++ value) :: after)) := by
  obtain ⟨k, rest, hvalue, hrest, hjoint⟩ := exists_readArguments_joint h o value
  have hspelling := readArguments_spelling h o
  have hsame : ¬ o.joint <+: value → rest = value := by
    intro hplain
    cases k with
    | zero => rw [hvalue, List.replicate_zero, List.flatten_nil, List.nil_append]
    | succ k =>
      rw [hvalue, List.replicate_succ, List.flatten_cons, List.append_assoc] at hplain
      exact absurd (List.prefix_append _ _) hplain
  have hread : ¬ o.joint <+: value → ∀ after,
      readArguments (.plain color) (before ++ o.spelling :: value :: after)
        = readArguments (.plain color) (before ++ (o.joint ++ value) :: after) := by
    intro hplain after
    rw [hspelling, hjoint, hsame hplain]
  refine ⟨⟨k, rest, hvalue, hrest, ?_⟩, ⟨?_, hread⟩, ?_⟩
  · intro after
    rw [hspelling, hjoint]
  · intro hall
    -- with nothing behind, the two requests are the outcomes
    have hlast := hall []
    rw [hspelling, hjoint, readArguments, readArguments, Except.ok.injEq] at hlast
    rwa [Request.set_inj hlast]
  · intro hplain files standard time after
    exact run_congr (hread hplain after) files standard time

/-- A value that looks like an option is a value, behind others or joined on. -/
theorem readArguments_joint_dashes :
    let before := ["--compact".toList, "--feature".toList, "--feature".toList]
    let value := "-=--overload-prefix=".toList
    (∃ r, readArguments (.plain false) before = .ok r) ∧ ¬ ValueOption.overloadLead.joint <+: value
      ∧ ∀ after,
        readArguments (.plain false) (before ++ "--overload-prefix".toList :: value :: after)
          = readArguments (.plain false)
              (before ++ "--overload-prefix=-=--overload-prefix=".toList :: after) := by
  intro before value
  have hplain : ¬ ValueOption.overloadLead.joint <+: value := by decide
  have hbefore : readArguments (.plain false) before = .ok ⟨none, ⟨true, "_wrap_".toList,
      "__SWIG_".toList⟩, ⟨["--feature".toList], false, false⟩, false⟩ := by rfl
  exact ⟨⟨_, hbefore⟩, hplain, (readArguments_joint_iff hbefore .overloadLead value).2.1.2 hplain⟩

/-- **A joined value that repeats its option loses it.** Followed by the value, the option selects
the feature `--feature=x`; with the value joined on, the feature `x`. -/
theorem readArguments_joint_repeated :
    (∃ r, readArguments (.plain false) ["--feature".toList, "--feature=x".toList] = .ok r
        ∧ r.selection.features = ["--feature=x".toList])
      ∧ (∃ r, readArguments (.plain false) ["--feature=--feature=x".toList] = .ok r
        ∧ r.selection.features = ["x".toList])
      ∧ readArguments (.plain false) ["--feature".toList, "--feature=x".toList]
        ≠ readArguments (.plain false) ["--feature=--feature=x".toList] :=
  ⟨⟨_, rfl, rfl⟩, ⟨_, rfl, rfl⟩, by decide⟩

end Overlay.CommandLine
