/-
Aliases and what they stand for.

A directive by an alias is one for `%feature` with the feature and the value of the alias in its
arguments. What a directive comes to depends on two things: what its head says, and the target
behind the head (`readBehind`). The two readers do their checks in different orders, but of the
written out head nothing can be wrong, and of the alias only the body can be one too many. That
is found with the target, before the pattern is read.

The two directives are of different lengths, and so are the scripts that begin with them. But
there is no line break in either head, so all that is left behind them is on the same lines, and
the rest of the script is read alike (`parse_congr`).
-/
import Overlay.Proofs.Script.Composition
import Overlay.Proofs.Script.Written

set_option autoImplicit false

namespace Overlay

/-! ## The aliases

The aliases are a list, and what is needed of them is looked up there one by one. This is the only
place that depends on which aliases there are. -/

namespace Alias

variable {a : Alias}

/-- Each alias has a name of its own. -/
theorem ofDirective?_directive (ha : a ∈ all) : ofDirective? a.directive = some a := by
  revert a
  decide

theorem isIdentifier_directive (ha : a ∈ all) : Text.isIdentifier a.directive = true := by
  revert a
  decide

theorem directive_ne_feature (ha : a ∈ all) : a.directive ≠ "feature".toList := by
  revert a
  decide

theorem feature_ne_nil (ha : a ∈ all) : a.feature ≠ [] := by
  revert a
  decide

end Alias

namespace Script

/-- The head of a `%feature` directive, without its `%`, that says what an alias stands for. -/
def headOf (feature value : Text) : Text :=
  "feature(\"".toList ++ feature ++ "\", \"".toList ++ value ++ "\")".toList

/-- There is nothing to escape in the feature and the value of an alias. -/
theorem headOf_eq {a : Alias} (ha : a ∈ Alias.all) (hasBody : Bool) :
    headOf a.feature (a.token hasBody)
      = "feature(".toList ++ (argumentsText a.feature (a.token hasBody) [] ++ [')']) := by
  revert a hasBody
  decide

/-- Neither head has a line break in it. -/
theorem lineBreaks_directive {a : Alias} (ha : a ∈ Alias.all) : lineBreaks a.directive = 0 := by
  revert a
  decide

theorem lineBreaks_headOf {a : Alias} (ha : a ∈ Alias.all) (hasBody : Bool) :
    lineBreaks (headOf a.feature (a.token hasBody)) = 0 := by
  revert a hasBody
  decide

/-! ## Behind the head

Both directives end in the same reading of what is behind their heads. For an alias the body has to
be known before, since the value depends on it. -/

variable {t r : Text}

/-- A target with a body is behind the head. -/
def hasBody (t : Text) : Bool :=
  match cutTarget t with
  | .ok (target, _) => target.body.isSome
  | .error _ => false

/-- Reads what is behind a head that says this. -/
def readBehind (arguments : Arguments) (t : Text) : Except Cause (Feature.Entry × Text) := do
  let (target, rest) ← cutTarget t
  let entry ← entryOf arguments target
  return (entry, rest)

/-- What is written out is read as what it says, and nothing is looked at behind the parenthesis. -/
theorem readFeature_argumentsText {feature : Text} (hfeature : feature ≠ []) (value t : Text) :
    readFeature ('(' :: (argumentsText feature value [] ++ ')' :: t))
      = readBehind ⟨feature, some value, .empty⟩ t := by
  have hes : ∀ e ∈ ([] : List (Text × Text)), isKey e.1 = true := by simp
  have hargs : cutArguments ('(' :: (argumentsText feature value [] ++ ')' :: t))
      = .ok (argumentsText feature value [], t) :=
    cutArguments_eq_ok_iff.2
      ⟨_, rfl, closeArguments_intercalate (isArgument_of_mem hes feature value) t⟩
  have hread := readArguments_argumentsText hfeature hes value
  rw [readFeature, hargs]
  simp only [bind, Except.bind, hread]
  rfl

/-- Behind an alias a body is one too many, or the directive is read as it is written out. -/
theorem readAlias_eq {name : Text} {a : Alias} (ha : Alias.ofDirective? name = some a)
    (t : Text) :
    readAlias name t
      = if hasBody t && !a.takesBody then .error (.directive (.strayBody name))
        else readBehind ⟨a.feature, some (a.token (hasBody t)), .empty⟩ t := by
  rw [readAlias, ha, hasBody, readBehind]
  cases cutTarget t with
  | error cause => rfl
  | ok parts =>
    obtain ⟨target, rest⟩ := parts
    simp only [bind, Except.bind]
    split
    · rfl
    · rfl

/-- What is left is an end of the text behind the head. -/
theorem suffix_of_readBehind {arguments : Arguments} {e : Feature.Entry}
    (h : readBehind arguments t = .ok (e, r)) : r <:+ t := by
  simp only [readBehind, bind_eq_ok_iff, pure, Except.pure, Except.ok.injEq, Prod.mk.injEq,
    Prod.exists] at h
  obtain ⟨target, rest, htarget, -, -, -, rfl⟩ := h
  exact suffix_of_cutTarget htarget

/-- An alias is read by its name, if the name ends where the directive does. -/
theorem readDirective_alias {a : Alias} (ha : a ∈ Alias.all)
    (hr : ∀ c, r.head? = some c → Text.isIdentChar c = false) :
    readDirective (a.directive ++ r) = readAlias a.directive r := by
  have hname : Text.cutIdentifier (a.directive ++ r) = some (a.directive, r) :=
    Text.cutIdentifier_eq_some_iff.2 ⟨rfl, Alias.isIdentifier_directive ha, hr⟩
  simp only [readDirective, hname, if_neg (Alias.directive_ne_feature ha)]

/-- The head of `%feature` takes nothing from what is behind it. -/
theorem readDirective_headOf {a : Alias} (ha : a ∈ Alias.all) (hasBody : Bool) (t : Text) :
    readDirective (headOf a.feature (a.token hasBody) ++ t)
      = readBehind ⟨a.feature, some (a.token hasBody), .empty⟩ t := by
  have hhead : headOf a.feature (a.token hasBody) ++ t
      = "feature".toList
        ++ ('(' :: (argumentsText a.feature (a.token hasBody) [] ++ ')' :: t)) := by
    rw [headOf_eq ha, List.append_assoc, List.append_assoc]
    rfl
  have hname : Text.cutIdentifier (headOf a.feature (a.token hasBody) ++ t)
      = some ("feature".toList,
          '(' :: (argumentsText a.feature (a.token hasBody) [] ++ ')' :: t)) := by
    -- the name ends at the parenthesis
    refine Text.cutIdentifier_eq_some_iff.2 ⟨hhead, by decide, ?_⟩
    intro c hc
    obtain rfl := Option.some.inj hc
    decide
  simp only [readDirective, hname, if_true]
  exact readFeature_argumentsText (Alias.feature_ne_nil ha) _ _

/-! ## The rest of the script

What is left behind the first directive is the same text in both scripts, and only the line it
stands on could differ. -/

/-- A script that begins with a directive. -/
theorem parse_percent (t : Text) :
    parse ('%' :: t)
      = match readDirective t with
        | .error cause => .error ⟨1, cause⟩
        | .ok (e, rest) => (readFrom ('%' :: t) rest).map (.directive e :: ·) := by
  have hskip : skipTrivia .gap ('%' :: t) = .ok ('%' :: t) := rfl
  have hline : lineAt ('%' :: t) ('%' :: t) = 1 := by rw [lineAt, Nat.sub_self]
  rw [parse]
  cases hd : readDirective t with
  | error cause =>
    have hitem : readItem ('%' :: t) = .error cause := by
      rw [readItem, hd]
      rfl
    rw [readFrom_of_fault hskip hitem, hline]
  | ok parts =>
    have hitem : readItem ('%' :: t) = .ok (.directive parts.1, parts.2) := by
      rw [readItem, hd]
      rfl
    exact readFrom_of_item hskip hitem

/-- Two heads that say the same of what is behind them, and end on the same line, begin the same
script. -/
theorem parse_congr {head head' : Text} {arguments : Arguments}
    (hlines : lineBreaks head = lineBreaks head')
    (hhead : readDirective (head ++ t) = readBehind arguments t)
    (hhead' : readDirective (head' ++ t) = readBehind arguments t) :
    parse ('%' :: (head ++ t)) = parse ('%' :: (head' ++ t)) := by
  rw [parse_percent, parse_percent, hhead, hhead']
  cases hb : readBehind arguments t with
  | error cause => rfl
  | ok parts =>
    obtain ⟨e, rest⟩ := parts
    -- what is left is an end of `t`, and `t` an end of both scripts
    have hrest := suffix_of_readBehind hb
    have hlines' : lineBreaks ('%' :: head) = lineBreaks ('%' :: head') := by
      simpa [lineBreaks] using hlines
    simp only [← List.cons_append]
    rw [readFrom_append_front hrest, readFrom_append_front hrest, hlines']

/-- An alias is what it stands for. If a body is behind it that it does not take, that is an
error on the first line, whatever the pattern in front of the body is. Else the script is, with
all its items or its error, the one with the head of `%feature` in place of the alias. -/
theorem parse_alias {a : Alias} (ha : a ∈ Alias.all)
    (hr : ∀ c, r.head? = some c → Text.isIdentChar c = false) :
    parse ('%' :: (a.directive ++ r))
      = if hasBody r && !a.takesBody then .error ⟨1, .directive (.strayBody a.directive)⟩
        else parse ('%' :: (headOf a.feature (a.token (hasBody r)) ++ r)) := by
  have hread := (readDirective_alias ha hr).trans
    (readAlias_eq (Alias.ofDirective?_directive ha) r)
  by_cases hstray : (hasBody r && !a.takesBody) = true
  · rw [if_pos hstray, parse_percent, hread, if_pos hstray]
  · rw [if_neg hstray] at hread ⊢
    refine parse_congr ?_ hread (readDirective_headOf ha _ r)
    rw [lineBreaks_directive ha, lineBreaks_headOf ha]

/-- Behind `%exception` a body is taken, and the error is in the next line either way. Behind
`%newobject` it is one too many. -/
theorem parse_exception_and_newobject :
    (parse "%exception foo \x7b check(); \x7d\n%newobject".toList
        = parse "%feature(\"except\", \"1\") foo \x7b check(); \x7d\n%newobject".toList
      ∧ hasBody " foo \x7b check(); \x7d\n%newobject".toList = true)
    ∧ parse "%newobject foo \x7b check(); \x7d".toList
        = .error ⟨1, .directive (.strayBody "newobject".toList)⟩ := by
  have hfree : ∀ more : Text, ∀ c, (' ' :: more).head? = some c → Text.isIdentChar c = false := by
    intro more c hc
    obtain rfl := Option.some.inj hc
    decide
  refine ⟨⟨?_, by decide⟩, ?_⟩
  · exact (parse_alias (a := ⟨"exception".toList, "except".toList, .body⟩) (by decide)
      (hfree "foo \x7b check(); \x7d\n%newobject".toList)).trans (if_neg (by decide))
  · exact (parse_alias (a := ⟨"newobject".toList, "new".toList, .set ['1']⟩) (by decide)
      (hfree "foo \x7b check(); \x7d".toList)).trans (if_pos (by decide))

end Script

end Overlay
