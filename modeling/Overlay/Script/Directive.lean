/-
Reading directives.

Behind its `%` a directive has a name. `%feature` is followed by arguments in
parentheses: the quoted feature, perhaps a quoted value, and attributes `key="value"`.
Any other name must be that of an alias, which has no arguments. Then comes the target:
the text of a pattern, and either a `;` or a body.

A body is `%{ ... %}`, taken as it is, or `{ ... }` with its braces balanced. The blanks
around it are dropped.

A directive that lost its end would run on into the statements after it. So the target
is given up where a new statement starts: at a `%` before a letter, and at a line break
with, after blanks, a `%` before a letter or the keyword of a declaration.
-/
import Overlay.Alias
import Overlay.Script.Item
import Overlay.Script.Literal

set_option autoImplicit false

namespace Overlay.Script

/-! ## Arguments -/

structure Arguments where
  feature : Text
  value : Option Text
  attributes : Dictionary Text
  deriving DecidableEq

/-- A character that can continue the key of an attribute. -/
def isKeyChar (c : Char) : Bool := Text.isIdentChar c || c == ':'

/-- The value of an attribute as it is written: in quotes, on one line. -/
def isQuotedLine : Text → Bool
  | '"' :: r => r.getLast? == some '"' && !r.contains '\n'
  | _ => false

/-- The key and the written value of an attribute. -/
def splitAttribute : Text → Option (Text × Text)
  | [] => none
  | c :: r =>
    if Text.isLetter c then
      match Text.trimStart (r.dropWhile isKeyChar) with
      | '=' :: after =>
        let value := Text.trimStart after
        if isQuotedLine value then some (c :: r.takeWhile isKeyChar, value) else none
      | _ => none
    else none

/-- An argument behind the value. A text in quotes there is no attribute but a second value. -/
def readAttribute (feature part : Text) : Except DirectiveFault (Text × Text) :=
  match unquote part with
  | some _ => .error (.strayValue part feature)
  | none =>
    match splitAttribute part with
    | none => .error (.notAttribute part)
    | some (key, value) =>
      match unquote value with
      | none => .error (.badAttribute part)
      | some text => .ok (key, text)

/-- Reads the arguments behind the feature: a value may come first, the rest are
attributes. -/
def readOptions (feature : Text) :
    List Text → Except DirectiveFault (Option Text × List (Text × Text))
  | [] => .ok (none, [])
  | part :: parts =>
    match unquote part with
    | some value => (parts.mapM (readAttribute feature)).map fun es => (some value, es)
    | none => ((part :: parts).mapM (readAttribute feature)).map fun es => (none, es)

def readArguments (t : Text) : Except DirectiveFault Arguments :=
  match (splitArguments .outside t).map Text.trim with
  | [] => .error .noFeature
  | first :: parts =>
    match unquote first with
    | none => .error .noFeature
    | some feature =>
      if feature = [] then .error .noFeature
      else
        (readOptions feature parts).map fun options =>
          ⟨feature, options.1, Dictionary.ofList options.2⟩

/-- The text between the parentheses of `%feature`, and what follows them. -/
def cutArguments (t : Text) : Except Cause (Text × Text) :=
  match Text.trimStart t with
  | '(' :: inside =>
    match closeArguments .outside 0 inside with
    | some parts => .ok parts
    | none => .error (.unterminated .arguments)
  | _ => .error (.directive .noArguments)

/-! ## Where a new statement starts

The keywords are those that a statement of a declaration or of a class can begin with. -/

def statementKeywords : List Text :=
  ["inherited".toList, "class".toList, "struct".toList, "function".toList, "method".toList,
   "static".toList, "variable".toList, "member".toList]

/-- A directive starts here: a `%` before a letter. -/
def startsDirective : Text → Bool
  | '%' :: c :: _ => Text.isLetter c
  | _ => false

/-- A class or a declaration starts here: its keyword, and a blank. -/
def startsStatement (t : Text) : Bool :=
  statementKeywords.any fun keyword =>
    (Text.dropPiece keyword t).any fun r => r.head?.any Text.isBlank

/-- A directive cannot go on here. -/
def startsAnew : Text → Bool
  | '\n' :: r =>
    startsDirective (Text.trimStart r) || startsStatement (Text.trimStart r)
  | t => startsDirective t

/-! ## The target -/

/-- What ends the pattern of a directive. -/
inductive Ending where
  | stop
  | verbatim
  | braced
  deriving DecidableEq, Repr

def cutEnding : Text → Option (Ending × Text)
  | ';' :: r => some (.stop, r)
  | '%' :: '{' :: r => some (.verbatim, r)
  | '{' :: r => some (.braced, r)
  | _ => none

/-- Cuts a text at the first ending outside parentheses; `none` if a new statement starts
before there is one, or the text ends. -/
def cutPattern (depth : Nat) : Text → Option (Text × Ending × Text)
  | [] => none
  | c :: r =>
    match if depth = 0 then cutEnding (c :: r) else none with
    | some ending => some ([], ending)
    -- inside parentheses neither an ending nor a new statement counts
    | none =>
      if depth = 0 ∧ startsAnew (c :: r) = true then none
      else
        (cutPattern (Text.Brackets.round.step depth c) r).map fun parts =>
          (c :: parts.1, parts.2)

structure Target where
  pattern : Text
  body : Option Text
  deriving DecidableEq, Repr

/-- Reads the body behind an opening. -/
def cutBody : Ending → Text → Except Cause (Option Text × Text)
  | .stop, r => .ok (none, r)
  | .verbatim, r =>
    match Text.breakOn ['%', '}'] r with
    | some (body, rest) => .ok (some (Text.trim body), rest)
    | none => .error (.unterminated .verbatimBody)
  | .braced, r =>
    match Text.closing '{' '}' 0 r with
    | some (body, rest) => .ok (some (Text.trim body), rest)
    | none => .error (.unterminated .bracedBody)

def cutTarget (t : Text) : Except Cause (Target × Text) :=
  match cutPattern 0 t with
  | none => .error (.directive .noEnd)
  | some (pattern, ending, r) =>
    (cutBody ending r).map fun parts => (⟨pattern, parts.1⟩, parts.2)

/-! ## Directives -/

/-- The entry of a directive, from what was read of it. -/
def entryOf (arguments : Arguments) (target : Target) : Except Cause Feature.Entry :=
  match Pattern.parse target.pattern with
  | .error malformed => .error (.pattern malformed)
  | .ok pattern =>
    .ok {
      feature := arguments.feature
      pattern := pattern
      value := .ofToken (arguments.value.getD ['1'])
      body := target.body.map Template.ofText
      attributes := arguments.attributes
      sequence := 0 }

def readFeature (t : Text) : Except Cause (Feature.Entry × Text) := do
  let (inside, afterArguments) ← cutArguments t
  -- a fault in the arguments is reported before one in the target
  let arguments ← (readArguments inside).mapError Cause.directive
  let (target, rest) ← cutTarget afterArguments
  let entry ← entryOf arguments target
  return (entry, rest)

/-- A directive other than `%feature`, by the name of an alias. -/
def readAlias (name t : Text) : Except Cause (Feature.Entry × Text) :=
  match Alias.ofDirective? name with
  | none => .error (.unknownDirective name)
  | some a => do
    -- a stray body is reported before a malformed pattern
    let (target, rest) ← cutTarget t
    if target.body.isSome && !a.takesBody then throw (.directive (.strayBody name))
    let entry ← entryOf ⟨a.feature, some (a.token target.body.isSome), .empty⟩ target
    return (entry, rest)

def readDirective (t : Text) : Except Cause (Feature.Entry × Text) :=
  match Text.cutIdentifier t with
  | none => .error (.directive .unnamed)
  | some (name, rest) => if name = "feature".toList then readFeature rest else readAlias name rest

/-! ## What is left is no longer

A script is read item by item, and that it ends is due to each item taking something of the text.
For a directive that is its ending, at the least. -/

theorem length_le_of_cutArguments {t p r : Text} (h : cutArguments t = .ok (p, r)) :
    r.length ≤ t.length := by
  rw [cutArguments] at h
  split at h
  · rename_i inside hi
    split at h
    · rename_i parts hp
      simp only [Except.ok.injEq] at h
      subst h
      have hlen := congrArg List.length (eq_of_closeArguments hp)
      have htrim := Text.length_trimStart_le t
      rw [hi] at htrim
      simp only [List.length_append, List.length_cons] at hlen htrim
      omega
    · simp at h
  · simp at h

theorem length_lt_of_cutEnding {t r : Text} {e : Ending} (h : cutEnding t = some (e, r)) :
    r.length < t.length := by
  rw [cutEnding.eq_def] at h
  split at h <;> simp only [Option.some.injEq, Prod.mk.injEq, reduceCtorEq] at h <;>
  · obtain ⟨_, rfl⟩ := h
    simp only [List.length_cons]
    omega

theorem length_lt_of_cutPattern {depth : Nat} {t p r : Text} {e : Ending}
    (h : cutPattern depth t = some (p, e, r)) : r.length < t.length := by
  induction t generalizing depth p with
  | nil => simp [cutPattern] at h
  | cons c t ih =>
    rw [cutPattern] at h
    split at h
    · rename_i ending he
      simp only [Option.some.injEq, Prod.mk.injEq] at h
      obtain ⟨_, rfl⟩ := h
      split at he
      · exact length_lt_of_cutEnding he
      · simp at he
    · split at h
      · simp at h
      · simp only [Option.map_eq_some_iff, Prod.mk.injEq, Prod.exists] at h
        obtain ⟨q, e', s, hq, _, rfl, rfl⟩ := h
        have := ih hq
        simp only [List.length_cons]
        omega

theorem length_le_of_cutBody {e : Ending} {t r : Text} {body : Option Text}
    (h : cutBody e t = .ok (body, r)) : r.length ≤ t.length := by
  cases e with
  | stop =>
    simp only [cutBody, Except.ok.injEq, Prod.mk.injEq] at h
    exact Nat.le_of_eq (congrArg List.length h.2.symm)
  | verbatim =>
    rw [cutBody] at h
    split at h
    · rename_i b rest hb
      simp only [Except.ok.injEq, Prod.mk.injEq] at h
      have hlen := congrArg List.length (Text.eq_of_breakOn hb)
      simp only [List.length_append] at hlen
      rw [← h.2]
      omega
    · simp at h
  | braced =>
    rw [cutBody] at h
    split at h
    · rename_i b rest hb
      simp only [Except.ok.injEq, Prod.mk.injEq] at h
      have hlen := congrArg List.length (Text.eq_of_closing hb)
      simp only [List.length_append, List.length_cons] at hlen
      rw [← h.2]
      omega
    · simp at h

/-- A target takes at least its ending. -/
theorem length_lt_of_cutTarget {t r : Text} {target : Target}
    (h : cutTarget t = .ok (target, r)) : r.length < t.length := by
  rw [cutTarget] at h
  split at h
  · simp at h
  · rename_i pattern ending s hs
    cases hb : cutBody ending s with
    | error e => simp [hb, Except.map] at h
    | ok parts =>
      obtain ⟨body, rest⟩ := parts
      simp only [hb, Except.map, Except.ok.injEq, Prod.mk.injEq] at h
      have h1 := length_lt_of_cutPattern hs
      have h2 := length_le_of_cutBody hb
      rw [← h.2]
      omega

theorem length_lt_of_readFeature {t r : Text} {e : Feature.Entry}
    (h : readFeature t = .ok (e, r)) : r.length < t.length := by
  rw [readFeature] at h
  cases ha : cutArguments t with
  | error c => simp [ha, bind, Except.bind] at h
  | ok parts =>
    obtain ⟨inside, after⟩ := parts
    cases hr : (readArguments inside).mapError Cause.directive with
    | error c => simp [ha, hr, bind, Except.bind] at h
    | ok arguments =>
      cases ht : cutTarget after with
      | error c => simp [ha, hr, ht, bind, Except.bind] at h
      | ok parts =>
        obtain ⟨target, rest⟩ := parts
        cases he : entryOf arguments target with
        | error c => simp [ha, hr, ht, he, bind, Except.bind] at h
        | ok entry =>
          simp only [ha, hr, ht, he, bind, Except.bind, pure, Except.pure, Except.ok.injEq,
            Prod.mk.injEq] at h
          have h1 := length_le_of_cutArguments ha
          have h2 := length_lt_of_cutTarget ht
          rw [← h.2]
          omega

theorem length_lt_of_readAlias {name t r : Text} {e : Feature.Entry}
    (h : readAlias name t = .ok (e, r)) : r.length < t.length := by
  rw [readAlias] at h
  split at h
  · simp at h
  · rename_i a ha
    cases ht : cutTarget t with
    | error c => simp [ht, bind, Except.bind] at h
    | ok parts =>
      obtain ⟨target, rest⟩ := parts
      simp only [ht, bind, Except.bind] at h
      split at h
      · simp [throw, throwThe, MonadExceptOf.throw] at h
      · split at h
        · simp at h
        · simp only [pure, Except.pure, Except.ok.injEq, Prod.mk.injEq] at h
          rw [← h.2]
          exact length_lt_of_cutTarget ht

/-- A directive takes at least one character of the text. -/
theorem length_lt_of_readDirective {t r : Text} {e : Feature.Entry}
    (h : readDirective t = .ok (e, r)) : r.length < t.length := by
  rw [readDirective] at h
  split at h
  · simp at h
  · rename_i name rest hn
    have hlen := congrArg List.length (Text.eq_of_cutIdentifier hn)
    rw [List.length_append] at hlen
    split at h
    · have := length_lt_of_readFeature h
      omega
    · have := length_lt_of_readAlias h
      omega

end Overlay.Script
