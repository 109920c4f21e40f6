/-
A directive that is written and read back.

What is written of a `%feature` directive is its feature and value, its attributes in any order,
the text of its pattern, and its end: a `;` or a body. The reader gets back all of it and nothing
else, whatever the texts hold: they are in literals. Of the text of the pattern it takes that
it can stand there: its parentheses are balanced, so that the end is outside of them, and no
character before the end can be taken for an end or for a new statement.
-/
import Mathlib.Data.List.Basic
import Overlay.Proofs.Dictionary
import Overlay.Proofs.Script.Success
import Overlay.Proofs.Script.Written
import Overlay.Proofs.Text.Extension

set_option autoImplicit false

namespace Overlay

namespace Script

/-! ## The target of a directive

The search for the end of a pattern asks two things at each place outside parentheses: whether an
ending stands there, and whether a new statement starts. A plain character answers both with no.
The body is written with a blank on either side, which is trimmed off again; so its last character
is never next to the mark behind it. -/

/-- A character that ends no pattern and starts no statement, wherever it stands. -/
def isPlain (c : Char) : Bool := c ∉ [';', '{', '%', '\n']

theorem cutEnding_of_isPlain {c : Char} (h : isPlain c = true) (t : Text) :
    cutEnding (c :: t) = none := by
  cases he : cutEnding (c :: t) with
  | none => rfl
  | some parts =>
    have hmark := cutEnding_eq_some_iff.1 he
    cases hk : parts.1 <;> rw [hk] at hmark <;>
    · obtain ⟨rfl, -⟩ := List.cons.inj hmark
      exact absurd h (by decide)

/-- Where a statement starts there is a `%` or a line break. -/
theorem startsAnew_of_isPlain {c : Char} (h : isPlain c = true) (t : Text) :
    startsAnew (c :: t) = false := by
  rw [startsAnew, startsDirective]
  · rintro d s hd
    obtain ⟨rfl, -⟩ := List.cons.inj hd
    exact absurd h (by decide)
  · rintro s hs
    obtain ⟨rfl, -⟩ := List.cons.inj hs
    exact absurd h (by decide)

/-- A plain text that closes all its parentheses is a pattern up to the ending behind it. -/
theorem cutPattern_of_isPlain {t : Text} {depth : Nat} (hplain : ∀ c ∈ t, isPlain c = true)
    (hdepth : Text.Brackets.round.depthAfter depth t = 0) (e : Ending) (r : Text) :
    cutPattern depth (t ++ (e.mark ++ r)) = some (t, e, r) := by
  induction t generalizing depth with
  | nil =>
    obtain rfl : depth = 0 := hdepth
    cases e <;> exact cutPattern_cons_eq_some_iff.2 (.inl ⟨rfl, rfl, rfl⟩)
  | cons c t ih =>
    refine cutPattern_cons_eq_some_iff.2 (.inr ⟨?_, t, ?_, rfl⟩)
    · have hc := hplain c List.mem_cons_self
      exact fun _ => ⟨cutEnding_of_isPlain hc _, startsAnew_of_isPlain hc _⟩
    · exact ih (fun d hd => hplain d (List.mem_cons_of_mem c hd)) hdepth

/-- With a blank behind it a body that has no `%}` in it ends at the one that is written. -/
theorem breakOn_of_not_infix {b : Text} (h : ¬ ['%', '}'] <:+: b) (r : Text) :
    Text.breakOn ['%', '}'] (b ++ ' ' :: '%' :: '}' :: r) = some (b ++ [' '], r) := by
  induction b with
  | nil => rfl
  | cons c b ih =>
    have hdrop : Text.dropPiece ['%', '}'] (c :: (b ++ ' ' :: '%' :: '}' :: r)) = none := by
      cases hd : Text.dropPiece ['%', '}'] (c :: (b ++ ' ' :: '%' :: '}' :: r)) with
      | none => rfl
      | some after =>
        -- a `%` that ends the body is followed by the blank written behind it
        obtain ⟨rfl, htail⟩ := List.cons.inj (Text.dropPiece_eq_some_iff.1 hd)
        cases b with
        | nil => simp at htail
        | cons d b =>
          obtain ⟨rfl, -⟩ := List.cons.inj htail
          exact absurd (List.IsPrefix.isInfix ⟨b, rfl⟩) h
    have hb : ¬ ['%', '}'] <:+: b := fun hin => h (hin.trans (List.suffix_cons c b).isInfix)
    rw [List.cons_append, Text.breakOn, hdrop]
    show (Text.breakOn ['%', '}'] (b ++ ' ' :: '%' :: '}' :: r)).map (Text.consFst c) = _
    rw [ih hb]
    rfl

/-! ## The whole directive

The parts that are read back one by one are put together by the lemmas on the readers
(`readFeature_eq_ok_iff` and those around it). -/

/-- The end of a directive, with its body if it has one. -/
def endText : Option Text → Text
  | none => [';']
  | some body => '%' :: '{' :: ' ' :: (body ++ [' ', '%', '}'])

/-- A `%feature` directive as it is written. -/
def directiveText (feature value : Text) (attributes : List (Text × Text)) (pattern : Text)
    (body : Option Text) : Text :=
  "%feature(".toList ++ (argumentsText feature value attributes
    ++ (") ".toList ++ (pattern ++ endText body)))

/-- A text that can stand as the body of a directive. -/
structure IsBody (body : Text) : Prop where
  trimmed : Text.trim body = body
  noEnd : ¬ ['%', '}'] <:+: body

/-- The pattern and the body of a directive are found again. -/
theorem cutTarget_endText {pattern : Text} {body : Option Text} (hbalanced : pattern.Balanced)
    (hplain : ∀ c ∈ pattern, isPlain c = true) (hbody : ∀ b ∈ body, IsBody b) :
    cutTarget (' ' :: (pattern ++ endText body)) = .ok (⟨' ' :: pattern, body⟩, []) := by
  have hpattern : ∀ (e : Ending) (r : Text),
      cutPattern 0 (' ' :: pattern ++ (e.mark ++ r)) = some (' ' :: pattern, e, r) := by
    refine cutPattern_of_isPlain ?_ hbalanced.depthAfter_eq_zero
    exact List.forall_mem_cons.2 ⟨by decide, hplain⟩
  rw [cutTarget_eq_ok_iff]
  cases body with
  | none => exact ⟨.stop, [], hpattern .stop [], rfl⟩
  | some b =>
    obtain ⟨htrim, hend⟩ := hbody b rfl
    refine ⟨.verbatim, ' ' :: (b ++ [' ', '%', '}']), hpattern .verbatim _, ?_⟩
    have hend' : ¬ ['%', '}'] <:+: ' ' :: b := by
      rw [List.infix_cons_iff, not_or]
      exact ⟨by simp, hend⟩
    refine cutBody_eq_ok_iff.2
      (.inr ⟨' ' :: b ++ [' '], breakOn_of_not_infix hend' [], ?_⟩)
    rw [Text.trim_append_of_isBlank (by decide), Text.trim_cons_of_isBlank (by decide), htrim]

/-- **Reading gives back what was written.** -/
theorem parse_directiveText {feature pattern : Text} {attributes : List (Text × Text)}
    {body : Option Text} {d : Dictionary Text} {p : Pattern} (hfeature : feature ≠ [])
    (hattributes : attributes.Perm d.entries) (hkeys : ∀ key ∈ d.keys, isKey key = true)
    (hbalanced : pattern.Balanced) (hplain : ∀ c ∈ pattern, isPlain c = true)
    (hpattern : Pattern.parse pattern = .ok p) (hbody : ∀ b ∈ body, IsBody b) (value : Text) :
    parse (directiveText feature value attributes pattern body)
      = .ok [.directive ⟨feature, p, .ofToken value, body.map Template.ofText, d, 0⟩] := by
  have hes : ∀ e ∈ attributes, isKey e.1 = true :=
    fun e he => hkeys e.1 (List.mem_map_of_mem (hattributes.mem_iff.1 he))
  have hargs : cutArguments ('(' :: (argumentsText feature value attributes
        ++ ')' :: ' ' :: (pattern ++ endText body)))
      = .ok (argumentsText feature value attributes, ' ' :: (pattern ++ endText body)) :=
    cutArguments_eq_ok_iff.2
      ⟨_, rfl, closeArguments_intercalate (isArgument_of_mem hes feature value) _⟩
  have hentry : entryOf ⟨feature, some value, d⟩ ⟨' ' :: pattern, body⟩
      = .ok ⟨feature, p, .ofToken value, body.map Template.ofText, d, 0⟩ := by
    have hparse : Pattern.parse (' ' :: pattern) = .ok p := by
      rw [← hpattern, Pattern.parse, Text.trim_cons_of_isBlank (by decide)]
      rfl
    rw [entryOf, hparse]
    rfl
  -- the order in which the attributes were written is lost in the dictionary
  have hread := readArguments_argumentsText hfeature hes value
  rw [Dictionary.ofList_of_perm hattributes] at hread
  have hname : Text.cutIdentifier ("feature".toList
        ++ '(' :: (argumentsText feature value attributes
          ++ ')' :: ' ' :: (pattern ++ endText body)))
      = some ("feature".toList, '(' :: (argumentsText feature value attributes
        ++ ')' :: ' ' :: (pattern ++ endText body))) := rfl
  have hitem := readItem_eq_ok_iff.2 (.inl ⟨_, _, rfl, readDirective_eq_ok_iff.2
    ⟨"feature".toList, _, hname, .inl ⟨rfl, readFeature_eq_ok_iff.2
      ⟨_, _, _, _, hargs, hread, cutTarget_endText hbalanced hplain hbody, hentry⟩⟩⟩, rfl⟩)
  have htext : directiveText feature value attributes pattern body
      = '%' :: ("feature".toList ++ '(' :: (argumentsText feature value attributes
        ++ ')' :: ' ' :: (pattern ++ endText body))) := rfl
  rw [parse, htext, readFrom_of_item rfl hitem, readFrom_of_end rfl]
  rfl

/-! A directive whose texts hold quotes, commas, parentheses, a backslash, a line break and
characters of more than one byte, with its attributes not in the order of their keys. -/

/-- A feature with everything in its name that has a meaning in a directive. -/
def quotedFeature : Text := "say \"hü\", (\\\n".toList

def quotedAttributes : List (Text × Text) :=
  [("lang:x".toList, "\"),".toList), ("_k".toList, [])]

def quotedDictionary : Dictionary Text :=
  ⟨[("_k".toList, []), ("lang:x".toList, "\"),".toList)], by decide⟩

def quotedPattern : Text := "A::f() const".toList

/-- A body that has the marks of its end in it, with a blank between them. -/
def quotedBody : Text := ['a', ';', ' ', '%', ' ', '}']

theorem parse_quotedPattern :
    Pattern.parse quotedPattern
      = .ok (.named (.exact ⟨[['A']]⟩) ['f'] (some ⟨.empty, true⟩)) := by
  decide +kernel

theorem balanced_quotedPattern : quotedPattern.Balanced := by
  have htake : ∀ n ≤ quotedPattern.length,
      (quotedPattern.take n).count ')' ≤ (quotedPattern.take n).count '(' := by
    decide
  refine ⟨?_, by decide⟩
  intro p hp
  rw [List.prefix_iff_eq_take.1 hp]
  exact htake p.length hp.length_le

theorem isBody_quotedBody : IsBody quotedBody :=
  ⟨by decide, by simp [quotedBody, List.infix_cons_iff]⟩

theorem parse_directiveText_quoted :
    let text := directiveText quotedFeature "0)".toList quotedAttributes quotedPattern
      (some quotedBody)
    text = "%feature(\"say \\\"hü\\\", (\\\\\\n\", \"0)\", lang:x=\"\\\"),\", _k=\"\") ".toList
        ++ "A::f() const%\x7b a; % \x7d %\x7d".toList
      ∧ parse text = .ok [.directive ⟨quotedFeature,
          .named (.exact ⟨[['A']]⟩) ['f'] (some ⟨.empty, true⟩), .enabled "0)".toList,
          some (.ofText quotedBody), quotedDictionary, 0⟩] := by
  have hplain : quotedPattern.all isPlain = true := by decide
  refine ⟨by decide, ?_⟩
  exact parse_directiveText (by decide) (.swap _ _ _) (by decide) balanced_quotedPattern
    (List.all_eq_true.1 hplain) parse_quotedPattern
    (fun b hb => Option.some.inj hb ▸ isBody_quotedBody) _

end Script

end Overlay
