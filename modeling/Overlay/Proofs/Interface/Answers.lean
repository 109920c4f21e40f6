/-
What an interface answers.

There are two ways to ask for a feature on a variant: with facts, and without, where the facts
are those of the variant. And there are two places where the facts may not be looked at: a
resolver asks for none where the body has no placeholder, and such a template is not expanded.
All that is told once by what a winner comes to with given facts (`outcome`), where every body
of an enabled entry is filled in. Resolving is that, whichever way it was asked
(`resolveBy_eq`); the rest is read off the winner.

In the table of an interface no entry clears. So a winner that does not enable its feature
disables it.
-/
import Overlay.Proofs.Feature.Precedence
import Overlay.Proofs.Interface.Emission
import Overlay.Proofs.Template.Expansion

set_option autoImplicit false

namespace Overlay

/-! ## What a winner comes to

The facts are an argument here, and the winner may be missing. Both ways of asking then differ in
what they pass, and what a body without placeholders is expanded to need not be told apart from the
rest: it is the same whether one expands it or leaves it alone. -/

/-- What the winner of a query comes to with these facts, if there is a winner: with its body
filled in if it is enabled, and as it was written otherwise. -/
def Resolution.outcome (facts : FactSheet) : Option Feature.Entry → Resolution
  | none => ⟨false, none, .empty⟩
  | some e =>
    match e.value with
    | .enabled _ => ⟨true, e.body.map fun body => Template.substitute body.text facts, e.attributes⟩
    | .disabled | .cleared => ⟨false, e.body.map Template.text, e.attributes⟩

namespace Resolution

variable {facts : FactSheet} {e : Feature.Entry}

/-- The facts go into the text of the body alone. -/
theorem outcome_congr (facts facts' : FactSheet) (winner : Option Feature.Entry) :
    (outcome facts winner).active = (outcome facts' winner).active
      ∧ (outcome facts winner).attributes = (outcome facts' winner).attributes
      ∧ (outcome facts winner).body.isSome = (outcome facts' winner).body.isSome := by
  cases winner with
  | none => exact ⟨rfl, rfl, rfl⟩
  | some e =>
    rw [outcome, outcome]
    cases e.value with
    | enabled token => exact ⟨rfl, rfl, by rw [Option.isSome_map, Option.isSome_map]⟩
    | disabled => exact ⟨rfl, rfl, rfl⟩
    | cleared => exact ⟨rfl, rfl, rfl⟩

/-- An enabled winner makes the feature active, with its body filled in. -/
theorem outcome_of_enabled {token : Text} (h : e.value = .enabled token) :
    outcome facts (some e)
      = ⟨true, e.body.map fun body => Template.substitute body.text facts, e.attributes⟩ := by
  rw [outcome, h]

/-- A disabled one does not, and its body stays as it was written. -/
theorem outcome_of_disabled (h : e.value = .disabled) :
    outcome facts (some e) = ⟨false, e.body.map Template.text, e.attributes⟩ := by
  rw [outcome, h]

end Resolution

namespace Resolver

variable (r : Resolver) (v : Variant) (feature : Text)

/-- A body comes to the same whether it is expanded or passed by. -/
theorem enabledBody_eq (supplied : Option FactSheet) (body : Template) :
    r.enabledBody v supplied body
      = Template.substitute body.text (supplied.getD (r.facts v)) := by
  unfold enabledBody
  split
  · rename_i hnone
    rw [body.scanned] at hnone
    exact (Template.substitute_of_scan_eq_nil hnone _).symm
  · cases supplied with
    | none => exact body.expand_eq_substitute _
    | some facts => exact body.expand_eq_substitute facts

/-- Both ways of asking come to the outcome of the winner. -/
theorem resolveBy_eq (supplied : Option FactSheet) (winner : Option Feature.Entry) :
    r.resolveBy v supplied winner
      = Resolution.outcome (supplied.getD (r.facts v)) winner := by
  cases winner with
  | none => rfl
  | some e =>
    have hbody : r.enabledBody v supplied
        = fun body => Template.substitute body.text (supplied.getD (r.facts v)) :=
      funext fun body => r.enabledBody_eq v supplied body
    rw [resolveBy, Resolution.outcome, hbody]
    cases e.value <;> rfl

/-- Asking without facts is asking with those of the variant, -/
theorem resolve_eq :
    r.resolve v feature = Resolution.outcome (r.facts v) (r.matched v feature) :=
  r.resolveBy_eq v none _

/-- and asking with facts is asking with these. -/
theorem resolveWithFacts_eq (facts : FactSheet) :
    r.resolveWithFacts v feature facts = Resolution.outcome facts (r.matched v feature) :=
  r.resolveBy_eq v (some facts) _

end Resolver

/-! ## The winner

Which entry wins is known from the table, and that none of the table clears from how it was made. -/

namespace Interface

/-- The table of an interface is that of a run. -/
theorem table_of_calls (calls : List InterfaceDraft.Call) (o : Options) :
    ((InterfaceDraft.empty.callAll calls).finish o).table
      = (Feature.Draft.empty.run (operations (calls.map InterfaceDraft.Call.item))).freeze := by
  rw [InterfaceDraft.callAll_eq, pushAll_eq]
  rfl

/-- Whatever the calls, the entry that wins stands strictly above all others, and does not
clear. -/
theorem matched_of_calls {calls : List InterfaceDraft.Call} {o : Options} {v : Variant}
    {feature : Text} {e : Feature.Entry}
    (h : ((InterfaceDraft.empty.callAll calls).finish o).table.Wins e feature v
      ((InterfaceDraft.empty.callAll calls).finish o).scopes) :
    ((InterfaceDraft.empty.callAll calls).finish o).resolver.matched v feature = some e
      ∧ e.value ≠ .cleared := by
  have hentries : ((InterfaceDraft.empty.callAll calls).finish o).table.entries
      = Feature.lasting 0 (operations (calls.map InterfaceDraft.Call.item)) := by
    rw [table_of_calls, ← Feature.Draft.entries_run_empty]
    rfl
  constructor
  · refine (Feature.Table.bestMatch_eq_some_iff ?_).2 h
    exact hentries ▸ Feature.lasting_ascending 0 _
  · have hmem := h.1
    rw [hentries] at hmem
    obtain ⟨i, f, -, hvalue, -, rfl⟩ := Feature.mem_lasting.1 hmem
    exact hvalue

/-- **What an interface answers.** Asking without facts is asking with those of the variant. All
facts get the same flag and attributes, and all or none of them a body. Where no entry is
eligible the feature is inactive, and there is neither a body nor an attribute. Where the
winner disables the feature, it is inactive and the body is what was written, and where it
enables it the body has all its placeholders filled in with the facts; and there is no third
kind of winner. -/
theorem resolve_of_calls (calls : List InterfaceDraft.Call) (o : Options) (v : Variant)
    (feature : Text) :
    let i := (InterfaceDraft.empty.callAll calls).finish o
    let answer := i.resolver.resolveWithFacts v feature
    i.resolve v feature = answer (i.resolver.facts v)
      ∧ (∀ facts facts', (answer facts).active = (answer facts').active
        ∧ (answer facts).attributes = (answer facts').attributes
        ∧ (answer facts).body.isSome = (answer facts').body.isSome)
      ∧ ((∀ e ∈ i.table.entries, ∀ depth, ¬ e.Eligible feature v i.scopes depth) →
        ∀ facts, answer facts = ⟨false, none, .empty⟩)
      ∧ ∀ e, i.table.Wins e feature v i.scopes →
        (e.value = .disabled
          ∧ ∀ facts, answer facts = ⟨false, e.body.map Template.text, e.attributes⟩)
        ∨ ∃ token, e.value = .enabled token
          ∧ ∀ facts, answer facts
            = ⟨true, e.body.map fun body => Template.substitute body.text facts, e.attributes⟩ := by
  intro i answer
  have hanswer : ∀ facts, answer facts
      = Resolution.outcome facts (i.resolver.matched v feature) :=
    i.resolver.resolveWithFacts_eq v feature
  refine ⟨?_, ?_, ?_, ?_⟩
  · rw [hanswer]
    exact i.resolver.resolve_eq v feature
  · intro facts facts'
    rw [hanswer, hanswer]
    exact Resolution.outcome_congr facts facts' _
  · intro hnone facts
    have hmatched : i.resolver.matched v feature = none :=
      Feature.Table.bestMatch_eq_none_iff.2 hnone
    rw [hanswer, hmatched]
    rfl
  · -- an entry that clears a feature is never left in a table that calls have built
    intro e hwins
    obtain ⟨hmatched, hclear⟩ := matched_of_calls hwins
    cases hvalue : e.value with
    | cleared => exact absurd hvalue hclear
    | disabled =>
      refine .inl ⟨rfl, fun facts => ?_⟩
      rw [hanswer, hmatched, Resolution.outcome_of_disabled hvalue]
    | enabled token =>
      refine .inr ⟨token, rfl, fun facts => ?_⟩
      rw [hanswer, hmatched, Resolution.outcome_of_enabled hvalue]

/-- A rule for `f` disables a feature, and one for `g` enables it; both have a token in the body,
and only that of `g` is filled in. -/
theorem resolve_of_calls_wrapper :
    let body : Template := .ofText "($wrapname)".toList
    let rule (leaf : Char) (value : Feature.Value) : Feature.Entry :=
      ⟨"except".toList, .ofName [leaf], value, some body, .empty, 0⟩
    let i := (InterfaceDraft.empty.callAll
      [.define (rule 'f' .disabled), .define (rule 'g' (.enabled ['1']))]).finish .standard
    let v (leaf : Char) : Variant := .full (.named .function ⟨.global, [leaf]⟩)
    let answer (leaf : Char) := i.resolver.resolveWithFacts (v leaf) "except".toList
    (∀ facts, answer 'f' facts = ⟨false, some "($wrapname)".toList, .empty⟩)
      ∧ answer 'g' (i.resolver.facts (v 'g')) = ⟨true, some "(_wrap_g)".toList, .empty⟩
      ∧ ∀ facts, answer 'h' facts = ⟨false, none, .empty⟩ := by
  intro body rule i v answer
  have hplaces : i.table.entries.Pairwise fun e f => e.sequence < f.sequence := by decide
  have hf : i.table.Wins (rule 'f' .disabled) "except".toList (v 'f') i.scopes :=
    (Feature.Table.bestMatch_eq_some_iff hplaces).1 (by decide +kernel)
  have hg : i.table.Wins { rule 'g' (.enabled ['1']) with sequence := 1 } "except".toList (v 'g')
      i.scopes := (Feature.Table.bestMatch_eq_some_iff hplaces).1 (by decide +kernel)
  have hh : ∀ e ∈ i.table.entries, ∀ depth,
      ¬ e.Eligible "except".toList (v 'h') i.scopes depth :=
    Feature.Table.bestMatch_eq_none_iff.1 (by decide)
  refine ⟨?_, ?_, (resolve_of_calls _ _ (v 'h') _).2.2.1 hh⟩
  · rcases (resolve_of_calls _ _ (v 'f') _).2.2.2 _ hf with ⟨-, hanswer⟩ | ⟨token, hvalue, -⟩
    · exact hanswer
    · exact nomatch hvalue
  · rcases (resolve_of_calls _ _ (v 'g') _).2.2.2 _ hg with ⟨hvalue, -⟩ | ⟨token, -, hanswer⟩
    · exact nomatch hvalue
    · have hbody : Template.substitute body.text (i.resolver.facts (v 'g'))
          = "(_wrap_g)".toList := by decide +kernel
      rw [← hbody]
      exact hanswer _

end Interface

end Overlay
