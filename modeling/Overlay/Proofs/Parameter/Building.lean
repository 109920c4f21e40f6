/-
Building parameter lists.

A list of parameters promises two things, that no type is empty and that parameters with a default
stand last. It is built one parameter after the other, and each step may refuse its parameter. Two
kinds of builders go through these steps, those of declarations and those of signatures.

What both need to know is said once, by `Takes`: the parameters can be added one by one. Then every
builder succeeds on them (`Declaration.exists_withParameters`, `Signature.exists_ofParameters`), and
what it has built are these parameters (`Declaration.eq_of_withParameters`,
`Signature.eq_of_ofParameters`).

There are two sources of such parameters. A list that keeps its promises can be built again from its
items (`takes_items`). And the reader of a list has checked the same things on its way: it gives up
where a default is missing, and it refuses a piece without tokens, so what it has read can be added
to a builder (`Parameter.takes_of_readList`).
-/
import Overlay.Declaration
import Overlay.Pattern
import Overlay.Proofs.CType.Tokens
import Overlay.Proofs.Chain

set_option autoImplicit false

namespace Overlay

/-! ## What can be added -/

namespace ParameterList

/-- The parameters can be added one after the other. -/
inductive Takes : ParameterList → List Parameter → Prop
  | nil (ps : ParameterList) : Takes ps []
  | cons {ps qs : ParameterList} {p : Parameter} {more : List Parameter} :
    ps.push p = .ok qs → Takes qs more → Takes ps (p :: more)

/-- One can be added if it has a type, and a default where the one before it has one. -/
theorem exists_push {ps : ParameterList} {p : Parameter} (ht : p.type.isEmpty = false)
    (hd : ¬ (p.default.isNone = true ∧ endsInDefault ps.items = true)) :
    ∃ qs, ps.push p = .ok qs := by
  rw [push, dif_neg (by simp [ht]), dif_neg hd]
  exact ⟨_, rfl⟩

/-- A list is its items: what it promises is a matter of proof. -/
theorem ext_items {ps qs : ParameterList} (h : ps.items = qs.items) : ps = qs := by
  cases ps
  cases qs
  cases h
  rfl

/-- The parameters that a longer list goes on with can be added one by one. -/
theorem takes_of_items_eq {ps qs : ParameterList} {more : List Parameter}
    (h : qs.items = ps.items ++ more) : Takes ps more := by
  induction more generalizing ps with
  | nil => exact .nil ps
  | cons p more ih =>
    have htyped : p.type.isEmpty = false := qs.typed p (by simp [h])
    have hallowed : ¬ (p.default.isNone = true ∧ endsInDefault ps.items = true) := by
      rintro ⟨hnone, hend⟩
      have htrailing := qs.trailing
      rw [h, List.pairwise_append] at htrailing
      cases hlast : ps.items.getLast? with
      | none => simp [endsInDefault, hlast] at hend
      | some q =>
        have hdefault : q.default.isSome = true := by simpa [endsInDefault, hlast] using hend
        have hsome := htrailing.2.2 q (List.mem_of_getLast? hlast) p List.mem_cons_self hdefault
        rw [Option.isNone_iff_eq_none] at hnone
        simp [hnone] at hsome
    obtain ⟨rs, hpush⟩ := exists_push htyped hallowed
    have hitems := items_of_push hpush
    exact .cons hpush (ih (by rw [h, hitems, List.append_assoc]; rfl))

/-- So a list can be built from its items. -/
theorem takes_items (ps : ParameterList) : Takes .empty ps.items := takes_of_items_eq rfl

end ParameterList

open ParameterList (Takes)

/-! ## What was read can be added -/

/-- Without its name a parameter still has a type. -/
theorem Parameter.isEmpty_of_parse {t : Text} {p : Parameter} (h : parse t = some p) :
    p.type.isEmpty = false := by
  -- what is left are some of the tokens, and none of these is empty
  have key : ∀ ts, stripName (CType.tokenize ts) ≠ [] →
      (CType.ofTokens (stripName (CType.tokenize ts))).isEmpty = false := by
    intro ts hne
    refine CType.isEmpty_ofTokens hne ?_
    intro token htoken
    refine CType.text_ne_nil_of_mem_tokenize (t := ts) ?_
    rw [stripName] at htoken
    split at htoken
    · exact (List.dropLast_sublist _).subset htoken
    · exact htoken
  rw [parse] at h
  by_cases hnil : stripName (CType.tokenize (splitDefault t).1) = []
  · rw [if_pos hnil] at h
    simp at h
  · rw [if_neg hnil] at h
    cases hdefault : (splitDefault t).2 with
    | none =>
      rw [hdefault] at h
      obtain rfl := Option.some.inj h
      exact key _ hnil
    | some expr =>
      rw [hdefault] at h
      simp only at h
      by_cases hblank : expr.all Text.isBlank = true
      · rw [if_pos hblank] at h
        simp at h
      · rw [if_neg hblank] at h
        obtain rfl := Option.some.inj h
        exact key _ hnil

/-- The reader of the pieces keeps in mind whether the last parameter had a default, and that is
what the list asks for at the next one. -/
theorem Parameter.takes_of_readPieces {list : Text} {pieces : List Text} {ps : ParameterList}
    {params : List Parameter}
    (h : readPieces list (ParameterList.endsInDefault ps.items) pieces = .ok params) :
    Takes ps params := by
  induction pieces generalizing ps params with
  | nil =>
    obtain rfl := Except.ok.inj h
    exact .nil ps
  | cons piece pieces ih =>
    rw [readPieces] at h
    cases hparse : parse piece with
    | none => simp [hparse] at h
    | some p =>
      simp only [hparse] at h
      by_cases hmissing : (p.default.isNone && ParameterList.endsInDefault ps.items) = true
      · rw [if_pos hmissing] at h
        simp at h
      · rw [if_neg hmissing] at h
        have hallowed : ¬ (p.default.isNone = true
            ∧ ParameterList.endsInDefault ps.items = true) := by simpa using hmissing
        obtain ⟨qs, hpush⟩ := ParameterList.exists_push (isEmpty_of_parse hparse) hallowed
        -- what the reader keeps in mind is whether the last parameter so far has a default
        have hlast : ParameterList.endsInDefault qs.items = p.default.isSome := by
          rw [ParameterList.items_of_push hpush, ParameterList.endsInDefault,
            List.getLast?_concat]
          rfl
        obtain ⟨more, hmore, rfl⟩ := map_eq_ok_iff.1 h
        exact .cons hpush (ih (hlast ▸ hmore))

/-- So what was read of a list can be added to an empty one. -/
theorem Parameter.takes_of_readList {t : Text} {params : List Parameter}
    (h : readList t = .ok params) : Takes .empty params := by
  rw [readList] at h
  split at h
  · obtain rfl := Except.ok.inj h
    exact .nil _
  · exact takes_of_readPieces h

/-! ## Builders

Each builder is a loop of steps that may refuse, and the two loops take the same steps. So the loop
of signatures is followed, once to see that it goes through and once for what it has built, and that
of declarations is traced back to it (`Declaration.withParameters_eq_ok_iff`). -/

/-- A list goes on with what it takes. The index is only for the text of a fault. -/
theorem Signature.exists_pushAll {ps : ParameterList} {params : List Parameter}
    (h : Takes ps params) (index : Nat) : ∃ qs, pushAll ps index params = .ok qs := by
  induction params generalizing ps index with
  | nil => exact ⟨ps, rfl⟩
  | cons p params ih =>
    cases h with
    | cons hpush htakes =>
      rw [pushAll, hpush]
      exact ih htakes (index + 1)

/-- What was added stands behind what was there. -/
theorem Signature.items_of_pushAll {ps qs : ParameterList} {index : Nat} {more : List Parameter}
    (h : pushAll ps index more = .ok qs) : qs.items = ps.items ++ more := by
  induction more generalizing ps index with
  | nil =>
    obtain rfl := Except.ok.inj h
    exact (List.append_nil _).symm
  | cons p more ih =>
    rw [pushAll] at h
    cases hpush : ps.push p with
    | error fault => simp [hpush] at h
    | ok rs =>
      rw [hpush] at h
      rw [ih h, ParameterList.items_of_push hpush, List.append_assoc]
      rfl

/-- A declaration adds parameters as a signature does. The two differ in the text of a fault. -/
theorem Declaration.withParameters_eq_ok_iff {d d' : Declaration} {more : List Parameter}
    (index : Nat) :
    d.withParameters more = .ok d'
      ↔ ∃ qs, Signature.pushAll d.params index more = .ok qs ∧ d' = { d with params := qs } := by
  induction more generalizing d index with
  | nil => simp [withParameters, Signature.pushAll, eq_comm]
  | cons p more ih =>
    rw [withParameters, withParameter, Signature.pushAll]
    cases d.params.push p with
    | error fault => simp
    | ok ps => exact ih (index + 1)

/-- So it takes what its list takes, -/
theorem Declaration.exists_withParameters {d : Declaration} {params : List Parameter}
    (h : Takes d.params params) : ∃ d', d.withParameters params = .ok d' := by
  obtain ⟨qs, hqs⟩ := Signature.exists_pushAll h 0
  exact ⟨_, (withParameters_eq_ok_iff 0).2 ⟨qs, hqs, rfl⟩⟩

/-- and nothing changes but the parameters. -/
theorem Declaration.eq_of_withParameters {d d' : Declaration} {more : List Parameter}
    (h : d.withParameters more = .ok d') :
    d'.params.items = d.params.items ++ more ∧ d' = { d with params := d'.params } := by
  obtain ⟨qs, hqs, rfl⟩ := (withParameters_eq_ok_iff 0).1 h
  exact ⟨Signature.items_of_pushAll hqs, rfl⟩

/-- A declaration without parameters can be given any list. -/
theorem Declaration.withParameters_items {d : Declaration} (hempty : d.params = .empty)
    (ps : ParameterList) : d.withParameters ps.items = .ok { d with params := ps } := by
  have htakes : Takes d.params ps.items := hempty ▸ ps.takes_items
  obtain ⟨d', hd'⟩ := exists_withParameters htakes
  obtain ⟨hitems, hshape⟩ := eq_of_withParameters hd'
  have hps : d'.params = ps := by
    apply ParameterList.ext_items
    rw [hitems, hempty]
    rfl
  rw [hd', hshape, hps]

/-- A signature can be made of any parameters that can be added one by one, -/
theorem Signature.exists_ofParameters {params : List Parameter} (h : Takes .empty params)
    (isConst : Bool) : ∃ s, ofParameters params isConst = .ok s := by
  obtain ⟨qs, hqs⟩ := exists_pushAll h 0
  exact ⟨⟨qs, isConst⟩, by rw [ofParameters, hqs]; rfl⟩

/-- and it holds these parameters and no others. -/
theorem Signature.eq_of_ofParameters {more : List Parameter} {isConst : Bool} {s : Signature}
    (h : ofParameters more isConst = .ok s) : s.params.items = more ∧ s.isConst = isConst := by
  obtain ⟨qs, hqs, rfl⟩ := map_eq_ok_iff.1 h
  exact ⟨items_of_pushAll hqs, rfl⟩

/-- The signature of a list is that list. -/
theorem Signature.ofParameters_items (ps : ParameterList) (isConst : Bool) :
    ofParameters ps.items isConst = .ok ⟨ps, isConst⟩ := by
  obtain ⟨qs, hqs⟩ := exists_pushAll ps.takes_items 0
  have hps : qs = ps := ParameterList.ext_items (items_of_pushAll hqs)
  rw [ofParameters, hqs, hps]
  rfl

end Overlay
