/-
What an interface emits.

An interface is put together by calls: of scopes and their names, of declarations and directives
one by one, and of the items of a script. Every call does what some item does (`Call.item`), so
all that is known of items holds of calls.

The variants come declaration by declaration. A declaration that is kept to its full form has one,
and any other has one for each arity from the whole list down to the parameters without a
default. That these stand first, and the others behind them, is promised by the parameter list:
it makes the parameters that a variant drops be defaulted ones.

Declarations and directives take their places from one sequence. So the positions of the
declarations ascend, and no directive has one of them for its own place, be it that the
directive has an entry in the table or that it was replaced, cleared, or a clear itself.
-/
import Overlay.Proofs.Interface.Stream
import Overlay.Proofs.Variant.Numbering

set_option autoImplicit false

namespace Overlay

open Feature (Operation Entry)
open Script (Item)

/-! ## Calls

The one call that is no item is that which renames a scope. An item that does so also declares the
scope, which it then has no need of, as renaming has given it a node. -/

namespace ScopeGraph

/-- A scope that has a node is introduced by declaring it without bases, and nothing more. -/
theorem declareScope_renameScope (g : ScopeGraph) (s : ScopePath) (target : Text) :
    (g.renameScope s target).declareScope s [] = g.renameScope s target := by
  have hnode : (g.renameScope s target).node s = (g.node s).rename target := by
    rw [renameScope, node_update, if_pos rfl]
  show ScopeGraph.mk ((g.nodes.insert s _).insert s ((g.renameScope s target).node s)) = _
  rw [hnode, Registry.insert_insert]
  rfl

end ScopeGraph

namespace InterfaceDraft

/-- A call on the draft of an interface. -/
inductive Call where
  | declareScope (path : ScopePath) (bases : List ScopePath)
  | renameScope (path : ScopePath) (target : Text)
  | declare (decl : Declaration)
  | define (entry : Entry)
  | push (item : Item)

def call (d : InterfaceDraft) : Call → InterfaceDraft
  | .declareScope path bases => d.declareScope path bases
  | .renameScope path target => d.renameScope path target
  | .declare decl => d.declare decl
  | .define entry => d.define entry
  | .push item => d.push item

def callAll (d : InterfaceDraft) (calls : List Call) : InterfaceDraft := calls.foldl call d

/-- The item that does what the call does. -/
def Call.item : Call → Item
  | declareScope path bases => .scope path bases none
  | renameScope path target => .scope path [] (some target)
  | declare decl => .declaration decl
  | define entry => .directive entry
  | push item => item

/-- A call does what its item does, -/
theorem push_item (d : InterfaceDraft) (c : Call) : d.push c.item = d.call c := by
  cases c with
  | renameScope path target =>
    show InterfaceDraft.mk _ ((d.scopes.renameScope path target).declareScope path []) _ = _
    rw [ScopeGraph.declareScope_renameScope]
    rfl
  | declareScope path bases => rfl
  | declare decl => rfl
  | define entry => rfl
  | push item => rfl

/-- and so calls can be taken for items, as far as the draft goes. -/
theorem callAll_eq (d : InterfaceDraft) (calls : List Call) :
    d.callAll calls = d.pushAll (calls.map Call.item) := by
  rw [pushAll, List.foldl_map]
  simp only [push_item]
  rfl

end InterfaceDraft

/-! ## Arities

The library counts the arities up and reverses them, from the number of parameters in front of the
first default. Here they are the numbers up to the whole list that leave no parameter out which has
no default. Both say the same because the parameters with a default stand last. -/

namespace ParameterList

/-- From the first default on, all parameters have one. -/
theorem isSome_default_of_mem_dropWhile {ps : List Parameter}
    (htrailing : ps.Pairwise fun p q => p.default.isSome = true → q.default.isSome = true) :
    ∀ p ∈ ps.dropWhile fun p => p.default.isNone, p.default.isSome = true := by
  induction ps with
  | nil => simp
  | cons q ps ih =>
    obtain ⟨hq, hps⟩ := List.pairwise_cons.1 htrailing
    rw [List.dropWhile_cons]
    split
    · exact ih hps
    · rename_i hdefault
      have hsome : q.default.isSome = true := by simpa [Option.isSome_iff_ne_none] using hdefault
      exact List.forall_mem_cons.2 ⟨hsome, fun p hp => hq p hp hsome⟩

/-- The parameters without a default are those in front of the first one that has one. -/
theorem required_eq_countP (ps : ParameterList) :
    ps.required = ps.items.countP fun p => p.default.isNone := by
  have hfront : (ps.items.takeWhile fun p => p.default.isNone).countP (fun p => p.default.isNone)
      = ps.required := by
    refine List.countP_eq_length.2 ?_
    exact List.all_eq_true.1 List.all_takeWhile
  have hback : (ps.items.dropWhile fun p => p.default.isNone).countP (fun p => p.default.isNone)
      = 0 := by
    refine List.countP_eq_zero.2 fun p hp => ?_
    simpa [Option.isSome_iff_ne_none] using isSome_default_of_mem_dropWhile ps.trailing p hp
  rw [← List.takeWhile_append_dropWhile (p := fun p : Parameter => p.default.isNone)
    (l := ps.items), List.countP_append, hfront, hback, Nat.add_zero]

/-- Behind the required parameters all have a default. -/
theorem isSome_default_of_mem_drop {ps : ParameterList} {p : Parameter} {n : Nat}
    (hn : ps.required ≤ n) (hp : p ∈ ps.items.drop n) : p.default.isSome = true := by
  have hdrop : ps.items.drop ps.required = ps.items.dropWhile fun p => p.default.isNone := by
    conv_lhs => rw [← List.takeWhile_append_dropWhile (p := fun p : Parameter => p.default.isNone)
      (l := ps.items)]
    exact List.drop_left
  have hbehind : p ∈ ps.items.drop ps.required := List.drop_subset_drop_left _ hn hp
  rw [hdrop] at hbehind
  exact isSome_default_of_mem_dropWhile ps.trailing p hbehind

end ParameterList

/-- The number of parameters that have to be given. -/
def Declaration.undefaulted (d : Declaration) : Nat :=
  d.params.items.countP fun p => p.default.isNone

namespace Interface

variable {d : InterfaceDraft} {decl : Declaration} {o : Options}

/-- The declaration is kept to its full form: by the options, since it has no defaults, or by
the directive that wins on its full form. -/
def keepsFull (i : Interface) (d : Declaration) : Bool :=
  i.options.compactDefaults || d.params.items.all (fun p => p.default.isNone)
    || (i.resolver.matched (.full d) compactFeature).any fun e => e.value.isActive

/-- The arities of a declaration, from the whole list down. -/
def arities (i : Interface) (d : Declaration) : List Nat :=
  if i.keepsFull d then [d.arity]
  else (List.range (d.arity + 1)).reverse.filter fun n => d.undefaulted ≤ n

/-- Counting from a number on is counting all and leaving out those below it. -/
theorem range'_eq_filter {m n : Nat} (h : m ≤ n) :
    List.range' m (n - m) = (List.range n).filter fun k => m ≤ k := by
  have hsplit : List.range n = List.range' 0 m ++ List.range' m (n - m) := by
    have happ := List.range'_append_1 (s := 0) (m := m) (n := n - m)
    rw [Nat.zero_add] at happ
    rw [happ, Nat.add_sub_cancel' h, List.range_eq_range']
  have hbelow : (List.range' 0 m).filter (fun k => m ≤ k) = [] := by
    refine List.filter_eq_nil_iff.2 fun k hk => ?_
    rw [List.mem_range'_1] at hk
    simp only [decide_eq_true_eq]
    omega
  have habove : (List.range' m (n - m)).filter (fun k => m ≤ k) = List.range' m (n - m) := by
    refine List.filter_eq_self.2 fun k hk => ?_
    exact decide_eq_true (List.mem_range'_1.1 hk).1
  rw [hsplit, List.filter_append, hbelow, habove, List.nil_append]

/-- The arities that are emitted are those of the finished interface, in its own terms. -/
theorem arities_eq (d : InterfaceDraft) (o : Options) (decl : Declaration) :
    decl.arities (InterfaceDraft.modeOf d.table.freeze d.scopes o decl)
      = (d.finish o).arities decl := by
  have hkeeps : InterfaceDraft.modeOf d.table.freeze d.scopes o decl = .compact
        ∨ decl.params.hasDefaults = false
      ↔ (d.finish o).keepsFull decl = true := by
    have hdefaults : decl.params.hasDefaults = false
        ↔ (decl.params.items.all fun p => p.default.isNone) = true := by
      simp [ParameterList.hasDefaults]
    rw [hdefaults, keepsFull, InterfaceDraft.modeOf, InterfaceDraft.compactRequested]
    show _ ↔ (o.compactDefaults || _ || (d.table.freeze.bestMatch _ _ _).any _) = true
    simp only [Bool.or_eq_true, ite_eq_left_iff, reduceCtorEq, imp_false, not_not]
    tauto
  rw [Declaration.arities, arities, if_congr hkeeps rfl rfl]
  split
  · rfl
  · have hle : decl.params.required ≤ decl.arity := decl.params.required_le
    rw [range'_eq_filter (by omega), ← List.filter_reverse, Declaration.undefaulted,
      ParameterList.required_eq_countP]

/-- **The variants, declaration by declaration.** -/
theorem map_variants (d : InterfaceDraft) (o : Options) :
    ((d.finish o).variants.map fun v => (v.decl, v.arity))
      = d.declarations.flatMap fun decl =>
        ((d.finish o).arities decl).map fun n => (decl, n) := by
  show (Variant.numberOverloads _).map _ = _
  rw [Variant.map_numberOverloads (fun _ => rfl), List.map_flatMap]
  refine List.flatMap_congr fun decl _ => ?_
  rw [← arities_eq, Declaration.variants, List.map_map]
  rfl

/-- What a variant takes of the declared parameters, and what it drops. -/
theorem split_of_mem_variants {v : Variant} (h : v ∈ (d.finish o).variants) :
    ∃ dropped, v.decl.params.items = v.signature ++ dropped ∧ v.signature.length = v.arity
      ∧ ∀ p ∈ dropped, p.default.isSome = true := by
  obtain ⟨hrequired, harity⟩ :=
    Declaration.bounds_of_mem_arities (InterfaceDraft.emitted_of_mem_variants h).2
  refine ⟨v.decl.params.items.drop v.arity, (List.take_append_drop _ _).symm, ?_, ?_⟩
  · exact List.length_take_of_le harity
  · exact fun p hp => ParameterList.isSome_default_of_mem_drop hrequired hp

/-! ## Places

Every declaration and every directive is an operation of the run, and its place is where that
operation stands. So no two of them share one. -/

/-- The directives of a run stand where their operations stand. -/
theorem define_of_mem_events {before ops : List Operation} {event : Feature.Event}
    (h : event ∈ Feature.events before ops) :
    ∃ i, ops[i]? = some (.define event.entry) ∧ event.place = before.length + i := by
  induction ops generalizing before with
  | nil => exact absurd h List.not_mem_nil
  | cons op ops ih =>
    have hlater : event ∈ Feature.events (before ++ [op]) ops →
        ∃ i, (op :: ops)[i]? = some (.define event.entry) ∧ event.place = before.length + i := by
      intro hmem
      obtain ⟨i, hi, hplace⟩ := ih hmem
      refine ⟨i + 1, hi, ?_⟩
      rw [hplace, List.length_append, List.length_singleton]
      omega
    cases op with
    | tick => exact hlater h
    | define e =>
      rcases List.mem_cons.1 h with rfl | hmem
      · exact ⟨0, rfl, rfl⟩
      · exact hlater hmem

/-- The positions of the declarations ascend. -/
theorem registered_ascending (n : Nat) (items : List Item) :
    (registered n items).Pairwise fun d d' =>
      ∃ m k, d.position = some m ∧ d'.position = some k ∧ m < k := by
  induction items generalizing n with
  | nil => exact .nil
  | cons item items ih =>
    cases item with
    | scope path bases target => exact ih n
    | declaration d =>
      refine List.pairwise_cons.2 ⟨fun d' hd' => ?_, ih (n + 1)⟩
      obtain ⟨i, -, hposition⟩ := tick_of_mem_registered hd'
      exact ⟨n, n + 1 + i, rfl, hposition, by omega⟩
    | directive e => exact ih (n + 1)

/-- A declaration has a position, and no directive has been recorded there. -/
theorem place_of_mem_registered {items : List Item} {decl : Declaration}
    (h : decl ∈ registered 0 items) :
    ∃ m, decl.position = some m
      ∧ (∀ event ∈ Feature.events [] (operations items), event.place ≠ m)
      ∧ ∀ e ∈ Feature.lasting 0 (operations items), e.sequence ≠ m := by
  obtain ⟨i, hi, hposition⟩ := tick_of_mem_registered h
  refine ⟨0 + i, hposition, ?_, ?_⟩
  -- a place holds a declaration or a directive
  · intro event hevent heq
    obtain ⟨j, hj, hplace⟩ := define_of_mem_events hevent
    obtain rfl : i = j := by simpa [hplace] using heq.symm
    simp [hi] at hj
  · intro e he heq
    obtain ⟨j, f, hj, -, -, rfl⟩ := Feature.mem_lasting.1 he
    obtain rfl : i = j := by simpa [Entry.placed] using heq.symm
    simp [hi] at hj

/-- **What an interface emits.** Whatever calls it was put together by, it has the options it was
finished with, and of the calls it has the scopes, the declarations and the directives that last.
The variants are those of the declarations, in their order: of one that is kept to its full form
that form alone, and of any other one variant for each arity down to the parameters without a
default. A variant takes the first parameters of the declared list, as many as its arity says, and
all that it drops have defaults. The positions of the declarations ascend, and no directive has one
of them for its place. -/
theorem variants_of_calls (calls : List InterfaceDraft.Call) (o : Options) :
    let items := calls.map InterfaceDraft.Call.item
    let i := (InterfaceDraft.empty.callAll calls).finish o
    i.options = o ∧ i.scopes = linked .empty items
      ∧ i.table.entries = Feature.lasting 0 (operations items)
      ∧ i.declarations = registered 0 items
      ∧ (i.variants.map fun v => (v.decl, v.arity))
        = i.declarations.flatMap (fun decl => (i.arities decl).map fun n => (decl, n))
      ∧ (∀ v ∈ i.variants, ∃ dropped, v.decl.params.items = v.signature ++ dropped
        ∧ v.signature.length = v.arity ∧ ∀ p ∈ dropped, p.default.isSome = true)
      ∧ (i.declarations.Pairwise fun d d' =>
        ∃ m n, d.position = some m ∧ d'.position = some n ∧ m < n)
      ∧ ∀ decl ∈ i.declarations, ∃ m, decl.position = some m
        ∧ (∀ event ∈ Feature.events [] (operations items), event.place ≠ m)
        ∧ ∀ e ∈ i.table.entries, e.sequence ≠ m := by
  intro items i
  have hdraft : InterfaceDraft.empty.callAll calls
      = ⟨.run .empty (operations items), linked .empty items, registered 0 items⟩ := by
    rw [InterfaceDraft.callAll_eq, pushAll_eq]
    rfl
  have hscopes : i.scopes = linked .empty items := congrArg InterfaceDraft.scopes hdraft
  have hdecls : i.declarations = registered 0 items :=
    congrArg InterfaceDraft.declarations hdraft
  have hentries : i.table.entries = Feature.lasting 0 (operations items) := by
    rw [← Feature.Draft.entries_run_empty]
    exact congrArg (fun d : InterfaceDraft => d.table.entries) hdraft
  refine ⟨rfl, hscopes, hentries, hdecls, map_variants _ o, fun v => split_of_mem_variants, ?_, ?_⟩
  · rw [hdecls]
    exact registered_ascending 0 items
  · intro decl hdecl
    rw [hdecls] at hdecl
    rw [hentries]
    exact place_of_mem_registered hdecl

/-- Two functions with defaults, one of which a directive keeps to its full form. -/
theorem variants_of_calls_twoFunctions :
    let int : Parameter := ⟨⟨"int".toList⟩, some "0".toList⟩
    let f : Declaration := ⟨.function, ⟨.global, ['f']⟩, ⟨[int, int], by decide, by decide⟩,
      none, none, false, false, none⟩
    let g : Declaration := { f with name := ⟨.global, ['g']⟩ }
    let compact : Entry := ⟨compactFeature, .ofName ['g'], .enabled ['1'], none, .empty, 0⟩
    let i := (InterfaceDraft.empty.callAll
      [.declare f, .define compact, .renameScope .global ['m'], .push (.declaration g)]).finish
      .standard
    let v : Variant := ⟨{ f with position := some 0 }, 1, some 1⟩
    (i.variants.map fun v => (v.leaf, v.arity)) = [(['f'], 2), (['f'], 1), (['f'], 0), (['g'], 2)]
      ∧ v ∈ i.variants
      ∧ (∃ dropped, v.decl.params.items = v.signature ++ dropped ∧ v.signature.length = v.arity
        ∧ ∀ p ∈ dropped, p.default.isSome = true)
      ∧ v.decl ∈ i.declarations
      ∧ ∃ m, v.decl.position = some m ∧ ∀ e ∈ i.table.entries, e.sequence ≠ m := by
  intro int f g compact i v
  have hmem : v ∈ i.variants := by decide
  have hdecl : v.decl ∈ i.declarations := by decide
  obtain ⟨-, -, -, -, -, hsplit, -, hplaces⟩ := variants_of_calls
    [.declare f, .define compact, .renameScope .global ['m'], .push (.declaration g)] .standard
  obtain ⟨m, hm, -, hentries⟩ := hplaces v.decl hdecl
  exact ⟨by decide, hmem, hsplit v hmem, hdecl, m, hm, hentries⟩

end Interface

end Overlay
