/-
Interfaces, from their items to a report.

An interface is put together item by item. Declarations and scopes cannot go wrong; a directive is
recorded in a table whose slots are taken from a map of keys, and the draft of an interface is
coherent when it is made and stays so. Finishing it gives variants of arities that their
declarations have, and whatever is asked of such a variant later slices its parameters within their
number.

So one fact about a variant is handed through all that follows, that its arity is no greater than
that of its declaration. It holds of every variant that an interface has
(`arity_le_of_mem_variants`), and it is all that facts, bodies, resolutions and rows of a report
need in order not to crash.
-/
import Overlay.Interface.Report
import Overlay.Proofs.Checked.Overload
import Overlay.Proofs.Checked.Table
import Overlay.Proofs.Variant.Numbering

set_option autoImplicit false

namespace Overlay

/-! ## What items keep

The draft is coherent if the slot of each key is one of its slots. Only directives touch the table.
-/

namespace InterfaceDraft

/-- An item leaves the draft coherent. -/
theorem coherent_push {d : InterfaceDraft} (h : d.table.Coherent) (item : Script.Item) :
    (d.push item).table.Coherent := by
  cases item with
  | scope path bases target => cases target <;> exact h
  | declaration decl => exact h.tick
  | directive entry => exact h.define entry

end InterfaceDraft

namespace Checked

variable {ε : Type}

/-! ## Putting together and finishing

A draft is put together under the promise that it is coherent. The finished interface needs none:
its table is fixed, and no slot is looked up any more. -/

def push (d : InterfaceDraft) : Script.Item → Checked ε InterfaceDraft
  | .scope path bases none => .ok (d.declareScope path bases)
  | .scope path bases (some target) => .ok ((d.renameScope path target).declareScope path bases)
  | .declaration decl => .ok (d.declare decl)
  | .directive entry => (define d.table entry).map fun table => { d with table := table }

def pushAll (d : InterfaceDraft) (items : List Script.Item) : Checked ε InterfaceDraft :=
  items.foldlM push d

/-- How the defaults of a declaration are emitted; its full form is made to ask for that. -/
def modeOf (table : Feature.Table) (scopes : ScopeGraph) (options : Options)
    (decl : Declaration) : Checked ε DefaultMode :=
  if options.compactDefaults then .ok .compact
  else do
    let full ← newVariant decl decl.arity
    let winner ← bestMatch table compactFeature full scopes
    return if winner.any fun e => e.value.isActive then .compact else .expand

def finish (d : InterfaceDraft) (options : Options) : Checked ε Interface := do
  let table := d.table.freeze
  let emitted ← d.declarations.mapM fun decl =>
    modeOf table d.scopes options decl >>= variants decl
  let numbered ← numberOverloads emitted.flatten
  return {
    table := table
    scopes := d.scopes
    options := options
    declarations := d.declarations
    variants := numbered }

def ofItems (items : List Script.Item) (options : Options) : Checked ε Interface := do
  let d ← pushAll .empty items
  finish d options

/-- A directive finds its slot in a coherent draft, and other items look for none. -/
theorem push_eq {d : InterfaceDraft} (h : d.table.Coherent) (item : Script.Item) :
    (push d item : Checked ε _) = .ok (d.push item) := by
  cases item with
  | scope path bases target => cases target <;> rfl
  | declaration decl => rfl
  | directive entry =>
    rw [push, define_eq h]
    rfl

/-- Item after item, with what the items before have kept. -/
theorem pushAll_eq {d : InterfaceDraft} (h : d.table.Coherent) (items : List Script.Item) :
    (pushAll d items : Checked ε _) = .ok (d.pushAll items) := by
  induction items generalizing d with
  | nil => rfl
  | cons item items ih =>
    rw [pushAll, List.foldlM_cons, push_eq h]
    exact ih (InterfaceDraft.coherent_push h item)

/-- The mode of a declaration is decided by what wins on its full form, whose arity is that of the
declaration. -/
theorem modeOf_eq (table : Feature.Table) (scopes : ScopeGraph) (options : Options)
    (decl : Declaration) :
    (modeOf table scopes options decl : Checked ε _)
      = .ok (InterfaceDraft.modeOf table scopes options decl) := by
  rw [modeOf, InterfaceDraft.modeOf, InterfaceDraft.compactRequested]
  cases options.compactDefaults with
  | true => rfl
  | false =>
    have hbest := bestMatch_eq (ε := ε) (v := .full decl) (Nat.le_refl decl.arity) table
      compactFeature scopes
    simp only [newVariant_full, ok_bind, hbest]
    rfl

/-- Variants are emitted at arities of the declaration, and numbered place by place. -/
theorem finish_eq (d : InterfaceDraft) (options : Options) :
    (finish d options : Checked ε _) = .ok (d.finish options) := by
  have hemitted : ∀ decl ∈ d.declarations,
      (modeOf d.table.freeze d.scopes options decl >>= variants decl : Checked ε _)
        = .ok (decl.variants (InterfaceDraft.modeOf d.table.freeze d.scopes options decl)) := by
    intro decl _
    rw [modeOf_eq, ok_bind, variants_eq]
  rw [finish, mapM_eq_ok hemitted, ok_bind, numberOverloads_eq, ok_bind, InterfaceDraft.finish,
    List.flatMap_def]
  rfl

/-- An empty draft is coherent, so any items can be put together and finished. -/
theorem ofItems_eq (items : List Script.Item) (options : Options) :
    (ofItems items options : Checked ε _) = .ok (.ofItems items options) := by
  rw [ofItems, pushAll_eq Feature.Draft.coherent_empty, ok_bind, finish_eq]
  rfl

/-- A variant of an interface has an arity that its declaration has. -/
theorem arity_le_of_mem_variants {d : InterfaceDraft} {options : Options} {v : Variant}
    (h : v ∈ (d.finish options).variants) : v.arity ≤ v.decl.arity :=
  (Declaration.bounds_of_mem_arities (InterfaceDraft.emitted_of_mem_variants h).2).2

/-! ## Facts

A wrapper name is mangled for all scopes but the innermost, so the list of scopes is cut before its
last one. A variant cuts its parameters at its arity. -/

/-- The scope around a scope: all segments but the last. -/
def parent? (p : ScopePath) : Checked ε (Option ScopePath) :=
  if p.isGlobal then .ok none
  else do
    let outer ← sub p.segments.length 1
    return some ⟨p.segments.take outer⟩

def declText (v : Variant) : Checked ε Text :=
  if v.kind.isCallable then do
    let ts ← types v
    return v.decl.name.display ++ "(".toList ++ ", ".toList.intercalate (ts.map CType.text)
      ++ ")".toList ++ (if v.decl.isConst then " const".toList else [])
  else .ok v.decl.name.display

def scopedSymbol (v : Variant) (g : ScopeGraph) : Checked ε Text := do
  match ← parent? v.scope with
  | none => return v.decl.symbol
  | some outer =>
    return (if outer.isGlobal then [] else outer.mangled ++ "_".toList)
      ++ g.targetName v.scope ++ "_".toList ++ v.decl.symbol

def facts (v : Variant) (g : ScopeGraph) (o : Options) : Checked ε FactSheet := do
  let symbol ← scopedSymbol v g
  let decl ← declText v
  return {
    action := v.action
    name := v.decl.name.display
    symbol := v.decl.symbol
    overloadSuffix := v.overloadSuffix o
    wrapperName := o.wrapperLead ++ symbol ++ v.overloadSuffix o
    decl := decl
    fullDecl := match v.decl.returns with
      | some type => type.text ++ " ".toList ++ decl
      | none => decl
    parentClass := if v.hasParentClass then v.scope.display else []
    parentClassTarget := if v.hasParentClass then g.targetName v.scope else [] }

/-! ## Reporting

A report is a list of rows for the variants of the interface, and each row a list of what features
come to. All of these are computed variant by variant. -/

def enabledBody (r : Resolver) (v : Variant) (body : Template) : Checked ε Text :=
  if body.placeholders = [] then .ok body.text
  else (facts v r.scopes r.options).map body.expand

def resolve (r : Resolver) (v : Variant) (feature : Text) : Checked ε Resolution := do
  match ← bestMatch r.table feature v r.scopes with
  | none => return .inactive
  | some e =>
    if e.value.isActive then
      let body ← e.body.mapM (enabledBody r v)
      return ⟨true, body, e.attributes⟩
    else return ⟨false, e.body.map Template.text, e.attributes⟩

/-- The entry of a feature under a variant, if it is listed. -/
def listed? (i : Interface) (s : Selection) (v : Variant) (feature : Text) :
    Checked ε (Option (Text × Resolution)) := do
  match ← bestMatch i.table feature v i.scopes with
  | none => return none
  | some _ =>
    let resolution ← resolve i.resolver v feature
    return if resolution.active || s.inactive then some (feature, resolution) else none

/-- The entry of a variant, if it is listed. -/
def reported? (i : Interface) (s : Selection) (v : Variant) :
    Checked ε (Option ReportedVariant) := do
  let listed ← (i.selected s).mapM (listed? i s v)
  let features := listed.filterMap id
  if features = [] ∧ s.unmatched = false then return none
  else
    let facts ← facts v i.scopes i.options
    return some ⟨facts.decl, facts.wrapperName, facts.overloadSuffix, v.isReduced, features⟩

def report (i : Interface) (s : Selection) : Checked ε Report := do
  let reported ← i.variants.mapM (reported? i s)
  return {
    variants := reported.filterMap id
    diagnostics := i.table.diagnostics.map Feature.Diagnostic.message
    variantCount := i.variants.length
    queries := i.variants.length * (i.selected s).length }

variable {v : Variant}

/-- The list of scopes is cut before its last one only if it has one. -/
theorem parent?_eq (p : ScopePath) : (parent? p : Checked ε _) = .ok p.parent? := by
  rw [parent?, ScopePath.parent?]
  by_cases hglobal : p.isGlobal = true
  · rw [if_pos hglobal, if_pos hglobal]
  · have hlen : 1 ≤ p.segments.length := by
      rw [Nat.succ_le_iff, List.length_pos_iff]
      rintro hnil
      exact hglobal (by rw [ScopePath.isGlobal, hnil]; rfl)
    rw [if_neg hglobal, if_neg hglobal, sub_eq hlen, ok_bind, List.dropLast_eq_take]
    rfl

/-- So the symbol of a variant is made without a crash. -/
theorem scopedSymbol_eq (v : Variant) (g : ScopeGraph) :
    (scopedSymbol v g : Checked ε _) = .ok (v.scopedSymbol g) := by
  rw [scopedSymbol, parent?_eq, ok_bind, Variant.scopedSymbol]
  cases v.scope.parent? <;> rfl

/-- The text of a variant shows the parameters that it takes. -/
theorem declText_eq (hv : v.arity ≤ v.decl.arity) :
    (declText v : Checked ε _) = .ok v.declText := by
  rw [declText, types_eq hv, Variant.declText]
  exact (apply_ite Except.ok _ _ _).symm

/-- All other facts are about the declaration as it was read. -/
theorem facts_eq (hv : v.arity ≤ v.decl.arity) (g : ScopeGraph) (o : Options) :
    (facts v g o : Checked ε _) = .ok (.ofVariant v g o) := by
  rw [facts, scopedSymbol_eq, ok_bind, declText_eq hv]
  rfl

/-- A body is expanded with the facts of its variant. -/
theorem enabledBody_eq (hv : v.arity ≤ v.decl.arity) (r : Resolver) (body : Template) :
    (enabledBody r v body : Checked ε _) = .ok (r.enabledBody v none body) := by
  rw [enabledBody, facts_eq hv, Resolver.enabledBody]
  exact (apply_ite Except.ok _ _ _).symm

/-- What a feature comes to is asked of the table, with a body that is expanded if it wins. -/
theorem resolve_eq (hv : v.arity ≤ v.decl.arity) (r : Resolver) (feature : Text) :
    (resolve r v feature : Checked ε _) = .ok (r.resolve v feature) := by
  rw [resolve, bestMatch_eq hv, ok_bind, Resolver.resolve, Resolver.matched]
  cases r.table.bestMatch feature v r.scopes with
  | none => rfl
  | some e =>
    rw [Resolver.resolveBy]
    by_cases hactive : e.value.isActive = true
    · simp only [if_pos hactive]
      cases e.body with
      | none => rfl
      | some body =>
        rw [Option.mapM_some, enabledBody_eq hv]
        rfl
    · simp only [if_neg hactive]
      rfl

/-- Whether a feature is listed for a variant is told by what it comes to. -/
theorem listed?_eq (hv : v.arity ≤ v.decl.arity) (i : Interface) (s : Selection)
    (feature : Text) :
    (listed? i s v feature : Checked ε _) = .ok (i.listed? s v feature) := by
  have hmatched : i.resolver.matched v feature = i.table.bestMatch feature v i.scopes := rfl
  rw [listed?, bestMatch_eq hv, ok_bind, Interface.listed?, hmatched]
  cases i.table.bestMatch feature v i.scopes with
  | none => rfl
  | some e =>
    simp only [resolve_eq hv, ok_bind]
    rfl

/-- The row of a variant has those of the features that are listed. -/
theorem reported?_eq (hv : v.arity ≤ v.decl.arity) (i : Interface) (s : Selection) :
    (reported? i s v : Checked ε _) = .ok (i.reported? s v) := by
  have hlisted : ∀ feature ∈ i.selected s,
      (listed? i s v feature : Checked ε _) = .ok (i.listed? s v feature) :=
    fun feature _ => listed?_eq hv i s feature
  rw [reported?, mapM_eq_ok hlisted, ok_bind, List.filterMap_map, facts_eq hv,
    Interface.reported?]
  exact (apply_ite Except.ok _ _ _).symm

/-- **Reports are made without a crash**, of any items and for any selection. -/
theorem report_eq (items : List Script.Item) (options : Options) (s : Selection) :
    (report (.ofItems items options) s : Checked ε _)
      = .ok ((Interface.ofItems items options).report s) := by
  have hreported : ∀ v ∈ (Interface.ofItems items options).variants,
      (reported? (.ofItems items options) s v : Checked ε _)
        = .ok ((Interface.ofItems items options).reported? s v) :=
    fun v hv => reported?_eq (arity_le_of_mem_variants hv) _ s
  rw [report, mapM_eq_ok hreported, ok_bind, List.filterMap_map]
  rfl

end Checked

end Overlay
