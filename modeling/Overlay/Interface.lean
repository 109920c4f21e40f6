/-
Interfaces.

An interface is put together from scopes, declarations and directives, in the order of
their source. Declarations and directives share one sequence: a declaration takes its
position from it, a directive its place. When all is said the interface is finished: the
table is frozen, every declaration is expanded into its variants, and the overloads are
numbered. Nothing can be asked before that, and nothing changes after it.

A declaration is kept to its full parameter list if the options say so for all, or if
the feature `compactdefaultargs` is active on its full form.
-/
import Overlay.Alias
import Overlay.Resolution
import Overlay.Script.Item
import Overlay.Variant.Overload

set_option autoImplicit false

namespace Overlay

/-! ## Putting an interface together -/

/-- What was said of an interface so far. -/
structure InterfaceDraft where
  table : Feature.Draft
  scopes : ScopeGraph
  declarations : List Declaration
  deriving DecidableEq

namespace InterfaceDraft

def empty : InterfaceDraft := ⟨.empty, .empty, []⟩

def declareScope (d : InterfaceDraft) (s : ScopePath) (bases : List ScopePath) :
    InterfaceDraft :=
  { d with scopes := d.scopes.declareScope s bases }

def renameScope (d : InterfaceDraft) (s : ScopePath) (target : Text) : InterfaceDraft :=
  { d with scopes := d.scopes.renameScope s target }

/-- A declaration as it will be registered, at the next place of the sequence. -/
def placed (d : InterfaceDraft) (decl : Declaration) : Declaration :=
  { decl with position := some d.table.nextSequence }

/-- Registers a declaration at the next place of the sequence. -/
def declare (d : InterfaceDraft) (decl : Declaration) : InterfaceDraft where
  table := d.table.tick
  scopes := d.scopes.record (d.placed decl)
  declarations := d.declarations ++ [d.placed decl]

def define (d : InterfaceDraft) (e : Feature.Entry) : InterfaceDraft :=
  { d with table := d.table.define e }

def push (d : InterfaceDraft) : Script.Item → InterfaceDraft
  | .scope path bases none => d.declareScope path bases
  | .scope path bases (some target) => (d.renameScope path target).declareScope path bases
  | .declaration decl => d.declare decl
  | .directive entry => d.define entry

def pushAll (d : InterfaceDraft) (items : List Script.Item) : InterfaceDraft :=
  items.foldl push d

theorem pushAll_append (d : InterfaceDraft) (xs ys : List Script.Item) :
    d.pushAll (xs ++ ys) = (d.pushAll xs).pushAll ys :=
  List.foldl_append

end InterfaceDraft

/-! ## Finished interfaces -/

structure Interface where
  table : Feature.Table
  scopes : ScopeGraph
  options : Options
  declarations : List Declaration
  variants : List Variant
  deriving DecidableEq

namespace InterfaceDraft

/-- The feature that keeps a declaration to its full form is active on it. -/
def compactRequested (table : Feature.Table) (scopes : ScopeGraph) (decl : Declaration) : Bool :=
  (table.bestMatch compactFeature (.full decl) scopes).any fun e => e.value.isActive

/-- How the defaults of a declaration are emitted. -/
def modeOf (table : Feature.Table) (scopes : ScopeGraph) (options : Options)
    (decl : Declaration) : DefaultMode :=
  if options.compactDefaults || compactRequested table scopes decl then .compact else .expand

/-- Finishes an interface. -/
def finish (d : InterfaceDraft) (options : Options) : Interface :=
  let table := d.table.freeze
  { table := table
    scopes := d.scopes
    options := options
    declarations := d.declarations
    variants := Variant.numberOverloads
      (d.declarations.flatMap fun decl => decl.variants (modeOf table d.scopes options decl)) }

end InterfaceDraft

namespace Interface

def ofItems (items : List Script.Item) (options : Options) : Interface :=
  (InterfaceDraft.empty.pushAll items).finish options

def resolver (i : Interface) : Resolver := ⟨i.table, i.scopes, i.options⟩

def resolve (i : Interface) (v : Variant) (feature : Text) : Resolution :=
  i.resolver.resolve v feature

/-- The variants of a qualified name, in the order of emission. -/
def variantsNamed (i : Interface) (name : Text) : List Variant :=
  i.variants.filter fun v => v.decl.name.display = name

/-- The first variant of a qualified name that has this arity. -/
def variant? (i : Interface) (name : Text) (arity : Nat) : Option Variant :=
  (i.variantsNamed name).find? fun v => v.arity = arity

end Interface

end Overlay
