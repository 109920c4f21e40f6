/-
An interface as a reading of its items.

The draft of an interface goes through its items one by one and changes three things on the
way: the table, the scope graph and the list of declarations. They do not depend on each
other, save that table and declarations share one sequence. So each of them is a reading of
the items alone: the table is a run of their operations, the graph a fold of their links, and
the declarations are those of the items, each with the number of operations before it as its
position (`pushAll_eq`).

What the graph says after the items is told item by item as well: a scope has the bases and
declares the members that some item gave it, in whatever order the items came. Only the
target name of a scope is the last one.
-/
import Mathlib.Data.List.Basic
import Overlay.Interface
import Overlay.Proofs.Feature.History
import Overlay.Proofs.ScopeGraph.Inheritance

set_option autoImplicit false

namespace Overlay

open Feature (Operation Entry)
open Script (Item)

/-! ## Items

An item is read three times, once for each thing that the draft keeps. Each reading is a function of
the item alone, and passes over the items that it has no use for. -/

/-- The declaration at another position, or at none. -/
def Declaration.positioned (d : Declaration) (position : Option Nat) : Declaration :=
  { d with position := position }

namespace Script.Item

/-- The use that an item makes of the sequence; scopes make none. -/
def operation? : Item → Option Operation
  | scope .. => none
  | declaration _ => some .tick
  | directive e => some (.define e)

/-- What an item changes in the scope graph. -/
def link (g : ScopeGraph) : Item → ScopeGraph
  | scope path bases none => g.declareScope path bases
  | scope path bases (some target) => (g.renameScope path target).declareScope path bases
  | declaration d => g.record d
  | directive _ => g

/-- The item makes `b` a base of `s`. -/
def Links (s b : ScopePath) : Item → Prop
  | scope path bases _ => s = path ∧ b ∈ bases
  | declaration _ => False
  | directive _ => False

/-- The item declares a member of a scope. -/
def Declares (s : ScopePath) (member : Text) : Item → Prop
  | scope .. => False
  | declaration d =>
    d.kind.isMember = true ∧ d.isInherited = false ∧ d.scope = s ∧ d.leaf = member
  | directive _ => False

/-- The target name that the item gives a scope. -/
def targetFor (s : ScopePath) : Item → Option Text
  | scope path _ target => if path = s then target else none
  | declaration _ => none
  | directive _ => none

end Script.Item

namespace Interface

/-- The operations of the items on the table. -/
def operations (items : List Item) : List Operation := items.filterMap Item.operation?

/-- The declarations of the items, where `n` places of the sequence were taken before. -/
def registered (n : Nat) : List Item → List Declaration
  | [] => []
  | .scope .. :: items => registered n items
  | .declaration d :: items => d.positioned (some n) :: registered (n + 1) items
  | .directive _ :: items => registered (n + 1) items

/-- The scope graph of the items, on top of another. -/
def linked (g : ScopeGraph) (items : List Item) : ScopeGraph := items.foldl Item.link g

/-- The operations of two lists are those of the one and then those of the other. -/
theorem operations_append (xs ys : List Item) :
    operations (xs ++ ys) = operations xs ++ operations ys :=
  List.filterMap_append

/-- The second list adds its links to what the first has made. -/
theorem linked_append (g : ScopeGraph) (xs ys : List Item) :
    linked g (xs ++ ys) = linked (linked g xs) ys :=
  List.foldl_append

/-- The declarations of the second list have as many places before them as the first list takes. -/
theorem registered_append (n : Nat) (xs ys : List Item) :
    registered n (xs ++ ys)
      = registered n xs ++ registered (n + (operations xs).length) ys := by
  induction xs generalizing n with
  | nil => rfl
  | cons x xs ih =>
    have hn : n + 1 + (operations xs).length = n + ((operations xs).length + 1) := by omega
    cases x with
    | scope path bases target => exact ih n
    | declaration d =>
      show d.positioned (some n) :: registered (n + 1) (xs ++ ys) = _
      rw [ih (n + 1), hn]
      rfl
    | directive e =>
      show registered (n + 1) (xs ++ ys) = _
      rw [ih (n + 1), hn]
      rfl

/-! ## Reading the draft

The induction is over the items, with any draft to start from, as the first item leaves one. -/

/-- **The draft is a reading of its items.** -/
theorem pushAll_eq (d : InterfaceDraft) (items : List Item) :
    d.pushAll items = ⟨d.table.run (operations items), linked d.scopes items,
      d.declarations ++ registered d.table.nextSequence items⟩ := by
  induction items generalizing d with
  | nil =>
    show d = ⟨d.table, d.scopes, d.declarations ++ []⟩
    rw [List.append_nil]
  | cons item items ih =>
    -- pushing the first item leaves a draft of which the rest is read
    show (d.push item).pushAll items = _
    rw [ih (d.push item)]
    cases item with
    | scope path bases target => cases target <;> rfl
    | declaration decl =>
      show InterfaceDraft.mk _ _ ((d.declarations ++ [decl.positioned (some d.table.nextSequence)])
        ++ registered (d.table.nextSequence + 1) items) = _
      rw [List.append_assoc]
      rfl
    | directive e =>
      show InterfaceDraft.mk _ _ (d.declarations
        ++ registered (d.table.define e).nextSequence items) = _
      rw [Feature.Draft.nextSequence_define]
      rfl

/-- What is registered stands where the operation of its declaration stands. -/
theorem tick_of_mem_registered {n : Nat} {items : List Item} {d : Declaration}
    (h : d ∈ registered n items) :
    ∃ i, (operations items)[i]? = some .tick ∧ d.position = some (n + i) := by
  induction items generalizing n with
  | nil => exact absurd h List.not_mem_nil
  | cons item items ih =>
    have hlater : ∀ op, d ∈ registered (n + 1) items →
        ∃ i, (op :: operations items)[i]? = some .tick ∧ d.position = some (n + i) := by
      intro op hmem
      obtain ⟨i, hi, hposition⟩ := ih hmem
      exact ⟨i + 1, hi, by rw [hposition]; congr 1; omega⟩
    cases item with
    | scope path bases target => exact ih h
    | declaration decl =>
      rcases List.mem_cons.1 h with rfl | hmem
      · exact ⟨0, rfl, rfl⟩
      · exact hlater .tick hmem
    | directive e => exact hlater (.define e) h

end Interface

/-! ## What the graph says

The questions that the graph is asked, told item by item. The first two are answered by the items as
a set, and only the third by their order. -/

namespace Script.Item

/-- An item adds the bases that it links. -/
theorem mem_bases_link {g : ScopeGraph} {s b : ScopePath} (item : Item) :
    b ∈ (item.link g).bases s ↔ b ∈ g.bases s ∨ item.Links s b := by
  cases item with
  | scope path bases target =>
    cases target with
    | none => exact ScopeGraph.mem_bases_declareScope
    | some target =>
      rw [link, ScopeGraph.mem_bases_declareScope, ScopeGraph.bases_renameScope]
      rfl
  | declaration d =>
    have hrecord : (g.record d).bases s = g.bases s := by
      rw [ScopeGraph.record]
      split
      · exact ScopeGraph.bases_declareMember g d.scope s d.leaf
      · rfl
    simp [link, Links, hrecord]
  | directive e => simp [link, Links]

/-- An item adds the members that it declares. -/
theorem declares_link {g : ScopeGraph} {s : ScopePath} {member : Text} (item : Item) :
    (item.link g).declares s member = true
      ↔ g.declares s member = true ∨ item.Declares s member := by
  cases item with
  | scope path bases target => cases target <;> simp [link, Declares]
  | declaration d =>
    rw [link, ScopeGraph.record, Declares]
    by_cases hmember : (d.kind.isMember && !d.isInherited) = true
    · obtain ⟨hkind, hown⟩ : d.kind.isMember = true ∧ d.isInherited = false := by
        simpa using hmember
      have hsame : s = d.scope ∧ member = d.leaf ↔ d.scope = s ∧ d.leaf = member :=
        and_congr eq_comm eq_comm
      rw [if_pos hmember, ScopeGraph.declares_declareMember, Bool.or_eq_true, decide_eq_true_eq,
        or_comm, hsame]
      simp only [hkind, hown, true_and]
    · have hnot : ¬ (d.kind.isMember = true ∧ d.isInherited = false) := by simpa using hmember
      rw [if_neg hmember]
      constructor
      · exact .inl
      · rintro (h | ⟨hkind, hown, -⟩)
        · exact h
        · exact absurd ⟨hkind, hown⟩ hnot
  | directive e => simp [link, Declares]

/-- The target name that an item gives takes the place of the one before. -/
theorem givenName_link (g : ScopeGraph) (s : ScopePath) (item : Item) :
    ((item.link g).node s).targetName = (item.targetFor s).or (g.node s).targetName := by
  cases item with
  | scope path bases target =>
    cases target with
    | none => simp [link, targetFor]
    | some target =>
      rw [link, ScopeGraph.givenName_declareScope, ScopeGraph.givenName_renameScope, targetFor]
      by_cases h : path = s
      · simp [h]
      · simp [h, Ne.symm h]
  | declaration d =>
    rw [link, ScopeGraph.record]
    split
    · simp [targetFor]
    · rfl
  | directive e => rfl

end Script.Item

namespace Interface

/-- What each item adds something to, all of them add to, one after the other. -/
theorem linked_iff (holds : ScopeGraph → Prop) {adds : Item → Prop}
    (h : ∀ (item : Item) g, holds (item.link g) ↔ holds g ∨ adds item) (g : ScopeGraph)
    (items : List Item) : holds (linked g items) ↔ holds g ∨ ∃ item ∈ items, adds item := by
  induction items generalizing g with
  | nil => simp [linked]
  | cons item items ih =>
    show holds (linked (item.link g) items) ↔ _
    rw [ih, h, List.exists_mem_cons_iff, or_assoc]

/-- A scope has the bases that some item has linked. -/
theorem mem_bases_linked {g : ScopeGraph} {s b : ScopePath} (items : List Item) :
    b ∈ (linked g items).bases s ↔ b ∈ g.bases s ∨ ∃ item ∈ items, item.Links s b :=
  linked_iff (fun g => b ∈ g.bases s) (fun item _ => item.mem_bases_link) g items

/-- A scope declares the members that some item has declared in it. -/
theorem declares_linked {g : ScopeGraph} {s : ScopePath} {member : Text} (items : List Item) :
    (linked g items).declares s member = true
      ↔ g.declares s member = true ∨ ∃ item ∈ items, item.Declares s member :=
  linked_iff (fun g => g.declares s member = true) (fun item _ => item.declares_link) g items

/-- Of the names that items give a scope, the last one stays. -/
theorem givenName_linked (g : ScopeGraph) (s : ScopePath) (items : List Item) :
    ((linked g items).node s).targetName
      = (items.filterMap (Item.targetFor s)).getLast?.or (g.node s).targetName := by
  induction items generalizing g with
  | nil => rfl
  | cons item items ih =>
    show ((linked (item.link g) items).node s).targetName = _
    rw [ih, item.givenName_link, List.filterMap_cons]
    cases item.targetFor s with
    | none => rfl
    | some target =>
      -- this name stays only if no later item gives one
      rw [List.getLast?_cons]
      cases (items.filterMap (Item.targetFor s)).getLast? <;> rfl

/-- Items with the same links that declare one member in the same scopes lead to graphs that
are alike for it. -/
theorem alike_linked {xs ys : List Item} {member : Text}
    (hlinks : ∀ s b, (∃ x ∈ xs, x.Links s b) ↔ ∃ y ∈ ys, y.Links s b)
    (hdeclares : ∀ s, (∃ x ∈ xs, x.Declares s member) ↔ ∃ y ∈ ys, y.Declares s member) :
    ScopeGraph.Alike member (linked .empty xs) (linked .empty ys) where
  bases s b := by
    rw [mem_bases_linked, mem_bases_linked, hlinks s b]
  declares s := by
    rw [Bool.eq_iff_iff, declares_linked, declares_linked, hdeclares s]

/-- Items that give a scope the same names lead to graphs that agree on its target name. -/
theorem targetName_linked {xs ys : List Item} {s : ScopePath}
    (h : xs.filterMap (Item.targetFor s) = ys.filterMap (Item.targetFor s)) :
    (linked .empty xs).targetName s = (linked .empty ys).targetName s := by
  rw [ScopeGraph.targetName, ScopeGraph.targetName, givenName_linked, givenName_linked, h]

end Interface

end Overlay
