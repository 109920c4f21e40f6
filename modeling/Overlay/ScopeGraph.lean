/-
The scope graph.

Scopes are linked to their bases, declare members, and may have a name of their own in
the target language. All that was declared of a scope is kept in its node; a scope of
which nothing was declared has no node, and is read as one without bases and members. So
no scope needs to be introduced before it is used.

Bases keep the order in which they were declared, each once. A later target name takes
the place of an earlier one.
-/
import Overlay.Declaration
import Overlay.Registry

set_option autoImplicit false

namespace Overlay

/-! ## Nodes -/

/-- What was declared of one scope. -/
structure ScopeNode where
  /-- The bases in the order of declaration, each once. -/
  bases : List ScopePath
  members : List Text
  targetName : Option Text
  deriving DecidableEq, Repr

namespace ScopeNode

def empty : ScopeNode := ⟨[], [], none⟩

def addBase (n : ScopeNode) (base : ScopePath) : ScopeNode :=
  if base ∈ n.bases then n else { n with bases := n.bases ++ [base] }

/-- Adds bases in order. -/
def addBases (n : ScopeNode) (bases : List ScopePath) : ScopeNode := bases.foldl addBase n

def addMember (n : ScopeNode) (member : Text) : ScopeNode :=
  { n with members := n.members.insert member }

def rename (n : ScopeNode) (target : Text) : ScopeNode := { n with targetName := some target }

theorem mem_bases_addBases {n : ScopeNode} {bases : List ScopePath} {b : ScopePath} :
    b ∈ (n.addBases bases).bases ↔ b ∈ n.bases ∨ b ∈ bases := by
  rw [addBases]
  induction bases generalizing n with
  | nil => simp
  | cons base bases ih =>
    have hone : b ∈ (n.addBase base).bases ↔ b ∈ n.bases ∨ b = base := by
      rw [addBase]
      split
      · rename_i h
        exact ⟨Or.inl, fun hb => hb.elim id fun hb => hb ▸ h⟩
      · simp [List.mem_append]
    rw [List.foldl_cons, ih, hone, List.mem_cons, or_assoc]

/-- Adding bases keeps what adding one keeps. -/
theorem addBases_keeps {α : Type} (part : ScopeNode → α)
    (h : ∀ n base, part (addBase n base) = part n) (n : ScopeNode) (bases : List ScopePath) :
    part (n.addBases bases) = part n := by
  rw [addBases]
  induction bases generalizing n with
  | nil => rfl
  | cons base bases ih => rw [List.foldl_cons, ih, h]

@[simp] theorem members_addBases (n : ScopeNode) (bases : List ScopePath) :
    (n.addBases bases).members = n.members := by
  refine addBases_keeps members ?_ n bases
  intro n base
  rw [addBase]
  split <;> rfl

@[simp] theorem targetName_addBases (n : ScopeNode) (bases : List ScopePath) :
    (n.addBases bases).targetName = n.targetName := by
  refine addBases_keeps targetName ?_ n bases
  intro n base
  rw [addBase]
  split <;> rfl

end ScopeNode

/-! ## Graphs -/

/-- The nodes of the scopes of which something was declared. -/
structure ScopeGraph where
  nodes : Registry ScopePath ScopeNode
  deriving DecidableEq

namespace ScopeGraph

def empty : ScopeGraph := ⟨.empty⟩

def node (g : ScopeGraph) (s : ScopePath) : ScopeNode := (g.nodes.get? s).getD .empty

def bases (g : ScopeGraph) (s : ScopePath) : List ScopePath := (g.node s).bases

def declares (g : ScopeGraph) (s : ScopePath) (member : Text) : Bool :=
  (g.node s).members.contains member

/-- The name of a scope in the target language: the one it was given, else its innermost
segment. -/
def targetName (g : ScopeGraph) (s : ScopePath) : Text :=
  (g.node s).targetName.getD (s.last?.getD [])

/-! ## Declaring

All declarations change a node and nothing else, so they are one update with three changes. -/

/-- Changes the node of a scope, which is made if it is not there. -/
def update (g : ScopeGraph) (s : ScopePath) (change : ScopeNode → ScopeNode) : ScopeGraph :=
  ⟨g.nodes.insert s (change (g.node s))⟩

def declareScope (g : ScopeGraph) (s : ScopePath) (bases : List ScopePath) : ScopeGraph :=
  g.update s fun n => n.addBases bases

def renameScope (g : ScopeGraph) (s : ScopePath) (target : Text) : ScopeGraph :=
  g.update s fun n => n.rename target

def declareMember (g : ScopeGraph) (s : ScopePath) (member : Text) : ScopeGraph :=
  g.update s fun n => n.addMember member

/-- Adds the leaf name of a declaration to its scope, if the declaration is a member that was
not copied in from a base. -/
def record (g : ScopeGraph) (d : Declaration) : ScopeGraph :=
  if d.kind.isMember && !d.isInherited then g.declareMember d.scope d.leaf else g

/-! ## What declaring changes

Each of the three changes one part of one node. The lemmas say what it makes of that part, and that
it keeps the two others, of this node and of all others. -/

/-- An update changes one node. -/
theorem node_update (g : ScopeGraph) (s t : ScopePath) (change : ScopeNode → ScopeNode) :
    (g.update s change).node t = if t = s then change (g.node s) else g.node t := by
  rw [update, node, Registry.get?_insert]
  split <;> rfl

/-- What a change keeps of a node, an update keeps of all nodes. -/
theorem update_keeps {α : Type} (part : ScopeNode → α) (g : ScopeGraph) (s t : ScopePath)
    {change : ScopeNode → ScopeNode} (h : ∀ n, part (change n) = part n) :
    part ((g.update s change).node t) = part (g.node t) := by
  rw [node_update]
  split
  · rename_i hts
    rw [h, hts]
  · rfl

/-- The bases of a scope are added to, also when it is declared again. -/
theorem mem_bases_declareScope {g : ScopeGraph} {s t b : ScopePath} {bases : List ScopePath} :
    b ∈ (g.declareScope s bases).bases t ↔ b ∈ g.bases t ∨ (t = s ∧ b ∈ bases) := by
  rw [ScopeGraph.bases, declareScope, node_update]
  by_cases h : t = s
  · subst h
    simp [ScopeNode.mem_bases_addBases, ScopeGraph.bases]
  · simp [h, ScopeGraph.bases]

/-- A member is declared in its scope. -/
theorem declares_declareMember (g : ScopeGraph) (s s' : ScopePath) (m m' : Text) :
    (g.declareMember s m).declares s' m' = (decide (s' = s ∧ m' = m) || g.declares s' m') := by
  rw [declares, declareMember, node_update]
  by_cases h : s' = s
  · subst h
    simp [ScopeNode.addMember, declares]
  · simp [h, declares]

/-- The last name that a scope was given is its name. -/
theorem givenName_renameScope (g : ScopeGraph) (s t : ScopePath) (target : Text) :
    ((g.renameScope s target).node t).targetName
      = if t = s then some target else (g.node t).targetName := by
  rw [renameScope, node_update]
  split <;> rfl

@[simp] theorem declares_declareScope (g : ScopeGraph) (s t : ScopePath)
    (bases : List ScopePath) (member : Text) :
    (g.declareScope s bases).declares t member = g.declares t member :=
  update_keeps (fun n => n.members.contains member) g s t fun n => by simp

@[simp] theorem givenName_declareScope (g : ScopeGraph) (s t : ScopePath)
    (bases : List ScopePath) :
    ((g.declareScope s bases).node t).targetName = (g.node t).targetName :=
  update_keeps ScopeNode.targetName g s t fun n => by simp

@[simp] theorem bases_renameScope (g : ScopeGraph) (s t : ScopePath) (target : Text) :
    (g.renameScope s target).bases t = g.bases t :=
  update_keeps ScopeNode.bases g s t fun _ => rfl

@[simp] theorem declares_renameScope (g : ScopeGraph) (s t : ScopePath) (target member : Text) :
    (g.renameScope s target).declares t member = g.declares t member :=
  update_keeps (fun n => n.members.contains member) g s t fun _ => rfl

@[simp] theorem bases_declareMember (g : ScopeGraph) (s t : ScopePath) (member : Text) :
    (g.declareMember s member).bases t = g.bases t :=
  update_keeps ScopeNode.bases g s t fun _ => rfl

@[simp] theorem givenName_declareMember (g : ScopeGraph) (s t : ScopePath) (member : Text) :
    ((g.declareMember s member).node t).targetName = (g.node t).targetName :=
  update_keeps ScopeNode.targetName g s t fun _ => rfl

end ScopeGraph

end Overlay
