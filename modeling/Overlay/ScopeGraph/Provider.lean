/-
Which bases supply an inherited member.

A scope that does not declare a member takes it from its bases. The walk goes out from
the scope and looks at the nearest scopes first: what it has to look at stands in a queue
with its distance, at first the direct bases. A base that declares the member supplies it,
and the walk does not go on behind it; for a base that does not, its own bases are queued,
one step further out. A scope can be queued more than once, but is looked at only the first
time, so its distance is the length of the shortest way to it.

The walk ends on every graph, with cycles or not: every step either makes the scopes that
were not looked at fewer, or drops one from the queue.
-/
import Overlay.ScopeGraph

set_option autoImplicit false

namespace Overlay.ScopeGraph

def linked (g : ScopeGraph) : List ScopePath := g.nodes.entries.flatMap fun e => e.2.bases

/-- The scopes of `unseen` that are still unseen after a scope was looked at. -/
def unseenAfter (s : ScopePath) (unseen : List ScopePath) : List ScopePath :=
  unseen.filter (· ≠ s)

theorem length_unseenAfter_lt {s : ScopePath} {unseen : List ScopePath} (h : s ∈ unseen) :
    (unseenAfter s unseen).length < unseen.length :=
  List.length_filter_lt_length_iff_exists.2 ⟨s, h, by simp⟩

/-- The providers of a member among the scopes that a queue leads to, with their distances.
Only the scopes of `unseen` have not been looked at. -/
def walk (g : ScopeGraph) (member : Text) (unseen : List ScopePath)
    (queue : List (ScopePath × Nat)) : List (ScopePath × Nat) :=
  match queue with
  | [] => []
  | (base, depth) :: rest =>
    if _h : base ∈ unseen then
      if g.declares base member then
        (base, depth) :: walk g member (unseenAfter base unseen) rest
      else
        walk g member (unseenAfter base unseen)
          (rest ++ (g.bases base).map fun b => (b, depth + 1))
    else walk g member unseen rest
termination_by (unseen.length, queue.length)
decreasing_by
  · exact .left _ _ (length_unseenAfter_lt _h)
  · exact .left _ _ (length_unseenAfter_lt _h)
  · exact .right _ (by simp)

/-- The scopes that supply a member to a scope by inheritance, nearest first, with their
distance. A scope that declares the member itself has none. -/
def providers (g : ScopeGraph) (s : ScopePath) (member : Text) : List (ScopePath × Nat) :=
  if g.declares s member then []
  else walk g member (unseenAfter s g.linked) ((g.bases s).map fun b => (b, 1))

theorem providers_of_declares {g : ScopeGraph} {s : ScopePath} {member : Text}
    (h : g.declares s member = true) : g.providers s member = [] := by
  rw [providers, if_pos h]

end Overlay.ScopeGraph
