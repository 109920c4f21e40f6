/-
Inheritance told by the links alone.

`Inheritance` says what the walk finds by ways through the scopes that are still unseen. Here
the unseen scopes go: a scope supplies a member exactly if it declares it and is reached by
links to bases over scopes that do not, and its distance is the least number of such links
(`mem_providers_iff_ascent`). The start is never on a shortest way, so closing it to the walk
costs nothing.

The walk is a recursion on the scopes that are unseen. The second half reads it as a loop: a
state with the scopes that were looked at, the queue and what was found, and rounds that take
one scope from the queue each. Every round takes one link away, out of those in the queue and
those of scopes that were not looked at, so the loop ends after at most as many rounds as the
graph has links, whether it has cycles or not.
-/
import Mathlib.Data.List.Basic
import Mathlib.Data.List.Nodup
import Mathlib.Order.Bounds.Basic
import Overlay.Proofs.ScopeGraph.Inheritance

set_option autoImplicit false

namespace Overlay

/-- A value under a key and what stands under all other keys make up the registry. -/
theorem Registry.perm_erase {κ α : Type} [DecidableEq κ] {r : Registry κ α} {key : κ} {value : α}
    (h : r.get? key = some value) : r.entries.Perm ((key, value) :: (r.erase key).entries) := by
  have hnodup : ∀ r : Registry κ α, r.entries.Nodup := fun r =>
    List.Nodup.of_map Prod.fst r.distinct
  have hout : (key, value) ∉ (r.erase key).entries := fun hmem =>
    r.not_mem_keys_erase key (List.mem_map.2 ⟨(key, value), hmem, rfl⟩)
  refine (List.perm_ext_iff_of_nodup (hnodup r) (List.nodup_cons.2 ⟨hout, hnodup _⟩)).2 ?_
  rintro ⟨k, v⟩
  rw [List.mem_cons, ← get?_eq_some_iff, ← get?_eq_some_iff, get?_erase]
  by_cases hk : k = key
  · subst hk
    simp [h, eq_comm]
  · simp [hk]

namespace ScopeGraph

variable {g g' : ScopeGraph} {member : Text} {s b : ScopePath}

/-! ## Ascents

An ascent may go anywhere, also through its start and through one scope several times. The ways of
the walk go through unseen scopes only. So there are more ascents than ways, but none of those that
are left out is shorter than all that are left. -/

/-- **Ascent.** The scope `b` is reached from `s` by this many links to a base, and of the
scopes between the two none declares the member. -/
inductive Ascent (g : ScopeGraph) (member : Text) : ScopePath → Nat → ScopePath → Prop
  | direct {s b : ScopePath} : b ∈ g.bases s → Ascent g member s 1 b
  | climb {s c b : ScopePath} {n : Nat} : c ∈ g.bases s → g.declares c member = false →
      Ascent g member c n b → Ascent g member s (n + 1) b

/-- An ascent is one link, and then a way through scopes that are bases of some scope. -/
theorem ascent_iff_way {n : Nat} :
    Ascent g member s n b ↔ ∃ c ∈ g.bases s, ∃ k, Way g member g.linked c k b ∧ n = k + 1 := by
  constructor
  · intro h
    induction h with
    | @direct s b hb => exact ⟨b, hb, 0, .here (mem_linked.2 ⟨s, hb⟩), rfl⟩
    | @climb s c b n hc hd _ ih =>
      obtain ⟨c', hc', k, hway, rfl⟩ := ih
      exact ⟨c, hc, k + 1, .climb (mem_linked.2 ⟨s, hc⟩) hd hc' hway, rfl⟩
  · rintro ⟨c, hc, k, hway, rfl⟩
    induction hway generalizing s with
    | here _ => exact .direct hc
    | climb _ hd hb _ ih => exact .climb hc hd (ih hb)

/-- What a way from the bases reaches, avoiding the start, an ascent reaches. -/
theorem Reaches.ascent {d : Nat}
    (h : Reaches g member (unseenAfter s g.linked) (g.queued s 1) b d) :
    Ascent g member s d b := by
  obtain ⟨p, hp, n, hway, rfl⟩ := h
  obtain ⟨hbase, hdepth⟩ := mem_queued.1 hp
  refine ascent_iff_way.2 ⟨p.1, hbase, n, hway.of_unseenAfter, ?_⟩
  omega

/-- An ascent that comes back to its start is longer than what follows its last visit there. -/
theorem Ascent.reaches {d : Nat} (h : Ascent g member s d b) (hbs : b ≠ s) :
    ∃ d' ≤ d, Reaches g member (unseenAfter s g.linked) (g.queued s 1) b d' := by
  obtain ⟨c, hc, k, hway, rfl⟩ := ascent_iff_way.1 h
  rcases hway.avoid hbs with hway | ⟨-, c', hc', k', hlt, hway⟩
  · exact ⟨1 + k, by omega, (c, 1), mem_queued.2 ⟨hc, rfl⟩, k, hway, rfl⟩
  · exact ⟨1 + k', by omega, (c', 1), mem_queued.2 ⟨hc', rfl⟩, k', hway, rfl⟩

/-- **The providers, told by the links.** The scopes that supply a member to one that does not
declare it are those that declare it and that an ascent leads to, each at the length of its
shortest ascent. -/
theorem mem_providers_iff_ascent (hs : g.declares s member = false) (b : ScopePath) (d : Nat) :
    (b, d) ∈ g.providers s member
      ↔ g.declares b member = true ∧ IsLeast {n | Ascent g member s n b} d := by
  rw [mem_providers hs]
  refine and_congr_right fun hb => ?_
  have hbs : b ≠ s := by
    rintro rfl
    simp [hs] at hb
  -- not every ascent is a way that avoids the start, but none is shorter than all of these
  constructor
  · rintro ⟨hmem, hleast⟩
    refine ⟨hmem.ascent, ?_⟩
    intro n hn
    obtain ⟨d', hle, h'⟩ := Ascent.reaches hn hbs
    exact Nat.le_trans (hleast h') hle
  · rintro ⟨hmem, hleast⟩
    obtain ⟨d', hle, h'⟩ := Ascent.reaches hmem hbs
    obtain rfl : d' = d := Nat.le_antisymm hle (hleast h'.ascent)
    exact ⟨h', fun _ h => hleast h.ascent⟩

/-! ## The order in which providers are found

The queue is in layers, so what is found is found nearest first. -/

/-- The walk finds the scopes nearest first, and none twice. -/
theorem walk_ordered {unseen : List ScopePath} {queue : List (ScopePath × Nat)}
    (hlayered : Layered queue) :
    (g.walk member unseen queue).Pairwise fun p q => p.1 ≠ q.1 ∧ p.2 ≤ q.2 := by
  fun_induction walk g member unseen queue with
  | case1 unseen => exact .nil
  | case2 unseen base depth rest hbase hd ih =>
    have hrest := (List.pairwise_cons.1 hlayered).2
    refine List.pairwise_cons.2 ⟨?_, ih hrest⟩
    rintro ⟨t, d⟩ ht
    -- what is found later is reached later, and not through this scope
    obtain ⟨-, hreaches, -⟩ := (mem_walk hrest t d).1 ht
    obtain ⟨p, hp, n, hway, hpn⟩ := hreaches
    refine ⟨fun heq => (mem_unseenAfter.1 hway.end_mem).2 heq.symm, ?_⟩
    exact Reaches.le_of_layered hlayered ⟨p, List.mem_cons_of_mem _ hp, n, hway, hpn⟩
  | case3 unseen base depth rest hbase hd ih => exact ih hlayered.next
  | case4 unseen base depth rest hbase ih => exact ih (List.pairwise_cons.1 hlayered).2

/-- So the providers are listed nearest first, and none of them twice. -/
theorem providers_ordered (g : ScopeGraph) (s : ScopePath) (member : Text) :
    (g.providers s member).Pairwise fun p q => p.1 ≠ q.1 ∧ p.2 ≤ q.2 := by
  rw [providers]
  split
  · exact .nil
  · exact walk_ordered (layered_queued s 1)

/-- The order in which bases were declared can only change the order among providers. -/
theorem Alike.perm_providers (h : Alike member g g') (s : ScopePath) :
    (g.providers s member).Perm (g'.providers s member) := by
  have hnodup : ∀ g : ScopeGraph, (g.providers s member).Nodup := fun g =>
    (g.providers_ordered s member).imp fun hpq heq => hpq.1 (congrArg Prod.fst heq)
  refine (List.perm_ext_iff_of_nodup (hnodup g) (hnodup g')).2 ?_
  rintro ⟨b, d⟩
  exact h.mem_providers

/-! ## The walk as a loop

The walk of the library is a recursion that ends because the unseen scopes become fewer. The loop
has no measure in it: it is a round, and a relation that says how many rounds lead to an empty
queue. That there is such a number is then a theorem and not part of the definition. -/

/-- Where the loop stands. -/
structure Search where
  /-- The scopes that were looked at. -/
  seen : List ScopePath
  queue : List (ScopePath × Nat)
  found : List (ScopePath × Nat)
  deriving DecidableEq

namespace Search

/-- Before the first round the start counts as looked at, and its bases are queued. -/
def start (g : ScopeGraph) (s : ScopePath) : Search := ⟨[s], g.queued s 1, []⟩

/-- One round of the loop; there is none if the queue is empty. -/
def round? (g : ScopeGraph) (member : Text) (w : Search) : Option Search :=
  match w.queue with
  | [] => none
  | (base, depth) :: rest =>
    if base ∈ w.seen then some ⟨w.seen, rest, w.found⟩
    else if g.declares base member then
      some ⟨base :: w.seen, rest, w.found ++ [(base, depth)]⟩
    else some ⟨base :: w.seen, rest ++ g.queued base (depth + 1), w.found⟩

/-- After this many rounds the queue is empty, and this was found. -/
inductive Ends (g : ScopeGraph) (member : Text) :
    Nat → Search → List (ScopePath × Nat) → Prop
  | done {w : Search} : w.round? g member = none → Ends g member 0 w w.found
  | round {w w' : Search} {n : Nat} {found : List (ScopePath × Nat)} :
      w.round? g member = some w' → Ends g member n w' found → Ends g member (n + 1) w found

end Search

/-! ## The loop ends

A link is in the queue at most once, as its scope is looked at at most once. The links outside,
those of scopes that were not looked at, go into the queue with their scope, and leave it one by
one. -/

/-- The number of links of the scopes outside `seen`. -/
def linksOutside (g : ScopeGraph) (seen : List ScopePath) : Nat :=
  ((g.nodes.entries.filter fun e => e.1 ∉ seen).flatMap fun e => e.2.bases).length

/-- Before any scope was looked at, all links are outside. -/
theorem linksOutside_nil (g : ScopeGraph) : g.linksOutside [] = g.linked.length := by
  rw [linksOutside, linked, List.filter_eq_self.2 fun _ _ => by simp]

/-- Looking at a scope takes its links out of those that are outside. -/
theorem linksOutside_cons {seen : List ScopePath} (hs : s ∉ seen) :
    g.linksOutside seen = (g.bases s).length + g.linksOutside (s :: seen) := by
  have hfilter : ∀ es : List (ScopePath × ScopeNode),
      (es.filter fun e => e.1 ∉ s :: seen)
        = (es.filter fun e => e.1 ≠ s).filter fun e => e.1 ∉ seen := by
    intro es
    rw [List.filter_filter]
    refine List.filter_congr fun e _ => ?_
    simp [Bool.and_comm]
  rw [linksOutside, linksOutside, hfilter, bases, node]
  cases hnode : g.nodes.get? s with
  | none =>
    -- a scope without a node has no links, and there is nothing to take out
    have hsame : (g.nodes.entries.filter fun e => e.1 ≠ s) = g.nodes.entries := by
      rw [List.filter_eq_self]
      rintro ⟨t, n⟩ he
      have hget := Registry.get?_eq_some_iff.2 he
      have hts : t ≠ s := by
        rintro rfl
        simp [hnode] at hget
      simpa using hts
    rw [hsame]
    simp [ScopeNode.empty]
  | some n =>
    have hperm := ((Registry.perm_erase hnode).filter fun e => e.1 ∉ seen).flatMap_right
      fun e => e.2.bases
    rw [hperm.length_eq, List.filter_cons_of_pos (by simpa using hs), List.flatMap_cons,
      List.length_append]
    rfl

/-- Of the scopes that are bases of some scope, the unseen ones are those that were not looked
at. -/
def Complementary (g : ScopeGraph) (unseen seen : List ScopePath) : Prop :=
  ∀ t ∈ g.linked, t ∈ unseen ↔ t ∉ seen

/-- Before any scope was looked at, all of them are unseen. -/
theorem complementary_nil (g : ScopeGraph) : g.Complementary g.linked [] := by
  intro t ht
  simpa using ht

/-- Looking at a scope is the same on either side. -/
theorem Complementary.cons {unseen seen : List ScopePath} (h : g.Complementary unseen seen)
    (s : ScopePath) : g.Complementary (unseenAfter s unseen) (s :: seen) := by
  intro t ht
  rw [mem_unseenAfter, h t ht, List.mem_cons, not_or, and_comm]

/-- **The walk is the loop.** Where the two agree on what was looked at, the loop ends after at
most as many rounds as there are links in the queue and outside, and finds what the walk
finds. -/
theorem Search.ends_walk {seen unseen : List ScopePath} {queue : List (ScopePath × Nat)}
    (hunseen : g.Complementary unseen seen) (hqueue : ∀ p ∈ queue, p.1 ∈ g.linked)
    (found : List (ScopePath × Nat)) :
    ∃ n ≤ queue.length + g.linksOutside seen,
      Ends g member n ⟨seen, queue, found⟩ (found ++ g.walk member unseen queue) := by
  -- one round for each call of the walk; what the loop has found before goes along
  fun_induction walk g member unseen queue generalizing seen found with
  | case1 unseen =>
    rw [List.append_nil]
    exact ⟨0, Nat.zero_le _, .done rfl⟩
  | case2 unseen base depth rest hbase hd ih =>
    obtain ⟨hlinked, hrest⟩ := List.forall_mem_cons.1 hqueue
    have hout : base ∉ seen := (hunseen base hlinked).1 hbase
    obtain ⟨n, hn, hends⟩ := ih (hunseen.cons base) hrest (found ++ [(base, depth)])
    rw [← List.append_cons] at hends
    refine ⟨n + 1, ?_, .round ?_ hends⟩
    · -- the links of a scope that declares the member are never queued
      rw [linksOutside_cons hout, List.length_cons]
      omega
    · rw [round?]
      simp [hout, hd]
  | case3 unseen base depth rest hbase hd ih =>
    obtain ⟨hlinked, hrest⟩ := List.forall_mem_cons.1 hqueue
    have hout : base ∉ seen := (hunseen base hlinked).1 hbase
    have hqueue' : ∀ p ∈ rest ++ g.queued base (depth + 1), p.1 ∈ g.linked := by
      intro p hp
      rcases List.mem_append.1 hp with hp | hp
      · exact hrest p hp
      · exact mem_linked.2 ⟨base, (mem_queued.1 hp).1⟩
    obtain ⟨n, hn, hends⟩ := ih (hunseen.cons base) hqueue' found
    refine ⟨n + 1, ?_, .round ?_ hends⟩
    · -- its links go from outside into the queue, and the scope itself leaves the queue
      rw [linksOutside_cons hout, List.length_cons]
      rw [List.length_append, List.length_map] at hn
      omega
    · rw [round?]
      simp [hout, hd]
      rfl
  | case4 unseen base depth rest hbase ih =>
    obtain ⟨hlinked, hrest⟩ := List.forall_mem_cons.1 hqueue
    -- a scope that is queued but not unseen was looked at
    have hin : base ∈ seen := by
      by_contra hout
      exact hbase ((hunseen base hlinked).2 hout)
    obtain ⟨n, hn, hends⟩ := ih hunseen hrest found
    refine ⟨n + 1, ?_, .round ?_ hends⟩
    · rw [List.length_cons]
      omega
    · rw [round?]
      simp [hin]

/-- The loop from a scope ends within as many rounds as the graph has links. -/
theorem Search.ends_providers (hs : g.declares s member = false) :
    ∃ n ≤ g.linked.length, Ends g member n (.start g s) (g.providers s member) := by
  have hqueue : ∀ p ∈ g.queued s 1, p.1 ∈ g.linked := fun p hp =>
    mem_linked.2 ⟨s, (mem_queued.1 hp).1⟩
  obtain ⟨n, hn, hends⟩ := Search.ends_walk (g.complementary_nil.cons s) hqueue []
  refine ⟨n, ?_, ?_⟩
  · rwa [queued, List.length_map, ← linksOutside_cons List.not_mem_nil, linksOutside_nil] at hn
  · rw [providers, if_neg (by simp [hs])]
    exact hends

/-- The loop can end in one way only. -/
theorem Search.Ends.unique {n n' : Nat} {w : Search} {found found' : List (ScopePath × Nat)}
    (h : Ends g member n w found) (h' : Ends g member n' w found') : found = found' := by
  induction h generalizing n' with
  | done hnone =>
    cases h' with
    | done _ => rfl
    | round hround _ => simp [hnone] at hround
  | round hround _ ih =>
    cases h' with
    | done hnone => simp [hround] at hnone
    | round hround' h' =>
      rw [hround, Option.some_inj] at hround'
      subst hround'
      exact ih h'

/-- So the providers of a member can be read off any end of the loop, round by round. -/
theorem Search.providers_eq_of_ends {n : Nat} {found : List (ScopePath × Nat)}
    (hs : g.declares s member = false) (h : Ends g member n (.start g s) found) :
    g.providers s member = found := by
  obtain ⟨_, -, hends⟩ := ends_providers hs
  exact hends.unique h

/-- **Which scopes supply a member.** None, if the scope declares it. Otherwise they are the
scopes that declare it and that an ascent leads to, each once and at the length of its
shortest ascent, nearest first; and the loop that looks for them ends within as many rounds
as the graph has links. Graphs that differ in the order of bases alone have the same
providers at the same distances. -/
theorem providers_nearest (g : ScopeGraph) (s : ScopePath) (member : Text) :
    (g.declares s member = true → g.providers s member = [])
      ∧ (g.declares s member = false →
        (g.providers s member).Pairwise (fun p q => p.1 ≠ q.1 ∧ p.2 ≤ q.2)
        ∧ (∀ b d, (b, d) ∈ g.providers s member
            ↔ g.declares b member = true ∧ IsLeast {n | Ascent g member s n b} d)
        ∧ ∃ n ≤ g.linked.length, Search.Ends g member n (.start g s) (g.providers s member))
      ∧ ∀ g', Alike member g g' → (g.providers s member).Perm (g'.providers s member) :=
  ⟨providers_of_declares,
    fun hs => ⟨g.providers_ordered s member, mem_providers_iff_ascent hs,
      Search.ends_providers hs⟩,
    fun _ h => h.perm_providers s⟩

/-- Of `A`, which is a base of its own base `B`, the member of `D` is two links away; that of `E`,
behind `D`, is not looked for. The same is found where the bases of `A` are the other way round. -/
theorem providers_nearest_cycle :
    let path (c : Char) : ScopePath := ⟨[[c]]⟩
    let graph (bases : List ScopePath) := ((((empty.declareScope (path 'A') bases).declareScope
      (path 'B') [path 'A', path 'D']).declareScope (path 'D') [path 'E']).declareMember (path 'D')
      ['m']).declareMember (path 'E') ['m']
    let g := graph [path 'B', path 'C']
    let g' := graph [path 'C', path 'B']
    g.declares (path 'D') ['m'] = true ∧ g.providers (path 'D') ['m'] = []
      ∧ g.declares (path 'A') ['m'] = false ∧ g.providers (path 'A') ['m'] = [(path 'D', 2)]
      ∧ IsLeast {n | Ascent g ['m'] (path 'A') n (path 'D')} 2
      ∧ (∃ n ≤ 5, Search.Ends g ['m'] n (.start g (path 'A')) [(path 'D', 2)])
      ∧ Alike ['m'] g g' ∧ [(path 'D', 2)].Perm (g'.providers (path 'A') ['m']) := by
  intro path graph g g'
  have hdeclared : g.declares (path 'D') ['m'] = true := by decide
  have hinherited : g.declares (path 'A') ['m'] = false := by decide
  have hfound : g.providers (path 'A') ['m'] = [(path 'D', 2)] :=
    Search.providers_eq_of_ends hinherited
      (.round rfl (.round rfl (.round rfl (.round rfl (.done rfl)))))
  have halike : Alike ['m'] g g' := by
    refine ⟨fun s b => ?_, fun s => ?_⟩
    · simp only [g, g', graph, bases_declareMember, mem_bases_declareScope, List.mem_pair,
        or_comm (a := b = path 'B')]
    · simp only [g, g', graph, declares_declareMember, declares_declareScope]
  obtain ⟨hown, hnearest, hperm⟩ := providers_nearest g (path 'A') ['m']
  obtain ⟨-, hleast, hends⟩ := hnearest hinherited
  have hlinks : g.linked.length = 5 := by decide +kernel
  rw [hfound, hlinks] at hends
  refine ⟨hdeclared, (providers_nearest g (path 'D') ['m']).1 hdeclared, hinherited, hfound, ?_,
    hends, halike, hfound ▸ hperm g' halike⟩
  exact ((hleast (path 'D') 2).1 (hfound ▸ List.mem_singleton_self _)).2

end ScopeGraph

end Overlay
