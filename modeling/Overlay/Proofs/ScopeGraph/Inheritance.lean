/-
Which scopes the walk finds, told by ways through the graph.

`ScopeGraph.walk` keeps a queue of scopes with their distances. Queued scopes are read here
as the starts of ways: a way goes from base to base through unseen scopes, and only its last
scope may declare the member. The statement that carries the induction (`mem_walk`) is that
the walk finds a scope at a distance exactly if the scope declares the member and the
distance is the least at which a way from the queue reaches it.

The step that looks at a scope takes it out of the unseen ones, so every way through it is
lost. Such a way is replaced by what follows its last visit to the scope: that part starts
at a base of the scope, which is queued instead, and is no longer than the way was
(`Way.avoid`). For that to be no farther, the scope must have been the nearest of the queue,
and for its bases to go last, nothing queued may be more than one step farther than it
(`Layered`).

Since ways do not know in which order bases are listed, neither does the outcome. Two graphs
with the same links and the same declarations of one member have the same providers of that
member, at the same distances (`Alike`).
-/
import Mathlib.Order.Bounds.Basic
import Overlay.Pattern.Matching

set_option autoImplicit false

namespace Overlay.ScopeGraph

variable {g g' : ScopeGraph} {member : Text} {open₁ open₂ : List ScopePath}

/-! ## Ways

The scopes that a way may go through are an argument of it, as that is what changes from one step of
the walk to the next. -/

/-- A way from base to base through scopes of `open₁`. Only the last scope of a way may declare
the member. -/
inductive Way (g : ScopeGraph) (member : Text) (open₁ : List ScopePath) :
    ScopePath → Nat → ScopePath → Prop
  | here {a : ScopePath} : a ∈ open₁ → Way g member open₁ a 0 a
  | climb {a b c : ScopePath} {n : Nat} : a ∈ open₁ → g.declares a member = false →
      b ∈ g.bases a → Way g member open₁ b n c → Way g member open₁ a (n + 1) c

/-- A way starts at a scope that it may go through, -/
theorem Way.start_mem {a b : ScopePath} {n : Nat} (h : Way g member open₁ a n b) :
    a ∈ open₁ := by
  cases h with
  | here ha => exact ha
  | climb ha _ _ _ => exact ha

/-- and ends at one. -/
theorem Way.end_mem {a b : ScopePath} {n : Nat} (h : Way g member open₁ a n b) :
    b ∈ open₁ := by
  induction h with
  | here ha => exact ha
  | climb _ _ _ _ ih => exact ih

/-- A way stays a way where no scope is closed, no link is missing, and the same scopes
declare the member. -/
theorem Way.mono {a b : ScopePath} {n : Nat} (h : Way g member open₁ a n b)
    (hopen : ∀ s ∈ open₁, s ∈ open₂) (hbases : ∀ s, ∀ t ∈ g.bases s, t ∈ g'.bases s)
    (hdeclares : ∀ s, g.declares s member = g'.declares s member) :
    Way g' member open₂ a n b := by
  induction h with
  | here ha => exact .here (hopen _ ha)
  | climb ha hd hb _ ih => exact .climb (hopen _ ha) (hdeclares _ ▸ hd) (hbases _ _ hb) ih

/-- Looking at a scope takes it, and no other, out of the unseen ones. -/
theorem mem_unseenAfter {s t : ScopePath} {unseen : List ScopePath} :
    t ∈ unseenAfter s unseen ↔ t ∈ unseen ∧ t ≠ s := by
  simp [unseenAfter]

/-- **Cutting a way.** A way that does not end in `s` either avoids `s`, or what follows its
last visit to `s` is a shorter way that starts at a base of `s` and avoids it. The second
can only be if `s` does not declare the member. -/
theorem Way.avoid {a b s : ScopePath} {n : Nat} (h : Way g member open₁ a n b) (hbs : b ≠ s) :
    Way g member (unseenAfter s open₁) a n b
      ∨ g.declares s member = false
        ∧ ∃ c ∈ g.bases s, ∃ k < n, Way g member (unseenAfter s open₁) c k b := by
  -- the rest of the way is cut first, so that what is kept follows the last visit
  induction h with
  | here ha => exact .inl (.here (mem_unseenAfter.2 ⟨ha, hbs⟩))
  | @climb a b' b n ha hd hb' _ ih =>
    rcases ih hbs with htail | ⟨hs, c, hc, k, hk, hway⟩
    · by_cases has : a = s
      · subst has
        exact .inr ⟨hd, b', hb', n, Nat.lt_succ_self n, htail⟩
      · exact .inl (.climb (mem_unseenAfter.2 ⟨ha, has⟩) hd hb' htail)
    · exact .inr ⟨hs, c, hc, k, Nat.lt_succ_of_lt hk, hway⟩

/-- A way that avoids a scope is a way. -/
theorem Way.of_unseenAfter {a b s : ScopePath} {n : Nat}
    (h : Way g member (unseenAfter s open₁) a n b) : Way g member open₁ a n b :=
  h.mono (fun _ ht => (mem_unseenAfter.1 ht).1) (fun _ _ ht => ht) (fun _ => rfl)

/-! ## Queues

A queue stands for all the ways that start at its scopes, each as much longer as its scope is away
already. -/

/-- A way from the queue reaches the scope at this distance. -/
def Reaches (g : ScopeGraph) (member : Text) (unseen : List ScopePath)
    (queue : List (ScopePath × Nat)) (s : ScopePath) (depth : Nat) : Prop :=
  ∃ p ∈ queue, ∃ n, Way g member unseen p.1 n s ∧ p.2 + n = depth

/-- The queue is in the order of distance, and no distance is more than one step farther than
one before it. -/
def Layered (queue : List (ScopePath × Nat)) : Prop :=
  queue.Pairwise fun p q => p.2 ≤ q.2 ∧ q.2 ≤ p.2 + 1

/-- The bases of one scope are all one step farther than it. -/
def queued (g : ScopeGraph) (s : ScopePath) (depth : Nat) : List (ScopePath × Nat) :=
  (g.bases s).map fun b => (b, depth)

/-- What is queued are the bases of the scope, at one distance. -/
theorem mem_queued {s : ScopePath} {depth : Nat} {p : ScopePath × Nat} :
    p ∈ g.queued s depth ↔ p.1 ∈ g.bases s ∧ p.2 = depth := by
  obtain ⟨b, d⟩ := p
  simp [queued, eq_comm]

/-- So they are in order among themselves. -/
theorem layered_queued (s : ScopePath) (depth : Nat) : Layered (g.queued s depth) := by
  rw [Layered, List.pairwise_iff_forall_sublist]
  intro p q hpq
  have hp := (mem_queued.1 (hpq.subset List.mem_cons_self)).2
  have hq := (mem_queued.1 (hpq.subset (List.mem_cons_of_mem p List.mem_cons_self))).2
  omega

/-- Looking at the first scope of the queue and queueing its bases keeps the order. -/
theorem Layered.next {s : ScopePath} {depth : Nat} {rest : List (ScopePath × Nat)}
    (h : Layered ((s, depth) :: rest)) : Layered (rest ++ g.queued s (depth + 1)) := by
  obtain ⟨hhead, hrest⟩ := List.pairwise_cons.1 h
  refine List.pairwise_append.2 ⟨hrest, layered_queued s (depth + 1), ?_⟩
  intro p hp q hq
  obtain ⟨hle, hle'⟩ := hhead p hp
  have hqd := (mem_queued.1 hq).2
  dsimp only at hle hle'
  omega

/-- The head of a queue is its nearest scope, and no way from the queue is shorter. -/
theorem Reaches.le_of_layered {s t : ScopePath} {depth d : Nat} {unseen : List ScopePath}
    {rest : List (ScopePath × Nat)} (hlayered : Layered ((s, depth) :: rest))
    (h : Reaches g member unseen ((s, depth) :: rest) t d) : depth ≤ d := by
  obtain ⟨p, hp, n, -, rfl⟩ := h
  rcases List.mem_cons.1 hp with rfl | hp
  · exact Nat.le_add_right depth n
  · exact Nat.le_trans ((List.pairwise_cons.1 hlayered).1 p hp).1 (Nat.le_add_right p.2 n)

/-! ## One step of the walk

For each of the three things that the walk can do with the head of its queue: what becomes of the
ways that the queue stands for. -/

/-- A scope that was looked at is not reached again. -/
theorem not_reaches_of_not_mem {s : ScopePath} {d : Nat} {unseen : List ScopePath}
    {queue : List (ScopePath × Nat)} (h : s ∉ unseen) :
    ¬ Reaches g member unseen queue s d := by
  rintro ⟨p, -, n, hway, -⟩
  exact h hway.end_mem

/-- Behind a scope that declares the member nothing is found, so looking at it costs no other
scope a way. -/
theorem reaches_cons_of_declares {s t : ScopePath} {depth d : Nat} {unseen : List ScopePath}
    {rest : List (ScopePath × Nat)} (hs : g.declares s member = true) (hts : t ≠ s) :
    Reaches g member unseen ((s, depth) :: rest) t d
      ↔ Reaches g member (unseenAfter s unseen) rest t d := by
  constructor
  · rintro ⟨p, hp, n, hway, hd⟩
    rcases List.mem_cons.1 hp with rfl | hp
    · cases hway with
      | here => exact absurd rfl hts
      | climb _ hs' => simp [hs] at hs'
    · rcases hway.avoid hts with hway | ⟨hs', -⟩
      · exact ⟨p, hp, n, hway, hd⟩
      · simp [hs] at hs'
  · rintro ⟨p, hp, n, hway, hd⟩
    exact ⟨p, List.mem_cons_of_mem _ hp, n, hway.of_unseenAfter, hd⟩

/-- A scope that was looked at before has no way to start. -/
theorem reaches_cons_of_not_mem {s t : ScopePath} {depth d : Nat} {unseen : List ScopePath}
    {rest : List (ScopePath × Nat)} (hs : s ∉ unseen) :
    Reaches g member unseen ((s, depth) :: rest) t d ↔ Reaches g member unseen rest t d := by
  constructor
  · rintro ⟨p, hp, n, hway, hd⟩
    rcases List.mem_cons.1 hp with rfl | hp
    · exact absurd hway.start_mem hs
    · exact ⟨p, hp, n, hway, hd⟩
  · rintro ⟨p, hp, hway⟩
    exact ⟨p, List.mem_cons_of_mem _ hp, hway⟩

/-- The ways from the bases of a scope are ways from the scope. -/
theorem Reaches.of_next {s t : ScopePath} {depth d : Nat} {unseen : List ScopePath}
    {rest : List (ScopePath × Nat)} (hs : s ∈ unseen) (hnot : g.declares s member = false)
    (h : Reaches g member (unseenAfter s unseen) (rest ++ g.queued s (depth + 1)) t d) :
    Reaches g member unseen ((s, depth) :: rest) t d := by
  obtain ⟨p, hp, n, hway, rfl⟩ := h
  rcases List.mem_append.1 hp with hp | hp
  · exact ⟨p, List.mem_cons_of_mem _ hp, n, hway.of_unseenAfter, rfl⟩
  · obtain ⟨hbase, hdepth⟩ := mem_queued.1 hp
    refine ⟨(s, depth), List.mem_cons_self, n + 1, .climb hs hnot hbase hway.of_unseenAfter, ?_⟩
    rw [hdepth]
    omega

/-- Where a scope was looked at and its bases were queued, every way is replaced by one that
leads no farther. -/
theorem Reaches.next {s t : ScopePath} {depth d : Nat} {unseen : List ScopePath}
    {rest : List (ScopePath × Nat)} (hlayered : Layered ((s, depth) :: rest)) (hts : t ≠ s)
    (h : Reaches g member unseen ((s, depth) :: rest) t d) :
    ∃ d' ≤ d, Reaches g member (unseenAfter s unseen) (rest ++ g.queued s (depth + 1)) t d' := by
  obtain ⟨p, hp, n, hway, rfl⟩ := h
  have hle : depth ≤ p.2 := by
    rcases List.mem_cons.1 hp with rfl | hp
    · exact Nat.le_refl depth
    · exact ((List.pairwise_cons.1 hlayered).1 p hp).1
  rcases hway.avoid hts with hway' | ⟨-, c, hc, k, hk, hway'⟩
  · -- the way avoids the scope, so it does not start there
    refine ⟨p.2 + n, Nat.le_refl _, p, ?_, n, hway', rfl⟩
    rcases List.mem_cons.1 hp with rfl | hp
    · exact absurd rfl (mem_unseenAfter.1 hway'.start_mem).2
    · exact List.mem_append_left _ hp
  · refine ⟨depth + 1 + k, by omega, (c, depth + 1), ?_, k, hway', rfl⟩
    exact List.mem_append_right _ (mem_queued.2 ⟨hc, rfl⟩)

/-! ## What the walk finds

The induction is that of the walk, and the step lemmas are its cases. -/

/-- **The walk finds the nearest.** Of the scopes that ways from the queue lead to, it finds
those that declare the member, each at its least distance. -/
theorem mem_walk {unseen : List ScopePath} {queue : List (ScopePath × Nat)}
    (hlayered : Layered queue) (b : ScopePath) (d : Nat) :
    (b, d) ∈ g.walk member unseen queue
      ↔ g.declares b member = true ∧ IsLeast {d | Reaches g member unseen queue b d} d := by
  -- the cases are those of the walk, and `Layered` is what it keeps of the queue
  fun_induction walk g member unseen queue with
  | case1 unseen =>
    have hnone : ∀ d', ¬ Reaches g member unseen [] b d' := by
      rintro d' ⟨p, hp, -⟩
      exact List.not_mem_nil hp
    simp [IsLeast, hnone]
  | case2 unseen base depth rest hbase hd ih =>
    rw [List.mem_cons, ih (List.pairwise_cons.1 hlayered).2, Prod.mk.injEq]
    by_cases hb : b = base
    · -- found here, and nothing in the queue is nearer
      subst hb
      have hgone : ∀ d', ¬ Reaches g member (unseenAfter b unseen) rest b d' :=
        fun _ => not_reaches_of_not_mem fun h => (mem_unseenAfter.1 h).2 rfl
      have hleast : IsLeast {d | Reaches g member unseen ((b, depth) :: rest) b d} depth :=
        ⟨⟨(b, depth), List.mem_cons_self, 0, .here hbase, rfl⟩,
          fun _ h => Reaches.le_of_layered hlayered h⟩
      constructor
      · rintro (⟨-, rfl⟩ | ⟨-, hmem, -⟩)
        · exact ⟨hd, hleast⟩
        · exact absurd hmem (hgone d)
      · rintro ⟨-, h⟩
        exact .inl ⟨rfl, h.unique hleast⟩
    · simp only [hb, false_and, false_or, reaches_cons_of_declares hd hb]
  | case3 unseen base depth rest hbase hd ih =>
    -- not the same ways lead on, but their least distances are the same
    have hnot : g.declares base member = false := by simpa using hd
    rw [ih hlayered.next]
    refine and_congr_right fun hb => ?_
    have hne : b ≠ base := by
      rintro rfl
      exact hd hb
    constructor
    · rintro ⟨hmem, hleast⟩
      refine ⟨Reaches.of_next hbase hnot hmem, ?_⟩
      intro d' h
      obtain ⟨d'', hle, h'⟩ := Reaches.next hlayered hne h
      exact Nat.le_trans (hleast h') hle
    · rintro ⟨hmem, hleast⟩
      obtain ⟨d', hle, h'⟩ := Reaches.next hlayered hne hmem
      have heq : d' = d := Nat.le_antisymm hle (hleast (Reaches.of_next hbase hnot h'))
      subst heq
      exact ⟨h', fun _ h => hleast (Reaches.of_next hbase hnot h)⟩
  | case4 unseen base depth rest hbase ih =>
    -- looked at before: no way starts there
    rw [ih (List.pairwise_cons.1 hlayered).2]
    simp only [reaches_cons_of_not_mem hbase]

/-! ## Providers

The walk is begun with the bases of a scope, and with that scope looked at. -/

/-- The linked scopes are those that some scope has for a base. -/
theorem mem_linked {b : ScopePath} : b ∈ g.linked ↔ ∃ s, b ∈ g.bases s := by
  rw [linked, List.mem_flatMap]
  constructor
  · rintro ⟨⟨s, node⟩, hnode, hb⟩
    refine ⟨s, ?_⟩
    rw [bases, ScopeGraph.node, Registry.get?_eq_some_iff.2 hnode]
    exact hb
  · rintro ⟨s, hb⟩
    rw [bases, ScopeGraph.node] at hb
    cases hnode : g.nodes.get? s with
    | none =>
      rw [hnode] at hb
      exact absurd hb List.not_mem_nil
    | some node =>
      rw [hnode] at hb
      exact ⟨(s, node), Registry.get?_eq_some_iff.1 hnode, hb⟩

/-- The providers of a member that a scope does not declare: the scopes that declare it and
that a way from its bases leads to, each at its least distance. -/
theorem mem_providers {s : ScopePath} (hs : g.declares s member = false) (b : ScopePath)
    (d : Nat) :
    (b, d) ∈ g.providers s member
      ↔ g.declares b member = true
        ∧ IsLeast {d | Reaches g member (unseenAfter s g.linked) (g.queued s 1) b d} d := by
  rw [providers, if_neg (by simp [hs])]
  exact mem_walk (layered_queued s 1) b d

/-- A provider is found at one distance. -/
theorem providers_unique {s b : ScopePath} {d d' : Nat} (h : (b, d) ∈ g.providers s member)
    (h' : (b, d') ∈ g.providers s member) : d = d' := by
  cases hs : g.declares s member with
  | true =>
    rw [providers_of_declares hs] at h
    exact absurd h List.not_mem_nil
  | false => exact ((mem_providers hs b d).1 h).2.unique ((mem_providers hs b d').1 h').2

/-- The distance that is looked up for a scope is the one at which it was found. -/
theorem find?_providers {s b : ScopePath} {d : Nat} :
    ((g.providers s member).find? fun p => p.1 = b).map Prod.snd = some d
      ↔ (b, d) ∈ g.providers s member := by
  rw [Option.map_eq_some_iff]
  constructor
  · rintro ⟨⟨b', d'⟩, hfind, rfl⟩
    have hb : b' = b := by simpa using List.find?_some hfind
    exact hb ▸ List.mem_of_find?_eq_some hfind
  · intro h
    have hfound : ((g.providers s member).find? fun p => p.1 = b).isSome = true := by
      rw [List.find?_isSome]
      exact ⟨(b, d), h, by simp⟩
    obtain ⟨⟨b', d'⟩, hfind⟩ := Option.isSome_iff_exists.1 hfound
    obtain rfl : b' = b := by simpa using List.find?_some hfind
    exact ⟨(b', d'), hfind, providers_unique (List.mem_of_find?_eq_some hfind) h⟩

/-! ## Graphs that are alike

Ways do not ask for the order of bases, so all that was said by ways is the same for two graphs that
differ in that order. Nothing about the walk itself is proved a second time. -/

/-- Two graphs have the same links, in whatever order, and the same scopes declare the
member. -/
structure Alike (member : Text) (g g' : ScopeGraph) : Prop where
  bases : ∀ s b, b ∈ g.bases s ↔ b ∈ g'.bases s
  declares : ∀ s, g.declares s member = g'.declares s member

/-- A graph is like itself. -/
theorem Alike.refl (member : Text) (g : ScopeGraph) : Alike member g g :=
  ⟨fun _ _ => Iff.rfl, fun _ => rfl⟩

/-- Which of two graphs is the first makes no difference. -/
theorem Alike.symm (h : Alike member g g') : Alike member g' g :=
  ⟨fun s b => (h.bases s b).symm, fun s => (h.declares s).symm⟩

/-- A way from the bases of a scope is one in a graph that is alike. -/
theorem Alike.reaches {s b : ScopePath} {d : Nat} (h : Alike member g g')
    (hway : Reaches g member (unseenAfter s g.linked) (g.queued s 1) b d) :
    Reaches g' member (unseenAfter s g'.linked) (g'.queued s 1) b d := by
  obtain ⟨p, hp, n, hway, hd⟩ := hway
  obtain ⟨hbase, hdepth⟩ := mem_queued.1 hp
  refine ⟨p, mem_queued.2 ⟨(h.bases s p.1).1 hbase, hdepth⟩, n, ?_, hd⟩
  refine hway.mono ?_ (fun a c => (h.bases a c).1) h.declares
  intro t ht
  obtain ⟨hlinked, hts⟩ := mem_unseenAfter.1 ht
  obtain ⟨a, ha⟩ := mem_linked.1 hlinked
  exact mem_unseenAfter.2 ⟨mem_linked.2 ⟨a, (h.bases a t).1 ha⟩, hts⟩

/-- Graphs that are alike have the same providers. -/
theorem Alike.mem_providers {s b : ScopePath} {d : Nat} (h : Alike member g g') :
    (b, d) ∈ g.providers s member ↔ (b, d) ∈ g'.providers s member := by
  cases hs : g.declares s member with
  | true =>
    have hs' : g'.declares s member = true := by rw [← h.declares, hs]
    rw [providers_of_declares hs, providers_of_declares hs']
  | false =>
    have hs' : g'.declares s member = false := by rw [← h.declares, hs]
    have hreaches : ∀ d, Reaches g member (unseenAfter s g.linked) (g.queued s 1) b d
        ↔ Reaches g' member (unseenAfter s g'.linked) (g'.queued s 1) b d :=
      fun _ => ⟨h.reaches, h.symm.reaches⟩
    rw [ScopeGraph.mem_providers hs, ScopeGraph.mem_providers hs', h.declares b]
    simp only [hreaches]

end Overlay.ScopeGraph

namespace Overlay

/-- The depth of a scope limit is the same in graphs that are alike. -/
theorem ScopeLimit.depth?_of_alike (limit : ScopeLimit) (v : Variant) {leaf : Text}
    {g g' : ScopeGraph} (h : ScopeGraph.Alike leaf g g') :
    limit.depth? leaf v g = limit.depth? leaf v g' := by
  cases limit with
  | unqualified => rfl
  | wildcard => rfl
  | exact scope =>
    have hfind : ((g.providers v.scope leaf).find? fun p => p.1 = scope).map Prod.snd
        = ((g'.providers v.scope leaf).find? fun p => p.1 = scope).map Prod.snd := by
      refine Option.ext fun d => ?_
      rw [ScopeGraph.find?_providers, ScopeGraph.find?_providers, h.mem_providers]
    rw [depth?, depth?, hfind]

/-- A pattern matches a variant alike in graphs that are alike for the variant's leaf. -/
theorem Pattern.depth?_of_alike (p : Pattern) (v : Variant) {g g' : ScopeGraph}
    (h : ScopeGraph.Alike v.leaf g g') : p.depth? v g = p.depth? v g' := by
  cases p with
  | global => rfl
  | named limit leaf signature =>
    rw [depth?, depth?]
    by_cases hleaf : leaf = v.leaf
    · rw [hleaf, limit.depth?_of_alike v h]
    · simp [hleaf]

end Overlay
