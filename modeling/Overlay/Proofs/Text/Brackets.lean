/-
Depths, and texts with balanced brackets.

Every reader that looks for a mark outside of brackets keeps one number, the depth, and moves it up
at an opening bracket and down at a closing one. This file is about that number alone, so that the
cuts and the readers never count for themselves.

The depth has a floor: a bracket that closes nothing leaves it at zero. That makes the depth behind
a text no difference of counts in general, and it is the reason for both notions of balance here.

* `Balanced` is about round parentheses only, by the counts on all beginnings of a text. Where
  these stay in order the floor is never reached, and the depth is what the counts say
  (`Brackets.depthAfter_add_countP`). This is what a parameter list and the pattern of a directive
  have to be.
* `Brackets.IsBalanced` says the same of every pair of a set of brackets. The readers count all
  kinds together, so that `(` is closed by `>` as well as by `)`. A text that closes its brackets
  pair by pair closes them for such a reader too, whatever is read in front of it: the depth behind
  it is that in front (`Brackets.IsBalanced.depthAfter`), and it is never less inside
  (`Brackets.IsBalanced.le_depthAfter`).

Neither notion asks the pairs to be nested in each other. A reader with one number cannot tell
`(<)>` from `(<>)`, so nothing that is proved of it can depend on the difference.
-/
import Mathlib.Algebra.Order.BigOperators.Group.List
import Mathlib.Algebra.Order.Group.Nat
import Mathlib.Data.List.Infix
import Overlay.Proofs.Text.Words
import Overlay.Text.Cut

set_option autoImplicit false

namespace Overlay.Text

variable {b : Brackets} {depth : Nat} {t u p : Text} {c m : Char}

/-! ## Kinds of characters

That a character is no bracket and no mark is nearly always seen from its kind: it is a blank, or it
can stand in an identifier, and no bracket is of that kind. For a given set of brackets the second
half is a computation. -/

/-- A character of a kind is none that is not of that kind. -/
theorem ne_of_kind {kind : Char → Bool} (hc : kind c = true) (hm : kind m = false) : c ≠ m := by
  rintro rfl
  rw [hc] at hm
  simp at hm

/-- A character of a kind is none of some characters of which none is of that kind. -/
theorem not_mem_of_all {kind : Char → Bool} {cs : List Char} (hc : kind c = true)
    (hcs : (cs.all fun c => !kind c) = true) : c ∉ cs := by
  intro hmem
  have hother := List.all_eq_true.1 hcs c hmem
  simp [hc] at hother

/-! ## Depths

The depth behind a text is a fold over its characters, and only the brackets among them move it. -/

namespace Brackets

/-- The depth behind two texts is that behind the second, from where the first has left it. -/
theorem depthAfter_append (b : Brackets) (depth : Nat) (t u : Text) :
    b.depthAfter depth (t ++ u) = b.depthAfter (b.depthAfter depth t) u :=
  List.foldl_append

/-- A character that moves the depth. -/
def isBracket (b : Brackets) (c : Char) : Bool := c ∈ b.openers || c ∈ b.closers

/-- A character is no bracket if it is of a kind of which no bracket is. -/
theorem isBracket_eq_false {kind : Char → Bool} (hc : kind c = true)
    (hopen : (b.openers.all fun c => !kind c) = true)
    (hclose : (b.closers.all fun c => !kind c) = true) : b.isBracket c = false := by
  simp [isBracket, not_mem_of_all hc hopen, not_mem_of_all hc hclose]

/-- No other character does. -/
theorem step_of_not_isBracket (h : b.isBracket c = false) (depth : Nat) :
    b.step depth c = depth := by
  simp only [isBracket, Bool.or_eq_false_iff, decide_eq_false_iff_not] at h
  rw [step, if_neg h.1, if_neg h.2]

/-- Only the brackets of a text matter for the depth behind it. -/
theorem depthAfter_filter {keep : Char → Bool} (h : ∀ c, b.isBracket c = true → keep c = true)
    (depth : Nat) (t : Text) : b.depthAfter depth (t.filter keep) = b.depthAfter depth t := by
  induction t generalizing depth with
  | nil => rfl
  | cons c t ih =>
    by_cases hc : keep c = true
    · rw [List.filter_cons_of_pos hc, depthAfter_cons, depthAfter_cons, ih]
    · have hplain : b.isBracket c = false := by
        rw [Bool.eq_false_iff]
        exact fun hbracket => hc (h c hbracket)
      rw [List.filter_cons_of_neg hc, depthAfter_cons, step_of_not_isBracket hplain, ih]

/-- Behind a text without brackets the depth is that in front of it. -/
theorem depthAfter_of_forall (h : ∀ c ∈ t, b.isBracket c = false) (depth : Nat) :
    b.depthAfter depth t = depth := by
  induction t with
  | nil => rfl
  | cons c t ih =>
    obtain ⟨hc, ht⟩ := List.forall_mem_cons.1 h
    rw [depthAfter_cons, step_of_not_isBracket hc, ih ht]

/-- An opening parenthesis opens one more. -/
theorem round_step_open (depth : Nat) : round.step depth '(' = depth + 1 := rfl

/-- A closing parenthesis closes one, if one is open. -/
theorem round_step_close (depth : Nat) : round.step depth ')' = depth - 1 := rfl

/-- Of the round brackets, any other character is none. -/
theorem round_step_of_ne (hopen : c ≠ '(') (hclose : c ≠ ')') (depth : Nat) :
    round.step depth c = depth := by
  have hopeners : c ∉ round.openers := fun h => hopen (List.mem_singleton.1 h)
  have hclosers : c ∉ round.closers := fun h => hclose (List.mem_singleton.1 h)
  rw [step, if_neg hopeners, if_neg hclosers]

end Brackets

/-! ## Balanced parentheses

A condition on all beginnings of a text, and one on the whole. The first is what keeps the depth
off its floor, so that subtraction of counts makes sense; the second is what brings it back. -/

/-- Every closing parenthesis closes one that is open, and none is left open. -/
structure Balanced (t : Text) : Prop where
  opened : ∀ p, p <+: t → p.count ')' ≤ p.count '('
  closed : t.count '(' = t.count ')'

/-- Where no bracket closes more than is open, the depth is what the counts say. -/
theorem Brackets.depthAfter_add_countP {b : Brackets} (hb : ∀ c ∈ b.openers, c ∉ b.closers)
    {t : Text} {depth : Nat}
    (h : ∀ p, p <+: t → p.countP (· ∈ b.closers) ≤ depth + p.countP (· ∈ b.openers)) :
    b.depthAfter depth t + t.countP (· ∈ b.closers) = depth + t.countP (· ∈ b.openers) := by
  induction t generalizing depth with
  | nil => rfl
  | cons c t ih =>
    have hcons : ∀ p, p <+: t → (c :: p).countP (· ∈ b.closers)
        ≤ depth + (c :: p).countP (· ∈ b.openers) :=
      fun p hp => h (c :: p) ((List.prefix_cons_inj c).2 hp)
    rw [depthAfter_cons, step]
    by_cases hopen : c ∈ b.openers
    · simp only [List.countP_cons, hopen, hb c hopen, decide_true, decide_false, if_true,
        Bool.false_eq_true, if_false] at hcons ⊢
      have hrest : b.depthAfter (depth + 1) t + t.countP (· ∈ b.closers)
          = depth + 1 + t.countP (· ∈ b.openers) := by
        apply ih
        intro p hp
        have := hcons p hp
        omega
      omega
    by_cases hclose : c ∈ b.closers
    · simp only [List.countP_cons, hopen, hclose, decide_true, decide_false, if_true,
        Bool.false_eq_true, if_false] at hcons ⊢
      -- the bracket closes one that is open, so the depth does not stop at zero
      have hone := hcons [] List.nil_prefix
      rw [List.countP_nil, List.countP_nil] at hone
      have hrest : b.depthAfter (depth - 1) t + t.countP (· ∈ b.closers)
          = depth - 1 + t.countP (· ∈ b.openers) := by
        apply ih
        intro p hp
        have := hcons p hp
        omega
      omega
    · simp only [List.countP_cons, hopen, hclose, decide_false, Bool.false_eq_true,
        if_false] at hcons ⊢
      exact ih hcons

/-- The same of round parentheses, with the counts of the two characters. -/
theorem depthAfter_add_count {t : Text} {depth : Nat}
    (h : ∀ p, p <+: t → p.count ')' ≤ depth + p.count '(') :
    Brackets.round.depthAfter depth t + t.count ')' = depth + t.count '(' := by
  have hcount : ∀ (c : Char) (p : Text), p.countP (· ∈ [c]) = p.count c := by
    intro c p
    rw [List.count_eq_countP]
    exact List.countP_congr fun d _ => by simp
  have hopen (p : Text) : p.countP (· ∈ Brackets.round.openers) = p.count '(' := hcount '(' p
  have hclose (p : Text) : p.countP (· ∈ Brackets.round.closers) = p.count ')' := hcount ')' p
  rw [← hclose, ← hopen]
  apply Brackets.depthAfter_add_countP (by simp [Brackets.round])
  intro p hp
  rw [hclose, hopen]
  exact h p hp

/-- Behind a balanced text no parenthesis is open. -/
theorem Balanced.depthAfter_eq_zero {t : Text} (h : Balanced t) :
    Brackets.round.depthAfter 0 t = 0 := by
  have hcount : Brackets.round.depthAfter 0 t + t.count ')' = 0 + t.count '(' := by
    refine depthAfter_add_count ?_
    intro p hp
    rw [Nat.zero_add]
    exact h.opened p hp
  have := h.closed
  omega

/-- A text without parentheses is balanced. -/
theorem balanced_of_not_mem (hopen : '(' ∉ t) (hclose : ')' ∉ t) : Balanced t where
  opened q hq := by
    have hcount : q.count ')' = 0 := List.count_eq_zero.2 fun hmem => hclose (hq.subset hmem)
    omega
  closed := by rw [List.count_eq_zero.2 hopen, List.count_eq_zero.2 hclose]

/-- Balanced texts one behind the other are balanced: a beginning of the whole ends in the first
text, or has all of it and ends in the second. -/
theorem Balanced.append (ht : Balanced t) (hu : Balanced u) : Balanced (t ++ u) where
  opened q hq := by
    rcases List.prefix_or_prefix_of_prefix hq (List.prefix_append t u) with hshort | ⟨s, rfl⟩
    · exact ht.opened q hshort
    · have hs := hu.opened s ((List.prefix_append_right_inj t).1 hq)
      have hclosed := ht.closed
      rw [List.count_append, List.count_append]
      omega
  closed := by rw [List.count_append, List.count_append, ht.closed, hu.closed]

/-- So are any number of them, with a balanced separator between. -/
theorem Balanced.intercalate {sep : Text} {ps : List Text} (hsep : Balanced sep)
    (hps : ∀ p ∈ ps, Balanced p) : Balanced (sep.intercalate ps) :=
  intercalate_of_append Balanced (balanced_of_not_mem (by simp) (by simp)) Balanced.append hsep hps

/-! ## Balanced brackets of several kinds

The counts of a set of brackets are the sums of the counts of its pairs, and a sum of inequalities
is one. That needs the brackets to be all different, which `IsPaired` says of a set. -/

namespace Brackets

/-- Of each pair no bracket is closed before it was opened, and none is left open. -/
def IsBalanced (b : Brackets) (t : Text) : Prop :=
  ∀ pair ∈ b.openers.zip b.closers,
    (∀ p ∈ t.inits, p.count pair.2 ≤ p.count pair.1) ∧ t.count pair.1 = t.count pair.2

instance (b : Brackets) (t : Text) : Decidable (b.IsBalanced t) :=
  inferInstanceAs (Decidable (∀ pair ∈ b.openers.zip b.closers, _ ∧ _))

/-- Each opening bracket has a closing one, and all are different. -/
structure IsPaired (b : Brackets) : Prop where
  length_eq : b.openers.length = b.closers.length
  nodup_openers : b.openers.Nodup
  nodup_closers : b.closers.Nodup
  disjoint : ∀ c ∈ b.openers, c ∉ b.closers

theorem isPaired_all : all.IsPaired := ⟨rfl, by simp [all], by simp [all], by simp [all]⟩

theorem isPaired_angled : angled.IsPaired :=
  ⟨rfl, by simp [angled], by simp [angled], by simp [angled]⟩

/-- A text that closes all its brackets closes the angled ones among them. -/
theorem isBalanced_angled (h : all.IsBalanced t) : angled.IsBalanced t := by
  have hpairs : angled.openers.zip angled.closers ⊆ all.openers.zip all.closers := by
    simp [angled, all]
  exact fun pair hpair => h pair (hpairs hpair)

/-- Characters of several kinds are counted kind by kind. -/
theorem countP_mem_eq {cs : List Char} (h : cs.Nodup) (t : Text) :
    t.countP (· ∈ cs) = (cs.map t.count).sum := by
  induction cs with
  | nil => simp
  | cons c cs ih =>
    obtain ⟨hc, hcs⟩ := List.nodup_cons.1 h
    rw [List.map_cons, List.sum_cons, ← ih hcs]
    clear ih
    -- a character is counted for `c` or for the others, since `c` is none of them
    induction t with
    | nil => rfl
    | cons d t iht =>
      rw [List.countP_cons, List.countP_cons, List.count_cons, iht]
      by_cases hd : d = c
      · subst hd
        simp only [List.mem_cons_self, hc, decide_true, decide_false, beq_self_eq_true, if_true,
          Bool.false_eq_true, if_false]
        omega
      · simp only [List.mem_cons, hd, false_or, beq_iff_eq, if_false]
        omega

section Balanced

variable (hb : b.IsPaired) (h : b.IsBalanced t)
include hb

/-- To count all that opens is to count each kind of bracket, -/
theorem sum_openers (t : Text) : t.countP (· ∈ b.openers)
    = ((b.openers.zip b.closers).map fun pair => t.count pair.1).sum := by
  rw [countP_mem_eq hb.nodup_openers]
  conv_lhs => rw [← List.map_fst_zip hb.length_eq.le, List.map_map]
  rfl

/-- and the same for all that closes. -/
theorem sum_closers (t : Text) : t.countP (· ∈ b.closers)
    = ((b.openers.zip b.closers).map fun pair => t.count pair.2).sum := by
  rw [countP_mem_eq hb.nodup_closers]
  conv_lhs => rw [← List.map_snd_zip hb.length_eq.ge, List.map_map]
  rfl

include h

/-- In no beginning of a balanced text more brackets are closed than opened. -/
theorem IsBalanced.countP_le (hp : p <+: t) :
    p.countP (· ∈ b.closers) ≤ p.countP (· ∈ b.openers) := by
  rw [sum_openers hb, sum_closers hb]
  apply List.sum_le_sum
  intro pair hpair
  exact (h pair hpair).1 p ((List.mem_inits p t).2 hp)

theorem IsBalanced.countP_eq : t.countP (· ∈ b.openers) = t.countP (· ∈ b.closers) := by
  rw [sum_openers hb, sum_closers hb]
  apply congrArg List.sum
  exact List.map_congr_left fun pair hpair => (h pair hpair).2

/-- Inside a balanced text the depth is what the counts say. -/
theorem IsBalanced.depthAfter_add (hp : p <+: t) (depth : Nat) :
    b.depthAfter depth p + p.countP (· ∈ b.closers) = depth + p.countP (· ∈ b.openers) := by
  apply depthAfter_add_countP hb.disjoint
  intro q hq
  have := h.countP_le hb (hq.trans hp)
  omega

/-- Inside a balanced text the depth is never less than in front of it. -/
theorem IsBalanced.le_depthAfter (hp : p <+: t) (depth : Nat) :
    depth ≤ b.depthAfter depth p := by
  have hsum := h.depthAfter_add hb hp depth
  have hcount := h.countP_le hb hp
  omega

/-- Behind a balanced text the depth is that in front of it. -/
theorem IsBalanced.depthAfter (depth : Nat) : b.depthAfter depth t = depth := by
  have hsum := h.depthAfter_add hb (List.prefix_refl t) depth
  have hcount := h.countP_eq hb
  omega

end Balanced

end Brackets

end Overlay.Text
