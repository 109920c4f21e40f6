/-
Chains of readers.

A reader of the library is a chain of smaller ones in `Except`: each works on what the one before it
left, and the first that fails ends the chain with its fault. What is proved of readers is nearly
always about their success: what was read, and what is left. So each way of chaining them has one
lemma here that says when the result is a success, and which successes it is made of.

With these a chain is taken apart by `obtain` and put together by an anonymous constructor, and no
proof about a reader has to look at the faults of its links.
-/

set_option autoImplicit false

namespace Overlay

variable {ε ε' α β : Type}

/-! ## Two readers -/

/-- A chain of two readers succeeds exactly if the first one does, and then the second. -/
theorem bind_eq_ok_iff {x : Except ε α} {f : α → Except ε β} {b : β} :
    (x >>= f) = .ok b ↔ ∃ a, x = .ok a ∧ f a = .ok b := by
  cases x with
  | error e => simp [bind, Except.bind]
  | ok a => simp [bind, Except.bind]

/-- What is made of a result is there exactly if the result is. -/
theorem map_eq_ok_iff {x : Except ε α} {f : α → β} {b : β} :
    x.map f = .ok b ↔ ∃ a, x = .ok a ∧ f a = b := by
  cases x with
  | error e => simp [Except.map]
  | ok a => simp [Except.map]

/-- Another wording of the fault changes no success. -/
theorem mapError_eq_ok_iff {x : Except ε α} {f : ε → ε'} {a : α} :
    x.mapError f = .ok a ↔ x = .ok a := by
  cases x with
  | error e =>
    show (.error (f e) : Except ε' α) = .ok a ↔ (.error e : Except ε α) = .ok a
    simp
  | ok b =>
    show (.ok b : Except ε' α) = .ok a ↔ (.ok b : Except ε α) = .ok a
    simp

/-- If only the success is asked for, what is made of it plays no part. -/
theorem map_isOk_iff {x : Except ε α} {f : α → β} :
    (∃ b, x.map f = .ok b) ↔ ∃ a, x = .ok a := by
  cases x <;> simp [Except.map]

/-! ## As many readers as there are parts -/

/-- A list is read exactly if each of its parts is. Which results come out is left open: those who
use this ask for the parts one by one. -/
theorem mapM_isOk_iff {f : α → Except ε β} {xs : List α} :
    (∃ ys, xs.mapM f = .ok ys) ↔ ∀ x ∈ xs, ∃ y, f x = .ok y := by
  induction xs with
  | nil => simp [pure, Except.pure]
  | cons x xs ih =>
    rw [List.forall_mem_cons, ← ih, List.mapM_cons]
    simp only [bind_eq_ok_iff, pure, Except.pure, Except.ok.injEq]
    constructor
    · rintro ⟨_, y, hy, ys, hys, rfl⟩
      exact ⟨⟨y, hy⟩, ys, hys⟩
    · rintro ⟨⟨y, hy⟩, ys, hys⟩
      exact ⟨y :: ys, y, hy, ys, hys, rfl⟩

end Overlay
