import Mathlib.Data.List.Basic
import Mathlib.Tactic.Common

/-! Sequences of writes that a crash can cut short after any of them. -/

namespace Crash

variable {σ : Type}

/-- The state after the first writes of a sequence. -/
def after (writes : List (σ → σ)) (k : Nat) (s : σ) : σ :=
  (writes.take k).foldl (fun s write => write s) s

/-- The state after every write of a sequence. -/
def all (writes : List (σ → σ)) (s : σ) : σ := writes.foldl (fun s write => write s) s

theorem after_append (first second : List (σ → σ)) (k : Nat) (s : σ) :
    (k ≤ first.length ∧ after (first ++ second) k s = after first k s) ∨
      ∃ j, after (first ++ second) k s = after second j (all first s) := by
  rcases Nat.le_total k first.length with early | late
  · exact Or.inl ⟨early, by simp [after, List.take_append_of_le_length early]⟩
  · refine Or.inr ⟨k - first.length, ?_⟩
    simp [after, all, List.take_append, List.take_of_length_le late]

theorem after_singleton (write : σ → σ) (k : Nat) (s : σ) :
    after [write] k s = s ∨ after [write] k s = write s := by
  cases k with
  | zero => exact Or.inl rfl
  | succ k => exact Or.inr (by simp [after])

theorem all_append (first second : List (σ → σ)) (s : σ) :
    all (first ++ second) s = all second (all first s) := by
  simp [all]

variable {write : Nat → σ → σ} {n : Nat} {s : σ}

theorem after_loop (inv : Nat → σ → Prop) (step : ∀ i s, i < n → inv i s → inv (i + 1) (write i s))
    (start : inv 0 s) : ∀ k, k ≤ n → inv k (after ((List.range n).map write) k s) := by
  intro k
  induction k with
  | zero => exact fun _ => start
  | succ k ih =>
    -- The last write taken is the one numbered by the count before it.
    intro inside
    have one : ((List.range n).map write).take (k + 1) =
        ((List.range n).map write).take k ++ [write k] := by
      rw [List.take_add_one]
      simp [show k < n by omega]
    rw [after, one, List.foldl_append]
    exact step k _ (by omega) (ih (by omega))

theorem all_loop (inv : Nat → σ → Prop) (step : ∀ i s, i < n → inv i s → inv (i + 1) (write i s))
    (start : inv 0 s) : inv n (all ((List.range n).map write) s) := by
  have whole := after_loop inv step start n (Nat.le_refl n)
  rwa [after, List.take_of_length_le (by simp)] at whole

theorem exists_after_loop (inv : Nat → σ → Prop)
    (step : ∀ i s, i < n → inv i s → inv (i + 1) (write i s)) (start : inv 0 s) (k : Nat) :
    ∃ j, j ≤ n ∧ inv j (after ((List.range n).map write) k s) := by
  rcases Nat.le_total k n with early | late
  · exact ⟨k, early, after_loop inv step start k early⟩
  · refine ⟨n, Nat.le_refl n, ?_⟩
    have whole := all_loop inv step start
    rwa [after, List.take_of_length_le (by simpa using late)]

end Crash
