import Mathlib.Data.List.Basic
import Mathlib.Tactic.Common

/-! Histories of arrivals, the newest first, and the order in which things arrived last. -/

namespace Arrivals

variable {α : Type} [DecidableEq α] {h new : List α} {a b : α}

/-- The number of the last arrival of something, counted from one; zero when it never arrived. -/
def rank (h : List α) (a : α) : Nat := h.length - h.idxOf a

@[simp] theorem rank_cons_self : rank (a :: h) a = h.length + 1 := by
  simp [rank]

theorem rank_cons_of_ne (other : b ≠ a) : rank (b :: h) a = rank h a := by
  simp [rank, List.idxOf_cons_ne h other]

theorem rank_le : rank h a ≤ h.length := Nat.sub_le _ _

theorem rank_pos_iff : 0 < rank h a ↔ a ∈ h := by
  rw [rank, Nat.sub_pos_iff_lt, List.idxOf_lt_length_iff]

theorem rank_inj (arrived : a ∈ h) (same : rank h a = rank h b) : a = b := by
  have before := List.idxOf_lt_length_iff.mpr arrived
  simp only [rank] at same
  exact (List.idxOf_inj arrived).mp (by omega)

theorem rank_append_of_notMem (absent : a ∉ new) : rank (new ++ h) a = rank h a := by
  induction new with
  | nil => rfl
  | cons b new ih =>
    have other : b ≠ a := fun same => absent (same ▸ List.mem_cons_self)
    have rest : a ∉ new := fun later => absent (List.mem_cons_of_mem b later)
    rw [List.cons_append, rank_cons_of_ne other, ih rest]

theorem lt_rank_append_of_mem (arrived : a ∈ new) : h.length < rank (new ++ h) a := by
  induction new with
  | nil => simp at arrived
  | cons b new ih =>
    -- The newest arrival is numbered by the count; an older one was numbered before it.
    by_cases newest : b = a
    · subst newest
      rw [List.cons_append, rank_cons_self, List.length_append]
      omega
    · rw [List.cons_append, rank_cons_of_ne newest]
      exact ih (by simpa [Ne.symm newest] using arrived)

end Arrivals
