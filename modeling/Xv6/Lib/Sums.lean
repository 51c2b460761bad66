import Mathlib.Algebra.BigOperators.Group.Finset.Basic
import Mathlib.Algebra.Order.BigOperators.Group.Finset
import Mathlib.Algebra.Order.Group.Multiset
import Mathlib.Data.Multiset.Count
import Mathlib.Tactic.Abel

/-! Sums over indices that change at one place, and sums whose value allows a single owner. -/

namespace Sums

variable {ι M α : Type} [DecidableEq ι] [DecidableEq α] [AddCommMonoid M]

variable {s : Finset ι} {i : ι} {f : ι → Multiset α}

theorem sum_exchange {f g : ι → M} (inside : i ∈ s) (same : ∀ j ∈ s, j ≠ i → f j = g j) :
    ∑ j ∈ s, f j + g i = ∑ j ∈ s, g j + f i := by
  -- Away from the changed index the two sums have equal terms.
  have rest : ∑ j ∈ s.erase i, f j = ∑ j ∈ s.erase i, g j :=
    Finset.sum_congr rfl fun j member =>
      same j (Finset.mem_of_mem_erase member) (Finset.ne_of_mem_erase member)
  rw [← Finset.add_sum_erase s f inside, ← Finset.add_sum_erase s g inside, rest]
  rw [add_right_comm, add_comm (f i) (g i), add_right_comm]

theorem exchange_trans {N : Type} [AddCancelCommMonoid N] {whole whole' part part' old new : N}
    (outer : whole' + part = whole + part') (inner : part' + old = part + new) :
    whole' + old = whole + new := by
  -- Add the part on both sides, exchange it twice, and cancel it again.
  apply add_right_cancel (b := part)
  calc whole' + old + part = (whole' + part) + old := by abel
    _ = whole + (part' + old) := by rw [outer]; abel
    _ = whole + new + part := by rw [inner]; abel

theorem eq_of_mem_of_nodup (nodup : (∑ j ∈ s, f j).Nodup) {j : ι} (iInside : i ∈ s)
    (jInside : j ∈ s) {a : α} (iHas : a ∈ f i) (jHas : a ∈ f j) : i = j := by
  -- Two different contributors would give the element a count of at least two.
  by_contra different
  have once := Multiset.nodup_iff_count_le_one.mp nodup a
  rw [Multiset.count_sum', ← Finset.add_sum_erase s _ iInside] at once
  have jLater : j ∈ s.erase i := Finset.mem_erase.mpr ⟨fun same => different same.symm, jInside⟩
  have jCount : Multiset.count a (f j) ≤ ∑ l ∈ s.erase i, Multiset.count a (f l) :=
    Finset.single_le_sum (f := fun l => Multiset.count a (f l)) (fun _ _ => Nat.zero_le _) jLater
  have iPositive := Multiset.count_pos.mpr iHas
  have jPositive := Multiset.count_pos.mpr jHas
  omega

theorem nodup_of_nodup_sum (nodup : (∑ j ∈ s, f j).Nodup) (inside : i ∈ s) : (f i).Nodup := by
  refine Multiset.nodup_of_le ?_ nodup
  exact Finset.single_le_sum (f := f) (fun _ _ => Multiset.zero_le _) inside

end Sums
