import Xv6.ExecOutcome
import Xv6.ForkLaws

/-! Changing the size of a process: the new size, the mappings and the frames given back. -/

namespace Xv6

open Prog

/-- Between two sizes nothing is mapped, and everywhere else the mappings are the old ones. -/
def PageTable.Cut (pt pt' : PageTable) (newsz oldsz : Nat) : Prop :=
  ∀ va, va < vaSpan → pt'.lookup va =
    if pgroundup newsz ≤ va ∧ va < pgroundup oldsz then none else pt.lookup va

/-- Every frame that was mapped between two sizes is on the free list once. -/
def PageTable.GivenBack (pt : PageTable) (newsz oldsz : Nat) (free : List Nat) : Prop :=
  ∀ va pte, va < vaSpan → pgroundup newsz ≤ va → va < pgroundup oldsz →
    pt.lookup va = some pte → free.count pte.pa = 1

section Sizes

variable {sz : Nat} {n : Int}

theorem u64_add_int (small : sz ≤ trapframeVa) (low : -2 ^ 31 ≤ n) (high : n < 2 ^ 31) :
    (u64 (sz + u64OfInt n) : Int) = if 0 ≤ sz + n then sz + n else sz + n + 2 ^ 64 := by
  -- A negative number is added as its complement, which wraps unless the sum is negative.
  simp only [u64, u64OfInt, trapframeVa, trampolineVa, maxva] at *
  split <;> omega

theorem lt_pgroundup_iff (va a : Nat) : va < pgroundup a ↔ va / pgsize < pgroundup a / pgsize := by
  have aligned := pgroundup_mod a
  simp only [pgsize] at *
  omega

theorem Vm.Releases.cut {s t : Vm} {newsz oldsz : Nat}
    (released : s.Releases t (pgroundup newsz / pgsize)
      (pgroundup oldsz / pgsize - pgroundup newsz / pgsize)) :
    s.pt.Cut t.pt newsz oldsz := by
  intro va below
  rw [released.lookup va below]
  have lower := lt_pgroundup_iff va newsz
  have upper := lt_pgroundup_iff va oldsz
  exact if_congr (by omega) rfl rfl

theorem Vm.Releases.givenBack {s t : Vm} {newsz oldsz : Nat}
    (released : s.Releases t (pgroundup newsz / pgsize)
      (pgroundup oldsz / pgsize - pgroundup newsz / pgsize))
    (nodup : (s.kmem.free + s.pt.frames).Nodup) :
    s.pt.GivenBack newsz oldsz t.kmem.freelist := by
  intro va pte below low high entry
  -- The frames of the table and the free ones are the same as before, so none is there twice.
  have once : t.kmem.freelist.Nodup := by
    rw [← released.total] at nodup
    exact Multiset.coe_nodup.mp (Multiset.nodup_add.mp nodup).1
  have lower := lt_pgroundup_iff va newsz
  have upper := lt_pgroundup_iff va oldsz
  exact List.count_eq_one_of_mem once
    (released.freed va pte below (by omega) (by omega) entry)

end Sizes

/-- The size changes by exactly what was asked for, or nothing changes; a shrink gives back the
frames between the sizes. -/
theorem sbrk_exact {m : Machine} {n : Int} (sound : m.Sound) (low : -2 ^ 31 ≤ n)
    (high : n < 2 ^ 31) : ∃ r m', sysSbrk n m = .ok (r, m') ∧
      if 0 ≤ m.proc.sz + n ∧ m.proc.sz + n ≤ trapframeVa then
        r = m.proc.sz ∧ (m'.proc.sz : Int) = m.proc.sz + n ∧
        if n < 0 then
          m.proc.pagetable.Cut m'.proc.pagetable m'.proc.sz m.proc.sz ∧
          m.proc.pagetable.GivenBack m'.proc.sz m.proc.sz m'.kmem.freelist
        else m'.kmem = m.kmem ∧ m'.proc.pagetable = m.proc.pagetable
      else m' = m ∧ r = if 0 < n then -1 else (m.proc.sz : Int) := by
  have sum := u64_add_int sound.size low high
  have size := sound.size
  refine exists_ok_of_wp (wp_sysSbrk_cases sound (fun grows outside => ?_)
    (fun grows more fits => ?_) (fun still wrapped => ?_) (fun t shrinks less released => ?_))
  · -- The sum is too large.
    rw [if_neg (by split at sum <;> omega), if_pos grows]
    exact ⟨rfl, rfl⟩
  · rw [if_pos (by split at sum <;> omega), if_neg (show ¬ n < 0 by omega)]
    exact ⟨rfl, by rw [sum, if_pos (by omega)], rfl, rfl⟩
  · by_cases zero : n = 0
    · subst zero
      rw [if_pos (by omega), if_neg (by omega)]
      exact ⟨rfl, by omega, rfl, rfl⟩
    · -- A shrink by more than the size wraps around, and is refused by `uvmdealloc`.
      rw [if_neg (by split at sum <;> omega), if_neg (by omega)]
      exact ⟨rfl, rfl⟩
  · rw [if_pos (by split at sum <;> omega), if_pos shrinks]
    exact ⟨rfl, by rw [sum, if_pos (by split at sum <;> omega)], released.cut,
      released.givenBack sound.nodup⟩

/-- The first process with a size of two pages. -/
def sizedMachine : Machine :=
  let m := initMachine 12 (elfFile 5 pgsize)
  { m with proc := { m.proc with sz := 2 * pgsize } }

theorem sizedMachine_sound : sizedMachine.Sound :=
  let sound := initMachine_sound (elfFile 5 pgsize)
  ⟨sound.nodup, sound.managed, sound.leaves, sound.kernel, by decide⟩

/-- Giving back five thousand bytes leaves a size that is no multiple of a page. -/
theorem sbrk_exact_shrink : sizedMachine.Sound ∧ ∃ m',
    sysSbrk (-5000) sizedMachine = .ok (8192, m') ∧ m'.proc.sz = 3192 ∧
    sizedMachine.proc.pagetable.Cut m'.proc.pagetable 3192 8192 ∧
    sizedMachine.proc.pagetable.GivenBack 3192 8192 m'.kmem.freelist := by
  obtain ⟨r, m', ran, changed⟩ := sbrk_exact (n := -5000) sizedMachine_sound (by decide) (by decide)
  have size : sizedMachine.proc.sz = 8192 := rfl
  obtain ⟨rfl, smaller, cut, back⟩ := changed
  have newSize : m'.proc.sz = 3192 := by omega
  rw [newSize] at cut back
  exact ⟨sizedMachine_sound, m', ran, newSize, cut, back⟩

end Xv6
