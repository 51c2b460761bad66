import Xv6.FifoRuns
import Xv6.HeapShrink

/-! When evicting a page makes progress, and how much the swap file really holds. -/

namespace Xv6

open Prog

def Machine.FreesOne (m m' : Machine) : Prop := ∃ i pte, i < maxTrackedPages ∧
  m.proc.pagetable.lookup (i * pgsize) = some pte ∧
  (∀ va, va < vaSpan → m'.proc.pagetable.lookup va =
    if va / pgsize = i then none else m.proc.pagetable.lookup va) ∧
  m'.kmem.freelist = pte.pa :: m.kmem.freelist ∧ valueOf (kalloc m'.kmem) = some (some pte.pa)

def Machine.VictimMapped (m : Machine) : Prop :=
  ∃ i, m.victim = some i ∧ (m.proc.pagetable.lookup (i * pgsize)).isSome

section Evict

variable {env : FsEnv} {m m' : Machine} {i : Nat}

theorem Machine.Evicts.freesOne_iff (evicts : m.Evicts i m') (tracked : i < maxTrackedPages) :
    m.FreesOne m' ↔ (m.proc.pagetable.lookup (i * pgsize)).isSome := by
  have lookup : ∀ va < vaSpan, m'.proc.pagetable.lookup va =
      if va / pgsize = i then none else m.proc.pagetable.lookup va :=
    fun _ below => evicts.lookup tracked below
  -- A page that was mapped goes to the front of the free list.
  have released : ∀ pte fs pg, m.proc.pagetable.lookup (i * pgsize) = some pte →
      m' = m.release i pte.pa fs pg → m.FreesOne m' := by
    intro pte fs pg entry same
    exact ⟨i, pte, tracked, entry, lookup, by rw [same]; rfl, by rw [same]; rfl⟩
  constructor
  · rintro ⟨j, pte, -, -, -, grown, -⟩
    cases evicts with
    | discard _ _ _ entry => simp [entry]
    | save _ _ _ _ _ _ entry => simp [entry]
    | forget => simp at grown
  · intro mapped
    cases evicts with
    | discard pte _ _ entry => exact released pte _ _ entry rfl
    | save pte _ _ _ _ _ entry => exact released pte _ _ entry rfl
    | forget _ _ absent => simp [absent] at mapped

theorem evicts_of_mapped (sound : m.Sound) (mapped : m.VictimMapped) (room : m.CanSave env) :
    ∃ i m', m.victim = some i ∧ evictPageFifo env m = .ok (0, m') ∧ m.Evicts i m' := by
  obtain ⟨i, chosen, mapped⟩ := mapped
  obtain ⟨tracked, resident⟩ := fifoScan_spec chosen
  have judged : wp (swapoutPage env (i * pgsize)) (fun r m' => r = 0 ∧ m.Evicts i m')
      (fun _ => False) m := by
    refine wp_swapoutPage_page (fun pte entry bad _ => bad (sound.managed.entry tracked entry))
      (fun away => absurd ⟨tracked, resident⟩ away) (fun m' _ _ evicts => ⟨rfl, evicts⟩)
      fun r m' _ _ kept saves => ?_
    obtain rfl : r = 0 := saves.zero_iff.mpr ⟨room, mapped⟩
    exact ⟨rfl, saves.evicts resident kept⟩
  obtain ⟨_, m', ran, rfl, evicts⟩ := exists_ok_of_wp judged
  exact ⟨i, m', chosen, (evictPageFifo_eq chosen).trans ran, evicts⟩

/-- Evicting frees a frame exactly when the victim is really mapped. -/
theorem eviction_frees_iff {s₀ s : Sys} {es : List SysEvent} {slot : Nat} (boot : s₀.Boot)
    (run : Trace.Run Sys.Steps s₀ es s) (entered : s.enter slot = some m) (env : FsEnv) :
    (∀ m', evictPageFifo env m = .ok (0, m') → (m.FreesOne m' ↔ m.VictimMapped)) ∧
      (m.CanSave env →
        ((∃ m', evictPageFifo env m = .ok (0, m') ∧ m.FreesOne m') ↔ m.VictimMapped)) := by
  obtain ⟨sound, -, -⟩ := (boot.accounts_of_run run).sound entered
  have frees : ∀ m', evictPageFifo env m = .ok (0, m') → (m.FreesOne m' ↔ m.VictimMapped) := by
    intro m' ran
    have does := PagingOp.run_does (show PagingOp.evict.run env m = .ok (0, m') from ran)
    cases does with
    | evict i m' chosen evicts =>
      rw [evicts.freesOne_iff (fifoScan_spec chosen).1]
      constructor
      · exact fun mapped => ⟨i, chosen, mapped⟩
      · rintro ⟨j, chosen', mapped⟩
        obtain rfl := Option.some.inj (chosen.symm.trans chosen')
        exact mapped
  refine ⟨frees, fun saves => ⟨?_, fun mapped => ?_⟩⟩
  · rintro ⟨m', ran, freed⟩
    exact (frees m' ran).mp freed
  · obtain ⟨i, m', -, ran, -⟩ := evicts_of_mapped sound mapped saves
    exact ⟨m', ran, (frees m' ran).mpr mapped⟩

end Evict

def staleHeap : List SysEvent :=
  growHeap ++ [.page 0 someRoom (.fault 12288 15), .sbrk 0 (-4096), .sbrk 0 8192,
    .page 0 someRoom (.fault 16384 15)]

def readyToSave (m : Machine) (i : Nat) : Bool :=
  (m.proc.paging.pages i).state = .resident && (m.proc.pagetable.lookup (i * pgsize)).isSome &&
    (m.swapTarget someRoom).any fun (f, fs) =>
      (firstClear m.proc.paging.swapBitmap maxSwapPages 0).any fun slot => fs.Accepts f slot

theorem readyToSave_spec {m : Machine} {i : Nat} (ready : readyToSave m i = true) :
    (m.proc.paging.pages i).state = .resident ∧
      (m.proc.pagetable.lookup (i * pgsize)).isSome ∧ m.CanSave someRoom := by
  simp only [readyToSave, Bool.and_eq_true, decide_eq_true_eq] at ready
  obtain ⟨⟨resident, mapped⟩, target⟩ := ready
  obtain ⟨⟨f, fs⟩, target, free⟩ := (Option.any_eq_true _ _).mp target
  obtain ⟨slot, free, accepted⟩ := (Option.any_eq_true _ _).mp free
  exact ⟨resident, mapped, f, fs, slot, target, free, of_decide_eq_true accepted, le_refl _⟩

/-- The first process has one page in memory, and evicting it frees its frame. -/
theorem eviction_frees_heap : initSys.Boot ∧ ∃ s m m',
    Trace.Run Sys.Steps initSys readHeap s ∧ s.enter 0 = some m ∧ m.CanSave someRoom ∧
    evictPageFifo someRoom m = .ok (0, m') ∧ m.FreesOne m' := by
  obtain ⟨s, m, run, among, entered, ready, chosen⟩ := initSys_boot.exists_among
    (.one 3 (by decide)) readHeap 0 (fun m => readyToSave m 3 = true ∧
      (fifoAmong m.proc.paging.pages [3]).1 = some 3) (by decide +kernel)
  obtain ⟨-, mapped, saves⟩ := readyToSave_spec ready
  obtain ⟨m', evicted, freed⟩ :=
    ((eviction_frees_iff initSys_boot run entered someRoom).2 saves).mpr
      ⟨3, among.victim.trans chosen, mapped⟩
  exact ⟨initSys_boot, s, m, m', run, entered, saves, evicted, freed⟩

/-- A page given back by sbrk stays the victim, and evicting fails although a page is mapped. -/
theorem eviction_fails_stale : initSys.Boot ∧ ∃ s m m',
    Trace.Run Sys.Steps initSys staleHeap s ∧ s.enter 0 = some m ∧
    (m.proc.paging.pages 4).state = .resident ∧
    (m.proc.pagetable.lookup (4 * pgsize)).isSome ∧ m.CanSave someRoom ∧
    evictPageFifo someRoom m = .ok (-1, m') := by
  obtain ⟨s, m, run, among, entered, ready, returned, chosen⟩ := initSys_boot.exists_among
    ⟨[4, 3], by decide, by decide⟩ staleHeap 0 (fun m => readyToSave m 4 = true ∧
      valueOf (swapoutPage someRoom (3 * pgsize) m) = some (-1) ∧
      (fifoAmong m.proc.paging.pages [4, 3]).1 = some 3) (by decide +kernel)
  obtain ⟨resident, mapped, saves⟩ := readyToSave_spec ready
  have failed := eq_ok_of_valueOf returned
  rw [← evictPageFifo_eq (among.victim.trans chosen)] at failed
  exact ⟨initSys_boot, s, m, _, run, entered, resident, mapped, saves, failed⟩

end Xv6
