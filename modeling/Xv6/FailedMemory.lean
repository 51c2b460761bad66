import Xv6.ExecOutcome
import Xv6.ForkLaws
import Xv6.Names.Calls
import Xv6.System

/-! Running out of memory: what a fork and a growth that fail leave behind. -/

namespace Xv6

open Prog

section Tables

variable {β : Type} {behind : Nat → β → Multiset Nat} {d : Dir β} {f : Nat}

theorem Dir.mem_frames_iff : f ∈ Dir.frames behind d ↔
    f = d.pa ∨ ∃ i entry, i < 512 ∧ d.slot i = some entry ∧ f ∈ behind i entry := by
  constructor
  · intro owned
    rw [frames_eq, Multiset.mem_add, Multiset.mem_singleton, Multiset.mem_sum] at owned
    obtain self | ⟨i, inside, member⟩ := owned
    · exact Or.inl self
    · -- Nothing lies behind an empty slot.
      cases present : d.slot i with
      | none => simp [present] at member
      | some entry =>
        rw [present] at member
        exact Or.inr ⟨i, entry, Finset.mem_range.mp inside, present, member⟩
  · rintro (rfl | ⟨i, entry, inside, present, member⟩)
    · exact mem_frames_self
    · exact mem_frames_behind inside present member

def PageTable.tables (pt : PageTable) : Multiset Nat :=
  Dir.frames (fun _ => Dir.frames fun _ => Dir.frames fun _ _ => 0) pt

theorem PageTable.table_or_leaf {pt : PageTable} (owned : f ∈ pt.frames) :
    f ∈ pt.tables ∨ ∃ va pte, va < vaSpan ∧ kernelPage (va / pgsize) = false ∧
      pt.lookup va = some pte ∧ pte.pa = f := by
  obtain rfl | ⟨i, mid, iInside, high, owned⟩ := Dir.mem_frames_iff.mp owned
  · exact Or.inl Dir.mem_frames_self
  obtain rfl | ⟨j, low, jInside, middle, owned⟩ := Dir.mem_frames_iff.mp owned
  · exact Or.inl (Dir.mem_frames_behind iInside high Dir.mem_frames_self)
  obtain rfl | ⟨k, pte, kInside, last, owned⟩ := Dir.mem_frames_iff.mp owned
  · exact Or.inl (Dir.mem_frames_behind iInside high
      (Dir.mem_frames_behind jInside middle Dir.mem_frames_self))
  -- The three indices name the address of the leaf.
  obtain ⟨atHigh, atMiddle, atLow, below⟩ := px_vpnOf iInside jInside kInside
  have page : vpnOf i j k * pgsize / pgsize = vpnOf i j k := Nat.mul_div_cancel _ (by decide)
  rw [leafFrame] at owned
  split at owned
  · simp at owned
  · rename_i user
    refine Or.inr ⟨vpnOf i j k * pgsize, pte, below, ?_, ?_, (Multiset.mem_singleton.mp owned).symm⟩
    · simpa [page] using user
    · simp [PageTable.lookup, atHigh, atMiddle, atLow, high, middle, last]

end Tables

structure Vm.Restored (s t : Vm) : Prop where
  lookup : ∀ va, va < vaSpan → t.pt.lookup va = s.pt.lookup va
  total : t.kmem.free + t.pt.frames = s.kmem.free + s.pt.frames
  unleaked : ∀ f, f ∈ s.kmem.free → f ∈ t.kmem.free ∨ f ∈ t.pt.tables

variable {s : Vm} {np p pid : Nat} {refs refs' : Names.State} {m m' : Machine}

theorem Vm.restored_of_lookup {t : Vm} (nodup : (s.kmem.free + s.pt.frames).Nodup)
    (lookup : ∀ va, va < vaSpan → t.pt.lookup va = s.pt.lookup va)
    (total : t.kmem.free + t.pt.frames = s.kmem.free + s.pt.frames) : s.Restored t := by
  refine ⟨lookup, total, fun f free => ?_⟩
  have there : f ∈ t.kmem.free + t.pt.frames := total ▸ Multiset.mem_add.mpr (Or.inl free)
  obtain still | owned := Multiset.mem_add.mp there
  · exact Or.inl still
  obtain table | ⟨va, pte, below, user, entry, rfl⟩ := PageTable.table_or_leaf owned
  · exact Or.inr table
  · -- A frame that is mapped now was mapped before, so it was not free.
    rw [lookup va below] at entry
    exact absurd (mem_frames_of_lookup below entry user)
      (Multiset.disjoint_left.mp (Multiset.nodup_add.mp nodup).2.2 free)

def Vm.Vacant (s : Vm) (oldsz newsz : Nat) : Prop :=
  ∀ va, pgroundup oldsz ≤ va → va < newsz → va < maxva ∧ s.pt.lookup va = none

/-- A call of `kfork` on memory and on reference counts. -/
abbrev ForkOp (α : Type) : Type := Comp (Machine × Names.State) (Panic ⊕ Names.Stop) α

def kforkAll (pid p np : Nat) : ForkOp Int := fun (m, refs) =>
  match kfork pid m with
  | .error panic => .error (.inl panic)
  | .ok (none, m') => .ok (-1, m', refs)
  | .ok (some _, m') =>
    match Names.kfork p np pid refs with
    | .error stop => .error (.inr stop)
    | .ok (r, refs') => .ok (r, m', refs')

theorem Names.kfork_pid {r : Int} (ran : Names.kfork p np pid refs = .ok (r, refs')) : r = pid := by
  refine of_ran r refs' ran ?_
  simp only [Names.kfork, Names.updateTask, wp_bind, wp_get, wp_modify]
  apply wp_intro
  · intro _ _ _
    apply wp_intro
    · intro _ _ _
      cases (refs.task p).cwd <;> simp [Names.idup]
    · simp
  · simp

structure Sys.Unforked (s : Sys) (slot child : Nat) (m m' : Machine) : Prop where
  /-- The parent keeps its page table and its paging table. -/
  proc : m'.proc = m.proc
  free : m'.kmem.free = m.kmem.free
  /-- Nothing that a process can see in memory changes. -/
  ram : ∀ f, f ∉ m.kmem.free → m'.kmem.ram f = m.kmem.ram f
  unused : ∃ t, s.step (.fork slot child) = some t ∧ t.procs = s.procs ∧ t.Unused child

theorem kfork_unforked {s : Sys} {slot child : Nat} (entered : s.enter slot = some m)
    (sound : m.Sound) (unused : s.Unused child) (ran : kfork s.nextpid m = .ok (none, m')) :
    s.Unforked slot child m m' := by
  have judged : wp (kfork s.nextpid)
      (fun r m' => r = none → m'.proc = m.proc ∧ m.kmem.Trades m'.kmem 0 0) (fun _ => False) m :=
    wp_kfork sound (fun k traded _ => ⟨rfl, traded⟩) (by simp)
  have ended := wp_ok judged ran
  obtain ⟨proc, traded⟩ := ended rfl
  have procs : (s.leave slot m').procs = s.procs := by
    -- The parent is put back as it was.
    unfold Sys.enter at entered
    split at entered
    · simp at entered
    · rename_i p running
      split at entered
      · simp at entered
      · obtain rfl := Option.some.inj entered
        simp [Sys.leave, proc, ← running]
  refine ⟨proc, by simpa using traded.total, fun f owned => traded.ram f (by simpa using owned), ?_⟩
  refine ⟨(s.leave slot m').place child none, ?_, procs, unused.1, ?_⟩
  · simp [Sys.step, unused, Sys.act, entered, ran]
  · exact (congrFun procs child).trans unused.2

theorem kforkAll_failed (ran : kforkAll pid p np (m, refs) = .ok (-1, m', refs')) :
    kfork pid m = .ok (none, m') ∧ refs' = refs := by
  simp only [kforkAll] at ran
  split at ran
  · simp at ran
  · rename_i memory
    simp only [Except.ok.injEq, Prod.mk.injEq] at ran
    exact ⟨ran.2.1 ▸ memory, ran.2.2.symm⟩
  · split at ran
    · simp at ran
    · rename_i taken
      simp only [Except.ok.injEq, Prod.mk.injEq] at ran
      have pid := Names.kfork_pid taken
      omega

theorem uvmalloc_restored {oldsz newsz : Nat} (perm : Perm)
    (nodup : (s.kmem.free + s.pt.frames).Nodup) (managed : s.Managed) (kernel : s.pt.Kernel)
    (vacant : s.Vacant oldsz newsz) :
    ∃ r t, uvmalloc oldsz newsz perm s = .ok (r, t) ∧ (r = 0 → s.Restored t) := by
  have once : s.kmem.freelist.Nodup := Multiset.coe_nodup.mp (Multiset.nodup_add.mp nodup).1
  have fits : s.Fits (pgroundup oldsz)
      ((newsz - pgroundup oldsz + (pgsize - 1)) / pgsize) := by
    intro i before _
    apply vacant
    · omega
    · simp only [pgsize] at *
      omega
  refine exists_ok_of_wp (wp_uvmalloc once rfl rfl kernel
    (fun foreign => foreign managed) (fun shrinks zero => ?_) (fun _ blocked => absurd fits blocked)
    (fun t _ _ undone _ => Vm.restored_of_lookup nodup undone.lookup undone.trades.total)
    (fun t _ _ filled zero => ?_))
  · omega
  · -- Growing to nothing adds no page.
    refine Vm.restored_of_lookup nodup (fun va below => filled.kept va below ?_) filled.total
    exact if_neg (by simp only [pgsize]; omega)

/-- Failed memory operations give everything back: a fork that returns -1 leaves the parent, the
references, the slot and the free frames as they were, and a growth that returns 0 leaves the
mappings as they were and no frame behind that is neither free nor a page of the table. -/
theorem failed_memory_given_back :
    (∀ (s : Sys) (slot child : Nat) (m m' : Machine) (refs refs' : Names.State),
      s.enter slot = some m → m.Sound → s.Unused child →
      kforkAll s.nextpid slot child (m, refs) = .ok (-1, m', refs') →
      s.Unforked slot child m m' ∧ refs' = refs) ∧
    ∀ (s : Vm) (oldsz newsz : Nat) (perm : Perm), (s.kmem.free + s.pt.frames).Nodup →
      s.Managed → s.pt.Kernel → s.Vacant oldsz newsz →
      ∃ r t, uvmalloc oldsz newsz perm s = .ok (r, t) ∧ (r = 0 → s.Restored t) := by
  constructor
  · intro s slot child m m' refs refs' entered sound unused ran
    obtain ⟨failed, same⟩ := kforkAll_failed ran
    exact ⟨kfork_unforked entered sound unused failed, same⟩
  · intro s oldsz newsz perm nodup managed kernel vacant
    exact uvmalloc_restored perm nodup managed kernel vacant

def tightSys : Sys where
  kmem := initKmem 3
  fs := initFs (elfFile 5 pgsize)
  procs := fun slot => if slot = 0 then some (initMachine 3 (elfFile 5 pgsize)).proc else none
  nextpid := 2
  held := []

set_option maxRecDepth 100000 in
/-- Three pages are too few for a child, whose table alone has as many, and for two pages of user
memory under a table that has none. -/
theorem failed_memory_tight :
    (∃ m', ∀ refs, kforkAll 2 0 1 (initMachine 3 (elfFile 5 pgsize), refs) = .ok (-1, m', refs) ∧
      tightSys.Unforked 0 1 (initMachine 3 (elfFile 5 pgsize)) m') ∧
    ∃ t, uvmalloc 0 (2 * pgsize) ⟨true, true, false, true⟩
        ⟨initKmem 3, (initMachine 3 (elfFile 5 pgsize)).proc.pagetable⟩ = .ok (0, t) ∧
      Vm.Restored ⟨initKmem 3, (initMachine 3 (elfFile 5 pgsize)).proc.pagetable⟩ t := by
  have sound := initMachine_sound_of_le (show 3 ≤ 1024 by decide) (elfFile 5 pgsize)
  constructor
  · have failing : (kfork 2 (initMachine 3 (elfFile 5 pgsize))).toOption.any
        fun ending => ending.1.isNone := by decide
    obtain ⟨made, m', ran, none⟩ := exists_ok_of_any failing
    obtain rfl := Option.isNone_iff_eq_none.mp none
    refine ⟨m', fun refs => ?_⟩
    have failed : kforkAll 2 0 1 (initMachine 3 (elfFile 5 pgsize), refs) = .ok (-1, m', refs) := by
      simp [kforkAll, ran]
    exact ⟨failed, (failed_memory_given_back.1 tightSys 0 1 _ m' refs refs rfl sound
      (by decide) failed).1⟩
  · have vacant : Vm.Vacant ⟨initKmem 3, (initMachine 3 (elfFile 5 pgsize)).proc.pagetable⟩ 0
        (2 * pgsize) := by
      intro va _ below
      have low : va < vaSpan := by simp only [pgsize, vaSpan] at *; omega
      refine ⟨by simp only [pgsize, maxva] at *; omega, ?_⟩
      rw [show (initMachine 3 (elfFile 5 pgsize)).proc.pagetable = kernelTable _ _ _ _ _ from rfl,
        lookup_kernelTable _ _ _ _ _ low, if_neg, if_neg]
      all_goals
        simp only [trapframeVa, trampolineVa, maxva, pgsize] at *
        omega
    obtain ⟨r, t, ran, restored⟩ := failed_memory_given_back.2
      ⟨initKmem 3, (initMachine 3 (elfFile 5 pgsize)).proc.pagetable⟩ _ _ ⟨true, true, false, true⟩
      sound.nodup sound.managed sound.kernel vacant
    have zero : uvmalloc 0 (2 * pgsize) ⟨true, true, false, true⟩
        ⟨initKmem 3, (initMachine 3 (elfFile 5 pgsize)).proc.pagetable⟩ = .ok (0, _) :=
      eq_ok_of_valueOf (by decide)
    obtain ⟨rfl, rfl⟩ := Prod.mk.inj (Except.ok.inj ran)
    exact ⟨_, zero, restored rfl⟩

end Xv6
