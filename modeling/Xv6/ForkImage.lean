import Xv6.HeapRuns
import Xv6.SlotRuns

/-! What a child reads, compared with what its parent read when it forked. -/

namespace Xv6

open Prog

/-- A user load completes with a value, after the faults it takes. -/
inductive Machine.Loads (va : Nat) : Machine → UInt8 → Prop where
  /-- The hardware translates the address. -/
  | hit {m : Machine} {value : UInt8} (read : userLoad m va = some value) : Loads va m value
  /-- The handler is asked for the page, and the process lives to try again. -/
  | fault {m m' : Machine} {value : UInt8} (env : FsEnv) (miss : userLoad m va = none)
      (served : usertrap env va 13 m = .ok ((), m')) (alive : m'.proc.killed = false)
      (retried : Loads va m' value) : Loads va m value

def Machine.Ranged (m : Machine) (page : Nat) : Prop :=
  m.proc.paging.segs.text.Has page ∨ m.proc.paging.segs.data.Has page ∨
    (m.proc.paging.heapStart ≤ page ∧ page < m.proc.sz)

variable {cause mem pa page : Nat} {src : Source} {bytes : Nat → UInt8} {env : FsEnv}
  {m m₁ : Machine} {rest : List Nat} {frame : Option Nat}

section Loads

variable {m m' : Machine} {va : Nat} {value : UInt8}

theorem Machine.ranged_iff (here : ¬ m.Swapped page) :
    m.Ranged page ↔ ∃ src, m.Serves page 13 src := by
  -- The handler asks for the text first, then for the data, then for the heap.
  constructor
  · intro ranged
    by_cases inText : m.proc.paging.segs.text.Has page
    · exact ⟨_, .text here inText (by decide)⟩
    by_cases inData : m.proc.paging.segs.data.Has page
    · exact ⟨_, .data here inText inData⟩
    rcases ranged with inText' | inData' | inHeap
    · exact absurd inText' inText
    · exact absurd inData' inData
    · exact ⟨_, .heap here inText inData inHeap⟩
  · intro served
    obtain ⟨src, serves⟩ := served
    cases serves with
    | swap i page swapped => exact absurd ⟨i, page, swapped⟩ here
    | text _ inText => exact Or.inl inText
    | data _ _ inData => exact Or.inr (Or.inl inData)
    | heap _ _ _ inHeap => exact Or.inr (Or.inr inHeap)

theorem Machine.Serves.forUser (serves : m.Serves page cause src) : src.perm.u = true := by
  cases serves <;> rfl

theorem userLoad_of_lookup {pte : Pte} (below : va < maxva)
    (entry : m.proc.pagetable.lookup va = some pte) (user : pte.perm.u = true)
    (readable : pte.perm.r = true) :
    userLoad m va = some (m.kmem.ram pte.pa (va % pgsize)) := by
  have high : ¬ maxva ≤ va := by omega
  simp [userLoad, translate, entry, high, user, readable, Access.allowed]

theorem lookup_of_userLoad (read : userLoad m va = some value) :
    va < maxva ∧ ∃ pte, m.proc.pagetable.lookup va = some pte ∧ pte.perm.u = true ∧
      pte.perm.r = true ∧ value = m.kmem.ram pte.pa (va % pgsize) := by
  obtain ⟨pa, found, rfl⟩ := Option.map_eq_some_iff.mp read
  unfold translate at found
  split at found
  · simp at found
  cases entry : m.proc.pagetable.lookup va with
  | none => simp [entry] at found
  | some pte =>
    simp only [entry, Option.ite_none_right_eq_some] at found
    obtain ⟨permitted, found⟩ := found
    obtain ⟨user, readable⟩ := Bool.and_eq_true_iff.mp permitted
    exact ⟨by omega, pte, rfl, user, readable, by rw [Option.some.inj found]⟩

theorem Vm.Maps.userLoad {t : Vm} {perm : Perm} {paging : PagingInfo}
    (maps : Vm.Maps ⟨m.kmem.put mem bytes, m.proc.pagetable⟩ t (pgrounddown va) mem perm)
    (inHand : mem ∉ m.kmem.freelist) (user : perm.u = true) (readable : perm.r = true) :
    va < maxva ∧ Xv6.userLoad { m with
      kmem := t.kmem
      proc := { m.proc with pagetable := t.pt, paging := paging } } va =
        some (bytes (va % pgsize)) := by
  have below : va < maxva := by
    have pageBelow := maps.below
    rw [pgrounddown_eq] at pageBelow
    simp only [maxva, pgsize] at *
    omega
  have entry : t.pt.lookup va = some ⟨mem, perm⟩ := by
    rw [maps.lookup va (lt_vaSpan below), if_pos (pgrounddown_div va).symm]
  -- The frame was filled before the table drew its own pages.
  have held : t.kmem.ram mem = bytes := by
    rw [maps.draws.ram mem inHand]
    simp
  refine ⟨below, ?_⟩
  rw [userLoad_of_lookup below entry user readable, held]

theorem handles_of_usertrap (ran : usertrap env va cause m = .ok ((), m'))
    (alive : m'.proc.killed = false) : m.Handles (pgrounddown va) cause 0 m' := by
  have judged : wp (usertrap env va cause)
      (fun _ t => t.proc.killed = false → m.Handles (pgrounddown va) cause 0 t)
      (fun _ => True) m := by
    unfold usertrap
    rw [wp_bind]
    refine wp_intro (fun r t ran => ?_) fun _ _ => trivial
    have does : m.Does (.fault va cause) r t := PagingOp.run_does ran
    by_cases failed : r = 0
    · subst failed
      simp only [ne_eq, not_true_eq_false, if_false, wp_pure]
      cases does with
      | fault _ _ _ _ handles => exact fun _ => handles
    · -- An error from the handler kills the process.
      simp only [ne_eq, failed, not_false_eq_true, if_true, wp_setkilled]
      exact fun living => absurd living (by simp)
  exact wp_ok judged ran alive

structure Machine.Finds (m : Machine) (va : Nat) (src : Source) (m₁ : Machine) (mem : Nat)
    (bytes : Nat → UInt8) : Prop where
  serves : m.Serves (pgrounddown va) 13 src
  obtains : m.Obtains (some mem) m₁
  filled : src.fill m₁.fs m₁.proc.paging = some bytes
  absent : m₁.proc.pagetable.lookup va = none
  alive : m₁.proc.killed = false
  below : va < maxva

theorem Machine.Loads.found (loads : m.Loads va value) (sound : m.Sound) :
    userLoad m va = some value ∨ userLoad m va = none ∧
      ∃ src m₁ mem bytes, m.Finds va src m₁ mem bytes ∧ value = bytes (va % pgsize) := by
  cases loads with
  | hit read => exact Or.inl read
  | fault env miss served alive retried =>
    refine Or.inr ⟨miss, ?_⟩
    -- Only a page that was mapped lets the process go on.
    cases handles_of_usertrap served alive with
    | textWrite _ write => simp at write
    | paged src _ _ serves pages =>
      cases pages with
      | mapped m₁ mem bytes t gets filled maps =>
        obtain ⟨below, hits⟩ := maps.userLoad (gets.obtains.in_hand sound).1 serves.forUser
          serves.readable
        have absent : m₁.proc.pagetable.lookup va = none := by
          rw [← lookup_page, ← pgrounddown_div va, lookup_page]
          exact maps.absent
        refine ⟨src, m₁, mem, bytes, ⟨serves, gets.obtains, filled, absent, alive, below⟩, ?_⟩
        -- The retried load hits the page that was just mapped.
        cases retried with
        | hit read => exact Option.some.inj (read.symm.trans hits)
        | fault _ miss' => simp [hits] at miss'

theorem Machine.loads_of_serves (env : FsEnv) (sound : m.Sound) (room : 3 ≤ m.kmem.freelist.length)
    (alive : m.proc.killed = false) (below : va < maxva)
    (absent : m.proc.pagetable.lookup va = none) (serves : m.Serves (pgrounddown va) 13 src)
    (filled : src.fill m.fs m.proc.paging = some bytes) : m.Loads va (bytes (va % pgsize)) := by
  have miss : userLoad m va = none := by simp [userLoad, translate, absent]
  have vacant : m.proc.pagetable.lookup (pgrounddown va) = none := by
    rw [← lookup_page, pgrounddown_div, lookup_page, absent]
  have pageBelow : pgrounddown va < maxva := by
    rw [pgrounddown_eq]
    have floor := Nat.div_mul_le_self va pgsize
    omega
  obtain ⟨t, handled, pages, kept⟩ :=
    serves.handled env sound.managed room pageBelow vacant filled
  have trapped : usertrap env va 13 m = .ok ((), t) := by
    simp only [usertrap, bind, StateT.bind, handled]
    rfl
  -- The page just mapped has the bytes of its source, and the load hits it.
  have hits : userLoad t va = some (bytes (va % pgsize)) := by
    cases pages with
    | mapped m₁ mem bytes' u gets filled' maps =>
      obtain ⟨pa, rest, front⟩ : ∃ pa rest, m.kmem.freelist = pa :: rest :=
        List.exists_cons_of_length_pos (by omega)
      have inHand := (gets.obtains.in_hand sound).1
      obtain ⟨-, rfl⟩ := gets.of_free front
      obtain rfl : bytes = bytes' := Option.some.inj (filled.symm.trans filled')
      exact (maps.userLoad inHand serves.forUser serves.readable).2
  exact .fault env miss trapped (kept.trans alive) (.hit hits)

theorem Machine.Loads.of_hit {read : UInt8} (loads : m.Loads va value)
    (hits : userLoad m va = some read) : value = read := by
  cases loads with
  | hit read' => exact Option.some.inj (read'.symm.trans hits)
  | fault _ miss => simp [hits] at miss

theorem Machine.Loads.fresh (loads : m.Loads va value) (sound : m.Sound)
    (absent : m.proc.pagetable.lookup va = none) (here : ¬ m.Swapped (pgrounddown va))
    (stable : ∀ frame m₁, m.Obtains frame m₁ → ∀ ip, m.proc.paging.execIp = some ip →
      m₁.fs.inodes ip = m.fs.inodes ip) :
    m.Ranged (pgrounddown va) ∧
      ∃ bytes, m.fresh (pgrounddown va) = some bytes ∧ value = bytes (va % pgsize) := by
  rcases loads.found sound with read | ⟨-, src, m₁, mem, bytes, finds, right⟩
  · simp [userLoad, translate, absent] at read
  · refine ⟨(Machine.ranged_iff here).mpr ⟨src, finds.serves⟩, bytes, ?_, right⟩
    rw [← finds.serves.fill here finds.obtains.context (stable _ _ finds.obtains)]
    exact finds.filled

theorem Machine.loads_of_fresh (env : FsEnv) (sound : m.Sound) (room : 3 ≤ m.kmem.freelist.length)
    (alive : m.proc.killed = false) (below : va < maxva)
    (absent : m.proc.pagetable.lookup va = none) (here : ¬ m.Swapped (pgrounddown va))
    (ranged : m.Ranged (pgrounddown va)) (filled : m.fresh (pgrounddown va) = some bytes) :
    m.Loads va (bytes (va % pgsize)) := by
  obtain ⟨src, serves⟩ := (Machine.ranged_iff here).mp ranged
  apply Machine.loads_of_serves env sound room alive below absent serves
  rw [serves.fill here rfl fun _ _ => rfl, filled]

structure Machine.Saved (m : Machine) (va : Nat) (bytes : Nat → UInt8) : Prop where
  absent : m.proc.pagetable.lookup va = none
  entry : ∃ i, getPageInfo (pgrounddown va) = some i ∧
    (m.proc.paging.pages i).state = .swapped ∧ 0 ≤ (m.proc.paging.pages i).swapSlot ∧
    slotBytes m.fs m.proc.paging.swapfile (m.proc.paging.pages i).swapSlot = some bytes

theorem Machine.Finds.of_free (finds : m.Finds va src m₁ mem bytes)
    (front : m.kmem.freelist = pa :: rest) : m.proc.pagetable.lookup va = none ∧
      m.proc.killed = false ∧ src.fill m.fs m.proc.paging = some bytes := by
  obtain ⟨serves, obtains, filled, absent, alive, below⟩ := finds
  obtain ⟨-, rfl⟩ := obtains.of_free front
  exact ⟨absent, alive, filled⟩

theorem Machine.Loads.saved (loads : m.Loads va value) (sound : m.Sound)
    (front : m.kmem.freelist = pa :: rest) (absent : m.proc.pagetable.lookup va = none)
    (swapped : m.Swapped (pgrounddown va)) :
    m.proc.killed = false ∧ ∃ bytes, m.Saved va bytes ∧ value = bytes (va % pgsize) := by
  rcases loads.found sound with read | ⟨-, src, m₁, mem, bytes, finds, right⟩
  · simp [userLoad, translate, absent] at read
  obtain ⟨-, alive, filled⟩ := finds.of_free front
  refine ⟨alive, bytes, ⟨absent, ?_⟩, right⟩
  -- The only source of a page in swap is its slot.
  cases finds.serves with
  | swap i page swapped held => exact ⟨i, page, swapped, held, filled⟩
  | text here => exact absurd swapped here
  | data here => exact absurd swapped here
  | heap here => exact absurd swapped here

end Loads

theorem forkPaging_unswapped (parent : PagingInfo) (i : Nat) :
    ((forkPaging parent initPagingInfo).pages i).state ≠ .swapped := by
  intro swapped
  have unclaimed := (forkPaging_claim parent).2.2 i
  simp [PagingInfo.claim, swapped] at unclaimed

section Fork

variable {m : Machine} {pid : Nat} {np : Proc} {k : Kmem} {va : Nat} {value : UInt8}

theorem Machine.Forks.sound (forked : m.Forks pid np k) (sound : m.Sound) :
    Machine.Sound ⟨k, m.fs, np⟩ := by
  have total := forked.trades.total
  have fewer : k.free + np.pagetable.frames ≤ m.kmem.free := by
    rw [add_zero] at total
    rw [← total]
    exact add_le_add_right (Multiset.le_add_left _ _) _
  refine ⟨?_, ?_, forked.leaves, forked.kernel, ?_⟩
  · exact Multiset.nodup_of_le fewer (Multiset.nodup_add.mp sound.nodup).1
  · intro f member
    have managed := sound.managed f
      (Multiset.mem_add.mpr (Or.inl (Multiset.mem_of_le fewer member)))
    unfold Kmem.Manages at *
    rw [forked.trades.kend]
    exact managed
  · rw [forked.record]
    exact sound.size

theorem Machine.Forks.front (forked : m.Forks pid np k) :
    ∃ pa rest, m.kmem.freelist = pa :: rest := by
  cases free : m.kmem.freelist with
  | cons pa rest => exact ⟨pa, rest, rfl⟩
  | nil =>
    have total := forked.trades.total
    have one : np.trapframe ∈ k.free + ({np.trapframe} + np.pagetable.frames) := by simp
    rw [total] at one
    simp [Kmem.free, free] at one

theorem Machine.Forks.fewer (forked : m.Forks pid np k) :
    k.freelist.length ≤ m.kmem.freelist.length := by
  have total := congrArg Multiset.card forked.trades.total
  simp only [Kmem.free, Multiset.card_add] at total
  simp at total
  omega

theorem Machine.Forks.hit (forked : m.Forks pid np k) (inside : va < m.proc.sz)
    (read : userLoad m va = some value) : userLoad ⟨k, m.fs, np⟩ va = some value := by
  obtain ⟨below, pte, entry, user, readable, rfl⟩ := lookup_of_userLoad read
  have low : va / pgsize < (m.proc.sz + (pgsize - 1)) / pgsize := by
    simp only [pgsize]
    omega
  obtain ⟨pa, copied, same⟩ := forked.copies va pte low entry
  rw [← same]
  have hits := userLoad_of_lookup (m := ⟨k, m.fs, np⟩) below copied user readable
  exact hits

theorem Machine.Forks.absent (forked : m.Forks pid np k) (sound : m.Sound)
    (inside : va < m.proc.sz) (absent : m.proc.pagetable.lookup va = none) :
    np.pagetable.lookup va = none := by
  have size := sound.size
  have below : va < maxva := by
    simp only [trapframeVa, trampolineVa] at *
    omega
  refine forked.vacant va (lt_vaSpan below) ?_ absent
  simp only [kernelPage, Bool.or_eq_false_iff, beq_eq_false_iff_ne]
  simp only [trapframeVa, trampolineVa, maxva, pgsize] at *
  omega

theorem Machine.Forks.unswapped (forked : m.Forks pid np k) (page : Nat) :
    ¬ Machine.Swapped ⟨k, m.fs, np⟩ page := by
  rintro ⟨i, -, swapped⟩
  rw [forked.record] at swapped
  exact forkPaging_unswapped _ i swapped

theorem Machine.Forks.source (forked : m.Forks pid np k) (page : Nat) :
    (Machine.Ranged ⟨k, m.fs, np⟩ page ↔ m.Ranged page) ∧
      Machine.fresh ⟨k, m.fs, np⟩ page = m.fresh page := by
  obtain ⟨pages, seq, copied⟩ := forkPaging_rest m.proc.paging
  rw [forked.record]
  simp only [Machine.Ranged, Machine.fresh, copied, and_self]

end Fork

def Machine.ForkCopies (m child : Machine) (va : Nat) : Prop :=
  ∀ value, m.Loads va value → child.Loads va value ∧ ∀ other, child.Loads va other → other = value

def Machine.ForkSafe (m : Machine) : Prop :=
  -- A process that was killed meanwhile reads nothing back from swap.
  m.proc.killed = false → ∀ va bytes, va < m.proc.sz → m.Saved va bytes →
    m.Ranged (pgrounddown va) ∧ ∃ fresh, m.fresh (pgrounddown va) = some fresh ∧
      fresh (va % pgsize) = bytes (va % pgsize)

section Copies

variable {m : Machine} {pid : Nat} {np : Proc} {k : Kmem} {va : Nat} {value : UInt8}

theorem Machine.ForkSafe.reads (safe : m.ForkSafe) (forked : m.Forks pid np k) (sound : m.Sound)
    (inside : va < m.proc.sz) (loads : m.Loads va value) :
    userLoad m va = some value ∨ m.proc.pagetable.lookup va = none ∧ m.Ranged (pgrounddown va) ∧
      ∃ fresh, m.fresh (pgrounddown va) = some fresh ∧ value = fresh (va % pgsize) := by
  obtain ⟨pa, rest, front⟩ := forked.front
  rcases loads.found sound with read | ⟨-, src, m₁, mem, bytes, finds, -⟩
  · exact Or.inl read
  obtain ⟨absent, -, -⟩ := finds.of_free front
  refine Or.inr ⟨absent, ?_⟩
  by_cases swapped : m.Swapped (pgrounddown va)
  · -- The slot holds the fresh bytes, by assumption.
    obtain ⟨alive, bytes, saved, rfl⟩ := loads.saved sound front absent swapped
    obtain ⟨ranged, fresh, filled, same⟩ := safe alive va bytes inside saved
    exact ⟨ranged, fresh, filled, same.symm⟩
  · apply loads.fresh sound absent swapped
    intro frame m₂ obtains ip _
    obtain ⟨-, rfl⟩ := obtains.of_free front
    rfl

theorem Machine.Forks.reads (forked : m.Forks pid np k) (sound : m.Sound)
    (inside : va < m.proc.sz) (absent : m.proc.pagetable.lookup va = none)
    (stable : ∀ frame m₁, Machine.Obtains ⟨k, m.fs, np⟩ frame m₁ →
      ∀ ip, np.paging.execIp = some ip → m₁.fs.inodes ip = m.fs.inodes ip)
    (loads : Machine.Loads va ⟨k, m.fs, np⟩ value) : m.Ranged (pgrounddown va) ∧
      ∃ fresh, m.fresh (pgrounddown va) = some fresh ∧ value = fresh (va % pgsize) := by
  have read := loads.fresh (forked.sound sound) (forked.absent sound inside absent)
    (forked.unswapped _) stable
  rwa [(forked.source _).1, (forked.source _).2] at read

theorem Machine.Forks.stable_of_free (room : 3 ≤ k.freelist.length)
    (obtains : Machine.Obtains ⟨k, m.fs, np⟩ frame m₁) (ip : Nat) :
    m₁.fs.inodes ip = m.fs.inodes ip := by
  cases free : k.freelist with
  | nil => simp [free] at room
  | cons pa rest =>
    obtain ⟨-, rfl⟩ := obtains.of_free free
    rfl

theorem Machine.Forks.stable_of_apart (forked : m.Forks pid np k)
    (apart : ∀ ip, m.proc.paging.execIp = some ip → m.fs.Apart (swapName pid) none ip)
    (obtains : Machine.Obtains ⟨k, m.fs, np⟩ frame m₁) (ip : Nat)
    (running : np.paging.execIp = some ip) : m₁.fs.inodes ip = m.fs.inodes ip := by
  obtain ⟨pages, seq, copied⟩ := forkPaging_rest m.proc.paging
  have paging : np.paging = forkPaging m.proc.paging initPagingInfo := by rw [forked.record]
  rw [copied] at paging
  have own : np.pid = pid := by rw [forked.record]
  have none : np.paging.swapfile = none := by rw [paging]; rfl
  rw [paging] at running
  have kept : m.fs.Apart (swapName np.pid) np.paging.swapfile ip := by
    rw [own, none]
    exact apart ip running
  exact (obtains.files.spares ip kept).2

end Copies

/-- A child reads what its parent read exactly when nothing but fresh bytes was in swap. -/
theorem fork_copies_iff {m m' : Machine} {pid : Nat} {np : Proc} (sound : m.Sound)
    (ran : kfork pid m = .ok (some np, m')) :
    (3 ≤ m'.kmem.freelist.length →
      ((∀ va, va < m.proc.sz → m.ForkCopies { m' with proc := np } va) ↔ m.ForkSafe)) ∧
    -- Short of memory the child may be killed, but no load returns another byte.
    (m.ForkSafe →
      (∀ ip, m.proc.paging.execIp = some ip → m.fs.Apart (swapName pid) none ip) →
      ∀ va value other, va < m.proc.sz → m.Loads va value →
        Machine.Loads va { m' with proc := np } other → other = value) := by
  obtain ⟨k, rfl, forked⟩ := forks_of_kfork sound ran
  have childSound := forked.sound sound
  constructor
  · intro room
    have stable : ∀ frame m₁, Machine.Obtains ⟨k, m.fs, np⟩ frame m₁ →
        ∀ ip, np.paging.execIp = some ip → m₁.fs.inodes ip = m.fs.inodes ip :=
      fun frame m₁ obtains ip _ => Machine.Forks.stable_of_free room obtains ip
    constructor
    · -- A byte in swap that differs from the fresh one is read by the parent alone.
      intro copies alive va bytes inside saved
      obtain ⟨absent, i, page, swapped, held, stored⟩ := saved
      have below : va < maxva := by
        have size := sound.size
        simp only [trapframeVa, trampolineVa] at *
        omega
      have loads : m.Loads va (bytes (va % pgsize)) :=
        Machine.loads_of_serves someFiles sound (room.trans forked.fewer) alive below absent
          (.swap i page swapped held (by simp)) stored
      obtain ⟨ranged, fresh, filled, same⟩ :=
        forked.reads sound inside absent stable (copies va inside _ loads).1
      exact ⟨ranged, fresh, filled, same.symm⟩
    · intro safe va inside value loads
      rcases safe.reads forked sound inside loads with read | ⟨absent, ranged, fresh, filled, rfl⟩
      · exact ⟨.hit (forked.hit inside read), fun other loaded => loaded.of_hit (forked.hit inside read)⟩
      · constructor
        · have below : va < maxva := by
            have size := sound.size
            simp only [trapframeVa, trampolineVa, maxva, pgsize] at *
            omega
          have living : np.killed = false := by rw [forked.record]
          apply Machine.loads_of_fresh someFiles childSound room living below
            (forked.absent sound inside absent) (forked.unswapped _)
          · exact (forked.source _).1.mpr ranged
          · exact (forked.source _).2.trans filled
        · intro other loaded
          obtain ⟨-, fresh', filled', rfl⟩ := forked.reads sound inside absent stable loaded
          rw [filled] at filled'
          rw [Option.some.inj filled']
  · intro safe apart va value other inside loads loaded
    rcases safe.reads forked sound inside loads with read | ⟨absent, ranged, fresh, filled, rfl⟩
    · exact loaded.of_hit (forked.hit inside read)
    · obtain ⟨-, fresh', filled', rfl⟩ := forked.reads sound inside absent
        (fun _ _ obtains => forked.stable_of_apart apart obtains) loaded
      rw [filled] at filled'
      rw [Option.some.inj filled']

def roomyRunning : Machine :=
  after (kexec someFiles initPath [initPath]) (initMachine 24 (elfFile 5 pgsize))

theorem roomyRunning_ran : kexec someFiles initPath [initPath] (initMachine 24 (elfFile 5 pgsize)) =
    .ok (1, roomyRunning) := eq_ok_of_valueOf (by decide +kernel)

theorem roomyRunning_steady : roomyRunning.Steady :=
  (heapFresh_init (by decide) (by simp [elfFile]) roomyRunning_ran
    (by decide)).steady

theorem roomyRunning_forkSafe : roomyRunning.ForkSafe := by
  obtain ⟨load, f, guard, stack, page, commits⟩ :=
    commits_init (by decide) roomyRunning_ran
  obtain ⟨-, -, pages⟩ := commits.ranges
  intro _ va bytes _ saved
  obtain ⟨i, -, swapped, -⟩ := saved.entry
  rw [pages] at swapped
  exact absurd swapped (initMachine_unswapped _ _ i)

/-- A child of the first process reads what its parent reads. -/
theorem fork_copies_running : roomyRunning.Sound ∧ ∃ np m',
    kfork 2 roomyRunning = .ok (some np, m') ∧ 0 < roomyRunning.proc.sz ∧
    ∀ va, va < roomyRunning.proc.sz → roomyRunning.ForkCopies { m' with proc := np } va := by
  have made : ((valueOf (kfork 2 roomyRunning)).getD none).isSome := by decide +kernel
  obtain ⟨np, named⟩ := Option.isSome_iff_exists.mp made
  have ran : kfork 2 roomyRunning = .ok (some np, after (kfork 2) roomyRunning) := by
    apply eq_ok_of_valueOf
    cases returned : valueOf (kfork 2 roomyRunning) with
    | none => simp [returned] at named
    | some made => simpa [returned] using named
  have room : 3 ≤ (after (kfork 2) roomyRunning).kmem.freelist.length := by decide +kernel
  exact ⟨roomyRunning_steady.sound, np, _, ran, by decide +kernel,
    ((fork_copies_iff roomyRunning_steady.sound ran).1 room).mpr roomyRunning_forkSafe⟩

def growStoreEvict : List UserEvent :=
  [.other (.grow 4096), .other (.page someFiles (.fault 12296 15)), .store 12296 42,
    .other (.page someFiles .evict)]

def faultLoad (env : FsEnv) (m : Machine) (va : Nat) : Option UInt8 :=
  match userLoad m va, usertrap env va 13 m with
  | none, .ok (_, m') => if m'.proc.killed then none else userLoad m' va
  | _, _ => none

theorem loads_of_faultLoad {va : Nat} {value : UInt8} (computed : faultLoad env m va = some value) :
    m.Loads va value := by
  unfold faultLoad at computed
  split at computed
  · rename_i m' miss served
    cases alive : m'.proc.killed with
    | true => simp [alive] at computed
    | false =>
      simp only [alive] at computed
      exact .fault env miss served alive (.hit computed)
  · simp at computed

theorem roomyRunning_steps {es : List UserEvent} (computed :
      Trace.steps (Machine.amongStep (.one 3 (by decide)) fun _ _ => true) roomyRunning es = some m) :
    Trace.Run Machine.UserStep roomyRunning es m :=
  (Machine.run_of_among (fun _ _ _ => trivial) roomyRunning_steady
    (among_init (by decide) roomyRunning_ran _) computed).unguarded

def childReadsZero (m : Machine) : Bool :=
  match kfork 2 m with
  | .ok (some np, m') => faultLoad someFiles { m' with proc := np } 12296 == some 0
  | _ => false

/-- A byte that the parent has in swap is lost to its child. -/
theorem fork_loses_swapped : roomyRunning.Steady ∧
    ∃ m np m', Trace.Run Machine.UserStep roomyRunning growStoreEvict m ∧
      kfork 2 m = .ok (some np, m') ∧ 12296 < m.proc.sz ∧ m.Loads 12296 42 ∧
      Machine.Loads 12296 { m' with proc := np } 0 := by
  refine ⟨roomyRunning_steady, ?_⟩
  have ran : (Trace.steps (Machine.amongStep (.one 3 (by decide)) fun _ _ => true) roomyRunning
      growStoreEvict).any fun m =>
      decide (12296 < m.proc.sz) && (faultLoad someFiles m 12296 == some 42) &&
      childReadsZero m := by decide +kernel
  obtain ⟨m, computed, checked⟩ := Option.any_eq_true _ _ |>.mp ran
  simp only [Bool.and_eq_true, decide_eq_true_eq, beq_iff_eq] at checked
  obtain ⟨⟨inside, parent⟩, child⟩ := checked
  unfold childReadsZero at child
  split at child
  · rename_i np m' forked
    exact ⟨m, np, m', roomyRunning_steps computed, forked, inside,
      loads_of_faultLoad parent, loads_of_faultLoad (beq_iff_eq.mp child)⟩
  · simp at child

end Xv6
