import Xv6.ExecLaws

/-! The ways replacing the image of a process can end, and when none of them is reached. -/

namespace Xv6

open Prog

structure Machine.Sound (m : Machine) : Prop where
  /-- No frame is free or mapped twice. -/
  nodup : (m.kmem.free + m.proc.pagetable.frames).Nodup
  managed : m.Managed
  leaves : m.proc.pagetable.Leaves
  kernel : m.proc.pagetable.Kernel
  /-- User memory ends below the kernel's pages. -/
  size : m.proc.sz ≤ trapframeVa

def Machine.exec (m : Machine) (k : Kmem) (fs : Fs) (pg : PagingInfo) : Machine :=
  { kmem := k, fs := fs, proc := { m.proc with paging := pg } }

def PagingInfo.reimage (pg : PagingInfo) (segs : Segments) (execIp : Option Nat) : PagingInfo :=
  { pg with segs := segs, execIp := execIp }

def PagingInfo.restack (pg : PagingInfo) (sz : Nat) (swap : Option Nat) : PagingInfo :=
  { pg with heapStart := sz, stackTop := sz, swapfile := swap }

structure Machine.Reads (m : Machine) (path : List UInt8) (ip : Nat) (hdr : Elfhdr) : Prop where
  found : namei m.fs m.proc.cwd path = some ip
  header : execHeader m.fs ip = some hdr
  room : 3 ≤ m.kmem.freelist.length

structure Machine.Stacks (m : Machine) (load : SegmentLoad) : Prop where
  ok : load.ok = true
  room : 3 + stackPages load.top ≤ m.kmem.freelist.length
  under : load.top + pgsize < trapframeVa

def Machine.ExecPanics (m : Machine) (path : List UInt8) : Prop :=
  ∃ ip hdr, m.Reads path ip hdr ∧ (execLoad m.fs ip hdr).Panics m.kmem.freelist.length

def Machine.openSwap (m : Machine) (env : FsEnv) : Option Nat × Fs :=
  Xv6.openSwap m.fs env m.proc.cwd m.proc.pid

/-- The ways replacing the image can end. -/
inductive Machine.Execs (m : Machine) (env : FsEnv) (path : List UInt8)
    (argv : List (List UInt8)) : Int → Machine → Prop where
  /-- The path names nothing. -/
  | noFile (absent : namei m.fs m.proc.cwd path = none) :
      Execs m env path argv (-1) (m.exec m.kmem m.fs
        (m.proc.paging.reimage Segments.zero m.proc.paging.execIp))
  /-- The file has no header, or there is no memory for a table. -/
  | badFile (ip : Nat) (k : Kmem) (found : namei m.fs m.proc.cwd path = some ip)
      (rejected : execHeader m.fs ip = none ∨ m.kmem.freelist.length < 3)
      (traded : m.kmem.Trades k 0 0) :
      Execs m env path argv (-1) (m.exec k m.fs (m.proc.paging.reimage Segments.zero none))
  /-- A segment is rejected, or there is no memory for the stack. -/
  | badImage (ip : Nat) (hdr : Elfhdr) (k : Kmem) (reads : m.Reads path ip hdr)
      (rejected : (execLoad m.fs ip hdr).ok = false ∨
        m.kmem.freelist.length < 3 + stackPages (execLoad m.fs ip hdr).top)
      (calm : ¬ (execLoad m.fs ip hdr).Panics m.kmem.freelist.length)
      (traded : m.kmem.Trades k 0 0) :
      Execs m env path argv (-1)
        (m.exec k m.fs (m.proc.paging.reimage (execLoad m.fs ip hdr).segs none))
  /-- The swap file cannot be opened. -/
  | noSwap (ip : Nat) (hdr : Elfhdr) (k : Kmem) (reads : m.Reads path ip hdr)
      (ready : m.Stacks (execLoad m.fs ip hdr)) (closed : (m.openSwap env).1 = none)
      (traded : m.kmem.Trades k 0 0) :
      Execs m env path argv (-1) (m.exec k (m.openSwap env).2
        ((m.proc.paging.reimage (execLoad m.fs ip hdr).segs none).restack
          ((execLoad m.fs ip hdr).top + 2 * pgsize) none))
  /-- The arguments do not fit. -/
  | badArgs (ip : Nat) (hdr : Elfhdr) (f : Nat) (k : Kmem) (reads : m.Reads path ip hdr)
      (ready : m.Stacks (execLoad m.fs ip hdr)) (opened : (m.openSwap env).1 = some f)
      (large : layStack ((execLoad m.fs ip hdr).top + pgsize) argv = none)
      (traded : m.kmem.Trades k 0 0) :
      Execs m env path argv (-1) (m.exec k (m.openSwap env).2
        ((m.proc.paging.reimage (execLoad m.fs ip hdr).segs none).restack
          ((execLoad m.fs ip hdr).top + 2 * pgsize) (some f)))
  /-- The new image replaces the old one. -/
  | commit (ip : Nat) (hdr : Elfhdr) (f : Nat) (k : Kmem) (pt : PageTable)
      (guard stack sp argc : Nat) (page : Nat → UInt8) (reads : m.Reads path ip hdr)
      (ready : m.Stacks (execLoad m.fs ip hdr)) (opened : (m.openSwap env).1 = some f)
      (laid : layStack ((execLoad m.fs ip hdr).top + pgsize) argv = some (sp, argc, page))
      (image : pt.Image m.kmem.trampoline m.proc.trapframe (execLoad m.fs ip hdr).top guard stack)
      (traded : m.kmem.Trades k m.proc.pagetable.frames pt.frames)
      (filled : k.ram stack = page) :
      Execs m env path argv argc
        { kmem := k
          fs := (m.openSwap env).2
          proc := { m.proc with
            pagetable := pt
            sz := (execLoad m.fs ip hdr).top + 2 * pgsize
            tf := { m.proc.tf with a1 := sp, epc := hdr.entry, sp := sp }
            paging := (m.proc.paging.reimage (execLoad m.fs ip hdr).segs (some ip)).restack
              ((execLoad m.fs ip hdr).top + 2 * pgsize) (some f) } }

variable {m : Machine} {env : FsEnv} {path : List UInt8} {argv : List (List UInt8)}

theorem Machine.Stacks.calm {load : SegmentLoad} (ready : m.Stacks load) (n : Nat) :
    ¬ load.Panics n := by
  have under := ready.under
  unfold SegmentLoad.Panics
  simp only [trapframeVa, trampolineVa, maxva, pgsize] at *
  omega

section Image

variable {env : FsEnv} {path : List UInt8} {argv : List (List UInt8)} {start : Machine} {l : Kmem}
  {root mid low ip : Nat} {hdr : Elfhdr} {post : Int → Machine → Prop} {abort : Panic → Prop}

theorem kernelTable_leaves (root mid low trampoline trapframe : Nat) :
    (kernelTable root mid low trampoline trapframe).Leaves := by
  intro va pte below entry
  rw [lookup_kernelTable _ _ _ _ _ below] at entry
  split at entry
  · obtain rfl := Option.some.inj entry; rfl
  split at entry
  · obtain rfl := Option.some.inj entry; rfl
  · simp at entry

theorem Machine.Sound.building {k : Kmem} {own : Multiset Nat} (sound : start.Sound)
    (traded : start.kmem.Trades k 0 own) :
    (∀ f, f ∈ k.free + own → k.Manages f) ∧ start.proc.pagetable.Managed k := by
  have framed := traded.frame start.proc.pagetable.frames
  rw [zero_add] at framed
  have all := framed.manages sound.managed
  constructor
  · intro f member
    apply all
    rw [← add_assoc]
    exact Multiset.mem_add.mpr (Or.inl member)
  · intro f member
    exact all f (Multiset.mem_add.mpr (Or.inr (Multiset.mem_add.mpr (Or.inr member))))

theorem wp_execStack_ends {v : Vm} (sound : start.Sound)
    (short : ∀ arg ∈ argv, arg.length < pgsize) (reads : start.Reads path ip hdr)
    (ready : start.Stacks (execLoad start.fs ip hdr)) (aligned : (execLoad start.fs ip hdr).top % pgsize = 0)
    (suffix : l.freelist <:+ start.kmem.freelist)
    (traded : start.kmem.Trades l 0
      (kernelTable root mid low start.kmem.trampoline start.proc.trapframe).frames)
    (filled : Vm.Fills ⟨l, kernelTable root mid low start.kmem.trampoline start.proc.trapframe⟩ v
      (pageRun ((execLoad start.fs ip hdr).top / pgsize) 2 ⟨true, true, false, true⟩ fun _ => 0))
    (ended : ∀ r m', start.Execs env path argv r m' → post r m') :
    wp (execStack env hdr.entry argv v.pt ((execLoad start.fs ip hdr).top + 2 * pgsize)) post abort
      (start.exec v.kmem start.fs
        (start.proc.paging.reimage (execLoad start.fs ip hdr).segs (some ip))) := by
  obtain ⟨guard, stack, guarded, taken, gone, zeroed, image, frames⟩ :=
    image_of_fills aligned ready.under filled
  generalize cleared : v.pt.setPte _ _ = pt' at image frames
  have whole : start.kmem.Trades v.kmem 0 pt'.frames := by
    rw [frames]
    exact traded.trans filled.trades
  obtain ⟨managed, oldManaged⟩ := sound.building whole
  -- The stack page was free before, so it is no page of the old image.
  have apart : stack ∉ start.proc.pagetable.frames := by
    intro mapped
    have free : stack ∈ start.kmem.free := suffix.subset taken
    exact (Multiset.disjoint_left.mp (Multiset.nodup_add.mp sound.nodup).2.2) free mapped
  refine wp_execStack aligned ready.under guarded cleared.symm image ?_ ?_ short ?_ ?_ ?_ ?_ ?_ ?_
  · exact zeroed
  · exact fun f member => managed f (Multiset.mem_add.mpr (Or.inr member))
  · exact sound.leaves
  · exact oldManaged
  · have small : trapframeVa ≤ maxva := by decide
    exact Nat.le_trans sound.size small
  · intro k refused back
    exact ended _ _ (.noSwap ip hdr k reads ready refused (whole.trans back))
  · intro f k opened large back
    exact ended _ _ (.badArgs ip hdr f k reads ready opened large (whole.trans back))
  · intro f sp argc page k opened laid back
    have mine : stack ∈ pt'.frames := by
      refine mem_frames_of_lookup ?_ (image.stack_entry ready.under) ?_
      · have under := ready.under
        simp only [trapframeVa, trampolineVa, maxva, vaSpan] at *
        omega
      · have under := ready.under
        simp only [kernelPage, Bool.or_eq_false_iff, beq_eq_false_iff_ne, trapframeVa,
          trampolineVa, maxva, pgsize] at *
        omega
    -- The new image comes out of the free list, and the old one goes back into it.
    have built := (whole.trans (Kmem.trades_write mine page)).frame start.proc.pagetable.frames
    have freed := back.frame pt'.frames
    rw [zero_add] at built freed
    rw [add_comm pt'.frames] at built
    refine ended _ _ (.commit ip hdr f k pt' guard stack sp argc page reads ready opened laid image
      (built.trans freed) ?_)
    rw [back.ram stack]
    · exact Kmem.ram_put_self _ _ _
    · rw [Multiset.mem_add, not_or]
      exact ⟨gone, apart⟩

theorem wp_execImage (sound : start.Sound) (short : ∀ arg ∈ argv, arg.length < pgsize)
    (reads : start.Reads path ip hdr)
    (front : start.kmem.freelist = root :: mid :: low :: l.freelist)
    (traded : start.kmem.Trades l 0
      (kernelTable root mid low start.kmem.trampoline start.proc.trapframe).frames)
    (panicked : (execLoad start.fs ip hdr).Panics start.kmem.freelist.length → ∀ e, abort e)
    (ended : ∀ r m', start.Execs env path argv r m' → post r m') :
    wp (execImage env ip hdr argv
        (kernelTable root mid low start.kmem.trampoline start.proc.trapframe)) post abort
      (start.exec l start.fs
        (start.proc.paging.reimage Segments.zero start.proc.paging.execIp)) := by
  obtain ⟨building, -⟩ := sound.building traded
  have suffix : l.freelist <:+ start.kmem.freelist := ⟨[root, mid, low], by rw [front]; rfl⟩
  have nodup : l.freelist.Nodup := by
    have whole : start.kmem.freelist.Nodup :=
      Multiset.coe_nodup.mp (Multiset.nodup_add.mp sound.nodup).1
    exact whole.sublist suffix.sublist
  have count : start.kmem.freelist.length = l.freelist.length + 3 := by rw [front]; rfl
  have aligned : (execLoad start.fs ip hdr).top % pgsize = 0 := pgroundup_mod _
  have register : (execLoad start.fs ip hdr).top < 2 ^ 64 := by
    simp only [SegmentLoad.top, pgroundup, u64, pgsize]
    omega
  have loaded : loadSegments start.fs ip hdr.phnum (u32 hdr.phoff) 0 Segments.zero =
      execLoad start.fs ip hdr := rfl
  have top : pgroundup (execLoad start.fs ip hdr).sz = (execLoad start.fs ip hdr).top := rfl
  simp only [execImage, wp_bind, wp_modifyPaging, wp_get, Machine.exec, PagingInfo.reimage, loaded,
    top]
  cases accepted : (execLoad start.fs ip hdr).ok with
  | false =>
    -- A rejected segment leaves the size at the last accepted one, and the cleanup walks it.
    simp only [Bool.not_false]
    refine wp_execBad (kernelTable_leaves _ _ _ _ _) ?_ (fun above => ?_) ?_
    · exact fun f member => building f (Multiset.mem_add.mpr (Or.inr member))
    · exact panicked (Or.inl above) _
    · intro k within back
      refine ended _ _ (.badImage ip hdr k reads (Or.inl accepted) ?_ (traded.trans back))
      rintro (above | ⟨ok, -⟩)
      · exact absurd above (Nat.not_lt.mpr within)
      · simp [accepted] at ok
  | true =>
    simp only [Bool.not_true, Bool.false_eq_true, if_false, wp_bind, wp_withKmem, wp_onTable]
    have fits := fits_kernelTable root mid low start.kmem.trampoline start.proc.trapframe (k := l)
      aligned
    have pages : needs (kernelTable root mid low start.kmem.trampoline
        start.proc.trapframe).missing (execLoad start.fs ip hdr).top 2 =
        stackPages (execLoad start.fs ip hdr).top := by
      rw [missing_kernelTable]
      rfl
    by_cases wraps : 2 ^ 64 ≤ (execLoad start.fs ip hdr).top + 2 * pgsize
    · -- The new size wraps below the old one, and the guard page is looked for above the limit.
      have high : maxva ≤ usub (execLoad start.fs ip hdr).top ((userstack + 1) * pgsize) := by
        simp only [usub, u64, userstack, maxva, pgsize] at *
        omega
      have panics : (execLoad start.fs ip hdr).Panics start.kmem.freelist.length := by
        refine Or.inl ?_
        simp only [maxva, pgsize] at *
        omega
      have shrinks : u64 ((execLoad start.fs ip hdr).top + (userstack + 1) * pgsize) <
          (execLoad start.fs ip hdr).top := by
        simp only [u64, userstack, pgsize] at *
        omega
      have positive : (execLoad start.fs ip hdr).top ≠ 0 := by
        omega
      rw [uvmalloc, if_pos shrinks, wp_pure]
      rw [if_neg positive, execStack, wp_bind, wp_withKmem, wp_onTable]
      exact wp_uvmclear_above high (panicked panics _)
    · have grown : u64 ((execLoad start.fs ip hdr).top + (userstack + 1) * pgsize) =
          (execLoad start.fs ip hdr).top + 2 * pgsize := by
        simp only [u64, userstack] at *
        omega
      rw [grown]
      have two : ((execLoad start.fs ip hdr).top + 2 * pgsize - (execLoad start.fs ip hdr).top +
          (pgsize - 1)) / pgsize = 2 := by
        simp only [pgsize]
        omega
      refine wp_uvmalloc nodup (pgroundup_aligned aligned register) two (kernelTable_kernel _ _ _ _ _)
        (fun foreign => absurd building foreign) (fun less => by omega) (fun _ blocked => ?_)
        (fun v allowed few undone => ?_) (fun v allowed enough filled => ?_)
      · -- A page that got a frame is above the limit or already mapped.
        have panics : (execLoad start.fs ip hdr).Panics start.kmem.freelist.length := by
          rw [fits] at blocked
          refine Or.inr ⟨accepted, ?_⟩
          omega
        exact ⟨panicked panics _, panicked panics _⟩
      · rw [if_pos rfl]
        have back := traded.trans undone.trades
        refine wp_execBad (fun va pte below entry => ?_) ?_ (fun above => ?_) ?_
        · rw [undone.lookup va below] at entry
          exact kernelTable_leaves _ _ _ _ _ va pte below entry
        · exact fun f member =>
            (sound.building back).1 f (Multiset.mem_add.mpr (Or.inr member))
        · rw [pgroundup_aligned aligned register] at above
          exact panicked (Or.inl above) _
        · intro k within freed
          rw [pgroundup_aligned aligned register] at within
          rw [fits] at allowed
          have scarce : l.freelist.length < stackPages (execLoad start.fs ip hdr).top := pages ▸ few
          refine ended _ _ (.badImage ip hdr k reads (Or.inr (by omega)) ?_ (back.trans freed))
          rintro (above | ⟨-, first | second⟩)
          · exact absurd above (Nat.not_lt.mpr within)
          · omega
          · omega
      · rw [if_neg (by simp only [pgsize]; omega)]
        have plenty : stackPages (execLoad start.fs ip hdr).top ≤ l.freelist.length :=
          pages ▸ enough
        have some : 2 ≤ l.freelist.length := by
          refine Nat.le_trans ?_ plenty
          simp only [stackPages, needs]
          omega
        refine wp_execStack_ends sound short reads ⟨accepted, ?_, (fits.mp allowed).2 some⟩ aligned
          suffix traded filled ended
        omega

theorem wp_execFile (sound : start.Sound) (short : ∀ arg ∈ argv, arg.length < pgsize)
    (found : namei start.fs start.proc.cwd path = some ip)
    (panicked : start.ExecPanics path → ∀ e, abort e)
    (ended : ∀ r m', start.Execs env path argv r m' → post r m') :
    wp (execFile env ip argv) post abort
      (start.exec start.kmem start.fs
        (start.proc.paging.reimage Segments.zero start.proc.paging.execIp)) := by
  -- Every rejection before the table exists ends the same way.
  have reject : ∀ k, (execHeader start.fs ip = none ∨ start.kmem.freelist.length < 3) →
      start.kmem.Trades k 0 0 →
      wp (execBad none) post abort
        (start.exec k start.fs
          (start.proc.paging.reimage Segments.zero start.proc.paging.execIp)) := by
    intro k rejected traded
    simp only [execBad, wp_bind, wp_pure, wp_modifyPaging]
    exact ended _ _ (.badFile ip k found rejected traded)
  have stay := Kmem.Trades.refl start.kmem 0
  simp only [execFile, wp_bind, wp_get, Machine.exec]
  by_cases size : (readi start.fs ip (fun _ => 0) 0 elfhdrSize).1 ≠ elfhdrSize
  · rw [if_pos size]
    refine reject _ (Or.inl ?_) stay
    simp only [execHeader]
    rw [if_pos size]
  rw [if_neg size]
  by_cases magic :
      (parseElfhdr (readi start.fs ip (fun _ => 0) 0 elfhdrSize).2).magic ≠ elfMagic
  · rw [if_pos magic]
    refine reject _ (Or.inl ?_) stay
    simp only [execHeader]
    rw [if_neg size, if_pos magic]
  rw [if_neg magic, wp_bind, wp_withKmem]
  have header : execHeader start.fs ip =
      some (parseElfhdr (readi start.fs ip (fun _ => 0) 0 elfhdrSize).2) := by
    simp only [execHeader]
    rw [if_neg size, if_neg magic]
  have owned : ∀ f, f ∈ start.kmem.freelist → start.kmem.Manages f :=
    fun f member => sound.managed f (Multiset.mem_add.mpr (Or.inl member))
  apply wp_procPagetable (fun foreign => absurd owned foreign)
  · intro l few traded
    exact reject l (Or.inr few) traded
  · intro root mid low rest l front left _ traded
    have room : 3 ≤ start.kmem.freelist.length := by
      have length := congrArg List.length front
      simp only [List.length_cons] at length
      omega
    subst left
    refine wp_execImage sound short ⟨found, header, room⟩ front ?_ (fun panics => ?_) ended
    · rw [frames_kernelTable]
      exact traded
    · exact panicked ⟨ip, _, ⟨found, header, room⟩, panics⟩

end Image

theorem wp_kexec {post : Int → Machine → Prop} {abort : Panic → Prop} (sound : m.Sound)
    (short : ∀ arg ∈ argv, arg.length < pgsize) (panicked : m.ExecPanics path → ∀ e, abort e)
    (ended : ∀ r m', m.Execs env path argv r m' → post r m') :
    wp (kexec env path argv) post abort m := by
  simp only [kexec, wp_bind, wp_modifyPaging, wp_get]
  cases found : namei m.fs m.proc.cwd path with
  | none =>
    rw [wp_pure]
    exact ended _ _ (.noFile found)
  | some ip => exact wp_execFile sound short found panicked ended

theorem Machine.Execs.calm {m' : Machine} {r : Int} (ends : m.Execs env path argv r m') :
    ¬ m.ExecPanics path := by
  rintro ⟨ip, hdr, reads, panics⟩
  -- The file and its header are determined by the path.
  have same : ∀ ip' hdr', m.Reads path ip' hdr' → ip' = ip ∧ hdr' = hdr := by
    intro ip' hdr' reads'
    obtain rfl : ip' = ip := Option.some.inj (reads'.found.symm.trans reads.found)
    exact ⟨rfl, Option.some.inj (reads'.header.symm.trans reads.header)⟩
  cases ends with
  | noFile absent => simp [reads.found] at absent
  | badFile ip' k found rejected _ =>
    obtain rfl : ip' = ip := Option.some.inj (found.symm.trans reads.found)
    have room := reads.room
    rcases rejected with none | few
    · simp [reads.header] at none
    · omega
  | badImage ip' hdr' k reads' _ calm _ =>
    obtain ⟨rfl, rfl⟩ := same ip' hdr' reads'
    exact calm panics
  | noSwap ip' hdr' k reads' ready =>
    obtain ⟨rfl, rfl⟩ := same ip' hdr' reads'
    exact ready.calm _ panics
  | badArgs ip' hdr' f k reads' ready =>
    obtain ⟨rfl, rfl⟩ := same ip' hdr' reads'
    exact ready.calm _ panics
  | commit ip' hdr' f k pt guard stack sp argc page reads' ready =>
    obtain ⟨rfl, rfl⟩ := same ip' hdr' reads'
    exact ready.calm _ panics

end Xv6
