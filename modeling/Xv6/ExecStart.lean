import Xv6.Ages
import Xv6.Contents
import Xv6.ExecOutcome

/-! The process that a successful exec leaves: its table, its stack page and its files. -/

namespace Xv6

open Prog

/-- A process whose image was replaced. -/
structure Machine.Commits (m : Machine) (env : FsEnv) (path : List UInt8)
    (argv : List (List UInt8)) (m' : Machine) (ip : Nat) (load : SegmentLoad) (f guard stack : Nat)
    (page : Nat → UInt8) : Prop where
  found : namei m.fs m.proc.cwd path = some ip
  loaded : ∃ hdr, execHeader m.fs ip = some hdr ∧ load = execLoad m.fs ip hdr
  under : load.top + pgsize < trapframeVa
  opened : (m.openSwap env).1 = some f
  /-- The stack page holds the arguments as they were laid out. -/
  laid : ∃ sp argc, layStack (load.top + pgsize) argv = some (sp, argc, page)
  filled : m'.kmem.ram stack = page
  image : m'.proc.pagetable.Image m.kmem.trampoline m.proc.trapframe load.top guard stack
  traded : m.kmem.Trades m'.kmem m.proc.pagetable.frames m'.proc.pagetable.frames
  files : m'.fs = (m.openSwap env).2
  pid : m'.proc.pid = m.proc.pid
  size : m'.proc.sz = load.top + 2 * pgsize
  paging : m'.proc.paging = (m.proc.paging.reimage load.segs (some ip)).restack
    (load.top + 2 * pgsize) (some f)

section Commits

variable {m m' : Machine} {env : FsEnv} {path : List UInt8} {argv : List (List UInt8)} {r : Int}
  {ip f guard stack : Nat} {load : SegmentLoad} {page : Nat → UInt8}

theorem Machine.Execs.commits (ends : m.Execs env path argv r m') (success : r ≠ -1) :
    ∃ ip load f guard stack page, m.Commits env path argv m' ip load f guard stack page := by
  cases ends with
  | commit ip hdr f k pt guard stack sp argc page reads ready opened laid image traded filled =>
    exact ⟨ip, execLoad m.fs ip hdr, f, guard, stack, page, reads.found, ⟨hdr, reads.header, rfl⟩,
      ready.under, opened, ⟨sp, argc, laid⟩, filled, image, traded, rfl, rfl, rfl, rfl⟩
  | _ => exact absurd rfl success

theorem Machine.Commits.aligned (commits : m.Commits env path argv m' ip load f guard stack page) :
    load.top % pgsize = 0 := by
  exact pgroundup_mod _

theorem Machine.Commits.sound (commits : m.Commits env path argv m' ip load f guard stack page)
    (sound : m.Sound) : m'.Sound where
  nodup := commits.traded.total ▸ sound.nodup
  managed := commits.traded.manages sound.managed
  leaves := commits.image.leaves
  kernel := commits.image.kernel commits.under
  size := by
    -- Both stack pages end at or below the trapframe.
    have aligned := commits.aligned
    have under := commits.under
    rw [commits.size]
    simp only [trapframeVa, trampolineVa, maxva, pgsize] at *
    omega

theorem Machine.Commits.slotsHeld (commits : m.Commits env path argv m' ip load f guard stack page)
    (held : m.proc.paging.SlotsHeld) : m'.proc.paging.SlotsHeld := by
  rw [commits.paging]
  exact held.shrink (fun _ _ claims => claims) fun i slot claims => (held.marked i slot claims).2

theorem Machine.Commits.steady (commits : m.Commits env path argv m' ip load f guard stack page)
    (sound : m.Sound) (held : m.proc.paging.SlotsHeld)
    (apart : m.fs.Apart (swapName m.proc.pid) none ip) : m'.Steady where
  sound := commits.sound sound
  slots := commits.slotsHeld held
  apart ip' running := by
    have program : m'.proc.paging.execIp = some ip := by rw [commits.paging]; rfl
    obtain rfl : ip = ip' := Option.some.inj (program.symm.trans running)
    have swapfile : m'.proc.paging.swapfile = some f := by rw [commits.paging]; rfl
    have step := openSwap_step m.fs env m.proc.cwd m.proc.pid fun _ => false
    have opened : (Xv6.openSwap m.fs env m.proc.cwd m.proc.pid).1 = some f := commits.opened
    rw [commits.pid, commits.files, swapfile, ← opened]
    exact (step.spares ip apart).1

theorem Machine.Commits.vacant (commits : m.Commits env path argv m' ip load f guard stack page)
    {va : Nat} (user : UserAddress va) (notGuard : va / pgsize ≠ load.top / pgsize)
    (notStack : va / pgsize ≠ load.top / pgsize + 1) : m'.proc.pagetable.lookup va = none := by
  have kernel := user.user
  simp only [kernelPage, Bool.or_eq_false_iff, beq_eq_false_iff_ne] at kernel
  rw [commits.image.lookup va (lt_vaSpan user.below), if_neg notGuard, if_neg notStack,
    if_neg kernel.1, if_neg kernel.2]

theorem Machine.Commits.ranges (commits : m.Commits env path argv m' ip load f guard stack page) :
    m'.proc.paging.segs = load.segs ∧ m'.proc.paging.heapStart = load.top + 2 * pgsize ∧
      m'.proc.paging.pages = m.proc.paging.pages := by
  rw [commits.paging]
  exact ⟨rfl, rfl, rfl⟩

theorem loadSegments_aligned (fs : Fs) (ip : Nat) :
    ∀ n off sz (segs : Segments), segs.text.start % pgsize = 0 → segs.data.start % pgsize = 0 →
      (loadSegments fs ip n off sz segs).segs.text.start % pgsize = 0 ∧
      (loadSegments fs ip n off sz segs).segs.data.start % pgsize = 0 := by
  intro n
  induction n with
  | zero => exact fun _ _ _ text data => ⟨text, data⟩
  | succ n ih =>
    intro off sz segs text data
    simp only [loadSegments]
    split
    · exact ⟨text, data⟩
    split
    · exact ih _ _ _ text data
    split
    · exact ⟨text, data⟩
    -- A header that is recorded was checked for alignment first.
    rename_i acceptable
    have start := (not_not.mp acceptable).2.2
    have recorded : ∀ ph : Proghdr, ph.vaddr % pgsize = 0 →
        (recordSegment segs ph).text.start % pgsize = 0 ∧
        (recordSegment segs ph).data.start % pgsize = 0 := by
      intro ph vaddr
      simp only [recordSegment]
      split
      · exact ⟨vaddr, data⟩
      · split
        · exact ⟨text, vaddr⟩
        · exact ⟨text, data⟩
    obtain ⟨text', data'⟩ := recorded _ start
    split
    · exact ⟨text', data'⟩
    · exact ih _ _ _ text' data'

end Commits

theorem initMachine_unswapped (free : Nat) (prog : Inode) (i : Nat) :
    ((initMachine free prog).proc.paging.pages i).state ≠ .swapped := by
  simp [initMachine, initPagingInfo]

theorem commits_init {free : Nat} {prog : Inode} {m : Machine} (few : free ≤ 1024)
    (ran : kexec someFiles initPath [initPath] (initMachine free prog) = .ok (1, m)) :
    ∃ load f guard stack page, (initMachine free prog).Commits someFiles initPath [initPath] m 2
      load f guard stack page := by
  have ends := execs_of_ok (initMachine_sound_of_le few prog) (by decide) ran
  obtain ⟨ip, load, f, guard, stack, page, commits⟩ := ends.commits (by decide)
  obtain rfl : 2 = ip := Option.some.inj (initPath_named.symm.trans commits.found)
  exact ⟨load, f, guard, stack, page, commits⟩

theorem among_init {free : Nat} {prog : Inode} {m : Machine} (few : free ≤ 1024)
    (ran : kexec someFiles initPath [initPath] (initMachine free prog) = .ok (1, m))
    (c : Candidates) : m.proc.paging.Among c := by
  obtain ⟨load, f, guard, stack, page, commits⟩ := commits_init few ran
  intro i resident
  rw [commits.ranges.2.2] at resident
  exact initPagingInfo_among c i resident

end Xv6
