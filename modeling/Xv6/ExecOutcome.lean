import Xv6.ExecEnds
import Xv6.Fork

/-! When replacing an image returns, and what a failed attempt leaves of the old program. -/

namespace Xv6

open Prog

variable {base ip sp : Nat} {argv : List (List UInt8)} {page : Nat → UInt8} {m' : Machine} {r : Int}
  {prog : Inode} {hdr : Elfhdr}

theorem layArgs_length {sp' : Nat} {ustack ustack' : List Nat} {page' : Nat → UInt8}
    (laid : layArgs base argv sp ustack page = some (sp', ustack', page')) :
    ustack'.length = ustack.length + argv.length := by
  -- Every turn of the loop appends the address of the string it pushed.
  induction argv generalizing sp ustack page with
  | nil =>
    simp only [layArgs, Option.some.injEq, Prod.mk.injEq] at laid
    rw [← laid.2.1]
    rfl
  | cons arg rest ih =>
    rw [layArgs] at laid
    split at laid
    · simp at laid
    split at laid
    · simp at laid
    rw [ih laid]
    simp only [List.length_append, List.length_cons, List.length_nil]
    omega

theorem layStack_argc {argc : Nat} (laid : layStack base argv = some (sp, argc, page)) :
    argc = argv.length := by
  rw [layStack] at laid
  split at laid
  · simp at laid
  · rename_i sp' ustack page' strings
    rw [layWords] at laid
    split at laid
    · simp at laid
    · simp only [Option.some.injEq, Prod.mk.injEq] at laid
      rw [← laid.2.1, layArgs_length strings]
      exact Nat.zero_add _

section Returns

variable {env : FsEnv} {path : List UInt8} {argv : List (List UInt8)} {m : Machine}

theorem exists_execs (env : FsEnv) (sound : m.Sound) (short : ∀ arg ∈ argv, arg.length < pgsize)
    (calm : ¬ m.ExecPanics path) :
    ∃ r m', kexec env path argv m = .ok (r, m') ∧ m.Execs env path argv r m' := by
  apply exists_ok_of_wp
  exact wp_kexec sound short (fun panics => absurd panics calm) fun _ _ ends => ends

theorem execs_of_ok (sound : m.Sound) (short : ∀ arg ∈ argv, arg.length < pgsize)
    (ran : kexec env path argv m = .ok (r, m')) : m.Execs env path argv r m' := by
  have judged : wp (kexec env path argv) (m.Execs env path argv) (fun _ => True) m :=
    wp_kexec sound short (fun _ _ => trivial) fun _ _ ends => ends
  exact wp_ok judged ran

theorem Machine.Execs.result (ends : m.Execs env path argv r m') : r = argv.length ∨ r = -1 := by
  cases ends with
  | commit ip hdr f k pt guard stack sp argc page reads ready opened laid =>
    rw [layStack_argc laid]
    exact Or.inl rfl
  | _ => exact Or.inr rfl

end Returns

def elfFile (flags memsz : Nat) : Inode where
  type := some .file
  size := 120
  data i :=
    if i < 4 then UInt8.ofNat (elfMagic / 256 ^ i % 256)
    -- One program header follows the file header.
    else if i = 32 then 64
    else if i = 56 ∨ i = 64 then 1
    else if i = 68 then UInt8.ofNat flags
    else if 104 ≤ i ∧ i < 112 then UInt8.ofNat (memsz / 256 ^ (i - 104) % 256)
    else 0

def initPath : List UInt8 := [47, 105, 110, 105, 116]

def initFs (prog : Inode) : Fs where
  inodes i :=
    if i = rootino then ⟨some .dir, 0, fun _ => 0⟩
    else if i = 2 then prog
    else ⟨none, 0, fun _ => 0⟩
  dirlookup d name := if d = rootino ∧ name = [105, 110, 105, 116] then some 2 else none

def initKmem (free : Nat) : Kmem :=
  ⟨0x80020000, 0x80007000, (List.range free).map fun i => 0x80104000 + i * pgsize, fun _ _ => 0⟩

def initMachine (free : Nat) (prog : Inode) : Machine where
  kmem := initKmem free
  fs := initFs prog
  proc :=
    ⟨.running, 1, false, 0, kernelTable 0x80101000 0x80102000 0x80103000 0x80007000 0x80100000,
      0x80100000, Trapframe.junk, rootino, initPagingInfo⟩

theorem initMachine_sound_of_le {free : Nat} (few : free ≤ 1024) (prog : Inode) :
    (initMachine free prog).Sound := by
  have frames : (initMachine free prog).proc.pagetable.frames =
      {0x80101000} + {0x80102000} + {0x80103000} := frames_kernelTable _ _ _ _ _
  have memory : (initMachine free prog).kmem = initKmem free := rfl
  have pages : ∀ f, f ∈ (initKmem free).free ↔ ∃ i, i < free ∧ 0x80104000 + i * pgsize = f := by
    simp [initKmem, Kmem.free]
  refine ⟨?_, ?_, kernelTable_leaves _ _ _ _ _, kernelTable_kernel _ _ _ _ _, Nat.zero_le _⟩
  · rw [frames, memory, Multiset.nodup_add]
    refine ⟨?_, by decide, ?_⟩
    · apply Multiset.coe_nodup.mpr
      apply List.Nodup.map _ List.nodup_range
      intro i j same
      simp only [pgsize] at same
      omega
    · -- The free pages lie above the table.
      apply Multiset.disjoint_left.mpr
      intro f isFree owned
      obtain ⟨i, -, rfl⟩ := (pages f).mp isFree
      simp only [Multiset.mem_add, Multiset.mem_singleton] at owned
      omega
  · rw [Machine.Managed, frames, memory]
    intro f member
    rcases Multiset.mem_add.mp member with isFree | owned
    · obtain ⟨i, low, rfl⟩ := (pages f).mp isFree
      simp only [Kmem.Manages, initKmem, pgsize, phystop]
      omega
    · simp only [Multiset.mem_add, Multiset.mem_singleton] at owned
      simp only [Kmem.Manages, initKmem, pgsize, phystop]
      omega

theorem initMachine_sound (prog : Inode) : (initMachine 12 prog).Sound :=
  initMachine_sound_of_le (by decide) prog

theorem initFs_apart (allocated : prog.type ≠ none) (pid : Nat) :
    (initFs prog).Apart (swapName pid) none 2 := by
  refine ⟨by simpa [initFs, rootino] using allocated, fun d found => ?_, by simp⟩
  -- The two names already differ in their first character.
  simp [initFs, swapName] at found

theorem initPath_named : namei (initFs prog) rootino initPath = some 2 := by
  simp [namei, initFs, pathStart, initPath, slash, pathElems, skipelem, dirsiz, namexFrom]

/-- Where an attempt to replace an image leaves the code. -/
inductive ExecExit where
  /-- The path names nothing. -/
  | lookup
  /-- The file has no header, or there is no memory for a table. -/
  | header
  /-- A segment is rejected, or there is no memory for the stack. -/
  | image (load : SegmentLoad)
  /-- The swap file cannot be opened. -/
  | swap (load : SegmentLoad)
  /-- The arguments do not fit. -/
  | args (load : SegmentLoad) (swapfile : Nat)
  | commit
  | panic
  deriving DecidableEq, Repr

def Machine.execExit (m : Machine) (env : FsEnv) (path : List UInt8) (argv : List (List UInt8)) :
    ExecExit :=
  match namei m.fs m.proc.cwd path with
  | none => .lookup
  | some ip =>
    match execHeader m.fs ip with
    | none => .header
    | some hdr =>
      if m.kmem.freelist.length < 3 then .header
      else if (execLoad m.fs ip hdr).Panics m.kmem.freelist.length then .panic
      else if (execLoad m.fs ip hdr).ok = false ∨
          m.kmem.freelist.length < 3 + stackPages (execLoad m.fs ip hdr).top then
        .image (execLoad m.fs ip hdr)
      else match (m.openSwap env).1 with
        | none => .swap (execLoad m.fs ip hdr)
        | some f =>
          if layStack ((execLoad m.fs ip hdr).top + pgsize) argv = none then
            .args (execLoad m.fs ip hdr) f
          else .commit

def ExecExit.leaves (pg : PagingInfo) : ExecExit → Option PagingInfo
  | .lookup => some (pg.reimage Segments.zero pg.execIp)
  | .header => some (pg.reimage Segments.zero none)
  | .image load => some (pg.reimage load.segs none)
  | .swap load => some ((pg.reimage load.segs none).restack (load.top + 2 * pgsize) none)
  | .args load f => some ((pg.reimage load.segs none).restack (load.top + 2 * pgsize) (some f))
  | .commit | .panic => none

section Fails

variable {env : FsEnv} {path : List UInt8} {argv : List (List UInt8)} {m : Machine}

theorem Machine.execExit_absent (absent : namei m.fs m.proc.cwd path = none) :
    m.execExit env path argv = .lookup := by
  simp only [Machine.execExit, absent]

theorem Machine.Reads.execExit (reads : m.Reads path ip hdr)
    (calm : ¬ (execLoad m.fs ip hdr).Panics m.kmem.freelist.length) : m.execExit env path argv =
      if (execLoad m.fs ip hdr).ok = false ∨
          m.kmem.freelist.length < 3 + stackPages (execLoad m.fs ip hdr).top then
        .image (execLoad m.fs ip hdr)
      else match (m.openSwap env).1 with
        | none => .swap (execLoad m.fs ip hdr)
        | some f =>
          if layStack ((execLoad m.fs ip hdr).top + pgsize) argv = none then
            .args (execLoad m.fs ip hdr) f
          else .commit := by
  have room := reads.room
  simp only [Machine.execExit, reads.found, reads.header]
  rw [if_neg (by omega), if_neg calm]

theorem Machine.Reads.execExit_ready (reads : m.Reads path ip hdr)
    (ready : m.Stacks (execLoad m.fs ip hdr)) : m.execExit env path argv =
      match (m.openSwap env).1 with
        | none => .swap (execLoad m.fs ip hdr)
        | some f =>
          if layStack ((execLoad m.fs ip hdr).top + pgsize) argv = none then
            .args (execLoad m.fs ip hdr) f
          else .commit := by
  have room := ready.room
  rw [reads.execExit (ready.calm _), if_neg]
  rintro (rejected | few)
  · simp [ready.ok] at rejected
  · omega

theorem Machine.Execs.exit (ends : m.Execs env path argv r m') :
    (r = -1 ∧ ∃ k fs pg, (m.execExit env path argv).leaves m.proc.paging = some pg ∧
      m' = m.exec k fs pg) ∨
    (r ≠ -1 ∧ m.execExit env path argv = .commit) := by
  cases ends with
  | noFile absent =>
    refine Or.inl ⟨rfl, _, _, _, ?_, rfl⟩
    rw [Machine.execExit_absent absent, ExecExit.leaves]
  | badFile ip k found rejected =>
    refine Or.inl ⟨rfl, k, _, _, ?_, rfl⟩
    -- Without a header, or without memory, the exit is the same.
    cases header : execHeader m.fs ip with
    | none => simp only [Machine.execExit, found, header, ExecExit.leaves]
    | some hdr =>
      have few : m.kmem.freelist.length < 3 := by
        rcases rejected with none | few
        · simp [header] at none
        · exact few
      simp only [Machine.execExit, found, header, few, if_true, ExecExit.leaves]
  | badImage ip hdr k reads rejected calm =>
    refine Or.inl ⟨rfl, k, _, _, ?_, rfl⟩
    rw [reads.execExit calm, if_pos rejected, ExecExit.leaves]
  | noSwap ip hdr k reads ready closed =>
    refine Or.inl ⟨rfl, k, _, _, ?_, rfl⟩
    rw [reads.execExit_ready ready, closed]
    rfl
  | badArgs ip hdr f k reads ready opened large =>
    refine Or.inl ⟨rfl, k, _, _, ?_, rfl⟩
    rw [reads.execExit_ready ready, opened]
    simp only [large, if_true, ExecExit.leaves]
  | commit ip hdr f k pt guard stack sp argc page reads ready opened laid =>
    refine Or.inr ⟨by omega, ?_⟩
    rw [reads.execExit_ready ready, opened]
    simp only [laid, reduceCtorEq, if_false]

theorem Machine.ExecPanics.exit (panics : m.ExecPanics path) :
    m.execExit env path argv = .panic := by
  obtain ⟨ip, hdr, reads, bad⟩ := panics
  have room := reads.room
  simp only [Machine.execExit, reads.found, reads.header]
  rw [if_neg (by omega), if_pos bad]

end Fails

structure Proc.Untouched (p p' : Proc) : Prop where
  pagetable : p'.pagetable = p.pagetable
  sz : p'.sz = p.sz
  trapframe : p'.trapframe = p.trapframe
  tf : p'.tf = p.tf
  segs : p'.paging.segs = p.paging.segs
  execIp : p'.paging.execIp = p.paging.execIp
  heapStart : p'.paging.heapStart = p.paging.heapStart
  swapfile : p'.paging.swapfile = p.paging.swapfile
  pages : p'.paging.pages = p.paging.pages
  swapBitmap : p'.paging.swapBitmap = p.paging.swapBitmap

def ExecExit.Harmless (pg : PagingInfo) : ExecExit → Prop
  | .lookup => pg.segs = Segments.zero
  | .header => pg.segs = Segments.zero ∧ pg.execIp = none
  | .image load => pg.segs = load.segs ∧ pg.execIp = none
  | .swap load => pg.segs = load.segs ∧ pg.execIp = none ∧
      pg.heapStart = load.top + 2 * pgsize ∧ pg.swapfile = none
  | .args load f => pg.segs = load.segs ∧ pg.execIp = none ∧
      pg.heapStart = load.top + 2 * pgsize ∧ pg.swapfile = some f
  | .commit | .panic => True

theorem ExecExit.harmless_iff (m : Machine) (exit : ExecExit) :
    exit.Harmless m.proc.paging ↔ ∀ k fs pg, exit.leaves m.proc.paging = some pg →
      m.proc.Untouched (m.exec k fs pg).proc := by
  -- Each exit writes the fields its condition lists and no others.
  constructor
  · intro harmless k fs pg left
    cases exit with
    | lookup =>
      obtain rfl := Option.some.inj left
      exact ⟨rfl, rfl, rfl, rfl, harmless.symm, rfl, rfl, rfl, rfl, rfl⟩
    | header =>
      obtain rfl := Option.some.inj left
      exact ⟨rfl, rfl, rfl, rfl, harmless.1.symm, harmless.2.symm, rfl, rfl, rfl, rfl⟩
    | image load =>
      obtain rfl := Option.some.inj left
      exact ⟨rfl, rfl, rfl, rfl, harmless.1.symm, harmless.2.symm, rfl, rfl, rfl, rfl⟩
    | swap load =>
      obtain rfl := Option.some.inj left
      exact ⟨rfl, rfl, rfl, rfl, harmless.1.symm, harmless.2.1.symm, harmless.2.2.1.symm,
        harmless.2.2.2.symm, rfl, rfl⟩
    | args load f =>
      obtain rfl := Option.some.inj left
      exact ⟨rfl, rfl, rfl, rfl, harmless.1.symm, harmless.2.1.symm, harmless.2.2.1.symm,
        harmless.2.2.2.symm, rfl, rfl⟩
    | commit => simp [ExecExit.leaves] at left
    | panic => simp [ExecExit.leaves] at left
  · intro kept
    cases exit with
    | lookup => exact (kept m.kmem m.fs _ rfl).segs.symm
    | header =>
      have same := kept m.kmem m.fs _ rfl
      exact ⟨same.segs.symm, same.execIp.symm⟩
    | image load =>
      have same := kept m.kmem m.fs _ rfl
      exact ⟨same.segs.symm, same.execIp.symm⟩
    | swap load =>
      have same := kept m.kmem m.fs _ rfl
      exact ⟨same.segs.symm, same.execIp.symm, same.heapStart.symm, same.swapfile.symm⟩
    | args load f =>
      have same := kept m.kmem m.fs _ rfl
      exact ⟨same.segs.symm, same.execIp.symm, same.heapStart.symm, same.swapfile.symm⟩
    | commit => trivial
    | panic => trivial

/-- A failed attempt leaves the old program untouched exactly when its exit is harmless. -/
theorem failed_exec_untouched_iff (env : FsEnv) (path : List UInt8) (argv : List (List UInt8))
    (m : Machine) (sound : m.Sound) (short : ∀ arg ∈ argv, arg.length < pgsize) :
    (∀ m', kexec env path argv m = .ok (-1, m') → m.proc.Untouched m'.proc) ↔
      (m.execExit env path argv).Harmless m.proc.paging := by
  rw [ExecExit.harmless_iff]
  constructor
  · intro kept k fs pg left
    by_cases panics : m.ExecPanics path
    · -- An exit that panics leaves nothing.
      rw [panics.exit] at left
      simp [ExecExit.leaves] at left
    obtain ⟨r, m', ran, ends⟩ := exists_execs env sound short panics
    rcases ends.exit with ⟨rfl, k', fs', pg', left', rfl⟩ | ⟨-, commits⟩
    · obtain rfl : pg' = pg := Option.some.inj (left'.symm.trans left)
      have same := kept _ ran
      exact ⟨same.pagetable, same.sz, same.trapframe, same.tf, same.segs, same.execIp,
        same.heapStart, same.swapfile, same.pages, same.swapBitmap⟩
    · rw [commits] at left
      simp [ExecExit.leaves] at left
  · intro kept m' ran
    rcases (execs_of_ok sound short ran).exit with ⟨-, k, fs, pg, left, rfl⟩ | ⟨other, -⟩
    · exact kept k fs pg left
    · exact absurd rfl other

theorem kexec_absent {env : FsEnv} {path : List UInt8} {m : Machine}
    (absent : namei m.fs m.proc.cwd path = none) :
    kexec env path argv m = .ok (-1, m.exec m.kmem m.fs
      (m.proc.paging.reimage Segments.zero m.proc.paging.execIp)) := by
  have judged : wp (kexec env path argv) (fun r m' => r = -1 ∧ m' = m.exec m.kmem m.fs
      (m.proc.paging.reimage Segments.zero m.proc.paging.execIp)) (fun _ => False) m := by
    simp only [kexec, wp_bind, wp_modifyPaging, wp_get, absent, wp_pure]
    exact ⟨trivial, rfl⟩
  obtain ⟨r, m', ran, rfl, rfl⟩ := exists_ok_of_wp judged
  exact ran

def someFiles : FsEnv := ⟨some 3, true, true, true, 2 ^ 22⟩

def initRunning : Machine :=
  after (kexec someFiles initPath [initPath]) (initMachine 12 (elfFile 5 pgsize))

theorem initRunning_ran : kexec someFiles initPath [initPath] (initMachine 12 (elfFile 5 pgsize)) =
    .ok (1, initRunning) := eq_ok_of_valueOf (by decide +kernel)

/-- The first process tries to run a program that does not exist, and loses its segments. -/
theorem absent_program_clears : ∃ m', kexec someFiles [120] [] initRunning = .ok (-1, m') ∧
    initRunning.proc.paging.segs.text = ⟨0, pgsize, 0, 0⟩ ∧
    m'.proc.paging.segs.text = ⟨0, 0, 0, 0⟩ ∧ ¬ initRunning.proc.Untouched m'.proc := by
  have running : initRunning.proc.paging.segs.text = ⟨0, pgsize, 0, 0⟩ := by decide +kernel
  have absent : namei initRunning.fs initRunning.proc.cwd [120] = none := by decide +kernel
  refine ⟨_, kexec_absent absent, running, rfl, fun same => ?_⟩
  -- The recorded text segment had a page and has none afterwards.
  have segs := congrArg Segments.text same.segs
  rw [running] at segs
  revert segs
  decide

/-- The first process has nothing to lose when its first program does not exist. -/
theorem failed_exec_untouched_init : (initMachine 12 (elfFile 5 pgsize)).Sound ∧
    ∀ m', kexec someFiles [120] [] (initMachine 12 (elfFile 5 pgsize)) = .ok (-1, m') →
      (initMachine 12 (elfFile 5 pgsize)).proc.Untouched m'.proc := by
  refine ⟨initMachine_sound _, (failed_exec_untouched_iff _ _ _ _ (initMachine_sound _) ?_).mpr ?_⟩
  · decide
  · -- The lookup fails, and the segments are already clear.
    have absent : namei (initFs (elfFile 5 pgsize)) rootino [120] = none := by decide
    rfl

end Xv6
