import Xv6.Disk.Log
import Xv6.FaultCalls
import Xv6.Fork
import Xv6.Lib.Run

/-! Kernel code that copies user memory with spinlocks held: pipes, the console and wait. -/

namespace Xv6

open Prog

def pipesize : Nat := 512

structure FsLoad where
  log : Log
  /-- Inodes that another process has locked. -/
  locked : Nat → Bool
  /-- Inodes whose blocks are in the buffer cache. -/
  cached : Nat → Bool

def FsCall.sleeps (load : FsLoad) : FsCall → Bool
  | .beginOp => load.log.beginOp.isNone
  -- The last call to end writes the logged blocks to the disk.
  | .endOp => load.log.endOp.toOption.any fun (l, doCommit) => doCommit && l.block ≠ []
  | .ilock ip => load.locked ip || !load.cached ip
  | .transfer ip => !load.cached ip
  | .iunlock _ | .crash => false

structure Kthread where
  m : Machine
  noff : Nat

/-- How a thread stops: at the lock check of the scheduler, or in the memory code. -/
inductive Stop where
  /-- `sched` found more locks held than that of the process. -/
  | schedLocks
  | panic (e : Panic)
  deriving DecidableEq

/-- A computation of a kernel thread. -/
abbrev ThreadOp := Prog.Comp Kthread Stop

def acquire : ThreadOp Unit := modify fun th => { th with noff := th.noff + 1 }

def release : ThreadOp Unit := modify fun th => { th with noff := th.noff - 1 }

def sched : ThreadOp Unit := do
  if (← get).noff ≠ 1 then throw .schedLocks

def sleep : ThreadOp Unit := do
  acquire
  release
  sched
  release
  acquire

def wakeup : ThreadOp Unit := do
  acquire
  release

def killed : ThreadOp Bool := do
  acquire
  let k := (← get).m.proc.killed
  release
  return k

def kern {α : Type} (op : KernOp α) : ThreadOp α := fun th =>
  match op th.m with
  | .ok (a, m) => .ok (a, { th with m := m })
  | .error e => .error (.panic e)

def FsCall.run (load : FsLoad) (call : FsCall) : ThreadOp Unit := do
  acquire
  if call.sleeps load then sleep
  release

def runCalls (loads : Nat → FsLoad) : Nat → List FsCall → ThreadOp Unit
  | _, [] => return ()
  | k, call :: rest => do
    call.run (loads k)
    runCalls loads (k + 1) rest

def FaultChoice.of (env : FsEnv) (m : Machine) : FaultChoice where
  fs := m.fs
  env := env
  frame := !m.kmem.freelist.isEmpty
  again := !(after (evictPageFifo env) m).kmem.freelist.isEmpty
  stored := (valueOf (evictPageFifo env m)).any (0 ≤ ·)

def reachPage (env : FsEnv) (va0 : Nat) (isWrite : Bool) : KernOp (Option Nat) := do
  match walkaddr (← get).proc.pagetable va0 with
  | some pa => return some pa
  | none => handleKernelPagefault env none va0 isWrite

def copyinFrom (env : FsEnv) : Nat → Nat → Nat → KernOp (Option (List UInt8))
  | 0, _, _ => return some []
  | fuel + 1, srcva, len => do
    if len = 0 then return some []
    let va0 := pgrounddown srcva
    match ← reachPage env va0 false with
    | none => return none
    | some pa0 =>
      let n := min (pgsize - (srcva - va0)) len
      let page := (← get).kmem.ram pa0
      let bytes := (List.range n).map fun k => page (srcva - va0 + k)
      return (← copyinFrom env fuel (va0 + pgsize) (len - n)).map (bytes ++ ·)

def copyin (env : FsEnv) (srcva len : Nat) : KernOp (Option (List UInt8)) :=
  copyinFrom env len srcva len

def copyCalls (env : FsEnv) (isWrite : Bool) : Nat → Nat → Nat → Machine → List FsCall
  | 0, _, _, _ => []
  | fuel + 1, va, len, m =>
    if len = 0 then []
    else
      let va0 := pgrounddown va
      accessCalls (.of env m) m.proc va0 isWrite ++
        match reachPage env va0 isWrite m with
        | .ok (some _, m') =>
          -- A page that may not be written ends a copy to user memory.
          if isWrite && !((m'.proc.pagetable.lookup va0).any fun pte => pte.perm.w) then []
          else copyCalls env isWrite fuel (va0 + pgsize) (len - (pgsize - (va - va0))) m'
        | _ => []

structure Pipe where
  data : Nat → UInt8
  /-- Bytes read so far, modulo the width of the counter. -/
  nread : Nat
  nwrite : Nat
  readopen : Bool
  writeopen : Bool

structure Cons where
  buf : Nat → UInt8
  r : Nat
  w : Nat

structure Child where
  proc : Proc
  xstate : Int

structure Others where
  kmem : Kmem
  fs : Fs
  killed : Bool

def Others.resume (o : Others) : ThreadOp Unit :=
  modify fun th => { th with m := ⟨o.kmem, o.fs, { th.m.proc with killed := o.killed }⟩ }

structure Turn where
  env : FsEnv
  loads : Nat → FsLoad
  /-- What is found after a sleep. -/
  others : Others
  pipe : Pipe
  cons : Cons
  /-- The slot of the process table that is looked at, if it holds a child. -/
  child : Option Child

def lockedCopy {α : Type} (t : Turn) (isWrite : Bool) (va len : Nat) (op : KernOp α) :
    ThreadOp α := do
  runCalls t.loads 0 (copyCalls t.env isWrite len va len (← get).m)
  kern op

def lockedCopyin (t : Turn) (srcva len : Nat) : ThreadOp (Option (List UInt8)) :=
  lockedCopy t false srcva len (copyin t.env srcva len)

def lockedCopyout (t : Turn) (dstva : Nat) (src : List UInt8) : ThreadOp Int :=
  lockedCopy t true dstva src.length (copyout t.env none dstva src)

/-- Critical sections that copy user memory, at the head of their loops. -/
inductive Section where
  | pipewrite (pi : Pipe) (addr : Nat) (n : Int) (i : Nat)
  /-- Waiting for something to read. -/
  | pipeempty (pi : Pipe) (addr : Nat) (n : Int)
  | piperead (pi : Pipe) (addr : Nat) (n : Int) (i : Nat)
  | consoleread (cons : Cons) (dst : Nat) (n target : Int)
  /-- Looking for children from a slot of the process table on. -/
  | kwait (addr slot : Nat) (havekids : Bool)
  | returned (value : Int)

def pipewriteTurn (t : Turn) (pi : Pipe) (addr : Nat) (n : Int) (i : Nat) :
    ThreadOp Section := do
  if n ≤ i then
    wakeup
    release
    return .returned i
  if !pi.readopen || (← killed) then
    release
    return .returned (-1)
  if pi.nwrite = u32 (pi.nread + pipesize) then
    wakeup
    sleep
    t.others.resume
    return .pipewrite t.pipe addr n i
  match ← lockedCopyin t (u64 (addr + i)) 1 with
  | some [ch] =>
    let data := Function.update pi.data (pi.nwrite % pipesize) ch
    return .pipewrite { pi with data := data, nwrite := u32 (pi.nwrite + 1) } addr n (i + 1)
  | _ =>
    wakeup
    release
    return .returned i

def pipeemptyTurn (t : Turn) (pi : Pipe) (addr : Nat) (n : Int) : ThreadOp Section := do
  if ¬ (pi.nread = pi.nwrite ∧ pi.writeopen) then return .piperead pi addr n 0
  if ← killed then
    release
    return .returned (-1)
  sleep
  t.others.resume
  return .pipeempty t.pipe addr n

def pipereadTurn (t : Turn) (pi : Pipe) (addr : Nat) (n : Int) (i : Nat) : ThreadOp Section := do
  if n ≤ i ∨ pi.nread = pi.nwrite then
    wakeup
    release
    return .returned i
  if (← lockedCopyout t (u64 (addr + i)) [pi.data (pi.nread % pipesize)]) = -1 then
    wakeup
    release
    return .returned (if i = 0 then -1 else i)
  return .piperead { pi with nread := u32 (pi.nread + 1) } addr n (i + 1)

def consolereadTurn (t : Turn) (cons : Cons) (dst : Nat) (n target : Int) :
    ThreadOp Section := do
  if n ≤ 0 then
    release
    return .returned (target - n)
  if cons.r = cons.w then
    if ← killed then
      release
      return .returned (-1)
    sleep
    t.others.resume
    return .consoleread t.cons dst n target
  let c := cons.buf (cons.r % inputBufSize)
  -- The end-of-file character is not copied.
  if c = 4 then
    release
    return .returned (target - n)
  if (← lockedCopyout t dst [c]) = -1 then
    release
    return .returned (target - n)
  -- A line ends the read.
  if c = 10 then
    release
    return .returned (target - (n - 1))
  return .consoleread { cons with r := u32 (cons.r + 1) } (u64 (dst + 1)) (n - 1) target

def intBytes (value : Int) : List UInt8 :=
  (List.range 4).map fun j => byteLe (value % 2 ^ 32).toNat j

def kwaitTurn (t : Turn) (addr slot : Nat) (havekids : Bool) : ThreadOp Section := do
  if nproc ≤ slot then
    if !havekids || (← killed) then
      release
      return .returned (-1)
    sleep
    t.others.resume
    return .kwait addr 0 false
  match t.child with
  | none => return .kwait addr (slot + 1) havekids
  | some pp =>
    acquire
    if pp.proc.state ≠ .zombie then
      release
      return .kwait addr (slot + 1) true
    if addr ≠ 0 then
      if (← lockedCopyout t addr (intBytes pp.xstate)) < 0 then
        release
        release
        return .returned (-1)
    kern (withKmem (freeproc pp.proc))
    release
    release
    return .returned pp.proc.pid

def Section.turn (t : Turn) : Section → ThreadOp Section
  | .pipewrite pi addr n i => pipewriteTurn t pi addr n i
  | .pipeempty pi addr n => pipeemptyTurn t pi addr n
  | .piperead pi addr n i => pipereadTurn t pi addr n i
  | .consoleread cons dst n target => consolereadTurn t cons dst n target
  | .kwait addr slot havekids => kwaitTurn t addr slot havekids
  | .returned value => return .returned value

def Section.locks : Section → Nat
  | .returned _ => 0
  | _ => 1

structure CopyState where
  sec : Section
  th : Kthread

/-- The thread moves on, or other processors change what is shared. -/
inductive CopyEvent where
  | turn (t : Turn)
  | others (o : Others)

def CopyState.enter (sec : Section) (m : Machine) : CopyState := ⟨sec, ⟨m, sec.locks⟩⟩

def CopyState.next (s : CopyState) : CopyEvent → Except Stop CopyState
  | .turn t =>
    match s.sec.turn t s.th with
    | .ok (sec, th) => .ok ⟨sec, th⟩
    | .error e => .error e
  | .others o =>
    match o.resume s.th with
    | .ok (_, th) => .ok ⟨s.sec, th⟩
    | .error e => .error e

def CopyState.Steps (s : CopyState) (e : CopyEvent) (s' : CopyState) : Prop := s.next e = .ok s'

def CopiesQuietly (env : FsEnv) (isWrite : Bool) : Nat → Nat → Nat → Machine → Prop
  | 0, _, _, _ => True
  | fuel + 1, va, len, m =>
    len = 0 ∨ m.proc.ReachesQuietly (.of env m) (pgrounddown va) isWrite ∧
      -- The next page is reached from the state in which this one is in place.
      ∀ pa m', reachPage env (pgrounddown va) isWrite m = .ok (some pa, m') →
        (isWrite && !((m'.proc.pagetable.lookup (pgrounddown va)).any fun pte =>
          pte.perm.w)) = false →
        CopiesQuietly env isWrite fuel (pgrounddown va + pgsize)
          (len - (pgsize - (va - pgrounddown va))) m'

def CopyState.Quiet (env : FsEnv) (s : CopyState) : Prop :=
  match s.sec with
  | .pipewrite pi addr n i =>
    i < n → pi.readopen = true → s.th.m.proc.killed = false →
      pi.nwrite ≠ u32 (pi.nread + pipesize) →
      CopiesQuietly env false 1 (u64 (addr + i)) 1 s.th.m
  | .piperead pi addr n i =>
    i < n → pi.nread ≠ pi.nwrite → CopiesQuietly env true 1 (u64 (addr + i)) 1 s.th.m
  | .consoleread cons dst n _ =>
    0 < n → cons.r ≠ cons.w → cons.buf (cons.r % inputBufSize) ≠ 4 →
      CopiesQuietly env true 1 dst 1 s.th.m
  -- Any child that is found may have exited.
  | .kwait addr slot _ => slot < nproc → addr ≠ 0 → CopiesQuietly env true 4 addr 4 s.th.m
  | .pipeempty _ _ _ | .returned _ => True

end Xv6
