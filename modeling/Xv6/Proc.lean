import Xv6.Fs
import Xv6.PageTable

/-! Processes, their paging tables, and the kernel as one running process sees it. -/

namespace Xv6

/-- Where the contents of a tracked page are. -/
inductive PageState where
  | unmapped
  | resident
  | swapped
  deriving DecidableEq, Repr

/-- The paging-table entry of one virtual page. -/
structure PageInfo where
  va : Nat
  state : PageState
  dirty : Bool
  fifoSeq : Nat
  /-- Slot in the swap file, negative when none is held. -/
  swapSlot : Int
  fromExec : Bool
  deriving DecidableEq, Repr

/-- A loadable segment as the lazy loader remembers it. -/
structure Segment where
  start : Nat
  stop : Nat
  offset : Nat
  filesz : Nat
  deriving DecidableEq, Repr

/-- The two segments recorded for a program. -/
structure Segments where
  text : Segment
  data : Segment
  deriving DecidableEq, Repr

/-- Per-process paging state. -/
structure PagingInfo where
  /-- Inode behind the open swap file. -/
  swapfile : Option Nat
  swapBitmap : Nat → Bool
  swapUsed : Int
  nextFifoSeq : Nat
  pages : Nat → PageInfo
  segs : Segments
  heapStart : Nat
  stackTop : Nat
  /-- Inode of the program being run. -/
  execIp : Option Nat

/-- Saved user registers that exec and fork touch, with the others kept aside. -/
structure Trapframe where
  epc : Nat
  sp : Nat
  a0 : Nat
  a1 : Nat
  others : Nat → Nat

/-- Scheduling states of an allocated process. -/
inductive ProcState where
  | used
  | sleeping
  | runnable
  | running
  | zombie
  deriving DecidableEq, Repr

/-- A process. -/
structure Proc where
  state : ProcState
  pid : Nat
  killed : Bool
  sz : Nat
  pagetable : PageTable
  /-- Physical page holding the trapframe. -/
  trapframe : Nat
  tf : Trapframe
  cwd : Nat
  paging : PagingInfo

/-- The kernel while one process runs in it. -/
structure Machine where
  kmem : Kmem
  fs : Fs
  proc : Proc

/-- A kernel computation on behalf of the current process. -/
abbrev KernOp := Prog.Comp Machine Panic

/-- Run an allocator computation on behalf of the current process. -/
def withKmem {α : Type} : MemOp α → KernOp α :=
  Prog.focus Machine.kmem fun m k => { m with kmem := k }

/-- Run a table computation on the current process's page table. -/
def withTable {α : Type} : VmOp α → KernOp α :=
  Prog.focus (fun m => ⟨m.kmem, m.proc.pagetable⟩) fun m s =>
    { m with kmem := s.kmem, proc := { m.proc with pagetable := s.pt } }

/-- Change the paging state of the current process. -/
def modifyPaging (f : PagingInfo → PagingInfo) : KernOp Unit :=
  modify fun m => { m with proc := { m.proc with paging := f m.proc.paging } }

/-- Change one entry of a paging table. -/
def PagingInfo.setPage (pg : PagingInfo) (i : Nat) (f : PageInfo → PageInfo) : PagingInfo :=
  { pg with pages := Function.update pg.pages i (f (pg.pages i)) }

/-- Change one entry of the current process's paging table. -/
def modifyPage (i : Nat) (f : PageInfo → PageInfo) : KernOp Unit :=
  modifyPaging fun pg => pg.setPage i f

/-- Mark the current process killed. -/
def setkilled : KernOp Unit :=
  modify fun m => { m with proc := { m.proc with killed := true } }

/-- Index of the tracked entry for an address, if the address is tracked. -/
def getPageInfo (va : Nat) : Option Nat :=
  if maxTrackedPages ≤ pgrounddown va / pgsize then none else some (pgrounddown va / pgsize)

/-- An address lies in a recorded segment. -/
def Segment.Has (seg : Segment) (va : Nat) : Prop := seg.start ≤ va ∧ va < seg.stop

instance (seg : Segment) (va : Nat) : Decidable (seg.Has va) :=
  inferInstanceAs (Decidable (_ ∧ _))

/-- Segments before any header was read. -/
def Segments.zero : Segments := ⟨⟨0, 0, 0, 0⟩, ⟨0, 0, 0, 0⟩⟩

/-- A fresh paging state. -/
def initPagingInfo : PagingInfo where
  swapfile := none
  swapBitmap := fun _ => false
  swapUsed := 0
  nextFifoSeq := 1
  -- Only the first 512 entries get a negative slot; the others keep the zero of the memset.
  pages := fun i => ⟨0, .unmapped, false, 0, if i < 512 then -1 else 0, false⟩
  segs := Segments.zero
  heapStart := 0
  stackTop := 0
  execIp := none

end Xv6
