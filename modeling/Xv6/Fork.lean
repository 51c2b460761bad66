import Xv6.Exec

/-! Creating, copying and freeing processes, and changing their size. -/

namespace Xv6

/-- Register contents of a trapframe page straight from the allocator. -/
def Trapframe.junk : Trapframe :=
  let word := 0x0505050505050505
  ⟨word, word, word, word, fun _ => word⟩

/-- Set up a process with an empty address space. -/
def allocproc (pid : Nat) : MemOp (Option Proc) := do
  match ← kalloc with
  | none => return none
  | some trapframe =>
    match ← procPagetable trapframe with
    | none =>
      kfree trapframe
      return none
    | some pt =>
      return some ⟨.used, pid, false, 0, pt, trapframe, Trapframe.junk, 0, initPagingInfo⟩

/-- Free the memory of a process. -/
def freeproc (p : Proc) : MemOp Unit := do
  kfree p.trapframe
  procFreepagetable p.pagetable p.sz

/-- Copy the first entries of the parent's paging table; pages that are not resident are lost. -/
def copyPages (parent : PagingInfo) : Nat → PagingInfo → PagingInfo
  | 0, child => child
  | j + 1, child =>
    let child := copyPages parent j child
    if (parent.pages j).state = .resident then
      { child with
        pages := Function.update child.pages j
          ⟨(parent.pages j).va, .resident, false, child.nextFifoSeq, -1, (parent.pages j).fromExec⟩
        nextFifoSeq := child.nextFifoSeq + 1 }
    else child.setPage j fun pi => { pi with state := .unmapped }

/-- The paging state a child starts with. -/
def forkPaging (parent child : PagingInfo) : PagingInfo :=
  -- The table copy has a bound of its own.
  copyPages parent 16384 { child with
    segs := parent.segs
    heapStart := parent.heapStart
    stackTop := parent.stackTop
    execIp := parent.execIp }

/-- Create a child that copies the current process. -/
def kfork (pid : Nat) : KernOp (Option Proc) := do
  match ← withKmem (allocproc pid) with
  | none => return none
  | some np =>
    let p := (← get).proc
    let (copied, pt) ← withKmem (onTable np.pagetable (uvmcopy p.pagetable p.sz))
    if copied < 0 then
      withKmem (freeproc { np with pagetable := pt })
      return none
    return some { np with
      state := .runnable
      sz := p.sz
      pagetable := pt
      paging := forkPaging p.paging np.paging
      tf := { p.tf with a0 := 0 }
      cwd := p.cwd }

/-- Grow the heap lazily or shrink it, returning the old size. -/
def sysSbrk (n : Int) : KernOp Int := do
  let oldSz := (← get).proc.sz
  if 0 < n then
    -- The sum is checked for wrap-around and against the trapframe.
    let newSz := u64 (oldSz + u64OfInt n)
    if newSz < oldSz ∨ trapframeVa < newSz then return -1
    modify fun m => { m with proc := { m.proc with sz := newSz } }
  else if n < 0 then
    let sz ← withTable (uvmdealloc oldSz (u64 (oldSz + u64OfInt n)))
    modify fun m => { m with proc := { m.proc with sz := sz } }
  return oldSz

/-- End the current process; its memory is kept until its parent collects it. -/
def kexit : KernOp Unit := do
  modifyPaging fun pg => { pg with swapfile := none, execIp := none }
  modify fun m => { m with proc := { m.proc with state := .zombie, cwd := 0 } }

end Xv6
