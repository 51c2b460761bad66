import Xv6.Swap

/-! Page faults of user programs and of the kernel on their behalf. -/

namespace Xv6

/-- How a user instruction uses memory. -/
inductive Access where
  | fetch
  | load
  | store
  deriving DecidableEq, Repr

/-- The trap cause the hardware reports for a faulting access. -/
def Access.cause : Access → Nat
  | .fetch => 12
  | .load => 13
  | .store => 15

/-- The permission bit an access needs. -/
def Access.allowed : Access → Perm → Bool
  | .fetch, perm => perm.x
  | .load, perm => perm.r
  | .store, perm => perm.w

/-- The frame the hardware reaches for a user access, or a fault. -/
def translate (pt : PageTable) (access : Access) (va : Nat) : Option Nat :=
  if maxva ≤ va then none
  else match pt.lookup va with
    | none => none
    | some pte => if pte.perm.u && access.allowed pte.perm then some pte.pa else none

/-- How many bytes of the page at an offset into a segment come from the file. -/
def readSize (seg : Segment) (pageOffset : Nat) : Nat :=
  if seg.filesz ≤ pageOffset then 0
  else if seg.filesz < pageOffset + pgsize then seg.filesz - pageOffset
  else pgsize

/-- Fill a zeroed frame with the file bytes of a segment page. -/
def loadSegmentPage (seg : Segment) (va mem : Nat) : KernOp Bool := do
  let m ← get
  let pageOffset := va - seg.start
  match m.proc.paging.execIp with
  | none => return true
  | some ip =>
    if readSize seg pageOffset = 0 then return true
    let (n, bytes) := readi m.fs ip (m.kmem.ram mem) (u64 (seg.offset + pageOffset))
      (readSize seg pageOffset)
    withKmem (setPage mem bytes)
    return n = readSize seg pageOffset

/-- Put a new page in place: get a frame, fill it, map it and record it. -/
def faultIn (env : FsEnv) (va : Nat) (load : Nat → KernOp Bool) (perm : Perm)
    (mark : PageInfo → PageInfo) : KernOp Int := do
  match ← obtainFrame env with
  | none => return -1
  | some mem =>
    withKmem (memset mem 0)
    if !(← load mem) then
      withKmem (kfree mem)
      return -1
    if (← withTable (mappages va pgsize mem perm)) < 0 then
      withKmem (kfree mem)
      return -1
    match getPageInfo va with
    | none => return 0
    | some i =>
      becomeResident i mark
      return 0

/-- A fault in the text segment loads the page from the program file. -/
def faultText (env : FsEnv) (va : Nat) : KernOp Int := do
  let seg := (← get).proc.paging.segs.text
  faultIn env va (loadSegmentPage seg va) ⟨true, false, true, true⟩
    fun pi => { pi with va := va, dirty := false, fromExec := true }

/-- A fault in the data segment loads the page from the program file, writable. -/
def faultData (env : FsEnv) (va : Nat) : KernOp Int := do
  let seg := (← get).proc.paging.segs.data
  faultIn env va (loadSegmentPage seg va) ⟨true, true, false, true⟩
    fun pi => { pi with va := va, dirty := false, fromExec := true }

/-- A fault in the heap maps a zeroed page. -/
def faultHeap (env : FsEnv) (va : Nat) : KernOp Int :=
  faultIn env va (fun _ => return true) ⟨true, true, false, true⟩
    fun pi => { pi with va := va, dirty := true, fromExec := false, swapSlot := -1 }

/-- Handle a page fault of the current process. -/
def handlePageFault (env : FsEnv) (va cause : Nat) : KernOp Int := do
  let va := pgrounddown va
  if maxva ≤ va then return -1
  let pg := (← get).proc.paging
  if pg.segs.text.Has va ∧ cause = 15 then
    setkilled
    return 0
  -- A swapped page is brought back whatever segment it lies in.
  if (getPageInfo va).any fun i => (pg.pages i).state = .swapped then swapinPage env va
  else if pg.segs.text.Has va then faultText env va
  else if pg.segs.data.Has va then faultData env va
  else if pg.heapStart ≤ va ∧ va < (← get).proc.sz then faultHeap env va
  else
    setkilled
    return -1

/-- The page-fault branch of the user trap handler. -/
def usertrap (env : FsEnv) (va cause : Nat) : KernOp Unit := do
  if (← handlePageFault env va cause) ≠ 0 then setkilled

/-- The page table a kernel copy works on: the current process's, or one being built. -/
def copyTable (m : Machine) (other : Option PageTable) : PageTable :=
  other.getD m.proc.pagetable

/-- Handle a fault the kernel met while copying to or from user memory. -/
def handleKernelPagefault (env : FsEnv) (other : Option PageTable) (va : Nat) (isWrite : Bool) :
    KernOp (Option Nat) := do
  let va := pgrounddown va
  if trapframeVa ≤ va then return none
  let p := (← get).proc
  if !(p.paging.segs.text.Has va ∨ p.paging.segs.data.Has va ∨
      (p.paging.heapStart ≤ va ∧ va < p.sz)) then return none
  if (← handlePageFault env va (if isWrite then 15 else 13)) ≠ 0 then return none
  let pt := copyTable (← get) other
  match walkaddr pt va with
  | none => return none
  | some pa =>
    if isWrite && !((pt.lookup va).any fun pte => pte.perm.w) then return none
    return some pa

/-- Copy kernel bytes to user memory, page by page. -/
def copyoutFrom (env : FsEnv) (other : Option PageTable) : Nat → Nat → List UInt8 → KernOp Int
  | 0, _, _ => return 0
  | fuel + 1, dstva, src => do
    if src = [] then return 0
    let va0 := pgrounddown dstva
    let found ← match walkaddr (copyTable (← get) other) va0 with
      | some pa => pure (some pa)
      | none => handleKernelPagefault env other va0 true
    match found with
    | none => return -1
    | some pa0 =>
      -- The destination must be writable even when the page was already present.
      if maxva ≤ va0 then throw .walk
      if !(((copyTable (← get) other).lookup va0).any fun pte => pte.perm.w) then return -1
      let n := min (pgsize - (dstva - va0)) src.length
      let page := (← get).kmem.ram pa0
      withKmem (setPage pa0 fun k =>
        if dstva - va0 ≤ k ∧ k < dstva - va0 + n then src.getD (k - (dstva - va0)) 0 else page k)
      copyoutFrom env other fuel (va0 + pgsize) (src.drop n)

/-- Copy kernel bytes to user memory. -/
def copyout (env : FsEnv) (other : Option PageTable) (dstva : Nat) (src : List UInt8) :
    KernOp Int :=
  -- Every turn copies at least one byte, so the length bounds the number of turns.
  copyoutFrom env other src.length dstva src

end Xv6
