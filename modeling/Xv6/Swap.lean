import Xv6.Proc

/-! Swap slots, the swap file, and moving pages between memory and swap. -/

namespace Xv6

/-- The first clear bit at or after a position. -/
def firstClear (bitmap : Nat → Bool) : Nat → Nat → Option Nat
  | 0, _ => none
  | n + 1, i => if bitmap i = false then some i else firstClear bitmap n (i + 1)

/-- Reserve the first free swap slot. -/
def allocSwapSlot (pg : PagingInfo) : Option Nat × PagingInfo :=
  match firstClear pg.swapBitmap maxSwapPages 0 with
  | none => (none, pg)
  | some i =>
    (some i, { pg with
      swapBitmap := Function.update pg.swapBitmap i true
      swapUsed := pg.swapUsed + 1 })

/-- Give a swap slot back; slots out of range and slots already free are ignored. -/
def freeSwapSlot (pg : PagingInfo) (slot : Int) : PagingInfo :=
  if slot < 0 ∨ (maxSwapPages : Int) ≤ slot then pg
  else if pg.swapBitmap slot.toNat then
    { pg with
      swapBitmap := Function.update pg.swapBitmap slot.toNat false
      swapUsed := pg.swapUsed - 1 }
  else pg

/-- The name of a process's swap file: a fixed stem and the five low digits of its pid. -/
def swapName (pid : Nat) : List UInt8 :=
  -- The loop fills the digits from the last position to the first.
  [112, 103, 115, 119, 112] ++
    ([10000, 1000, 100, 10, 1].map fun place => UInt8.ofNat (48 + pid / place % 10))

/-- Open the swap file of the current process, if it is not open yet. -/
def createSwapFile (env : FsEnv) : KernOp Int := do
  let m ← get
  if m.proc.paging.swapfile ≠ none then return 0
  match create m.fs env m.proc.cwd (swapName m.proc.pid) with
  | (none, fs) =>
    set { m with fs := fs }
    return -1
  | (some ip, fs) =>
    if !env.filealloc then
      -- Without a file entry the inode is unlinked by hand and dropped.
      set { m with fs := dropUnlinked fs env ip }
      return -1
    set { m with fs := fs }
    modifyPaging fun pg => { pg with swapfile := some ip }
    return 0

/-- The valid leaf entry for an address of the current process. -/
def lookupPte (va : Nat) : VmOp (Option Pte) := do
  if !(← walk va false) then return none
  return (← get).pt.lookup va

/-- Drop a clean page whose contents can be read again from the program file. -/
def discardPage (i va : Nat) : KernOp Int := do
  modifyPage i fun pi => { pi with state := .unmapped }
  withTable (unmapPage va true)
  return 0

/-- Write a mapped page to a reserved slot and release its frame. -/
def writeSlot (env : FsEnv) (i va slot : Nat) (pte : Pte) : KernOp Int := do
  let m ← get
  match m.proc.paging.swapfile with
  | none => throw .nullSwapfile
  | some f =>
    let (n, fs) := writei m.fs f (m.kmem.ram pte.pa) (slot * pgsize) pgsize env.room
    set { m with fs := fs }
    if n ≠ pgsize then
      modifyPaging fun pg => freeSwapSlot pg slot
      return -1
    modifyPage i fun pi => { pi with state := .swapped, swapSlot := slot, fromExec := false }
    withKmem (kfree pte.pa)
    withTable (storePte va none)
    return 0

/-- Swap out a page that must be preserved, once the swap file is open. -/
def swapToSlot (env : FsEnv) (i va : Nat) : KernOp Int := do
  match allocSwapSlot (← get).proc.paging with
  | (none, _) =>
    setkilled
    return -1
  | (some slot, pg) =>
    modifyPaging fun _ => pg
    match ← withTable (lookupPte va) with
    | none =>
      modifyPaging fun pg => freeSwapSlot pg slot
      return -1
    | some pte => writeSlot env i va slot pte

/-- Remove a resident page from memory, saving it when it must be preserved. -/
def swapoutPage (env : FsEnv) (va : Nat) : KernOp Int := do
  let va := pgrounddown va
  match getPageInfo va with
  | none => return -1
  | some i =>
    let pi := (← get).proc.paging.pages i
    if pi.state ≠ .resident then return -1
    if !pi.dirty && pi.fromExec then discardPage i va
    else
      if (← get).proc.paging.swapfile = none then
        if (← createSwapFile env) < 0 then
          setkilled
          return -1
      swapToSlot env i va

/-- Scan the first entries for the resident page with the smallest sequence number. -/
def fifoScan (pages : Nat → PageInfo) : Nat → Option Nat × Nat
  | 0 => (none, 0x7FFFFFFF)
  | n + 1 =>
    let best := fifoScan pages n
    if (pages n).state = .resident ∧ (pages n).fifoSeq < best.2 then (some n, (pages n).fifoSeq)
    else best

/-- Evict the page that has been resident longest. -/
def evictPageFifo (env : FsEnv) : KernOp Int := do
  match (fifoScan (← get).proc.paging.pages maxTrackedPages).1 with
  | none => return -1
  | some victim => swapoutPage env (victim * pgsize)

/-- Get a frame, evicting a page of the current process when memory is full. -/
def obtainFrame (env : FsEnv) : KernOp (Option Nat) := do
  match ← withKmem kalloc with
  | some mem => return some mem
  | none =>
    if (← evictPageFifo env) < 0 then return none
    withKmem kalloc

/-- Record that a page became resident and advance the sequence counter. -/
def becomeResident (i : Nat) (mark : PageInfo → PageInfo) : KernOp Unit := do
  let seq := (← get).proc.paging.nextFifoSeq
  modifyPage i fun pi => { mark pi with state := .resident, fifoSeq := seq }
  modifyPaging fun pg => { pg with nextFifoSeq := seq + 1 }

/-- Read a swapped page back into a frame and map it. -/
def readSlot (i va : Nat) (slot : Int) (mem : Nat) : KernOp Int := do
  let m ← get
  match m.proc.paging.swapfile with
  | none => throw .nullSwapfile
  | some f =>
    let (n, bytes) := readi m.fs f (m.kmem.ram mem) (slot.toNat * pgsize) pgsize
    withKmem (setPage mem bytes)
    if n ≠ pgsize then
      withKmem (kfree mem)
      return -1
    modifyPaging fun pg => freeSwapSlot pg slot
    modifyPage i fun pi => { pi with swapSlot := -1 }
    if (← withTable (mappages va pgsize mem ⟨true, true, false, true⟩)) < 0 then
      withKmem (kfree mem)
      return -1
    becomeResident i fun pi => { pi with dirty := false }
    return 0

/-- Bring a swapped page back into memory. -/
def swapinPage (env : FsEnv) (va : Nat) : KernOp Int := do
  let va := pgrounddown va
  match getPageInfo va with
  | none => return -1
  | some i =>
    let pi := (← get).proc.paging.pages i
    if pi.state ≠ .swapped ∨ pi.swapSlot < 0 then return -1
    match ← obtainFrame env with
    | none => return -1
    | some mem => readSlot i va pi.swapSlot mem

end Xv6
