import Xv6.Disk.Log
import Xv6.FaultCalls
import Xv6.Lib.Run

/-! Reads and writes of files by user programs: the locks held and the user pages reached. -/

namespace Xv6

/-- What one process holds of the file system. -/
structure Held where
  /-- Transactions it has begun and not ended. -/
  ops : Nat
  /-- Inodes it has locked. -/
  locks : List Nat
  deriving DecidableEq, Repr

/-- Calls by which a process waits for itself. -/
inductive Reentry where
  /-- `acquiresleep` on the lock of an inode that the process holds. -/
  | lock (ip : Nat)
  /-- `begin_op` inside a transaction of the process. -/
  | transaction
  deriving DecidableEq, Repr

/-- How a sequence of calls ends early. -/
inductive CallStop where
  | reenters (e : Reentry)
  | crash
  deriving DecidableEq, Repr

/-- What is held after one call. -/
def Held.call (h : Held) : FsCall → Except CallStop Held
  | .beginOp => if h.ops = 0 then .ok { h with ops := 1 } else .error (.reenters .transaction)
  | .endOp => .ok { h with ops := h.ops - 1 }
  | .ilock ip =>
    if ip ∈ h.locks then .error (.reenters (.lock ip)) else .ok { h with locks := ip :: h.locks }
  | .iunlock ip => .ok { h with locks := h.locks.erase ip }
  | .transfer _ => .ok h
  | .crash => .error .crash

/-- What is held after a sequence of calls. -/
def Held.calls (h : Held) : List FsCall → Except CallStop Held
  | [] => .ok h
  | call :: rest =>
    match h.call call with
    | .ok h' => h'.calls rest
    | .error e => .error e

/-- A page of the user buffer, as it is when the kernel needs it. -/
structure Reach where
  choice : FaultChoice
  proc : Proc
  va : Nat
  isWrite : Bool

/-- The parts of a transfer: its own calls, and the pages of the buffer it reaches. -/
inductive Item where
  | call (c : FsCall)
  | reach (r : Reach)

/-- What is held after one part of a transfer. -/
def Held.next (h : Held) : Item → Except CallStop Held
  | .call c => h.call c
  | .reach r => h.calls (accessCalls r.choice r.proc r.va r.isWrite)

/-- Steps of a process that goes on. -/
def Held.Steps (h : Held) (x : Item) (h' : Held) : Prop := h.next x = .ok h'

/-- A place in a transfer: the round of the write, the block, and the page of the copy. -/
structure Spot where
  round : Nat
  block : Nat
  page : Nat

/-- What a transfer meets at each place, with other processes running in between. -/
structure TransferChoice where
  /-- The process, whose own paging state earlier faults have changed. -/
  proc : Spot → Proc
  fault : Spot → FaultChoice
  /-- The page could be reached. -/
  reached : Spot → Bool
  /-- The block exists or could be allocated. -/
  bmap : Spot → Bool

/-- Copy between a block and user memory, page by page, and say whether all was copied. -/
def copyItems (o : TransferChoice) (isWrite : Bool) : Spot → Nat → Nat → Nat → List Item × Bool
  | _, 0, _, _ => ([], true)
  | spot, fuel + 1, va, len =>
    if len = 0 then ([], true)
    else
      let va0 := pgrounddown va
      let item := Item.reach ⟨o.fault spot, o.proc spot, va0, isWrite⟩
      if o.reached spot then
        let rest := copyItems o isWrite { spot with page := spot.page + 1 } fuel (va0 + pgsize)
          (len - (pgsize - (va - va0)))
        (item :: rest.1, rest.2)
      else ([item], false)

/-- Read blocks of a file to user memory; the bytes read, or nothing after a bad address. -/
def readiItems (o : TransferChoice) (ip : Nat) :
    Spot → Nat → Nat → Nat → Nat → List Item × Option Nat
  | _, 0, _, _, _ => ([], some 0)
  | spot, fuel + 1, dst, off, left =>
    if left = 0 ∨ o.bmap spot = false then ([], some 0)
    else
      let m := min left (bsize - off % bsize)
      let copy := copyItems o true spot m dst m
      if copy.2 then
        let rest := readiItems o ip { spot with block := spot.block + 1 } fuel (u64 (dst + m))
          (off + m) (left - m)
        (.call (.transfer ip) :: copy.1 ++ rest.1, rest.2.map (· + m))
      else (.call (.transfer ip) :: copy.1, none)

/-- Write user memory to blocks of a file; the bytes written. -/
def writeiItems (o : TransferChoice) (ip : Nat) :
    Spot → Nat → Nat → Nat → Nat → List Item × Nat
  | _, 0, _, _, _ => ([], 0)
  | spot, fuel + 1, src, off, left =>
    if left = 0 ∨ o.bmap spot = false then ([], 0)
    else
      let m := min left (bsize - off % bsize)
      let copy := copyItems o false spot m src m
      if copy.2 then
        let rest := writeiItems o ip { spot with block := spot.block + 1 } fuel (u64 (src + m))
          (off + m) (left - m)
        (.call (.transfer ip) :: copy.1 ++ rest.1, rest.2 + m)
      else (.call (.transfer ip) :: copy.1, 0)

/-- Read from a file of a given size to user memory. -/
def filereadItems (o : TransferChoice) (ip size off addr n : Nat) : List Item :=
  -- A read past the end, or one that wraps, reaches no page.
  let len := if size < off ∨ 2 ^ 32 ≤ off + n then 0 else min n (size - off)
  .call (.ilock ip) :: (readiItems o ip ⟨0, 0, 0⟩ len addr off len).1 ++ [.call (.iunlock ip)]

/-- Bytes written to a file in one transaction. -/
def writeMax : Nat := (maxopblocks - 1 - 1 - 2) / 2 * bsize

/-- Write user memory to a file, in rounds that fit into a transaction. -/
def filewriteItems (o : TransferChoice) (ip : Nat) : Nat → Nat → Nat → Nat → Nat → Nat → List Item
  | _, 0, _, _, _, _ => []
  | round, fuel + 1, size, off, addr, left =>
    if left = 0 then []
    else
      let n1 := min left writeMax
      let fits := ¬ (size < off ∨ 2 ^ 32 ≤ off + n1 ∨ maxfile * bsize < off + n1)
      let write := if fits then writeiItems o ip ⟨round, 0, 0⟩ n1 addr off n1 else ([], 0)
      [.call .beginOp, .call (.ilock ip)] ++ write.1 ++
        -- The inode is written back even when its size did not change.
        (if fits then [.call (.transfer ip)] else []) ++ [.call (.iunlock ip), .call .endOp] ++
        if fits ∧ write.2 = n1 then
          filewriteItems o ip (round + 1) fuel (max size (off + n1)) (off + n1) (u64 (addr + n1))
            (left - n1)
        else []

/-- System calls that move bytes between a file and user memory. -/
inductive FileCall where
  | fileread (ip size off addr n : Nat)
  | filewrite (ip size off addr n : Nat)

/-- The parts of a file transfer. -/
def FileCall.items (o : TransferChoice) : FileCall → List Item
  | .fileread ip size off addr n => filereadItems o ip size off addr n
  | .filewrite ip size off addr n => filewriteItems o ip 0 n size off addr n

/-- What the call holds while it reaches user memory. -/
def FileCall.holds : FileCall → Held
  | .fileread ip _ _ _ _ => ⟨0, [ip]⟩
  | .filewrite ip _ _ _ _ => ⟨1, [ip]⟩

/-- The inode the name of the swap file leads to: an existing one, or one that is free. -/
def FaultChoice.swapTarget (c : FaultChoice) (p : Proc) : Option Nat :=
  if (c.fs.inodes p.cwd).type ≠ some .dir then none
  else (c.fs.dirlookup p.cwd (swapName p.pid)).or
    (c.env.ialloc.filter fun e => (c.fs.inodes e).type = none)

/-- Opening the swap file locks none of the given inodes and opens one transaction only. -/
def FaultChoice.OpensApart (c : FaultChoice) (p : Proc) (locks : List Nat) : Prop :=
  p.cwd ∉ locks ∧ (∀ e, c.swapTarget p = some e → e ∉ locks) ∧
    ((create c.fs c.env p.cwd (swapName p.pid)).1 ≠ none → c.env.filealloc = true)

/-- Evicting a page locks none of the given inodes. -/
def FaultChoice.EvictsApart (c : FaultChoice) (p : Proc) (locks : List Nat) : Prop :=
  ∀ v, p.victim = some v → ¬ (p.paging.pages v).Droppable →
    (p.paging.swapfile = none → c.OpensApart p locks) ∧
    ((allocSwapSlot p.paging).1 ≠ none → p.pagetable.lookup (v * pgsize) ≠ none →
      ∀ f, (swapFileCalls c p).2 = some f → f ∉ locks)

/-- The file a page is read from. -/
def Proc.source (p : Proc) (swapfile : Option Nat) (va : Nat) : Option Nat :=
  if p.Swapped va then swapfile else p.paging.execIp

/-- A page is brought in, if it is, without locking any of the given inodes. -/
def FaultChoice.ReachesApart (c : FaultChoice) (p : Proc) (locks : List Nat) (va : Nat)
    (isWrite : Bool) : Prop :=
  walkaddr p.pagetable (pgrounddown va) ≠ none ∨ p.Refuses (pgrounddown va) isWrite ∨
    (c.frame = true ∨ c.EvictsApart p locks) ∧
    ((obtainCalls c p).evicted = true → p.ReadsFile (pgrounddown va) →
      ∀ f, p.source (obtainCalls c p).swapfile (pgrounddown va) = some f → f ∉ locks)

/-- A page can be reached with these things held: with a transaction open only without the file
system, and otherwise without the inodes that are locked. -/
def Reach.Safe (r : Reach) (h : Held) : Prop :=
  if h.ops = 0 then r.choice.ReachesApart r.proc h.locks r.va r.isWrite
  else r.proc.ReachesQuietly r.choice r.va r.isWrite

end Xv6
