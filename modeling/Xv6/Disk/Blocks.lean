import Xv6.Disk.Log
import Xv6.Lib.Owned
import Xv6.Lib.Run
import Xv6.Swap

/-! Disk blocks of files: the free map, the block numbers in inodes and in indirect blocks. -/

namespace Xv6.Blocks

open Prog
open Function (update)

/-- Block numbers in an inode. -/
def ndirect : Nat := 12

/-- Block numbers in an indirect block. -/
def nindirect : Nat := bsize / 4

/-- An inode as it is kept on disk. -/
structure Dinode where
  /-- Free inodes have no type. -/
  type : Option InodeType
  nlink : Nat
  size : Nat
  /-- The direct blocks and, after them, the indirect block; zero where there is none. -/
  addrs : Nat → Nat

/-- A volume with the inodes in memory. -/
structure Volume where
  /-- Blocks of the volume, as the superblock has it. -/
  size : Nat
  /-- Blocks for file data, which are the last ones. -/
  nblocks : Nat
  ninodes : Nat
  /-- The free map. -/
  used : Nat → Bool
  /-- Inodes on disk. -/
  dinodes : Nat → Dinode
  /-- Inodes in memory. -/
  inodes : Nat → Dinode
  blocks : Disk

/-- The panics of the block code. -/
inductive BlockPanic where
  /-- `bfree` met a free block. -/
  | freeingFree
  /-- `bmap` was asked for a block beyond the largest file. -/
  | bmapRange
  /-- `ilock` read a free inode. -/
  | noType
  deriving DecidableEq, Repr

/-- A computation on a volume. -/
abbrev BlockOp := Prog.Comp Volume BlockPanic

/-- One of the numbers in a block. -/
def readWord (block : Block) (j : Nat) : Nat := readLe block (4 * j) 4

/-- Store a number in a block. -/
def putWord (block : Block) (j value : Nat) : Block := fun i =>
  if 4 * j ≤ i ∧ i < 4 * j + 4 then byteLe value (i - 4 * j) else block i

/-- Replace an inode in memory. -/
def modifyInode (inum : Nat) (f : Dinode → Dinode) : BlockOp Unit :=
  modify fun v => { v with inodes := update v.inodes inum (f (v.inodes inum)) }

/-- Set a block number of an inode. -/
def Dinode.setAddr (ip : Dinode) (i addr : Nat) : Dinode :=
  { ip with addrs := update ip.addrs i addr }

/-- Replace the contents of a block. -/
def modifyBlock (b : Nat) (f : Block → Block) : BlockOp Unit :=
  modify fun v => { v with blocks := update v.blocks b (f (v.blocks b)) }

/-- Allocate a zeroed block, or return zero when all are in use. -/
def balloc : BlockOp Nat := do
  let v ← get
  -- The map is searched from its first bit on, one map block after another.
  match firstClear v.used v.size 0 with
  | none => return 0
  | some b =>
    set { v with used := update v.used b true }
    modifyBlock b fun _ _ => 0
    return b

/-- Free a block. -/
def bfree (b : Nat) : BlockOp Unit := do
  if (← get).used b = false then throw .freeingFree
  modify fun v => { v with used := update v.used b false }

/-- The block number in one place of an inode, with a new block if there is none. -/
def bmapAddr (inum i : Nat) : BlockOp Nat := do
  let addr := ((← get).inodes inum).addrs i
  if addr ≠ 0 then return addr
  let addr ← balloc
  if addr = 0 then return 0
  modifyInode inum fun ip => ip.setAddr i addr
  return addr

/-- The block that holds a part of a file, allocated if necessary; zero when the disk is full. -/
def bmap (inum bn : Nat) : BlockOp Nat := do
  if bn < ndirect then bmapAddr inum bn
  else
    let bn := bn - ndirect
    if bn < nindirect then
      let table ← bmapAddr inum ndirect
      if table = 0 then return 0
      let addr := readWord ((← get).blocks table) bn
      if addr ≠ 0 then return addr
      let addr ← balloc
      if addr ≠ 0 then modifyBlock table fun block => putWord block bn addr
      return addr
    else throw .bmapRange

/-- Write an inode in memory to disk. -/
def iupdate (inum : Nat) : BlockOp Unit :=
  modify fun v => { v with dinodes := update v.dinodes inum (v.inodes inum) }

/-- Lock an inode, reading it from disk when its entry in memory is not valid. -/
def ilock (inum : Nat) (valid : Bool) : BlockOp Unit := do
  if !valid then
    let dip := (← get).dinodes inum
    modifyInode inum fun _ => dip
    if dip.type = none then throw .noType

/-- Free the block in a place of an inode. -/
def freeDirect (inum : Nat) (i : Nat) : BlockOp Unit := do
  let addr := ((← get).inodes inum).addrs i
  if addr ≠ 0 then
    bfree addr
    modifyInode inum fun ip => ip.setAddr i 0

/-- Free the block in a place of an indirect block; its number stays there. -/
def freeEntry (table : Block) (j : Nat) : BlockOp Unit := do
  if readWord table j ≠ 0 then bfree (readWord table j)

/-- Discard the contents of an inode. -/
def itrunc (inum : Nat) : BlockOp Unit := do
  Prog.upto ndirect (freeDirect inum)
  let addr := ((← get).inodes inum).addrs ndirect
  if addr ≠ 0 then
    let table := (← get).blocks addr
    Prog.upto nindirect (freeEntry table)
    bfree addr
    modifyInode inum fun ip => ip.setAddr ndirect 0
  modifyInode inum fun ip => { ip with size := 0 }
  iupdate inum

/-- Read blocks until the count is reached, a block is missing or the buffer is bad. -/
def readBlocks (inum : Nat) (got : Nat → Nat) : Nat → Nat → Nat → Nat → BlockOp Unit
  | _, 0, _, _ => return ()
  | k, fuel + 1, off, left => do
    if left = 0 then return ()
    if (← bmap inum (off / bsize)) = 0 then return ()
    let m := min left (bsize - off % bsize)
    if got k < m then return ()
    readBlocks inum got (k + 1) fuel (off + m) (left - m)

/-- Read from an inode. -/
def readi (inum : Nat) (got : Nat → Nat) (off n : Nat) : BlockOp Unit := do
  let ip := (← get).inodes inum
  if ip.size < u32 off ∨ 2 ^ 32 ≤ u32 off + u32 n then return ()
  let n := if ip.size < u32 off + u32 n then ip.size - u32 off else u32 n
  readBlocks inum got 0 n (u32 off) n

/-- Overwrite some bytes of a block. -/
def overwrite (block : Block) (start count : Nat) (src : Nat → UInt8) : Block := fun i =>
  if start ≤ i ∧ i < start + count then src (i - start) else block i

/-- Write blocks until the count is reached, the disk is full or the buffer is bad; the offset
reached. -/
def writeBlocks (inum : Nat) (src : Nat → Nat → UInt8) (got : Nat → Nat) :
    Nat → Nat → Nat → Nat → BlockOp Nat
  | _, 0, off, _ => return off
  | k, fuel + 1, off, left => do
    if left = 0 then return off
    let addr ← bmap inum (off / bsize)
    if addr = 0 then return off
    let m := min left (bsize - off % bsize)
    -- A bad address may be met after some bytes were copied.
    modifyBlock addr fun block => overwrite block (off % bsize) (min (got k) m) (src k)
    if got k < m then return off
    writeBlocks inum src got (k + 1) fuel (off + m) (left - m)

/-- Write to an inode; the bytes written, or minus one. -/
def writei (inum : Nat) (src : Nat → Nat → UInt8) (got : Nat → Nat) (off n : Nat) :
    BlockOp Int := do
  let ip := (← get).inodes inum
  if ip.size < u32 off ∨ 2 ^ 32 ≤ u32 off + u32 n then return -1
  if maxfile * bsize < u32 off + u32 n then return -1
  let reached ← writeBlocks inum src got 0 (u32 n) (u32 off) (u32 n)
  modifyInode inum fun ip => if ip.size < reached then { ip with size := reached } else ip
  iupdate inum
  return reached - u32 off

/-- Drop a reference to an inode; the last one frees an inode without links. -/
def iput (inum : Nat) (valid last : Bool) : BlockOp Unit := do
  if last && valid && ((← get).inodes inum).nlink = 0 then
    itrunc inum
    modifyInode inum fun ip => { ip with type := none }
    iupdate inum

/-- The first free inode at or after a number. -/
def firstFree (dinodes : Nat → Dinode) : Nat → Nat → Option Nat
  | 0, _ => none
  | n + 1, inum => if (dinodes inum).type = none then some inum else firstFree dinodes n (inum + 1)

/-- Allocate an inode. -/
def ialloc (type : InodeType) : BlockOp (Option Nat) := do
  let v ← get
  match firstFree v.dinodes (v.ninodes - 1) 1 with
  | none => return none
  | some inum =>
    let fresh : Dinode := ⟨some type, 0, 0, fun _ => 0⟩
    -- The entry in memory is not valid, so it is read from disk before it is used.
    set { v with
      dinodes := update v.dinodes inum fresh
      inodes := update v.inodes inum fresh }
    return some inum

/-- The calls that use the blocks of a volume. -/
inductive BlockEvent where
  | writei (inum : Nat) (valid : Bool) (src : Nat → Nat → UInt8) (got : Nat → Nat) (off n : Nat)
  | readi (inum : Nat) (valid : Bool) (got : Nat → Nat) (off n : Nat)
  | itrunc (inum : Nat) (valid : Bool)
  | iput (inum : Nat) (valid last : Bool)
  | ialloc (type : InodeType)
  /-- A link is made or removed elsewhere. -/
  | relink (inum : Nat) (valid : Bool) (nlink : Nat)

/-- The inode an event is about. -/
def BlockEvent.inum? : BlockEvent → Option Nat
  | .writei inum _ _ _ _ _ | .readi inum _ _ _ _ | .itrunc inum _ | .iput inum _ _
  | .relink inum _ _ => some inum
  | .ialloc _ => none

/-- What an event does. -/
def runEvent : BlockEvent → BlockOp Unit
  | .writei inum valid src got off n => do
    ilock inum valid
    discard <| writei inum src got off n
  | .readi inum valid got off n => do
    ilock inum valid
    readi inum got off n
  | .itrunc inum valid => do
    ilock inum valid
    itrunc inum
  | .iput inum valid last => iput inum valid last
  | .ialloc type => discard <| ialloc type
  | .relink inum valid nlink => do
    ilock inum valid
    modifyInode inum fun ip => { ip with nlink := nlink }
    iupdate inum

/-- An inode number that is in use. -/
def Volume.Allocated (v : Volume) (inum : Nat) : Prop :=
  1 ≤ inum ∧ inum < v.ninodes ∧ (v.inodes inum).type ≠ none

instance (v : Volume) (inum : Nat) : Decidable (v.Allocated inum) :=
  inferInstanceAs (Decidable (_ ∧ _ ∧ _))

/-- Calls are made on inodes that are in use. -/
def Volume.Allows (v : Volume) (e : BlockEvent) : Prop := ∀ inum ∈ e.inum?, v.Allocated inum

/-- One call on a volume. -/
def Volume.Steps (v : Volume) (e : BlockEvent) (v' : Volume) : Prop :=
  v.Allows e ∧ runEvent e v = .ok ((), v')

/-- Places for block numbers in a file. -/
inductive Place where
  | direct (i : Nat)
  | indirect
  | entry (j : Nat)
  deriving DecidableEq, Repr

/-- The number in a place of an inode. -/
def Volume.number (v : Volume) (inum : Nat) : Place → Nat
  | .direct i => if i < ndirect then (v.inodes inum).addrs i else 0
  | .indirect => (v.inodes inum).addrs ndirect
  | .entry j =>
    let table := (v.inodes inum).addrs ndirect
    if j < nindirect ∧ table ≠ 0 then readWord (v.blocks table) j else 0

/-- The block held in a place of an inode that is in use. -/
def Volume.held (v : Volume) (slot : Nat × Place) : Option Nat :=
  if v.Allocated slot.1 ∧ v.number slot.1 slot.2 ≠ 0 then some (v.number slot.1 slot.2) else none

/-- The place of a part of a file. -/
def place (bn : Nat) : Place := if bn < ndirect then .direct bn else .entry (bn - ndirect)

/-- A block for file data that is marked in the free map. -/
def Volume.Marked (v : Volume) (b : Nat) : Prop :=
  v.used b = true ∧ v.size - v.nblocks ≤ b ∧ b < v.size

/-- The blocks of a volume are in order. -/
structure Volume.Sound (v : Volume) : Prop where
  /-- Block numbers fit into the C type of the search. -/
  fits : v.size < 2 ^ 31
  /-- There are blocks before the data, and they are in use. -/
  before : v.nblocks < v.size
  metadata : ∀ b, b < v.size - v.nblocks → v.used b = true
  owned : Owned.Once v.held v.Marked
  /-- Files have no holes. -/
  whole : ∀ inum, v.Allocated inum → ∀ bn, bn * bsize < (v.inodes inum).size →
    v.number inum (place bn) ≠ 0
  /-- Files are not larger than their block numbers allow. -/
  limit : ∀ inum, v.Allocated inum → (v.inodes inum).size ≤ maxfile * bsize

/-- A volume between two calls: the inodes on disk are those in memory. -/
structure Volume.Consistent (v : Volume) : Prop extends v.Sound where
  saved : ∀ inum, v.dinodes inum = v.inodes inum

end Xv6.Blocks
