import Xv6.Disk.Log
import Xv6.Lib.Prog
import Xv6.Lib.Ring
import Xv6.Lib.Run

/-! The buffer cache, the log's use of it, and the calls its clients make. -/

namespace Xv6

open Prog

/-- Size of the disk block cache. -/
def nbuf : Nat := maxopblocks * 3

/-- Device number of the file system's disk. -/
def rootdev : Nat := 1

/-- A buffer; its place in the list of buffers is kept beside it. -/
structure Buf where
  /-- The data has been read from disk. -/
  valid : Bool
  dev : Nat
  blockno : Nat
  /-- Its sleep lock is held. -/
  locked : Bool
  refcnt : Nat
  data : Block

/-- The disk with the buffers over it and the log; the node `none` is the head of the list. -/
structure Storage where
  disk : Disk
  buf : Fin nbuf → Buf
  links : Ring.Links (Option (Fin nbuf))
  log : Log
  start : Nat

/-- Why a call on the cache does not return. -/
inductive CacheStop where
  /-- `bget` found every buffer in use. -/
  | noBuffers
  /-- `bwrite` was given a buffer that is not locked. -/
  | bwrite
  /-- `brelse` was given a buffer that is not locked. -/
  | brelse
  /-- The buffer is locked, and the caller sleeps until it is released. -/
  | asleep
  | log (panic : LogPanic)
  deriving DecidableEq, Repr

/-- Operations on the cache. -/
abbrev CacheM := Comp Storage CacheStop

/-- Change one buffer. -/
def Storage.update (s : Storage) (b : Fin nbuf) (f : Buf → Buf) : Storage :=
  { s with buf := Function.update s.buf b (f (s.buf b)) }

/-- All buffers unused and linked in one after another. -/
def binit (disk : Disk) (start : Nat) : Storage where
  disk := disk
  buf _ := ⟨false, 0, 0, false, 0, fun _ => 0⟩
  links := (List.finRange nbuf).foldl (fun l b => l.pushFront none (some b))
    ⟨fun _ => none, fun _ => none⟩
  log := ⟨[], 0, false⟩
  start := start

/-- Lock a buffer. -/
def acquiresleep (b : Fin nbuf) : CacheM Unit := do
  if ((← get).buf b).locked then throw .asleep
  modify fun s => s.update b fun buf => { buf with locked := true }

/-- A locked buffer for a block, recycled from the least recently used one if there is none. -/
def bget (dev blockno : Nat) : CacheM (Fin nbuf) := do
  let s ← get
  -- Is the block already cached?
  match Ring.seek s.links.next none
      (Option.any fun b => (s.buf b).dev = dev ∧ (s.buf b).blockno = blockno)
      (nbuf + 1) (s.links.next none) with
  | some b =>
    modify fun s => s.update b fun buf => { buf with refcnt := buf.refcnt + 1 }
    acquiresleep b
    return b
  | none =>
    match Ring.seek s.links.prev none (Option.any fun b => (s.buf b).refcnt = 0)
        (nbuf + 1) (s.links.prev none) with
    | some b =>
      modify fun s => s.update b fun buf =>
        { buf with dev := dev, blockno := blockno, valid := false, refcnt := 1 }
      acquiresleep b
      return b
    | none => throw .noBuffers

/-- A locked buffer with the contents of a block. -/
def bread (dev blockno : Nat) : CacheM (Fin nbuf) := do
  let b ← bget dev blockno
  let s ← get
  if !(s.buf b).valid then
    -- The driver reads the block whatever the device number says.
    set (s.update b fun buf => { buf with data := s.disk buf.blockno, valid := true })
  return b

/-- Write a locked buffer's contents to disk. -/
def bwrite (b : Fin nbuf) : CacheM Unit := do
  let s ← get
  if !(s.buf b).locked then throw .bwrite
  set { s with disk := Function.update s.disk (s.buf b).blockno (s.buf b).data }

/-- Release a locked buffer, and move it to the front when nobody uses it any more. -/
def brelse (b : Fin nbuf) : CacheM Unit := do
  if !((← get).buf b).locked then throw .brelse
  modify fun s => s.update b fun buf => { buf with locked := false }
  modify fun s => s.update b fun buf => { buf with refcnt := buf.refcnt - 1 }
  let s ← get
  if (s.buf b).refcnt = 0 then
    set { s with links := (s.links.unlink (some b)).pushFront none (some b) }

/-- Keep a buffer in the cache. -/
def bpin (b : Fin nbuf) : CacheM Unit :=
  modify fun s => s.update b fun buf => { buf with refcnt := buf.refcnt + 1 }

/-- Let a buffer go again. -/
def bunpin (b : Fin nbuf) : CacheM Unit :=
  modify fun s => s.update b fun buf => { buf with refcnt := buf.refcnt - 1 }

/-- Change the data of a buffer in place. -/
def store (b : Fin nbuf) (data : Block) : CacheM Unit :=
  modify fun s => s.update b fun buf => { buf with data := data }

/-- Record a modified buffer in the log and pin it when it is new there. -/
def logWriteBuf (b : Fin nbuf) : CacheM Unit := do
  let s ← get
  match s.log.logWrite (s.buf b).blockno with
  | .error panic => throw (.log panic)
  | .ok log =>
    if (s.buf b).blockno ∉ s.log.block then bpin b
    modify fun s => { s with log }

/-- Copy modified blocks from the cache to the log. -/
def writeLogBufs : CacheM Unit := do
  let s ← get
  upto s.log.block.length fun tail => do
    let to_ ← bread rootdev (s.start + tail + 1)
    let from_ ← bread rootdev (s.log.block.getD tail 0)
    store to_ ((← get).buf from_).data
    bwrite to_
    brelse from_
    brelse to_

/-- Write the header in memory to disk. -/
def writeHeadBuf : CacheM Unit := do
  let b ← bread rootdev (← get).start
  let s ← get
  store b (putHead s.log.block (s.buf b).data)
  bwrite b
  brelse b

/-- Copy the committed blocks from the log to their home locations and let them go. -/
def installTransBufs : CacheM Unit := do
  let s ← get
  upto s.log.block.length fun tail => do
    let lbuf ← bread rootdev (s.start + tail + 1)
    let dbuf ← bread rootdev (s.log.block.getD tail 0)
    store dbuf ((← get).buf lbuf).data
    bwrite dbuf
    bunpin dbuf
    brelse lbuf
    brelse dbuf

/-- Commit the transaction in the log. -/
def commitBufs : CacheM Unit := do
  if 0 < (← get).log.block.length then
    writeLogBufs
    writeHeadBuf
    installTransBufs
    modify fun s => { s with log := s.log.commit }
    writeHeadBuf

/-- Start a call; the caller sleeps while the log has no room for it. -/
def beginOp : CacheM Unit := do
  let s ← get
  match s.log.beginOp with
  | some log => set { s with log }
  | none => throw .asleep

/-- End a call, and commit when it was the last one. -/
def endOp : CacheM Unit := do
  let s ← get
  match s.log.endOp with
  | .error panic => throw (.log panic)
  | .ok (log, doCommit) =>
    set { s with log }
    if doCommit then
      commitBufs
      modify fun s => { s with log := s.log.endCommit }

/--
The cache with its clients.

They hold the buffers they have read, by block number, and the blocks they have changed but
neither logged nor written yet.
-/
structure CacheUse where
  storage : Storage
  held : Nat → Option (Fin nbuf)
  unsaved : List Nat

/-- A call of a client. -/
inductive CacheEvent where
  | beginOp
  | endOp
  | bread (blockno : Nat)
  | store (blockno : Nat) (data : Block)
  | logWrite (blockno : Nat)
  | bwrite (blockno : Nat)
  | brelse (blockno : Nat)

/-- Run an operation on the cache, if it returns. -/
def CacheUse.run {α : Type} (s : CacheUse) (op : CacheM α) : Option (α × CacheUse) :=
  match op s.storage with
  | .ok (a, storage) => some (a, { s with storage })
  | .error _ => none

/-- Run an operation on a buffer that a client holds. -/
def CacheUse.onHeld (s : CacheUse) (blockno : Nat) (op : Fin nbuf → CacheM Unit)
    (note : CacheUse → CacheUse) : Option CacheUse :=
  (s.held blockno).bind fun b => (s.run (op b)).map fun result => note result.2

/-- One call: a client uses only buffers it holds, and saves what it changed before releasing it. -/
def CacheUse.next (s : CacheUse) : CacheEvent → Option CacheUse
  | .beginOp => (s.run beginOp).map Prod.snd
  | .endOp => (s.run endOp).map Prod.snd
  | .bread blockno =>
    (s.run (bread rootdev blockno)).map fun (b, t) =>
      { t with held := Function.update t.held blockno (some b) }
  | .store blockno data =>
    s.onHeld blockno (store · data) fun t => { t with unsaved := blockno :: t.unsaved }
  | .logWrite blockno =>
    s.onHeld blockno logWriteBuf fun t => { t with unsaved := t.unsaved.filter (· ≠ blockno) }
  | .bwrite blockno =>
    s.onHeld blockno bwrite fun t => { t with unsaved := t.unsaved.filter (· ≠ blockno) }
  | .brelse blockno =>
    if blockno ∈ s.unsaved then none
    else s.onHeld blockno brelse fun t => { t with held := Function.update t.held blockno none }

/-- Calls that return, as a relation. -/
def CacheUse.Step (s : CacheUse) (e : CacheEvent) (t : CacheUse) : Prop := s.next e = some t

/-- The cache when the system starts, over any disk. -/
def CacheUse.start (disk : Disk) (logStart : Nat) : CacheUse :=
  ⟨binit disk logStart, fun _ => none, []⟩

/-- What the cache is for: blocks that hold what was stored last, and the log. -/
structure BlockStore where
  contents : Disk
  log : Log

/-- The log's blocks filled from their home blocks. -/
def logStores (start : Nat) (block : List Nat) : List DiskWrite :=
  (List.range block.length).map fun tail => ⟨start + tail + 1, fun d => d (block.getD tail 0)⟩

/-- The blocks a commit writes: the log's own, and the home blocks from it. -/
def commitStores (start : Nat) (block : List Nat) : List DiskWrite :=
  if 0 < block.length then
    logStores start block ++
      ([writeHead start block] ++ (installTrans start block ++ [writeHead start []]))
  else []

/-- A call on the abstract store. -/
def BlockStore.next (start : Nat) (s : BlockStore) : CacheEvent → Option BlockStore
  | .beginOp => s.log.beginOp.map fun log => { s with log }
  | .endOp =>
    match s.log.endOp with
    | .error _ => none
    | .ok (log, false) => some { s with log }
    | .ok (log, true) =>
      some ⟨writeAll (commitStores start log.block) s.contents, log.commit.endCommit⟩
  | .store blockno data => some { s with contents := Function.update s.contents blockno data }
  | .logWrite blockno => (s.log.logWrite blockno).toOption.map fun log => { s with log }
  | .bread _ | .bwrite _ | .brelse _ => some s

/-- Calls on the abstract store, as a relation. -/
def BlockStore.Step (start : Nat) (s : BlockStore) (e : CacheEvent) (t : BlockStore) : Prop :=
  s.next start e = some t

end Xv6
