import Mathlib.Data.List.Nodup
import Mathlib.Logic.Function.Basic
import Mathlib.Tactic.SplitIfs
import Xv6.Lib.Crash
import Xv6.Params

/-! The redo log: its header block, the writes of a commit and those of a recovery. -/

namespace Xv6

/-- Blocks one file-system call may write. -/
def maxopblocks : Nat := 10

/-- Data blocks in the log on disk. -/
def logblocks : Nat := maxopblocks * 3

/-- Contents of a disk block. -/
abbrev Block := Nat → UInt8

/-- The blocks of a disk by number. -/
abbrev Disk := Nat → Block

/-- One byte of a number that is stored in little-endian order. -/
def byteLe (value j : Nat) : UInt8 := UInt8.ofNat (value / 256 ^ j % 256)

theorem readLe_stored (bytes : Nat → UInt8) :
    ∀ (width off value : Nat), (∀ j < width, bytes (off + j) = byteLe value j) →
      readLe bytes off width = value % 256 ^ width := by
  intro width
  induction width with
  | zero => intro off value _; simp [readLe, Nat.mod_one]
  | succ width ih =>
    intro off value stored
    -- The first byte is the value's last digit, and the rest store what is left of it.
    have rest : readLe bytes (off + 1) width = value / 256 % 256 ^ width := by
      apply ih
      intro j inside
      rw [show off + 1 + j = off + (j + 1) by omega, stored (j + 1) (by omega), byteLe, byteLe,
        Nat.div_div_eq_div_mul, Nat.pow_succ']
    have first : (bytes off).toNat = value % 256 := by
      rw [show bytes off = byteLe value 0 from stored 0 (by omega), byteLe]
      simp
    rw [readLe, first, rest, Nat.pow_succ', Nat.mod_mul]

/-- A header block with a count and block numbers written over its old contents. -/
def putHead (block : List Nat) (old : Block) : Block := fun i =>
  if i < 4 then byteLe block.length i
  else if i < 4 + 4 * block.length then byteLe (block.getD ((i - 4) / 4) 0) ((i - 4) % 4)
  else old i

/-- The block numbers a header block lists. -/
def getHead (head : Block) : List Nat :=
  -- The count is a C int, and a negative one ends the loop at once.
  (List.range (intOfU64 (readLe head 0 4)).toNat).map fun i => readLe head (4 + 4 * i) 4

/-- The calls of panic in the log. -/
inductive LogPanic where
  /-- `log_write` found the log full. -/
  | tooBig
  /-- `log_write` was called outside a transaction. -/
  | outside
  /-- `end_op` found a commit under way. -/
  | committing
  deriving DecidableEq, Repr

/-- The log in memory: the block numbers of its header, the calls under way and the commit flag. -/
structure Log where
  block : List Nat
  outstanding : Int
  committing : Bool
  deriving DecidableEq, Repr

/-- Start a call; nothing while the call has to sleep. -/
def Log.beginOp (l : Log) : Option Log :=
  if l.committing then none
  else if (l.block.length : Int) + (l.outstanding + 1) * maxopblocks > logblocks then
    -- This call might exhaust log space; it waits for a commit.
    none
  else some { l with outstanding := l.outstanding + 1 }

/-- End a call, and say whether it has to commit. -/
def Log.endOp (l : Log) : Except LogPanic (Log × Bool) :=
  let left := { l with outstanding := l.outstanding - 1 }
  if left.committing then .error .committing
  else if left.outstanding = 0 then .ok ({ left with committing := true }, true)
  else .ok (left, false)

theorem Log.endOp_block {l l' : Log} {doCommit : Bool} (ended : l.endOp = .ok (l', doCommit)) :
    l'.block = l.block := by
  unfold Log.endOp at ended
  dsimp only at ended
  split_ifs at ended
  all_goals
    cases ended
    rfl

/-- Clear the header in memory at the end of a commit's writes. -/
def Log.commit (l : Log) : Log := { l with block := [] }

/-- Let waiting calls in again once the commit is over. -/
def Log.endCommit (l : Log) : Log := { l with committing := false }

/-- Record a modified block; a block that is already recorded is absorbed. -/
def Log.logWrite (l : Log) (blockno : Nat) : Except LogPanic Log :=
  if logblocks ≤ l.block.length then .error .tooBig
  else if l.outstanding < 1 then .error .outside
  else .ok { l with block := if blockno ∈ l.block then l.block else l.block ++ [blockno] }

theorem Log.logWrite_ok {l l' : Log} {blockno : Nat} (done : l.logWrite blockno = .ok l') :
    l.block.length < logblocks ∧ 1 ≤ l.outstanding ∧
      ((blockno ∈ l.block ∧ l' = l) ∨
        (blockno ∉ l.block ∧ l' = { l with block := l.block ++ [blockno] })) := by
  unfold Log.logWrite at done
  split_ifs at done with full outside absorbed
  · cases done
    exact ⟨by omega, by omega, Or.inl ⟨absorbed, rfl⟩⟩
  · cases done
    exact ⟨by omega, by omega, Or.inr ⟨absorbed, rfl⟩⟩

theorem Log.exists_logWrite {l : Log} (blockno : Nat) (room : l.block.length < logblocks)
    (called : 1 ≤ l.outstanding) : ∃ l', l.logWrite blockno = .ok l' := by
  rw [Log.logWrite, if_neg (by omega), if_neg (by omega)]
  exact ⟨_, rfl⟩

theorem Log.logWrite_nodup {l l' : Log} {blockno : Nat} (nodup : l.block.Nodup)
    (done : l.logWrite blockno = .ok l') : l'.block.Nodup := by
  obtain ⟨-, -, ⟨-, rfl⟩ | ⟨fresh, rfl⟩⟩ := Log.logWrite_ok done
  · exact nodup
  · rw [List.nodup_append_comm, List.singleton_append]
    exact List.nodup_cons.mpr ⟨fresh, nodup⟩

/-- A transaction in memory: the log and the contents of the blocks in the buffer cache. -/
structure Transaction where
  log : Log
  cache : Disk

/-- Modify the cached contents of a block and record it. -/
def Transaction.logWrite (t : Transaction) (blockno : Nat) (data : Block) :
    Except LogPanic Transaction :=
  match t.log.logWrite blockno with
  | .ok log => .ok ⟨log, Function.update t.cache blockno data⟩
  | .error e => .error e

/-- Modify and record blocks one after another. -/
def Transaction.logWrites : Transaction → List (Nat × Block) → Except LogPanic Transaction
  | t, [] => .ok t
  | t, (blockno, data) :: rest =>
    match t.logWrite blockno data with
    | .ok t' => t'.logWrites rest
    | .error e => .error e

/-- One block write, with contents computed from the disk as it is by then. -/
structure DiskWrite where
  blockno : Nat
  data : Disk → Block

/-- The disk after a block write. -/
def DiskWrite.apply (w : DiskWrite) (d : Disk) : Disk := Function.update d w.blockno (w.data d)

/-- The disk after a crash cut writes short. -/
def crashAfter (writes : List DiskWrite) (k : Nat) (d : Disk) : Disk :=
  Crash.after (writes.map DiskWrite.apply) k d

/-- The disk after writes that no crash interrupts. -/
def writeAll (writes : List DiskWrite) (d : Disk) : Disk :=
  Crash.all (writes.map DiskWrite.apply) d

/-- A block outside the log area. -/
def Home (start b : Nat) : Prop := b < start ∨ start + logblocks < b

/-- Copy modified blocks from the cache to the log. -/
def writeLog (start : Nat) (t : Transaction) : List DiskWrite :=
  (List.range t.log.block.length).map fun tail =>
    ⟨start + tail + 1, fun _ => t.cache (t.log.block.getD tail 0)⟩

/-- Write the header that is in memory to disk. -/
def writeHead (start : Nat) (block : List Nat) : DiskWrite :=
  ⟨start, fun d => putHead block (d start)⟩

/-- Copy blocks from the log to their home locations. -/
def installTrans (start : Nat) (block : List Nat) : List DiskWrite :=
  (List.range block.length).map fun tail =>
    ⟨block.getD tail 0, fun d => d (start + tail + 1)⟩

/-- The writes of a commit. -/
def commitWrites (start : Nat) (t : Transaction) : List DiskWrite :=
  if 0 < t.log.block.length then
    writeLog start t ++ ([writeHead start t.log.block] ++
      (installTrans start t.log.block ++ [writeHead start []]))
  else []

/-- The writes of a recovery, which starts from the header it finds on disk. -/
def recoverFromLog (start : Nat) (d : Disk) : List DiskWrite :=
  installTrans start (getHead (d start)) ++ [writeHead start []]

end Xv6
