import Xv6.Lib.Sums
import Xv6.Names.Calls
import Xv6.Names.PathLaws

/-! The pointers to files and inodes, and the tables that count them. -/

namespace Xv6

namespace Names

/-- A pointer that may be null, as a collection. -/
def optional : Option Nat → Multiset Nat
  | none => 0
  | some x => {x}

/-- The pointer of a file to its inode. -/
def File.inodes (file : File) : Multiset Nat :=
  if file.kind = .inode ∨ file.kind = .device then {file.ip} else 0

/-- The pointers of a process to inodes. -/
def Task.inodes (task : Task) : Multiset Nat := optional task.cwd + optional task.execIp

/-- The pointers of a process to files. -/
def Task.files (task : Task) : Multiset Nat :=
  ∑ fd ∈ Finset.range nofile, optional (task.ofile fd) + optional task.swapfile

/-- The pointers of all files to inodes. -/
def State.openInodes (s : State) : Multiset Nat := ∑ f ∈ Finset.range nfile, (s.ftable f).inodes

/-- The pointers of all processes to inodes. -/
def State.taskInodes (s : State) : Multiset Nat := ∑ p ∈ Finset.range nproc, (s.task p).inodes

/-- The pointers of all processes to files. -/
def State.taskFiles (s : State) : Multiset Nat := ∑ p ∈ Finset.range nproc, (s.task p).files

/-- Both tables agree with the references that processes have, in pointers or in hand. -/
structure Books (s : State) (inodes files : Multiset Nat) : Prop where
  ledger : Ledger s (inodes + s.openInodes) none
  settled : Settled s (inodes + s.openInodes)
  count : ∀ f, (s.ftable f).ref = files.count f
  inside : ∀ f ∈ files, f < nfile
  closed : ∀ f, (s.ftable f).ref = 0 → (s.ftable f).kind = .none

/-- Slots without a process have no pointers. -/
def State.Vacant (s : State) : Prop :=
  ∀ p < nproc, (s.task p).alive = false → (s.task p).inodes = 0 ∧ (s.task p).files = 0

/-- Both tables count the pointers that there are. -/
structure Balance (s : State) : Prop where
  books : Books s s.taskInodes s.taskFiles
  vacant : s.Vacant

section Pointers

variable {s : State} {p : Nat}

theorem mem_taskInodes {e : Nat} (inside : p < nproc) (mem : e ∈ (s.task p).inodes) :
    e ∈ s.taskInodes :=
  Multiset.mem_sum.mpr ⟨p, Finset.mem_range.mpr inside, mem⟩

theorem cwd_mem {e : Nat} (inside : p < nproc) (cwd : (s.task p).cwd = some e) :
    e ∈ s.taskInodes := by
  refine mem_taskInodes inside (Multiset.mem_add.mpr (.inl ?_))
  rw [cwd]
  exact Multiset.mem_singleton_self e

end Pointers

end Names

end Xv6
