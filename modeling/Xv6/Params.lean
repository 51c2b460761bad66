import Xv6.Lib.Prog

/-! Machine constants, address arithmetic and the panics of the paging code. -/

namespace Xv6

/-- Bytes in a page. -/
def pgsize : Nat := 4096

/-- One past the largest user virtual address. -/
def maxva : Nat := 2 ^ 38

/-- The trampoline occupies the highest page of every address space. -/
def trampolineVa : Nat := maxva - pgsize

/-- The trapframe page lies just below the trampoline. -/
def trapframeVa : Nat := trampolineVa - pgsize

/-- End of the physical memory handed to the allocator. -/
def phystop : Nat := 0x80000000 + 128 * 1024 * 1024

/-- Swap slots a process can use. -/
def maxSwapPages : Nat := 1024

/-- Virtual pages the paging table of a process describes. -/
def maxTrackedPages : Nat := 35000

/-- Slots of the process table. -/
def nproc : Nat := 64

/-- Largest number of exec arguments. -/
def maxarg : Nat := 32

/-- User stack pages. -/
def userstack : Nat := 1

/-- Bytes in a disk block. -/
def bsize : Nat := 1024

/-- Blocks in the largest file: twelve direct and one indirect block of numbers. -/
def maxfile : Nat := 12 + bsize / 4

/-- Characters of a directory entry name. -/
def dirsiz : Nat := 14

/-- Addresses and sizes wrap at the width of a register. -/
def u64 (value : Nat) : Nat := value % 2 ^ 64

/-- File offsets and lengths wrap at thirty-two bits. -/
def u32 (value : Nat) : Nat := value % 2 ^ 32

/-- A register value stored in a C int. -/
def intOfU64 (value : Nat) : Int :=
  -- The upper half of the thirty-two-bit range reads as negative.
  if u32 value < 2 ^ 31 then (u32 value : Int) else (u32 value : Int) - 2 ^ 32

/-- A C int passed where a register value is expected. -/
def u64OfInt (value : Int) : Nat := (value % 2 ^ 64).toNat

/-- Round an address down to its page. -/
def pgrounddown (a : Nat) : Nat := a / pgsize * pgsize

/-- Round an address up to a page, wrapping at the register width. -/
def pgroundup (a : Nat) : Nat := u64 (a + (pgsize - 1)) / pgsize * pgsize

/-- Read a little-endian number from consecutive bytes. -/
def readLe (bytes : Nat → UInt8) : Nat → Nat → Nat
  | _, 0 => 0
  | off, width + 1 => (bytes off).toNat + 256 * readLe bytes (off + 1) width

/-- The calls of panic that the memory code can reach, and the null dereference it can make. -/
inductive Panic where
  /-- `walk` was given an address at or above the limit. -/
  | walk
  /-- `mappages` was given an unaligned address. -/
  | mappagesVa
  /-- `mappages` was given an unaligned size. -/
  | mappagesSize
  /-- `mappages` was given an empty range. -/
  | mappagesEmpty
  /-- `mappages` met an entry that is already valid. -/
  | remap
  /-- `uvmunmap` was given an unaligned address. -/
  | uvmunmap
  /-- `uvmclear` found no entry to clear. -/
  | uvmclear
  /-- `freewalk` met a valid entry that is neither a table nor a mapping. -/
  | freewalk
  /-- `kfree` was given a page it does not manage. -/
  | kfree
  /-- The swap file of the process was used but not open. -/
  | nullSwapfile
  deriving DecidableEq, Repr

/-- Bytes in the input buffer of the console. -/
def inputBufSize : Nat := 128

end Xv6
