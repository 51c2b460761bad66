import Xv6.Params

/-! The physical page allocator: a list of free pages and the bytes of every page. -/

namespace Xv6

/-- Physical memory as the allocator and its callers see it. -/
structure Kmem where
  /-- First address after the kernel, set by the linker. -/
  kend : Nat
  /-- Physical address of the trampoline code, set by the linker. -/
  trampoline : Nat
  /-- Free pages, most recently freed first. -/
  freelist : List Nat
  /-- Bytes of the page at each physical address. -/
  ram : Nat → Nat → UInt8

/-- A computation on physical memory. -/
abbrev MemOp := Prog.Comp Kmem Panic

/-- Overwrite every byte of a page. -/
def memset (pa : Nat) (value : UInt8) : MemOp Unit :=
  modify fun k => { k with ram := Function.update k.ram pa fun _ => value }

/-- Copy a whole page into another. -/
def memmovePage (dst src : Nat) : MemOp Unit :=
  modify fun k => { k with ram := Function.update k.ram dst (k.ram src) }

/-- Replace the bytes of a page. -/
def setPage (pa : Nat) (bytes : Nat → UInt8) : MemOp Unit :=
  modify fun k => { k with ram := Function.update k.ram pa bytes }

/-- Take the first free page and fill it with junk. -/
def kalloc : MemOp (Option Nat) := do
  let k ← get
  match k.freelist with
  | [] => return none
  | r :: rest =>
    set { k with freelist := rest }
    memset r 5
    return some r

/-- Return a page to the free list, filled with junk to catch dangling references. -/
def kfree (pa : Nat) : MemOp Unit := do
  let k ← get
  -- Only aligned pages between the end of the kernel and the end of memory are managed.
  if pa % pgsize ≠ 0 ∨ pa < k.kend ∨ phystop ≤ pa then throw .kfree
  memset pa 1
  modify fun k => { k with freelist := pa :: k.freelist }

end Xv6
