import Xv6.Lib.Radix
import Xv6.Lib.Run
import Xv6.PageTable

/-! Page tables as words in memory, with the bit layout of their entries. -/

namespace Xv6.Sv39

/-- A page-table entry as it is stored. -/
abbrev Word := BitVec 64

/-- The entry is valid. -/
def pteV : Word := 1#64

/-- User code may use the page. -/
def pteU : Word := 16#64

/-- A physical address shifted to its place in an entry. -/
def pa2pte (pa : Nat) : Word := (BitVec.ofNat 64 pa >>> 12) <<< 10

/-- The physical address in an entry. -/
def pte2pa (pte : Word) : Nat := ((pte >>> 10) <<< 12).toNat

/-- The low ten bits of an entry. -/
def pteFlags (pte : Word) : Word := pte &&& 0x3FF#64

/-- Physical memory: the words of every page, and the allocator's free pages. -/
structure Phys where
  /-- First address after the kernel, set by the linker. -/
  kend : Nat
  freelist : List Nat
  word : Nat → Nat → Word

/-- A computation on physical memory. -/
abbrev PhysOp := Prog.Comp Phys Panic

/-- Overwrite every word of a page. -/
def memset (pa : Nat) (value : Word) : PhysOp Unit :=
  modify fun s => { s with word := Function.update s.word pa fun _ => value }

/-- Store through a pointer to an entry. -/
def store (pte : Nat × Nat) (value : Word) : PhysOp Unit :=
  modify fun s => { s with word := Radix.put s.word pte.1 pte.2 value }

/-- Take the first free page and fill it with junk. -/
def kalloc : PhysOp (Option Nat) := do
  let s ← get
  match s.freelist with
  | [] => return none
  | r :: rest =>
    set { s with freelist := rest }
    memset r 0x0505050505050505#64
    return some r

/-- Return a page to the free list, filled with junk. -/
def kfree (pa : Nat) : PhysOp Unit := do
  let s ← get
  if pa % pgsize ≠ 0 ∨ pa < s.kend ∨ phystop ≤ pa then throw .kfree
  memset pa 0x0101010101010101#64
  modify fun s => { s with freelist := pa :: s.freelist }

/-- The turns of the walk from one level down; a pointer is a page and an index in it. -/
def walkFrom (va : Nat) (alloc : Bool) : Nat → Nat → PhysOp (Option (Nat × Nat))
  | 0, pagetable => return some (pagetable, px 0 va)
  | level + 1, pagetable => do
    let pte := (← get).word pagetable (px (level + 1) va)
    if pte &&& pteV ≠ 0 then walkFrom va alloc level (pte2pa pte)
    else if !alloc then return none
    else
      match ← kalloc with
      | none => return none
      | some page =>
        memset page 0
        store (pagetable, px (level + 1) va) (pa2pte page ||| pteV)
        walkFrom va alloc level page

/-- A pointer to the entry for an address, creating table pages on request. -/
def walk (pagetable va : Nat) (alloc : Bool) : PhysOp (Option (Nat × Nat)) := do
  if maxva ≤ va then throw .walk
  walkFrom va alloc 2 pagetable

/-- The physical address of a user page, or zero. -/
def walkaddr (pagetable va : Nat) : PhysOp Nat := do
  if maxva ≤ va then return 0
  match ← walk pagetable va false with
  | none => return 0
  | some (page, i) =>
    let pte := (← get).word page i
    if pte &&& pteV = 0 then return 0
    if pte &&& pteU = 0 then return 0
    return pte2pa pte

/-- The turns of the mapping loop, which ends at the last page. -/
def mappagesFrom (pagetable last : Nat) (perm : Word) : Nat → Nat → Nat → PhysOp Int
  | 0, _, _ => return 0
  | turns + 1, a, pa => do
    match ← walk pagetable a true with
    | none => return -1
    | some (page, i) =>
      if (← get).word page i &&& pteV ≠ 0 then throw .remap
      store (page, i) (pa2pte pa ||| perm ||| pteV)
      if a = last then return 0
      mappagesFrom pagetable last perm turns (u64 (a + pgsize)) (u64 (pa + pgsize))

/-- Create entries for a range of pages. -/
def mappages (pagetable va size pa : Nat) (perm : Word) : PhysOp Int := do
  if va % pgsize ≠ 0 then throw .mappagesVa
  if size % pgsize ≠ 0 then throw .mappagesSize
  if size = 0 then throw .mappagesEmpty
  -- The page count bounds the turns: the loop reaches its last page with the last of them.
  mappagesFrom pagetable (u64 (va + size - pgsize)) perm (size / pgsize) va pa

/-- An empty page table. -/
def uvmcreate : PhysOp (Option Nat) := do
  match ← kalloc with
  | none => return none
  | some page =>
    memset page 0
    return some page

/-- Remove the mapping of one page, if there is one. -/
def unmapPage (pagetable a : Nat) (doFree : Bool) : PhysOp Unit := do
  match ← walk pagetable a false with
  | none => return
  | some (page, i) =>
    let pte := (← get).word page i
    if pte &&& pteV = 0 then return
    if doFree then kfree (pte2pa pte)
    store (page, i) 0

/-- The turns of the unmapping loop, which stops before an end address. -/
def uvmunmapFrom (pagetable stop : Nat) (doFree : Bool) : Nat → Nat → PhysOp Unit
  | 0, _ => return
  | turns + 1, a => do
    if a < stop then
      unmapPage pagetable a doFree
      uvmunmapFrom pagetable stop doFree turns (u64 (a + pgsize))

/-- Remove a range of mappings that may have holes. -/
def uvmunmap (pagetable va npages : Nat) (doFree : Bool) : PhysOp Unit := do
  if va % pgsize ≠ 0 then throw .uvmunmap
  uvmunmapFrom pagetable (u64 (va + npages * pgsize)) doFree npages va

/-- Take user access away from a page. -/
def uvmclear (pagetable va : Nat) : PhysOp Unit := do
  match ← walk pagetable va false with
  | none => throw .uvmclear
  | some (page, i) => store (page, i) ((← get).word page i &&& ~~~pteU)

/-- The page an interior entry points to. -/
def link (pte : Word) : Option Nat := if pte &&& pteV ≠ 0 then some (pte2pa pte) else none

/-- What a leaf entry maps: the physical page and the flags. -/
def leaf (pte : Word) : Option (Nat × Word) :=
  if pte &&& pteV ≠ 0 then some (pte2pa pte, pteFlags pte) else none

/-- The table as a partial map: what an address is mapped to. -/
def Phys.mapped (s : Phys) (pagetable va : Nat) : Option (Nat × Word) :=
  (Radix.node link s.word pagetable [px 2 va, px 1 va]).bind fun page => leaf (s.word page (px 0 va))

end Xv6.Sv39
