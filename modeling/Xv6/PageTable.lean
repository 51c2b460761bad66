import Xv6.Kalloc

/-! Three-level page tables and the functions that build, change and free them. -/

namespace Xv6

/-- Permission bits of a mapping. -/
structure Perm where
  r : Bool
  w : Bool
  x : Bool
  u : Bool
  deriving DecidableEq, Repr

/-- A valid leaf entry: the page it maps and how it may be used. -/
structure Pte where
  pa : Nat
  perm : Perm
  deriving DecidableEq, Repr

/-- A page-table page: its physical address and the valid entries among its 512 slots. -/
structure Dir (β : Type) where
  pa : Nat
  slot : Nat → Option β

/-- A page-table page straight after it was zeroed. -/
def Dir.empty {β : Type} (pa : Nat) : Dir β := ⟨pa, fun _ => none⟩

/-- Overwrite one slot of a page-table page. -/
def Dir.set {β : Type} (d : Dir β) (i : Nat) (entry : Option β) : Dir β :=
  { d with slot := Function.update d.slot i entry }

/-- A page table: a root page, middle pages below it, and pages of leaf entries. -/
abbrev PageTable := Dir (Dir (Dir Pte))

/-- The nine-bit index an address selects at one level. -/
def px (level va : Nat) : Nat := va / 2 ^ (12 + 9 * level) % 512

/-- The leaf entry for an address, when its path exists and it is valid. -/
def PageTable.lookup (pt : PageTable) (va : Nat) : Option Pte :=
  (pt.slot (px 2 va)).bind fun mid => (mid.slot (px 1 va)).bind fun low => low.slot (px 0 va)

/-- Store through the entry pointer `walk` returned for an address. -/
def PageTable.setPte (pt : PageTable) (va : Nat) (pte : Option Pte) : PageTable :=
  match pt.slot (px 2 va) with
  | none => pt
  | some mid =>
    match mid.slot (px 1 va) with
    | none => pt
    | some low => pt.set (px 2 va) (some (mid.set (px 1 va) (some (low.set (px 0 va) pte))))

/-- Physical memory together with the page table being worked on. -/
structure Vm where
  kmem : Kmem
  pt : PageTable

/-- A computation on a page table. -/
abbrev VmOp := Prog.Comp Vm Panic

/-- Run an allocator computation while a table is being worked on. -/
def onKmem {α : Type} : MemOp α → VmOp α :=
  Prog.focus Vm.kmem fun s k => { s with kmem := k }

/-- Run a table computation on a given table, returning the changed table. -/
def onTable {α : Type} (pt : PageTable) (op : VmOp α) : MemOp (α × PageTable) := fun k =>
  match op ⟨k, pt⟩ with
  | .ok (a, s) => .ok ((a, s.pt), s.kmem)
  | .error e => .error e

/-- Store a leaf entry in the table being worked on. -/
def storePte (va : Nat) (pte : Option Pte) : VmOp Unit :=
  modify fun s => { s with pt := s.pt.setPte va pte }

/-- One turn of the walk: follow an interior entry, creating the page below it on request. -/
def descend {β : Type} (d : Dir (Dir β)) (i : Nat) (alloc : Bool) : MemOp (Option (Dir β)) := do
  match d.slot i with
  | some below => return some below
  | none =>
    if !alloc then return none
    match ← kalloc with
    | none => return none
    | some pa =>
      memset pa 0
      return some (Dir.empty pa)

/-- Find the leaf entry of an address, creating interior pages when asked to. -/
def walk (va : Nat) (alloc : Bool) : VmOp Bool := do
  if maxva ≤ va then throw .walk
  let s ← get
  match ← onKmem (descend s.pt (px 2 va) alloc) with
  | none => return false
  | some mid =>
    modify fun t => { t with pt := s.pt.set (px 2 va) (some mid) }
    match ← onKmem (descend mid (px 1 va) alloc) with
    | none => return false
    | some low =>
      modify fun t =>
        { t with pt := s.pt.set (px 2 va) (some (mid.set (px 1 va) (some low))) }
      return true

/-- Physical address of a mapped user page. -/
def walkaddr (pt : PageTable) (va : Nat) : Option Nat :=
  if maxva ≤ va then none
  else match pt.lookup va with
    | none => none
    | some pte => if pte.perm.u then some pte.pa else none

/-- Map the given number of consecutive pages. -/
def mappagesFrom (perm : Perm) : Nat → Nat → Nat → VmOp Int
  | 0, _, _ => return 0
  | n + 1, a, pa => do
    if !(← walk a true) then return -1
    if ((← get).pt.lookup a).isSome then throw .remap
    storePte a (some ⟨pa, perm⟩)
    mappagesFrom perm n (a + pgsize) (pa + pgsize)

/-- Create entries for a range of pages. -/
def mappages (va size pa : Nat) (perm : Perm) : VmOp Int := do
  if va % pgsize ≠ 0 then throw .mappagesVa
  if size % pgsize ≠ 0 then throw .mappagesSize
  if size = 0 then throw .mappagesEmpty
  mappagesFrom perm (size / pgsize) va pa

/-- An empty user page table. -/
def uvmcreate : MemOp (Option PageTable) := do
  match ← kalloc with
  | none => return none
  | some pa =>
    memset pa 0
    return some (Dir.empty pa)

/-- Remove the mapping of one page, if there is one. -/
def unmapPage (a : Nat) (doFree : Bool) : VmOp Unit := do
  if !(← walk a false) then return
  match (← get).pt.lookup a with
  | none => return
  | some pte =>
    if doFree then onKmem (kfree pte.pa)
    storePte a none

/-- Remove a range of mappings that may have holes. -/
def uvmunmap (va npages : Nat) (doFree : Bool) : VmOp Unit := do
  if va % pgsize ≠ 0 then throw .uvmunmap
  Prog.upto npages fun i => unmapPage (va + i * pgsize) doFree

/-- Release user pages to shrink from one size to another. -/
def uvmdealloc (oldsz newsz : Nat) : VmOp Nat := do
  if oldsz ≤ newsz then return oldsz
  if pgroundup newsz < pgroundup oldsz then
    -- The page count passes through a C int.
    let npages := intOfU64 ((pgroundup oldsz - pgroundup newsz) / pgsize)
    uvmunmap (pgroundup newsz) (u64OfInt npages) true
  return newsz

/-- Allocate and map the given number of zeroed pages, undoing everything on failure. -/
def uvmallocFrom (oldsz newsz : Nat) (perm : Perm) : Nat → Nat → VmOp Nat
  | 0, _ => return newsz
  | n + 1, a => do
    match ← onKmem kalloc with
    | none =>
      discard (uvmdealloc a oldsz)
      return 0
    | some mem =>
      onKmem (memset mem 0)
      if (← mappages a pgsize mem perm) ≠ 0 then
        onKmem (kfree mem)
        discard (uvmdealloc a oldsz)
        return 0
      uvmallocFrom oldsz newsz perm n (a + pgsize)

/-- Grow user memory, returning the new size or zero on failure. -/
def uvmalloc (oldsz newsz : Nat) (perm : Perm) : VmOp Nat := do
  if newsz < oldsz then return oldsz
  let oldsz := pgroundup oldsz
  uvmallocFrom oldsz newsz perm ((newsz - oldsz + (pgsize - 1)) / pgsize) oldsz

/-- Free what one slot of a page-table page refers to. -/
def freeSlot {β : Type} (free : β → MemOp Unit) (d : Dir β) (i : Nat) : MemOp Unit :=
  match d.slot i with
  | none => pure ()
  | some entry => free entry

/-- Free a page-table page after everything its valid slots refer to. -/
def freeDir {β : Type} (free : β → MemOp Unit) (d : Dir β) : MemOp Unit := do
  Prog.upto 512 (freeSlot free d)
  kfree d.pa

/-- Free the page of a leaf mapping. -/
def freeLeaf (pte : Pte) : MemOp Unit := do
  -- Without any of the three bits the entry would be taken for a table page.
  if !(pte.perm.r || pte.perm.w || pte.perm.x) then throw .freewalk
  kfree pte.pa

/-- Free a page table with the leaf mappings that are still in it. -/
def freewalk (pt : PageTable) : MemOp Unit :=
  freeDir (freeDir (freeDir freeLeaf)) pt

/-- Free user memory up to a size, then the page table itself. -/
def uvmfree (sz : Nat) : VmOp Unit := do
  if 0 < sz then uvmunmap 0 (pgroundup sz / pgsize) true
  onKmem (freewalk (← get).pt)

/-- Copy the mapped pages of a parent from the given address on. -/
def uvmcopyFrom (old : PageTable) : Nat → Nat → VmOp Int
  | 0, _ => return 0
  | n + 1, i => do
    -- The parent's entry is found with `walk`, which refuses addresses above the limit.
    if maxva ≤ i then throw .walk
    match old.lookup i with
    | none => uvmcopyFrom old n (i + pgsize)
    | some pte =>
      match ← onKmem kalloc with
      | none =>
        uvmunmap 0 (i / pgsize) true
        return -1
      | some mem =>
        onKmem (memmovePage mem pte.pa)
        if (← mappages i pgsize mem pte.perm) ≠ 0 then
          onKmem (kfree mem)
          uvmunmap 0 (i / pgsize) true
          return -1
        uvmcopyFrom old n (i + pgsize)

/-- Copy a parent's mapped memory below a size into the table being worked on. -/
def uvmcopy (old : PageTable) (sz : Nat) : VmOp Int :=
  uvmcopyFrom old ((sz + (pgsize - 1)) / pgsize) 0

/-- Take user access away from a page. -/
def uvmclear (va : Nat) : VmOp Unit := do
  if !(← walk va false) then throw .uvmclear
  match (← get).pt.lookup va with
  | none => return
  | some pte => storePte va (some { pte with perm := { pte.perm with u := false } })

/-- A page table holding only the trampoline and the given trapframe page. -/
def procPagetable (trapframe : Nat) : MemOp (Option PageTable) := do
  match ← uvmcreate with
  | none => return none
  | some pt =>
    let k ← get
    let (mapped, pt) ← onTable pt
      (mappages trampolineVa pgsize k.trampoline ⟨true, false, true, false⟩)
    if mapped < 0 then
      discard (onTable pt (uvmfree 0))
      return none
    let (mapped, pt) ← onTable pt
      (mappages trapframeVa pgsize trapframe ⟨true, true, false, false⟩)
    if mapped < 0 then
      discard (onTable pt do
        uvmunmap trampolineVa 1 false
        uvmfree 0)
      return none
    return some pt

/-- Free a process's page table and the memory it maps. -/
def procFreepagetable (pt : PageTable) (sz : Nat) : MemOp Unit :=
  discard (onTable pt do
    uvmunmap trampolineVa 1 false
    uvmunmap trapframeVa 1 false
    uvmfree sz)

end Xv6
