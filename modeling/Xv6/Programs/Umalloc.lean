import Xv6.Lib.Linked
import Xv6.Resize

/-! The storage allocator of the user library: a ring of free blocks in order of address. -/

namespace Xv6.Umalloc

open Prog
open Function (update)

/-- The bytes of a block header, which are also the unit of allocation. -/
def headerSize : Nat := 16

/-- What a block header holds. -/
structure Header where
  ptr : Nat
  /-- Units of the block, its header included. -/
  size : Nat
deriving DecidableEq, Repr

/-- Where a program is loaded. -/
structure Layout where
  /-- Address of the static header. -/
  base : Nat
  /-- Size of the process when the program starts. -/
  start : Nat
  base_pos : 0 < base
  base_below : base + headerSize ≤ start
  start_le : start ≤ trapframeVa

/-- The memory of a program, as its allocator sees it. -/
structure Heap where
  mem : Nat → Header
  /-- Zero until the first call. -/
  freep : Nat
  /-- Size of the process. -/
  brk : Nat
  /-- First address and length of what each growing `sbrk` returned. -/
  obtained : List (Nat × Nat)

/-- Link a block to the one behind it, or make one block of the two. -/
def join (mem : Nat → Header) (x y : Nat) : Nat → Header :=
  if x + headerSize * (mem x).size = y then
    update mem x ⟨(mem y).ptr, u32 ((mem x).size + (mem y).size)⟩
  else update mem x { mem x with ptr := y }

/-- The block belongs behind this one: between two blocks, or at the ends of the ring. -/
def belongs (mem : Nat → Header) (bp p : Nat) : Bool :=
  decide (p < bp ∧ bp < (mem p).ptr) ||
    decide ((mem p).ptr ≤ p ∧ (p < bp ∨ bp < (mem p).ptr))

/-- Put a block back into the ring. -/
def free (fuel ap : Nat) (h : Heap) : Option Heap := do
  let bp := ap - headerSize
  let p ← Linked.walk (belongs h.mem bp) (fun p => (h.mem p).ptr) fuel h.freep
  let mem := join h.mem bp (h.mem p).ptr
  return { h with mem := join mem p bp, freep := p }

/-- What `sbrk` returns when it fails. -/
def sbrkError : Nat := u64OfInt (-1)

/-- Change the size of the process, and return the old one. -/
def sbrk (n : Int) (h : Heap) : Nat × Heap :=
  let newSz := u64 (h.brk + u64OfInt n)
  if 0 < n then
    if newSz < h.brk ∨ trapframeVa < newSz then (sbrkError, h)
    else (h.brk, { h with brk := newSz, obtained := (h.brk, n.toNat) :: h.obtained })
  else if n < 0 ∧ newSz < h.brk then (h.brk, { h with brk := newSz })
  else (h.brk, h)

/-- Ask the kernel for memory, and put it into the ring. -/
def morecore (fuel nu : Nat) (h : Heap) : Option (Nat × Heap) :=
  let nu := if nu < 4096 then 4096 else nu
  -- The product is a register value, which the call takes as an int.
  let (p, h) := sbrk (intOfU64 (nu * headerSize)) h
  if p = sbrkError then some (0, h)
  else do
    let h := { h with mem := update h.mem p { h.mem p with size := nu } }
    let h ← free fuel (p + headerSize) h
    return (h.freep, h)

/-- Go around the ring to a block that is large enough. -/
def mallocLoop (nunits : Nat) : Nat → Nat → Nat → Heap → Option (Nat × Heap)
  | 0, _, _, _ => none
  | fuel + 1, prevp, p, h =>
    if nunits ≤ (h.mem p).size then
      if (h.mem p).size = nunits then
        let mem := update h.mem prevp { h.mem prevp with ptr := (h.mem p).ptr }
        some (p + headerSize, { h with mem, freep := prevp })
      else
        -- The tail of the block is given out, and its head stays in the ring.
        let size := (h.mem p).size - nunits
        let mem := update h.mem p { h.mem p with size }
        let q := p + headerSize * size
        let mem := update mem q { mem q with size := nunits }
        some (q + headerSize, { h with mem, freep := prevp })
    else if p = h.freep then do
      let (p, h) ← morecore fuel nunits h
      if p = 0 then return (0, h) else mallocLoop nunits fuel p (h.mem p).ptr h
    else mallocLoop nunits fuel p (h.mem p).ptr h

/-- Units that hold a number of bytes and a header. -/
def unitsFor (nbytes : Nat) : Nat := (nbytes + headerSize - 1) / headerSize + 1

/-- Make the ring of the static header alone. -/
def Heap.begin (base : Nat) (h : Heap) : Heap :=
  { h with mem := update h.mem base ⟨base, 0⟩, freep := base }

/-- Allocate a number of bytes; zero is the null pointer. -/
def malloc (base fuel nbytes : Nat) (h : Heap) : Option (Nat × Heap) :=
  let h := if h.freep = 0 then h.begin base else h
  mallocLoop (unitsFor nbytes) fuel h.freep (h.mem h.freep).ptr h

/-- A program's memory with the blocks it has allocated and not freed: their addresses and the
bytes that were asked for. -/
structure Session where
  heap : Heap
  live : List (Nat × Nat)

/-- What a program does with its blocks. -/
inductive Call where
  | malloc (nbytes : UInt32)
  | free (ap : Nat)
  /-- Store into a block the program has, at a unit of it. -/
  | store (ap unit : Nat) (value : Header)

/-- One call; a program only frees blocks it has, and only stores into their bytes. -/
def Session.step (base fuel : Nat) (s : Session) : Call → Option Session
  | .malloc nbytes => do
    let (p, heap) ← Umalloc.malloc base fuel nbytes.toNat s.heap
    return ⟨heap, if p = 0 then s.live else (p, nbytes.toNat) :: s.live⟩
  | .free ap =>
    if ap ∈ s.live.map Prod.fst then do
      let heap ← Umalloc.free fuel ap s.heap
      return ⟨heap, s.live.eraseP fun b => b.1 = ap⟩
    else some s
  | .store ap unit value =>
    if ∃ b ∈ s.live, b.1 = ap ∧ headerSize * unit < b.2 then
      some { s with heap := { s.heap with
        mem := update s.heap.mem (ap + headerSize * unit) value } }
    else some s

/-- A program that has just started. -/
def Layout.initial (lay : Layout) : Session := ⟨⟨fun _ => ⟨0, 0⟩, 0, lay.start, []⟩, []⟩

/-- All calls of a program. -/
def Layout.run (lay : Layout) (fuel : Nat) (calls : List Call) : Option Session :=
  calls.foldlM (fun s call => s.step lay.base fuel call) lay.initial

theorem sbrk_eq_sysSbrk {m : Machine} {h : Heap} {n : Int} (sound : m.Sound)
    (same : h.brk = m.proc.sz) : ∃ r m', sysSbrk n m = .ok (r, m') ∧
      (sbrk n h).1 = u64OfInt r ∧ (sbrk n h).2.brk = m'.proc.sz := by
  have size := sound.size
  have whole : u64OfInt (m.proc.sz : Int) = m.proc.sz := by
    simp only [u64OfInt, trapframeVa, trampolineVa, maxva, pgsize] at *
    omega
  refine exists_ok_of_wp (wp_sysSbrk_cases sound (fun grows outside => ?_)
    (fun grows more fits => ?_) (fun still wrapped => ?_) (fun t shrinks less released => ?_))
  · simp only [sbrk, same, if_pos grows, if_pos outside]
    exact ⟨rfl, trivial⟩
  · have inside : ¬ (u64 (m.proc.sz + u64OfInt n) < m.proc.sz ∨
        trapframeVa < u64 (m.proc.sz + u64OfInt n)) := by omega
    simp only [sbrk, same, if_pos grows, if_neg inside]
    exact ⟨whole.symm, trivial⟩
  · -- Nothing is given back when the new size would wrap around.
    have kept : ¬ (n < 0 ∧ u64 (m.proc.sz + u64OfInt n) < m.proc.sz) := fun both =>
      absurd both.2 (Nat.not_lt.mpr (wrapped both.1))
    simp only [sbrk, same, if_neg (show ¬ 0 < n by omega), if_neg kept]
    exact ⟨whole.symm, trivial⟩
  · simp only [sbrk, same, if_neg (show ¬ 0 < n by omega), if_pos (And.intro shrinks less)]
    exact ⟨whole.symm, trivial⟩

end Xv6.Umalloc
