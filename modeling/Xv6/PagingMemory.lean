import Xv6.Consistency

/-! What paging does to the frames, the mappings and the fixed parts of a process. -/

namespace Xv6

open Prog

/-- The part of a paging state that paging never changes. -/
structure PagingContext where
  segs : Segments
  heapStart : Nat
  stackTop : Nat
  execIp : Option Nat
  deriving DecidableEq

/-- The part of a process that paging never changes. -/
structure ProcContext where
  state : ProcState
  pid : Nat
  sz : Nat
  trapframe : Nat
  tf : Trapframe
  cwd : Nat
  paging : PagingContext

/-- The fixed part of a paging state. -/
def PagingInfo.context (pg : PagingInfo) : PagingContext :=
  ⟨pg.segs, pg.heapStart, pg.stackTop, pg.execIp⟩

/-- The fixed part of a process. -/
def Proc.context (p : Proc) : ProcContext :=
  ⟨p.state, p.pid, p.sz, p.trapframe, p.tf, p.cwd, p.paging.context⟩

@[simp] theorem freeSwapSlot_context (pg : PagingInfo) (slot : Int) :
    (freeSwapSlot pg slot).context = pg.context := by
  unfold freeSwapSlot
  split
  · rfl
  · split <;> rfl

@[simp] theorem PagingInfo.settle_context (pg : PagingInfo) (va : Nat) (mark : PageInfo → PageInfo) :
    (pg.settle va mark).context = pg.context := by
  unfold PagingInfo.settle
  split <;> rfl

variable {cause i pa va vb : Nat} {frame : Option Nat} {pt : PageTable} {src : Source} {r : Int}
  {op : PagingOp} {s t : Vm} {perm : Perm}

section Context

variable {m m' : Machine}

theorem Machine.Idles.context (idle : m.Idles m') : m'.proc.context = m.proc.context := by
  rw [idle.same]
  rfl

theorem Machine.Evicts.context (evicts : m.Evicts i m') : m'.proc.context = m.proc.context := by
  cases evicts <;> rfl

theorem Machine.Obtains.context (obtains : m.Obtains frame m') :
    m'.proc.context = m.proc.context := by
  cases obtains with
  | free => rfl
  | starved _ _ idle => exact idle.context
  | evicted i _ _ _ _ _ evicts => exact evicts.context
  | wasted i _ _ _ evicts => exact evicts.context

/-- A source that prepares without changing the context. -/
def Source.Calm (src : Source) : Prop := ∀ pg, (src.prepare pg).context = pg.context

theorem Proc.context_congr {p : Proc} {pg : PagingInfo} (same : pg.context = p.paging.context) :
    Proc.context { p with pagetable := pt, paging := pg } = p.context := by
  simp only [Proc.context, same]

theorem Machine.Brings.context (calm : src.Calm) (pages : m.Brings env va src r m') :
    m'.proc.context = m.proc.context := by
  cases pages with
  | starved _ gets => exact gets.obtains.context
  | unread _ mem gets => exact (gets.obtains.context :)
  | refused m₁ mem bytes t gets =>
    rw [Proc.context_congr (calm _)]
    exact gets.obtains.context
  | mapped m₁ mem bytes t gets =>
    rw [Proc.context_congr (by rw [PagingInfo.settle_context, calm])]
    exact gets.obtains.context

theorem swapSource_calm (i : Nat) (slot : Int) : (swapSource i slot).Calm := by
  intro pg
  exact freeSwapSlot_context pg slot

theorem Machine.Serves.calm (serves : m.Serves va cause src) : src.Calm := by
  cases serves with
  | swap i page swapped held => exact swapSource_calm _ _
  | _ => exact fun _ => rfl

theorem Machine.Handles.context (handles : m.Handles va cause r m') :
    m'.proc.context = m.proc.context := by
  cases handles with
  | paged src r m' serves pages => exact pages.context serves.calm
  | _ => rfl

theorem Machine.Does.context (does : m.Does op r m') : m'.proc.context = m.proc.context := by
  cases does with
  | fault va cause r m' handles => exact handles.context
  | refused va => rfl
  | swapin va i r m' page swapped held pages => exact pages.context (swapSource_calm _ _)
  | idle op m' idle => exact idle.context
  | swapout va m' tracked evicts => exact evicts.context
  | evict i m' chosen evicts => exact evicts.context

end Context

/-- A table in which some user pages have other entries, all of them mappings. -/
def PageTable.Retouches (pt pt' : PageTable) : Prop := ∀ vb, vb < vaSpan →
  pt'.lookup vb = pt.lookup vb ∨ kernelPage (vb / pgsize) = false ∧
    ∀ pte, pt'.lookup vb = some pte → (pte.perm.r || pte.perm.w || pte.perm.x) = true

namespace PageTable.Retouches

variable {pt pt' pt'' : PageTable}

theorem refl (pt : PageTable) : pt.Retouches pt := fun _ _ => Or.inl rfl

theorem trans (first : pt.Retouches pt') (second : pt'.Retouches pt'') : pt.Retouches pt'' := by
  intro vb below
  rcases second vb below with same | changed
  · rcases first vb below with same' | ⟨user, mapping⟩
    · exact Or.inl (same.trans same')
    · exact Or.inr ⟨user, by rw [same]; exact mapping⟩
  · exact Or.inr changed

theorem kernel (retouched : pt.Retouches pt') (kernel : pt.Kernel) : pt'.Kernel := by
  intro va below isKernel
  rcases retouched va below with same | ⟨user, -⟩
  · rw [same]
    exact kernel va below isKernel
  · simp [user] at isKernel

theorem leaves (retouched : pt.Retouches pt') (leaves : pt.Leaves) : pt'.Leaves := by
  intro va pte below entry
  rcases retouched va below with same | ⟨-, mapping⟩
  · exact leaves va pte below (same ▸ entry)
  · exact mapping pte entry

end PageTable.Retouches

section Lookup

variable {m m' : Machine}

theorem Machine.Evicts.lookup (tracked : i < maxTrackedPages) (evicts : m.Evicts i m')
    (below : vb < vaSpan) : m'.proc.pagetable.lookup vb =
      if vb / pgsize = i then none else m.proc.pagetable.lookup vb := by
  have page : i * pgsize / pgsize = i := Nat.mul_div_cancel _ pgsize_pos
  have limit := lt_vaSpan (tracked_lt_maxva tracked)
  have released : ∀ pte, m.proc.pagetable.lookup (i * pgsize) = some pte →
      (m.proc.pagetable.setPte (i * pgsize) none).lookup vb =
        if vb / pgsize = i then none else m.proc.pagetable.lookup vb := by
    intro pte entry
    rw [lookup_setPte (lowDir_isSome_of_lookup entry) none limit below, page]
  cases evicts with
  | discard pte _ _ entry => exact released pte entry
  | forget _ _ absent =>
    -- Without a mapping there is nothing to take out.
    split
    · rename_i here
      exact (lookup_congr _ (here.trans page.symm)).trans absent
    · rfl
  | save pte slot f fs _ _ entry => exact released pte entry

theorem Machine.Evicts.retouches (tracked : i < maxTrackedPages) (evicts : m.Evicts i m') :
    m.proc.pagetable.Retouches m'.proc.pagetable := by
  intro vb below
  rw [evicts.lookup tracked below]
  split
  · rename_i here
    have user := kernelPage_tracked tracked
    rw [Nat.mul_div_cancel _ pgsize_pos, ← here] at user
    exact Or.inr ⟨user, by simp⟩
  · exact Or.inl rfl

theorem Machine.Obtains.retouches (obtains : m.Obtains frame m') :
    m.proc.pagetable.Retouches m'.proc.pagetable := by
  cases obtains with
  | free => exact .refl _
  | starved _ _ idle =>
    rw [idle.memory.2]
    exact .refl _
  | evicted i _ _ _ _ chosen evicts => exact (evicts.retouches (fifoScan_spec chosen).1 :)
  | wasted i _ _ chosen evicts => exact evicts.retouches (fifoScan_spec chosen).1

theorem Vm.Maps.user (maps : s.Maps t va pa perm) (kernel : s.pt.Kernel) :
    kernelPage (va / pgsize) = false := by
  by_contra isKernel
  have present := kernel va (lt_vaSpan maps.below) (by simpa using isKernel)
  simp [maps.absent] at present

theorem Vm.Maps.retouches (maps : s.Maps t va pa perm) (kernel : s.pt.Kernel)
    (readable : perm.r = true) : s.pt.Retouches t.pt := by
  intro vb below
  rw [maps.lookup vb below]
  split
  · rename_i here
    refine Or.inr ⟨here ▸ maps.user kernel, fun pte entry => ?_⟩
    obtain rfl := Option.some.inj entry
    simp [readable]
  · exact Or.inl rfl

theorem Machine.Brings.memory (pages : m.Brings env va src r m') (kernel : m.proc.pagetable.Kernel)
    (readable : src.perm.r = true) :
    m.kmem.Trades m'.kmem m.proc.pagetable.frames m'.proc.pagetable.frames ∧
      m.proc.pagetable.Retouches m'.proc.pagetable := by
  -- A frame in hand may be filled without touching anything else.
  have fills : ∀ (k : Kmem) (own : Multiset Nat) mem (bytes : Nat → UInt8),
      k.Trades (k.put mem bytes) (own + {mem}) (own + {mem}) := fun k own mem bytes =>
    Kmem.trades_write (Multiset.mem_add.mpr (Or.inr (Multiset.mem_singleton_self mem))) bytes
  -- A frame in hand may be given back at the end.
  have gives : ∀ (k : Kmem) (own : Multiset Nat) mem, k.Trades (k.give mem) (own + {mem}) own := by
    intro k own mem
    have given := (Kmem.trades_give k mem).frame own
    rwa [zero_add, add_comm] at given
  cases pages with
  | starved _ gets =>
    have traded := gets.obtains.trades
    rw [inHand, Option.elim_none, add_zero] at traded
    exact ⟨traded, gets.obtains.retouches⟩
  | unread m₁ mem gets => exact ⟨gets.obtains.trades.trans (gives _ _ _), gets.obtains.retouches⟩
  | refused m₁ mem bytes t gets filled grown =>
    have taken := gets.obtains.trades.trans (fills _ _ mem bytes)
    refine ⟨(taken.trans (grown.trades.frame {mem})).trans (gives _ _ _), ?_⟩
    exact gets.obtains.retouches.trans fun vb _ => Or.inl (grown.lookup vb)
  | mapped m₁ mem bytes t gets filled maps =>
    have kept := gets.obtains.retouches.kernel kernel
    have taken := gets.obtains.trades.trans (fills _ _ mem bytes)
    -- The mapping is a user mapping, so it owns the frame in hand.
    have total := maps.total
    rw [leafFrame, maps.user kept, if_neg Bool.false_ne_true, add_assoc] at total
    exact ⟨taken.trans (maps.draws.trades total),
      gets.obtains.retouches.trans (maps.retouches kept readable)⟩

theorem Machine.Serves.readable (serves : m.Serves va cause src) : src.perm.r = true := by
  cases serves <;> rfl

theorem Machine.Does.memory (does : m.Does op r m') (kernel : m.proc.pagetable.Kernel) :
    m.kmem.Trades m'.kmem m.proc.pagetable.frames m'.proc.pagetable.frames ∧
      m.proc.pagetable.Retouches m'.proc.pagetable := by
  have still : m.kmem.Trades m.kmem m.proc.pagetable.frames m.proc.pagetable.frames ∧
      m.proc.pagetable.Retouches m.proc.pagetable := ⟨.refl _ _, .refl _⟩
  cases does with
  | fault va cause r m' handles =>
    cases handles with
    | paged src r m' serves pages => exact pages.memory kernel serves.readable
    | _ => exact still
  | refused va => exact still
  | swapin va i r m' page swapped held pages => exact pages.memory kernel rfl
  | idle op m' idle =>
    obtain ⟨memory, table⟩ := idle.memory
    rw [memory, table]
    exact still
  | swapout va m' tracked evicts => exact ⟨evicts.trades tracked, evicts.retouches tracked⟩
  | evict i m' chosen evicts =>
    have tracked := (fifoScan_spec chosen).1
    exact ⟨evicts.trades tracked, evicts.retouches tracked⟩

end Lookup

theorem lookup_injective {pte pte' : Pte} (nodup : pt.frames.Nodup) (aBelow : va < vaSpan)
    (bBelow : vb < vaSpan) (aUser : kernelPage (va / pgsize) = false)
    (bUser : kernelPage (vb / pgsize) = false) (first : pt.lookup va = some pte)
    (second : pt.lookup vb = some pte') (same : pte.pa = pte'.pa) : vb / pgsize = va / pgsize := by
  by_contra apart
  have path := lowDir_isSome_of_lookup first
  -- Without the first entry the frame is still named by the second.
  have exchange := frames_setPte aBelow path none
  simp only [first, Option.elim_some, Option.elim_none, leafFrame, aUser, add_zero] at exchange
  have left : (pt.setPte va none).lookup vb = some pte' := by
    rw [lookup_setPte path none aBelow bBelow, if_neg apart, second]
  have still := mem_frames_of_lookup bBelow left bUser
  rw [← exchange] at nodup
  have disjoint := (Multiset.nodup_add.mp nodup).2.2
  exact Multiset.disjoint_left.mp disjoint (same ▸ still) (Multiset.mem_singleton_self _)

end Xv6
