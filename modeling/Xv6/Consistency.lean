import Xv6.FaultLaws

/-! The paging table of a process and its page table agree after every paging operation. -/

namespace Xv6

open Prog

def Proc.Serviced (p : Proc) (va : Nat) : Prop :=
  p.paging.segs.text.Has va ∨ p.paging.segs.data.Has va ∨ (p.paging.heapStart ≤ va ∧ va < p.sz)

structure Proc.Agrees (p : Proc) (i : Nat) : Prop where
  /-- An entry in use knows its address. -/
  named : (p.paging.pages i).state ≠ .unmapped → (p.paging.pages i).va = i * pgsize
  /-- A resident page is mapped for the user. -/
  mapped : (p.paging.pages i).state = .resident →
    ∃ pte, p.pagetable.lookup (i * pgsize) = some pte ∧ pte.perm.u = true
  /-- A serviced page that is not resident is not mapped. -/
  vacant : (p.paging.pages i).state ≠ .resident → p.Serviced (i * pgsize) →
    p.pagetable.lookup (i * pgsize) = none

def Proc.Consistent (p : Proc) : Prop := ∀ i, i < maxTrackedPages → p.Agrees i

structure Proc.ChangesAt (p p' : Proc) (i : Nat) : Prop where
  segs : p'.paging.segs = p.paging.segs
  heapStart : p'.paging.heapStart = p.paging.heapStart
  sz : p'.sz = p.sz
  pages : ∀ j, j ≠ i → (p'.paging.pages j).state = (p.paging.pages j).state ∧
    (p'.paging.pages j).va = (p.paging.pages j).va
  lookup : ∀ j, j < maxTrackedPages → j ≠ i →
    p'.pagetable.lookup (j * pgsize) = p.pagetable.lookup (j * pgsize)

variable {p p' : Proc} {cause i j va : Nat} {m m' : Machine} {frame : Option Nat} {src : Source}
  {r : Int}

theorem Proc.ChangesAt.serviced (changes : p.ChangesAt p' i) : p'.Serviced va ↔ p.Serviced va := by
  simp only [Proc.Serviced, changes.segs, changes.heapStart, changes.sz]

theorem Proc.ChangesAt.consistent (changes : p.ChangesAt p' i) (consistent : p.Consistent)
    (here : i < maxTrackedPages → p'.Agrees i) : p'.Consistent := by
  intro j tracked
  by_cases same : j = i
  · exact same ▸ here (same ▸ tracked)
  · obtain ⟨state, va⟩ := changes.pages j same
    have entry := changes.lookup j tracked same
    have before := consistent j tracked
    refine ⟨fun used => ?_, fun resident => ?_, fun absent serviced => ?_⟩
    · rw [va]
      exact before.named (state ▸ used)
    · rw [entry]
      exact before.mapped (state ▸ resident)
    · rw [entry]
      exact before.vacant (state ▸ absent) (changes.serviced.mp serviced)

theorem Machine.Idles.consistent (idle : m.Idles m') (consistent : m.proc.Consistent) :
    m'.proc.Consistent := by
  rw [idle.same]
  exact Proc.ChangesAt.consistent (p := m.proc) (i := maxTrackedPages)
    ⟨rfl, rfl, rfl, fun _ _ => ⟨rfl, rfl⟩, fun _ _ _ => rfl⟩ consistent (by simp)

theorem lookup_clear_of_ne {pt : PageTable} {pte : Pte} (iTracked : i < maxTrackedPages)
    (jTracked : j < maxTrackedPages) (other : j ≠ i) (entry : pt.lookup (i * pgsize) = some pte) :
    (pt.setPte (i * pgsize) none).lookup (j * pgsize) = pt.lookup (j * pgsize) := by
  rw [lookup_setPte (lowDir_isSome_of_lookup entry) none (lt_vaSpan (tracked_lt_maxva iTracked))
    (lt_vaSpan (tracked_lt_maxva jTracked)), if_neg]
  rwa [Nat.mul_div_cancel _ pgsize_pos, Nat.mul_div_cancel _ pgsize_pos]

theorem Machine.Evicts.consistent (tracked : i < maxTrackedPages) (evicts : m.Evicts i m')
    (consistent : m.proc.Consistent) : m'.proc.Consistent := by
  cases evicts with
  | discard pte resident clean entry managed =>
    refine Proc.ChangesAt.consistent (p := m.proc) (i := i) ⟨rfl, rfl, rfl, fun j other => ?_,
      fun j inside other => lookup_clear_of_ne tracked inside other entry⟩ consistent fun _ => ?_
    · simp [Machine.release, PagingInfo.drop, PagingInfo.setPage, other]
    · refine ⟨?_, ?_, fun _ _ => lookup_setPte_self (lowDir_isSome_of_lookup entry) none⟩ <;>
        simp [Machine.release, PagingInfo.drop, PagingInfo.setPage]
  | forget resident clean absent =>
    refine Proc.ChangesAt.consistent (p := m.proc) (i := i) ⟨rfl, rfl, rfl, fun j other => ?_,
      fun j inside other => rfl⟩ consistent fun _ => ?_
    · simp [PagingInfo.drop, PagingInfo.setPage, other]
    · refine ⟨?_, ?_, fun _ _ => absent⟩ <;> simp [PagingInfo.drop, PagingInfo.setPage]
  | save pte slot f fs resident kept entry managed chosen files stored =>
    refine Proc.ChangesAt.consistent (p := m.proc) (i := i) ⟨rfl, rfl, rfl, fun j other => ?_,
      fun j inside other => lookup_clear_of_ne tracked inside other entry⟩ consistent fun _ => ?_
    · simp [Machine.release, PagingInfo.save, PagingInfo.setPage, other]
    · -- The entry was resident before, so it already knew its address.
      have named := (consistent i tracked).named (by rw [resident]; decide)
      refine ⟨fun _ => ?_, ?_, fun _ _ => lookup_setPte_self (lowDir_isSome_of_lookup entry) none⟩
      · simpa [Machine.release, PagingInfo.save, PagingInfo.setPage] using named
      · simp [Machine.release, PagingInfo.save, PagingInfo.setPage]

theorem Machine.Obtains.consistent (obtains : m.Obtains frame m') (consistent : m.proc.Consistent) :
    m'.proc.Consistent := by
  cases obtains with
  | free => exact consistent
  | starved _ _ idle => exact idle.consistent consistent
  | evicted i _ _ _ _ chosen evicts =>
    have settled := evicts.consistent (fifoScan_spec chosen).1 consistent
    exact settled
  | wasted i _ _ chosen evicts => exact evicts.consistent (fifoScan_spec chosen).1 consistent

theorem Machine.Obtains.pages_of_not_resident (obtains : m.Obtains frame m')
    (absent : (m.proc.paging.pages j).state ≠ .resident) :
    m'.proc.paging.pages j = m.proc.paging.pages j := by
  have evicted : ∀ {i m₁}, m.Evicts i m₁ →
      m₁.proc.paging.pages j = m.proc.paging.pages j := by
    intro i m₁ evicts
    have other : ∀ {i}, (m.proc.paging.pages i).state = .resident → j ≠ i :=
      fun resident same => absent (same ▸ resident)
    cases evicts with
    | discard pte resident =>
      simp [Machine.release, PagingInfo.drop, PagingInfo.setPage, other resident]
    | forget resident => simp [PagingInfo.drop, PagingInfo.setPage, other resident]
    | save pte slot f fs resident =>
      simp [Machine.release, PagingInfo.save, PagingInfo.setPage, other resident]
  cases obtains with
  | free => rfl
  | starved _ _ idle => rw [idle.same]; rfl
  | evicted i _ _ _ _ chosen evicts =>
    have kept := evicted evicts
    exact kept
  | wasted i _ _ chosen evicts => exact evicted evicts

structure Source.Sound (src : Source) (m : Machine) (va : Nat) : Prop where
  /-- The page is mapped for the user. -/
  user : src.perm.u = true
  segs : ∀ pg, (src.prepare pg).segs = pg.segs
  heapStart : ∀ pg, (src.prepare pg).heapStart = pg.heapStart
  pages : ∀ pg j, ((src.prepare pg).pages j).state = (pg.pages j).state ∧
    ((src.prepare pg).pages j).va = (pg.pages j).va
  /-- The entry gets its address, or had it because the page was in swap. -/
  named : (∀ pi, (src.mark pi).va = va) ∨ m.Swapped va ∧ ∀ pi, (src.mark pi).va = pi.va

theorem freeSwapSlot_pages (pg : PagingInfo) (slot : Int) :
    (freeSwapSlot pg slot).pages = pg.pages ∧ (freeSwapSlot pg slot).segs = pg.segs ∧
      (freeSwapSlot pg slot).heapStart = pg.heapStart := by
  unfold freeSwapSlot
  split
  · exact ⟨rfl, rfl, rfl⟩
  · split <;> exact ⟨rfl, rfl, rfl⟩

theorem swapSource_sound (page : getPageInfo va = some i)
    (swapped : (m.proc.paging.pages i).state = .swapped) (slot : Int) :
    (swapSource i slot).Sound m va := by
  have same := fun pg => freeSwapSlot_pages pg slot
  refine ⟨rfl, fun pg => (same pg).2.1, fun pg => (same pg).2.2, fun pg j => ?_,
    Or.inr ⟨⟨i, page, swapped⟩, fun _ => rfl⟩⟩
  by_cases here : j = i <;> simp [swapSource, PagingInfo.setPage, here, (same pg).1]

theorem Machine.Serves.sound (serves : m.Serves va cause src) : src.Sound m va := by
  cases serves with
  | swap i page swapped => exact swapSource_sound page swapped _
  | text => exact ⟨rfl, fun _ => rfl, fun _ => rfl, fun _ _ => ⟨rfl, rfl⟩, Or.inl fun _ => rfl⟩
  | data => exact ⟨rfl, fun _ => rfl, fun _ => rfl, fun _ _ => ⟨rfl, rfl⟩, Or.inl fun _ => rfl⟩
  | heap => exact ⟨rfl, fun _ => rfl, fun _ => rfl, fun _ _ => ⟨rfl, rfl⟩, Or.inl fun _ => rfl⟩

theorem PagingInfo.settle_of_ne (pg : PagingInfo) (mark : PageInfo → PageInfo)
    (other : j ≠ va / pgsize) : (pg.settle va mark).pages j = pg.pages j := by
  unfold PagingInfo.settle
  cases page : getPageInfo va with
  | none => rfl
  | some i =>
    obtain ⟨rfl, -⟩ := getPageInfo_some page
    simp [PagingInfo.setPage, other]

theorem PagingInfo.settle_ranges (pg : PagingInfo) (va : Nat) (mark : PageInfo → PageInfo) :
    (pg.settle va mark).segs = pg.segs ∧ (pg.settle va mark).heapStart = pg.heapStart := by
  unfold PagingInfo.settle
  cases getPageInfo va <;> exact ⟨rfl, rfl⟩

theorem PagingInfo.settle_self (pg : PagingInfo) (mark : PageInfo → PageInfo)
    (tracked : va / pgsize < maxTrackedPages) : (pg.settle va mark).pages (va / pgsize) =
      { mark (pg.pages (va / pgsize)) with state := .resident, fifoSeq := pg.nextFifoSeq } := by
  have page : getPageInfo va = some (va / pgsize) := by
    rw [getPageInfo, pgrounddown_div, if_neg (by omega)]
  simp [PagingInfo.settle, page, PagingInfo.setPage]

theorem Machine.Brings.consistent (pages : m.Brings env va src r m') (aligned : va % pgsize = 0)
    (sound : src.Sound m va) (consistent : m.proc.Consistent) : m'.proc.Consistent := by
  have address : va / pgsize * pgsize = va := Nat.div_mul_cancel (Nat.dvd_of_mod_eq_zero aligned)
  cases pages with
  | starved _ gets => exact gets.obtains.consistent consistent
  | unread m₁ mem gets => exact (gets.obtains.consistent consistent :)
  | refused m₁ mem bytes t gets filled grown full absent =>
    -- The table only grew interior pages, and the entry kept its state.
    refine Proc.ChangesAt.consistent (p := m₁.proc) (i := maxTrackedPages)
      ⟨sound.segs _, sound.heapStart _, rfl, fun j _ => sound.pages _ j, fun j _ _ => ?_⟩
      (gets.obtains.consistent consistent) (by simp)
    exact grown.lookup _
  | mapped m₁ mem bytes t gets filled maps =>
    have before := gets.obtains.consistent consistent
    obtain ⟨segs, heapStart⟩ := (src.prepare m₁.proc.paging).settle_ranges va src.mark
    refine Proc.ChangesAt.consistent (p := m₁.proc) (i := va / pgsize)
      ⟨segs.trans (sound.segs _), heapStart.trans (sound.heapStart _), rfl, fun j other => ?_,
        fun j tracked other => ?_⟩ before fun tracked => ?_
    · simp only [PagingInfo.settle_of_ne _ _ other]
      exact sound.pages _ j
    · have page : j * pgsize / pgsize = j := Nat.mul_div_cancel _ pgsize_pos
      rw [maps.lookup _ (lt_vaSpan (tracked_lt_maxva tracked)), page, if_neg other]
    · -- The entry that settled is resident, mapped, and knows its address.
      have entry : t.pt.lookup (va / pgsize * pgsize) = some ⟨mem, src.perm⟩ := by
        rw [address, maps.lookup va (lt_vaSpan maps.below), if_pos rfl]
      refine ⟨fun _ => ?_, fun _ => ⟨_, entry, sound.user⟩, fun absent => ?_⟩
      · simp only [PagingInfo.settle_self _ _ tracked, address]
        rcases sound.named with fresh | ⟨⟨i, page, swapped⟩, kept⟩
        · exact fresh _
        · obtain ⟨rfl, -⟩ := getPageInfo_some page
          have same := gets.obtains.pages_of_not_resident (j := va / pgsize) (by rw [swapped]; decide)
          have known := (before _ tracked).named (by rw [same, swapped]; decide)
          rw [kept, (sound.pages _ _).2, known, address]
      · simp [PagingInfo.settle_self _ _ tracked] at absent

theorem Machine.Handles.consistent (handles : m.Handles va cause r m') (aligned : va % pgsize = 0)
    (consistent : m.proc.Consistent) : m'.proc.Consistent := by
  have killed : ∀ p : Proc, p.Consistent → ({ p with killed := true } : Proc).Consistent := by
    intro p agrees
    exact Proc.ChangesAt.consistent (p := p) (i := maxTrackedPages)
      ⟨rfl, rfl, rfl, fun _ _ => ⟨rfl, rfl⟩, fun _ _ _ => rfl⟩ agrees (by simp)
  cases handles with
  | high => exact consistent
  | textWrite => exact killed _ consistent
  | lost => exact consistent
  | outside => exact killed _ consistent
  | paged src _ _ serves pages => exact pages.consistent aligned serves.sound consistent

/-- Every paging operation that returns leaves the paging table and the page table in agreement. -/
theorem consistent_of_run (env : FsEnv) (op : PagingOp) (m : Machine)
    (consistent : m.proc.Consistent) :
    ∀ r m', op.run env m = .ok (r, m') → m'.proc.Consistent := by
  intro r m' ran
  have rounded : ∀ va, pgrounddown va % pgsize = 0 := fun va => Nat.mul_mod_left _ _
  cases PagingOp.run_does ran with
  | fault va cause _ _ handles => exact handles.consistent (rounded va) consistent
  | refused => exact consistent
  | swapin va i _ _ page swapped _ pages =>
    exact pages.consistent (rounded va) (swapSource_sound page swapped _) consistent
  | idle _ _ idle => exact idle.consistent consistent
  | swapout va _ tracked evicts => exact evicts.consistent tracked consistent
  | evict i _ chosen evicts => exact evicts.consistent (fifoScan_spec chosen).1 consistent

def heapProc (root : Nat) : Proc where
  state := .running
  pid := 3
  killed := false
  sz := pgsize
  pagetable := Dir.empty root
  trapframe := 0x80110000
  tf := ⟨0, 0, 0, 0, fun _ => 0⟩
  cwd := rootino
  paging := initPagingInfo

def heapMachine : Machine where
  kmem := ⟨0x80020000, 0x80007000, [0x80100000, 0x80101000, 0x80102000, 0x80104000], fun _ _ => 0⟩
  fs := ⟨fun _ => ⟨none, 0, fun _ => 0⟩, fun _ _ => none⟩
  proc := heapProc 0x80103000

def noFiles : FsEnv := ⟨none, false, false, false, 0⟩

theorem heapProc_consistent (root : Nat) : (heapProc root).Consistent := by
  intro i tracked
  refine ⟨?_, ?_, fun _ _ => rfl⟩ <;> simp [heapProc, initPagingInfo]

/-- The frames of that process are the four free pages and the root of its table. -/
theorem heapMachine_managed : heapMachine.Managed := by
  have frames : heapMachine.proc.pagetable.frames = {0x80103000} := Dir.frames_empty _ _
  have small : ∀ f ∈ [0x80100000, 0x80101000, 0x80102000, 0x80104000, 0x80103000],
      heapMachine.kmem.Manages f := by decide
  intro f member
  rw [frames] at member
  refine small f ?_
  simpa [heapMachine, Kmem.free, or_assoc] using member

/-- The first heap fault of such a process succeeds and keeps the tables in agreement. -/
theorem consistent_of_run_heapMachine : heapMachine.proc.Consistent ∧
    ∃ m', (PagingOp.fault 8 13).run noFiles heapMachine = .ok (0, m') ∧ m'.proc.Consistent :=
  ⟨heapProc_consistent _, _, rfl,
    consistent_of_run noFiles (.fault 8 13) heapMachine (heapProc_consistent _) _ _ rfl⟩

end Xv6
