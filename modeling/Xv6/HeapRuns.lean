import Xv6.DataRuns

/-! Heap memory behaves like a flat memory that starts as zeroes. -/

namespace Xv6

open Prog

def Machine.PlainAt (m : Machine) (i : Nat) : Prop :=
  (m.proc.pagetable.lookup (i * pgsize)).isSome ∨ (m.proc.paging.pages i).state = .swapped →
    (m.proc.paging.pages i).fromExec = false

variable {j page : Nat} {frame : Option Nat} {r : Int} {e : UserEvent} {m m' : Machine}

section Plain

variable {m m' : Machine} {i : Nat}

theorem Machine.PlainAt.congr (plain : m.PlainAt i)
    (lookup : m'.proc.pagetable.lookup (i * pgsize) = m.proc.pagetable.lookup (i * pgsize))
    (entry : m'.proc.paging.pages i = m.proc.paging.pages i) : m'.PlainAt i := by
  unfold Machine.PlainAt at plain ⊢
  rwa [lookup, entry]

theorem Machine.Evicts.plainAt (evicts : m.Evicts j m') (jTracked : j < maxTrackedPages)
    (tracked : i < maxTrackedPages) (plain : m.PlainAt i) : m'.PlainAt i := by
  have lookup := evicts.lookup jTracked (lt_vaSpan (tracked_lt_maxva tracked))
  rw [Nat.mul_div_cancel _ pgsize_pos] at lookup
  by_cases same : i = j
  · subst same
    intro used
    rcases used with mapped | swapped
    · simp [lookup] at mapped
    · -- Only a saved page is in swap, and saving clears the mark.
      cases evicts with
      | discard => simp [Machine.release, PagingInfo.drop, PagingInfo.setPage] at swapped
      | forget => simp [PagingInfo.drop, PagingInfo.setPage] at swapped
      | save => simp [Machine.release, PagingInfo.save, PagingInfo.setPage]
  · rw [if_neg same] at lookup
    apply plain.congr lookup
    cases evicts <;>
      simp [Machine.release, PagingInfo.drop, PagingInfo.save, PagingInfo.setPage, same]

theorem Machine.Obtains.plainAt (obtains : m.Obtains frame m') (tracked : i < maxTrackedPages)
    (plain : m.PlainAt i) : m'.PlainAt i := by
  cases obtains with
  | free => exact plain
  | starved _ _ idle =>
    apply plain.congr
    · rw [idle.memory.2]
    · rw [idle.same]
      rfl
  | evicted j _ _ _ _ chosen evicts =>
    exact (evicts.plainAt (fifoScan_spec chosen).1 tracked plain :)
  | wasted j _ _ chosen evicts => exact evicts.plainAt (fifoScan_spec chosen).1 tracked plain

theorem Machine.Brings.plainAt {src : Source} (pages : m.Brings env page src r m')
    (isLocal : src.Local page) (tracked : i < maxTrackedPages) (plain : m.PlainAt i)
    (own : i = page / pgsize → ∀ m₁ frame, m.Obtains frame m₁ → m₁.PlainAt i →
      ((src.prepare m₁.proc.paging).pages i).fromExec = (m₁.proc.paging.pages i).fromExec ∧
      (src.mark ((src.prepare m₁.proc.paging).pages i)).fromExec = false) : m'.PlainAt i := by
  cases pages with
  | starved _ gets => exact gets.obtains.plainAt tracked plain
  | unread m₁ mem gets => exact (gets.obtains.plainAt tracked plain :)
  | refused m₁ mem bytes t gets filled grown full absent =>
    have before := gets.obtains.plainAt tracked plain
    by_cases same : i = page / pgsize
    · -- The page is still in swap, if it was, with the mark it had.
      obtain ⟨kept, -⟩ := own same m₁ _ gets.obtains before
      intro used
      rw [kept]
      apply before
      rcases used with mapped | swapped
      · exact Or.inl (by rwa [← grown.lookup])
      · exact Or.inr (by subst same; exact (isLocal.state _).symm.trans swapped)
    · exact before.congr (grown.lookup _) (isLocal.others _ _ same)
  | mapped m₁ mem bytes t gets filled maps =>
    have before := gets.obtains.plainAt tracked plain
    by_cases same : i = page / pgsize
    · obtain ⟨-, marked⟩ := own same m₁ _ gets.obtains before
      subst same
      intro _
      rw [PagingInfo.settle_self _ _ tracked]
      exact marked
    · refine before.congr ?_ ?_
      · have lookup := maps.lookup (i * pgsize) (lt_vaSpan (tracked_lt_maxva tracked))
        rwa [Nat.mul_div_cancel _ pgsize_pos, if_neg same] at lookup
      · simp only [PagingInfo.settle_of_ne _ _ same, isLocal.others _ _ same]

theorem Machine.Obtains.plain_swap (obtains : m.Obtains frame m')
    (number : getPageInfo page = some j) (swapped : (m.proc.paging.pages j).state = .swapped)
    (slot : Int) (same : i = page / pgsize) (plain : m'.PlainAt i) :
    (((swapSource j slot).prepare m'.proc.paging).pages i).fromExec =
        (m'.proc.paging.pages i).fromExec ∧
      ((swapSource j slot).mark (((swapSource j slot).prepare m'.proc.paging).pages i)).fromExec =
        false := by
  obtain ⟨rfl, -⟩ := getPageInfo_some number
  subst same
  have kept := obtains.pages_of_not_resident (j := page / pgsize) (by rw [swapped]; decide)
  have mark := plain (Or.inr (by rw [kept, swapped]))
  have pages := (freeSwapSlot_pages m'.proc.paging slot).1
  simp [swapSource, PagingInfo.setPage, pages, mark]

theorem Machine.Does.plainAt {op : PagingOp} (does : m.Does op r m') (tracked : i < maxTrackedPages)
    (notText : ¬ m.proc.paging.segs.text.Has (i * pgsize))
    (notData : ¬ m.proc.paging.segs.data.Has (i * pgsize)) (plain : m.PlainAt i) :
    m'.PlainAt i := by
  cases does with
  | fault va cause _ _ handles =>
    cases handles with
    | paged src _ _ serves pages =>
      apply pages.plainAt serves.isLocal tracked plain
      intro same m₁ frame obtains before
      have here : pgrounddown va = i * pgsize := by rw [same, pgrounddown_div, pgrounddown_eq]
      -- A page of the heap is served from swap or with zeroes.
      cases serves with
      | swap j number swapped => exact obtains.plain_swap number swapped _ same before
      | text _ inText => exact absurd (here ▸ inText) notText
      | data _ _ inData => exact absurd (here ▸ inData) notData
      | heap => exact ⟨rfl, rfl⟩
    | high => exact plain
    | textWrite => exact plain
    | lost => exact plain
    | outside => exact plain
  | refused => exact plain
  | swapin va j _ _ number swapped positive pages =>
    apply pages.plainAt (swapSource_local number _) tracked plain
    intro same m₁ frame obtains before
    exact obtains.plain_swap number swapped _ same before
  | idle _ _ idle =>
    apply plain.congr
    · rw [idle.memory.2]
    · rw [idle.same]
      rfl
  | swapout va _ vaTracked evicts => exact evicts.plainAt vaTracked tracked plain
  | evict j _ chosen evicts => exact evicts.plainAt (fifoScan_spec chosen).1 tracked plain

theorem Machine.UserStep.plainAt (step : m.UserStep e m') (sound : m.Sound)
    (tracked : i < maxTrackedPages) (notText : ¬ m.proc.paging.segs.text.Has (i * pgsize))
    (notData : ¬ m.proc.paging.segs.data.Has (i * pgsize)) (plain : m.PlainAt i) :
    m'.PlainAt i := by
  rcases e with ⟨va, value⟩ | ⟨va, value⟩ | (⟨env, op⟩ | n)
  · obtain ⟨-, rfl⟩ := step
    exact plain
  · obtain ⟨pa, -, rfl⟩ := userStore_true step
    exact plain
  · obtain ⟨r, ran⟩ := step
    exact (PagingOp.run_does ran).plainAt tracked notText notData plain
  · obtain ⟨positive, r, ran⟩ := step
    obtain ⟨sz, -, rfl⟩ := sysSbrk_grow sound positive ran
    exact plain

end Plain

structure Machine.HeapFresh (m : Machine) : Prop where
  steady : m.Steady
  aligned : m.proc.paging.heapStart % pgsize = 0
  /-- No recorded segment reaches into the heap. -/
  ranges : ∀ page, m.proc.paging.heapStart ≤ page →
    ¬ m.proc.paging.segs.text.Has page ∧ ¬ m.proc.paging.segs.data.Has page
  vacant : ∀ i, i < maxTrackedPages → m.proc.paging.heapStart ≤ i * pgsize →
    m.proc.pagetable.lookup (i * pgsize) = none
  /-- No entry of the table claims that a heap page is in swap. -/
  unswapped : ∀ i, i < maxTrackedPages → m.proc.paging.heapStart ≤ i * pgsize →
    (m.proc.paging.pages i).state ≠ .swapped

def Machine.SparesHeap (m : Machine) : UserEvent → Prop
  | .other (.page _ op) => ¬ m.LosesSlot op
  | _ => True

def PagingContext.Heap (context : PagingContext) (va : Nat) : Prop :=
  context.heapStart ≤ va ∧ va / pgsize < maxTrackedPages

theorem Machine.RereadsAt.unmapped {va : Nat} (rereads : m.RereadsAt va e) (spares : m.SparesHeap e)
    (plain : m.PlainAt (va / pgsize)) : m.proc.pagetable.lookup va = none := by
  rcases e with _ | _ | (⟨env, op⟩ | n)
  · exact absurd rereads id
  · exact absurd rereads id
  · by_contra present
    -- A page in memory is plain, so it is never dropped.
    have mark := plain (Or.inl (by
      rw [lookup_page]
      exact Option.isSome_iff_ne_none.mpr present))
    have kept : ¬ (m.proc.paging.pages (va / pgsize)).Droppable := fun clean => by
      simp [PageInfo.Droppable, mark] at clean
    have evicted := rereads.evicted
    cases op with
    | fault vb cause =>
      rcases rereads.lost with clean | ⟨same, served⟩
      · exact kept clean
      · refine spares ⟨⟨evicted.1, ?_, ?_⟩, served⟩
        · rw [pgrounddown_div, same]
          exact evicted.2
        · rwa [pgrounddown_div, same]
    | swapin vb => exact rereads.lost.elim kept id
    | swapout vb => exact rereads.lost.elim kept id
    | evict => exact rereads.lost.elim kept id
  · exact absurd rereads id

structure Machine.HeapMirrors (m : Machine) (context : PagingContext) (mem : Nat → UInt8) : Prop where
  mirrors : m.Mirrors context.Heap mem
  same : m.proc.paging.context = context
  plain : ∀ i, i < maxTrackedPages → context.heapStart ≤ i * pgsize → m.PlainAt i

theorem Machine.HeapFresh.mirrors (fresh : m.HeapFresh) :
    m.HeapMirrors m.proc.paging.context fun _ => 0 := by
  refine ⟨⟨fresh.steady, ?_⟩, rfl, ?_⟩
  · rintro va ⟨above, tracked⟩ -
    have start : m.proc.paging.heapStart ≤ va / pgsize * pgsize := by
      have aligned := fresh.aligned
      change m.proc.paging.heapStart ≤ va at above
      simp only [pgsize] at *
      omega
    have absent := fresh.vacant _ tracked start
    rw [lookup_page] at absent
    have here : ¬ m.Swapped va := fun swapped =>
      fresh.unswapped _ tracked start (Machine.swapped_iff.mp swapped).2
    -- Outside the segments the fresh bytes are zeroes.
    obtain ⟨notText, notData⟩ := fresh.ranges (pgrounddown va) start
    have keeps := Machine.keeps_image absent here
    simpa [Machine.image, Machine.fresh, notText, notData] using keeps
  · rintro i tracked above (mapped | swapped)
    · rw [fresh.vacant i tracked above] at mapped
      simp at mapped
    · exact absurd swapped (fresh.unswapped i tracked above)

theorem Machine.HeapMirrors.step {context : PagingContext} {mem : Nat → UInt8}
    (mirrors : m.HeapMirrors context mem) (aligned : context.heapStart % pgsize = 0)
    (ranges : ∀ page, context.heapStart ≤ page →
      ¬ context.segs.text.Has page ∧ ¬ context.segs.data.Has page) (spares : m.SparesHeap e)
    (step : m.UserStep e m') :
    ∃ mem', Flat.Step context.Heap mem e mem' ∧ m'.HeapMirrors context mem' := by
  have sound := mirrors.mirrors.steady.sound
  have segs : m.proc.paging.segs = context.segs := congrArg PagingContext.segs mirrors.same
  obtain ⟨mem', flat, mirrors'⟩ := mirrors.mirrors.step step fun va here user rereads bytes loaded => by
    have start : context.heapStart ≤ va / pgsize * pgsize := by
      have above := here.1
      simp only [pgsize] at *
      omega
    have absent := rereads.unmapped spares (mirrors.plain _ here.2 start)
    exact (mirrors.mirrors.keeps va here user).fresh absent rereads.not_swapped bytes loaded
  refine ⟨mem', flat, mirrors', (step.context sound).trans mirrors.same, fun i tracked above => ?_⟩
  obtain ⟨notText, notData⟩ := ranges _ above
  exact step.plainAt sound tracked (segs ▸ notText) (segs ▸ notData) (mirrors.plain i tracked above)

/-- Loads from the heap return what was stored last, or zero. -/
theorem heap_survives_paging {m₀ m : Machine} {es before after : List UserEvent} {va : Nat}
    {value : UInt8} (start : m₀.HeapFresh)
    (run : Trace.Run (Trace.Guarded Machine.SparesHeap Machine.UserStep) m₀ es m)
    (events : es = before ++ .load va value :: after) (inHeap : m₀.proc.paging.heapStart ≤ va)
    (tracked : va / pgsize < maxTrackedPages) :
    value = (Flat.lastStore before va).getD 0 := by
  obtain ⟨mem, flat, -⟩ := run.simulation
    (fun m mem => m.HeapMirrors m₀.proc.paging.context mem)
    (fun m mem e m' mirrors guarded =>
      mirrors.step start.aligned start.ranges guarded.1 guarded.2) _ start.mirrors
  subst events
  exact Flat.load_of_run flat ⟨inHeap, tracked⟩

theorem Machine.Commits.heapFresh {env : FsEnv} {path : List UInt8} {argv : List (List UInt8)}
    {ip f guard stack : Nat} {load : SegmentLoad} {page : Nat → UInt8}
    (commits : m.Commits env path argv m' ip load f guard stack page) (sound : m.Sound)
    (held : m.proc.paging.SlotsHeld) (apart : m.fs.Apart (swapName m.proc.pid) none ip)
    (lowText : load.segs.text.stop ≤ load.top) (lowData : load.segs.data.stop ≤ load.top)
    (unswapped : ∀ i, (m.proc.paging.pages i).state ≠ .swapped) : m'.HeapFresh := by
  obtain ⟨segs, heapStart, pages⟩ := commits.ranges
  have aligned := commits.aligned
  refine ⟨commits.steady sound held apart, ?_, fun va above => ?_, fun i tracked above => ?_,
    fun i _ _ => ?_⟩
  · rw [heapStart]
    simp only [pgsize] at *
    omega
  · rw [heapStart] at above
    rw [segs]
    exact ⟨fun inText => by have inside := inText.2; omega,
      fun inData => by have inside := inData.2; omega⟩
  · rw [heapStart] at above
    -- The heap begins above the stack page.
    have page : i * pgsize / pgsize = i := Nat.mul_div_cancel _ pgsize_pos
    have beyond : load.top / pgsize + 2 ≤ i := by
      simp only [pgsize] at *
      omega
    exact commits.vacant (userAddress_tracked tracked) (by omega) (by omega)
  · rw [pages]
    exact unswapped i

theorem heapFresh_init {free : Nat} {prog : Inode} (few : free ≤ 1024)
    (allocated : prog.type ≠ none)
    (ran : kexec someFiles initPath [initPath] (initMachine free prog) = .ok (1, m))
    (low : ∀ hdr ∈ execHeader (initFs prog) 2,
      (execLoad (initFs prog) 2 hdr).segs.text.stop ≤ (execLoad (initFs prog) 2 hdr).top ∧
      (execLoad (initFs prog) 2 hdr).segs.data.stop ≤ (execLoad (initFs prog) 2 hdr).top) :
    m.HeapFresh := by
  obtain ⟨load, f, guard, stack, page, commits⟩ := commits_init few ran
  obtain ⟨hdr, header, rfl⟩ := commits.loaded
  obtain ⟨lowText, lowData⟩ := low hdr header
  exact commits.heapFresh (initMachine_sound_of_le few _)
    (PagingInfo.slotsHeld_of_unswapped (initMachine_unswapped _ _))
    (initFs_apart allocated _) lowText lowData (initMachine_unswapped _ _)

theorem initRunning_heapFresh : initRunning.HeapFresh :=
  heapFresh_init (by decide) (by simp [elfFile]) initRunning_ran (by decide)

def growStoreLoad : List UserEvent :=
  [.other (.grow 4096), .other (.page someFiles (.fault 12296 15)), .store 12296 42,
    .other (.page someFiles .evict), .other (.page someFiles (.fault 12296 13)), .load 12296 42]

theorem Machine.sparesHeap_of_free (m : Machine) (e : UserEvent)
    (free : (!m.kmem.freelist.isEmpty) = true) : m.SparesHeap e := by
  have free : m.kmem.freelist ≠ [] := by simpa using free
  rcases e with _ | _ | (⟨env, op⟩ | n)
  · exact trivial
  · exact trivial
  · intro loses
    cases op with
    | fault va cause => exact free loses.1.1
    | _ => exact loses
  · exact trivial

/-- The byte stored to the heap is the byte read back. -/
theorem heap_survives_growStoreLoad : initRunning.HeapFresh ∧
    ∃ m, Trace.Run (Trace.Guarded Machine.SparesHeap Machine.UserStep) initRunning growStoreLoad m ∧
    (42 : UInt8) = (Flat.lastStore (growStoreLoad.take 5) 12296).getD 0 := by
  have ran : (Trace.steps (Machine.amongStep (.one 3 (by decide)) fun m _ => !m.kmem.freelist.isEmpty)
      initRunning growStoreLoad).isSome := by decide +kernel
  obtain ⟨m, computed⟩ := Option.isSome_iff_exists.mp ran
  have run := Machine.run_of_among Machine.sparesHeap_of_free initRunning_heapFresh.steady
    (among_init (by decide) initRunning_ran _) computed
  exact ⟨initRunning_heapFresh, m, run,
    heap_survives_paging initRunning_heapFresh run rfl (by decide +kernel) (by decide)⟩

def splitFile : Inode where
  type := some .file
  size := 176
  data i :=
    if i < 4 then UInt8.ofNat (elfMagic / 256 ^ i % 256)
    -- Two program headers follow the file header.
    else if i = 32 then 64
    else if i = 56 then 2
    -- The data segment comes first: four bytes of the file at the fifth page.
    else if i = 64 then 1
    else if i = 68 then 6
    else if i = 81 then 0x40
    else if i = 96 then 4
    else if i = 105 then 0x10
    -- The text segment comes last: one page at address zero.
    else if i = 120 then 1
    else if i = 124 then 5
    else if i = 161 then 0x10
    else 0

def splitRunning : Machine :=
  after (kexec someFiles initPath [initPath]) (initMachine 12 splitFile)

def growLoad : List UserEvent :=
  [.other (.grow 8192), .other (.page someFiles (.fault 0x4000 13)), .load 0x4000 0x7F]

/-- A heap address that was never written reads as a byte of the program file. -/
theorem heap_reads_program : kexec someFiles initPath [initPath] (initMachine 12 splitFile) =
      .ok (1, splitRunning) ∧
    splitRunning.proc.paging.heapStart = 0x3000 ∧
    ∃ m, Trace.Run Machine.UserStep splitRunning growLoad m ∧ 0x4000 < m.proc.sz ∧
      Flat.lastStore (growLoad.take 2) 0x4000 = none := by
  have ran : (Trace.steps Machine.userStep splitRunning growLoad).any fun m =>
      0x4000 < m.proc.sz := by decide +kernel
  obtain ⟨m, computed, size⟩ := (Option.any_eq_true _ _).mp ran
  exact ⟨eq_ok_of_valueOf (by decide +kernel), by decide +kernel, m,
    Trace.Run.of_steps Machine.userStep_sound computed, of_decide_eq_true size, by decide⟩

end Xv6
