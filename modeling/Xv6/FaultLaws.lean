import Xv6.Fault
import Xv6.SpaceLaws
import Xv6.SwapLaws

/-! Everything that bringing a page in and handling a fault can do. -/

namespace Xv6

open Prog

def Kmem.put (k : Kmem) (pa : Nat) (bytes : Nat → UInt8) : Kmem :=
  { k with ram := Function.update k.ram pa bytes }

@[simp] theorem wp_memset (pa : Nat) (value : UInt8) (post : Unit → Kmem → Prop)
    (abort : Panic → Prop) (k : Kmem) :
    wp (memset pa value) post abort k ↔ post () (k.put pa fun _ => value) := by
  simp only [memset, wp_modify, Kmem.put]

@[simp] theorem wp_setPage (pa : Nat) (bytes : Nat → UInt8) (post : Unit → Kmem → Prop)
    (abort : Panic → Prop) (k : Kmem) :
    wp (setPage pa bytes) post abort k ↔ post () (k.put pa bytes) := by
  simp only [setPage, wp_modify, Kmem.put]

@[simp] theorem Kmem.ram_put_self (k : Kmem) (pa : Nat) (bytes : Nat → UInt8) :
    (k.put pa bytes).ram pa = bytes := by
  simp [Kmem.put]

@[simp] theorem Kmem.put_put (k : Kmem) (pa : Nat) (first second : Nat → UInt8) :
    (k.put pa first).put pa second = k.put pa second := by
  simp [Kmem.put]

@[simp] theorem Kmem.give_put (k : Kmem) (pa : Nat) (bytes : Nat → UInt8) :
    (k.put pa bytes).give pa = k.give pa := by
  simp [Kmem.give, Kmem.put]

variable {cause i mem va : Nat} {m m' : Machine} {pte : Pte} {bytes : Nat → UInt8} {slot : Int}
  {env : FsEnv} {post : Int → Machine → Prop} {abort : Panic → Prop}

theorem kernelPage_tracked (tracked : i < maxTrackedPages) :
    kernelPage (i * pgsize / pgsize) = false := by
  rw [Nat.mul_div_cancel _ pgsize_pos]
  simp only [kernelPage, Bool.or_eq_false_iff, beq_eq_false_iff_ne, trapframeVa, trampolineVa,
    maxva, pgsize, maxTrackedPages] at *
  omega

theorem Machine.trades_release (tracked : i < maxTrackedPages)
    (entry : m.proc.pagetable.lookup (i * pgsize) = some pte) (fs : Fs) (paging : PagingInfo) :
    m.kmem.Trades (m.release i pte.pa fs paging).kmem m.proc.pagetable.frames
      (m.release i pte.pa fs paging).proc.pagetable.frames := by
  have below := lt_vaSpan (tracked_lt_maxva tracked)
  have exchange := frames_setPte below (lowDir_isSome_of_lookup entry) none
  simp only [entry, Option.elim_some, Option.elim_none, leafFrame, kernelPage_tracked tracked,
    Bool.false_eq_true, if_false, add_zero] at exchange
  have given := (Kmem.trades_give m.kmem pte.pa).frame
    (m.proc.pagetable.setPte (i * pgsize) none).frames
  rw [zero_add, add_comm, exchange] at given
  exact given

theorem Machine.Evicts.trades (tracked : i < maxTrackedPages) (evicts : m.Evicts i m') :
    m.kmem.Trades m'.kmem m.proc.pagetable.frames m'.proc.pagetable.frames := by
  cases evicts with
  | discard pte _ _ entry => exact trades_release tracked entry _ _
  | forget => exact Kmem.Trades.refl _ _
  | save pte slot f fs _ _ entry => exact trades_release tracked entry _ _

theorem Kmem.trades_obtain {k : Kmem} {pa : Nat} {rest : List Nat} (own : Multiset Nat)
    (front : k.freelist = pa :: rest) : k.Trades (k.take pa rest) own (own + {pa}) := by
  have taken := (Kmem.trades_take front fun _ => 5).frame own
  simp only [zero_add, Kmem.take, Function.update_idem] at taken
  rwa [add_comm]

def inHand (frame : Option Nat) : Multiset Nat := frame.elim 0 fun pa => {pa}

theorem Machine.Idles.memory (idle : m.Idles m') :
    m'.kmem = m.kmem ∧ m'.proc.pagetable = m.proc.pagetable := by
  rw [idle.same]
  exact ⟨rfl, rfl⟩

theorem Machine.Obtains.trades {frame : Option Nat} (obtains : m.Obtains frame m') :
    m.kmem.Trades m'.kmem m.proc.pagetable.frames (m'.proc.pagetable.frames + inHand frame) := by
  cases obtains with
  | free pa rest front => exact Kmem.trades_obtain _ front
  | starved _ full idle =>
    obtain ⟨memory, table⟩ := idle.memory
    rw [memory, table, inHand, Option.elim_none, add_zero]
    exact Kmem.Trades.refl _ _
  | evicted i m₁ pa rest full chosen evicts front =>
    exact (evicts.trades (fifoScan_spec chosen).1).trans (Kmem.trades_obtain _ front)
  | wasted i _ full chosen evicts empty =>
    rw [inHand, Option.elim_none, add_zero]
    exact evicts.trades (fifoScan_spec chosen).1

theorem Machine.Obtains.junk (obtains : m.Obtains (some mem) m') :
    m'.kmem.ram mem = fun _ => 5 := by
  cases obtains with
  | free => simp [Kmem.take]
  | evicted => simp [Kmem.take]

structure Source where
  /-- The bytes of the page, unless they cannot be read in full. -/
  fill : Fs → PagingInfo → Option (Nat → UInt8)
  perm : Perm
  /-- What is recorded before the page is mapped. -/
  prepare : PagingInfo → PagingInfo
  /-- What is recorded once the page is mapped. -/
  mark : PageInfo → PageInfo
  /-- When reading the contents goes through a file that is not open. -/
  Shut : PagingInfo → Prop := fun _ => False

def segmentBytes (fs : Fs) (execIp : Option Nat) (seg : Segment) (va : Nat) :
    Option (Nat → UInt8) :=
  match execIp with
  | none => some fun _ => 0
  | some ip =>
    let size := readSize seg (va - seg.start)
    if size = 0 then some fun _ => 0
    else
      let (n, bytes) := readi fs ip (fun _ => 0) (u64 (seg.offset + (va - seg.start))) size
      if n = size then some bytes else none

def slotBytes (fs : Fs) (swap : Option Nat) (slot : Int) : Option (Nat → UInt8) :=
  match swap with
  | none => none
  | some f =>
    let (n, bytes) := readi fs f (fun _ => 5) (slot.toNat * pgsize) pgsize
    if n = pgsize then some bytes else none

def textSource (seg : Segment) (va : Nat) : Source where
  fill fs pg := segmentBytes fs pg.execIp seg va
  perm := ⟨true, false, true, true⟩
  prepare pg := pg
  mark pi := { pi with va := va, dirty := false, fromExec := true }

def dataSource (seg : Segment) (va : Nat) : Source where
  fill fs pg := segmentBytes fs pg.execIp seg va
  perm := ⟨true, true, false, true⟩
  prepare pg := pg
  mark pi := { pi with va := va, dirty := false, fromExec := true }

def heapSource (va : Nat) : Source where
  fill _ _ := some fun _ => 0
  perm := ⟨true, true, false, true⟩
  prepare pg := pg
  mark pi := { pi with va := va, dirty := true, fromExec := false, swapSlot := -1 }

def swapSource (i : Nat) (slot : Int) : Source where
  fill fs pg := slotBytes fs pg.swapfile slot
  perm := ⟨true, true, false, true⟩
  prepare pg := (freeSwapSlot pg slot).setPage i fun pi => { pi with swapSlot := -1 }
  mark pi := { pi with dirty := false }
  Shut pg := pg.swapfile = none

def PagingInfo.settle (pg : PagingInfo) (va : Nat) (mark : PageInfo → PageInfo) : PagingInfo :=
  match getPageInfo va with
  | none => pg
  | some i =>
    { pg.setPage i fun pi => { mark pi with state := .resident, fifoSeq := pg.nextFifoSeq } with
      nextFifoSeq := pg.nextFifoSeq + 1 }

def Machine.Managed (m : Machine) : Prop :=
  ∀ f, f ∈ m.kmem.free + m.proc.pagetable.frames → m.kmem.Manages f

/-- The ways bringing a page in can end, each with what was at hand when it ended so. -/
inductive Machine.Brings (m : Machine) (env : FsEnv) (va : Nat) (src : Source) :
    Int → Machine → Prop where
  /-- No frame could be obtained. -/
  | starved (m' : Machine) (gets : m.Gets env none m') : Brings m env va src (-1) m'
  /-- The contents could not be read, and the frame was given back. -/
  | unread (m' : Machine) (mem : Nat) (gets : m.Gets env (some mem) m')
      (unread : src.fill m'.fs m'.proc.paging = none) (isOpen : ¬ src.Shut m'.proc.paging)
      (managed : m'.kmem.Manages mem) :
      Brings m env va src (-1) { m' with kmem := m'.kmem.give mem }
  /-- Too few pages were left for the table, and the frame was given back. -/
  | refused (m' : Machine) (mem : Nat) (bytes : Nat → UInt8) (t : Vm)
      (gets : m.Gets env (some mem) m') (filled : src.fill m'.fs m'.proc.paging = some bytes)
      (grown : Vm.Grows ⟨m'.kmem.put mem bytes, m'.proc.pagetable⟩ t)
      (full : t.kmem.freelist = []) (absent : m'.proc.pagetable.lookup va = none)
      (short : m'.kmem.freelist.length < m'.proc.pagetable.missing va)
      (managed : m'.kmem.Manages mem) :
      Brings m env va src (-1) { m' with
        kmem := t.kmem.give mem
        proc := { m'.proc with pagetable := t.pt, paging := src.prepare m'.proc.paging } }
  /-- The page was mapped and recorded. -/
  | mapped (m' : Machine) (mem : Nat) (bytes : Nat → UInt8) (t : Vm)
      (gets : m.Gets env (some mem) m') (filled : src.fill m'.fs m'.proc.paging = some bytes)
      (maps : Vm.Maps ⟨m'.kmem.put mem bytes, m'.proc.pagetable⟩ t va mem src.perm)
      (room : m'.proc.pagetable.missing va ≤ m'.kmem.freelist.length) :
      Brings m env va src 0 { m' with
        kmem := t.kmem
        proc := { m'.proc with
          pagetable := t.pt
          paging := (src.prepare m'.proc.paging).settle va src.mark } }

theorem missing_le_two (pt : PageTable) (va : Nat) : pt.missing va ≤ 2 := by
  unfold PageTable.missing
  split
  · exact Nat.le_refl _
  · split <;> omega

variable {src : Source}

theorem Machine.Gets.of_free {pa : Nat} {rest : List Nat} {frame : Option Nat}
    (gets : m.Gets env frame m') (front : m.kmem.freelist = pa :: rest) :
    frame = some pa ∧ m' = { m with kmem := m.kmem.take pa rest } := gets.obtains.of_free front

section

variable {env : FsEnv} {va : Nat} {post : Int → Machine → Prop} {abort : Panic → Prop} {m : Machine}

theorem Machine.Managed.entry (managed : m.Managed) (tracked : i < maxTrackedPages)
    (found : m.proc.pagetable.lookup (i * pgsize) = some pte) : m.kmem.Manages pte.pa := by
  have below := lt_vaSpan (tracked_lt_maxva tracked)
  exact managed _ (Multiset.mem_add.mpr
    (Or.inr (mem_frames_of_lookup below found (kernelPage_tracked tracked))))

theorem Machine.Managed.yields {pa : Nat} (managed : m.Managed) (yields : m.Yields env pa) :
    m.kmem.Manages pa := by
  rcases yields with ⟨rest, front⟩ | ⟨-, i, pte, chosen, found, rfl, -⟩
  · exact managed pa (Multiset.mem_add.mpr (Or.inl (by simp [Kmem.free, front])))
  · exact managed.entry (fifoScan_spec chosen).1 found

/-- What the walk took came off the free list. -/
theorem Vm.Spends.enough {s t : Vm} (spends : s.Spends t va) :
    s.pt.missing va ≤ s.kmem.freelist.length := by
  have spent := spends.free
  omega

theorem wp_faultIn {load : Nat → KernOp Bool} (src : Source) (aligned : va % pgsize = 0)
    (below : va < maxva) (plain : ∀ pg, src.prepare pg = pg ∧ ¬ src.Shut pg)
    (loads : ∀ m' mem (good : Bool → Machine → Prop), m'.kmem.ram mem = (fun _ => 0) →
      (∀ bytes, src.fill m'.fs m'.proc.paging = some bytes →
        good true { m' with kmem := m'.kmem.put mem bytes }) →
      (∀ bytes, src.fill m'.fs m'.proc.paging = none →
        good false { m' with kmem := m'.kmem.put mem bytes }) →
      wp (load mem) good abort m')
    (foreign : ∀ pa, m.Yields env pa → ¬ m.kmem.Manages pa → abort .kfree)
    (taken : ∀ mem m', m.Gets env (some mem) m' → (src.fill m'.fs m'.proc.paging).isSome →
      (m'.proc.pagetable.lookup va).isSome → abort .remap)
    (ended : ∀ r m', m.Brings env va src r m' → post r m') :
    wp (faultIn env va load src.perm src.mark) post abort m := by
  unfold faultIn
  rw [wp_bind]
  refine wp_obtainFrame foreign (fun frame m' gets => ?_)
  cases frame with
  | none =>
    rw [wp_pure]
    exact ended _ _ (.starved m' gets)
  | some mem =>
    have returnable : ¬ m'.kmem.Manages mem → abort .kfree :=
      fun bad => foreign mem gets.yields.1 fun managed => bad (gets.yields.2.mpr managed)
    simp only [wp_bind, wp_withKmem, wp_memset]
    refine loads _ mem _ (by simp) (fun bytes filled => ?_) (fun bytes failed => ?_)
    · simp only [Bool.not_true, Bool.false_eq_true, if_false, wp_bind, wp_withTable,
        Kmem.put_put]
      refine wp_mappages_count aligned (by omega) (fun _ present => ?_)
        (fun t _ grown full absent short => ?_) (fun t maps spends => ?_)
      · exact taken mem m' gets (by simp [filled]) present
      · simp only [show (-1 : Int) < 0 by decide, if_true, wp_bind, wp_withKmem]
        refine wp_kfree (fun bad => returnable ?_) (fun managed => ?_)
        · simpa only [Kmem.Manages, grown.draws.kend, Kmem.put] using bad
        · rw [wp_pure]
          simp only [Kmem.Manages, grown.draws.kend, Kmem.put] at managed
          have done := ended _ _
            (.refused m' mem bytes t gets filled grown full absent short managed)
          rwa [(plain _).1] at done
      · simp only [show ¬ (0 : Int) < 0 by decide, if_false]
        have done := ended _ _ (.mapped m' mem bytes t gets filled maps spends.enough)
        rw [(plain _).1] at done
        unfold PagingInfo.settle at done
        cases tracked : getPageInfo va with
        | none => simpa only [tracked, wp_pure] using done
        | some i => simpa [tracked, becomeResident] using done
    · simp only [Bool.not_false, if_true, wp_bind, wp_withKmem, Kmem.put_put]
      refine wp_kfree (fun bad => returnable ?_) (fun managed => ?_)
      · simpa only [Kmem.Manages, Kmem.put] using bad
      · rw [wp_pure, Kmem.give_put]
        exact ended _ _ (.unread m' mem gets failed (plain _).2 managed)

theorem wp_loadSegmentPage {seg : Segment} {good : Bool → Machine → Prop}
    (zeroed : m.kmem.ram mem = fun _ => 0)
    (loaded : ∀ bytes, segmentBytes m.fs m.proc.paging.execIp seg va = some bytes →
      good true { m with kmem := m.kmem.put mem bytes })
    (failed : ∀ bytes, segmentBytes m.fs m.proc.paging.execIp seg va = none →
      good false { m with kmem := m.kmem.put mem bytes }) :
    wp (loadSegmentPage seg va mem) good abort m := by
  have kept : m.kmem.put mem (fun _ => 0) = m.kmem := by
    rw [← zeroed]
    simp [Kmem.put]
  unfold loadSegmentPage
  unfold segmentBytes at loaded failed
  simp only [wp_bind, wp_get]
  cases program : m.proc.paging.execIp with
  | none =>
    simp only [program] at loaded
    have plain := loaded (fun _ => 0) rfl
    rw [kept] at plain
    simpa only [wp_pure] using plain
  | some ip =>
    simp only [program] at loaded failed
    by_cases empty : readSize seg (va - seg.start) = 0
    · simp only [empty] at loaded
      have plain := loaded (fun _ => 0) rfl
      rw [kept] at plain
      simpa only [empty, if_true, wp_pure] using plain
    · simp only [empty] at loaded failed
      simp only [empty, zeroed]
      cases read : readi m.fs ip (fun _ => 0) (u64 (seg.offset + (va - seg.start)))
          (readSize seg (va - seg.start)) with
      | mk n bytes =>
        simp only [read] at loaded failed
        by_cases whole : n = readSize seg (va - seg.start)
        · simpa [whole] using loaded bytes (by simp [whole])
        · simpa [whole] using failed bytes (by simp [whole])

theorem wp_readSlot_count (page : getPageInfo va = some i) (aligned : va % pgsize = 0)
    (below : va < maxva) (junk : m.kmem.ram mem = fun _ => 5)
    (closed : m.proc.paging.swapfile = none → abort .nullSwapfile)
    (foreign : ¬ m.kmem.Manages mem → abort .kfree)
    (taken : ((swapSource i slot).fill m.fs m.proc.paging).isSome →
      (m.proc.pagetable.lookup va).isSome → abort .remap)
    (unread : (swapSource i slot).fill m.fs m.proc.paging = none → m.proc.paging.swapfile ≠ none →
      m.kmem.Manages mem → post (-1) { m with kmem := m.kmem.give mem })
    (refused : ∀ bytes t, (swapSource i slot).fill m.fs m.proc.paging = some bytes →
      Vm.Grows ⟨m.kmem.put mem bytes, m.proc.pagetable⟩ t → t.kmem.freelist = [] →
      m.proc.pagetable.lookup va = none → m.kmem.Manages mem →
      m.kmem.freelist.length < m.proc.pagetable.missing va →
      post (-1) { m with
        kmem := t.kmem.give mem
        proc := { m.proc with
          pagetable := t.pt
          paging := (swapSource i slot).prepare m.proc.paging } })
    (mapped : ∀ bytes t, (swapSource i slot).fill m.fs m.proc.paging = some bytes →
      Vm.Maps ⟨m.kmem.put mem bytes, m.proc.pagetable⟩ t va mem (swapSource i slot).perm →
      m.proc.pagetable.missing va ≤ m.kmem.freelist.length →
      post 0 { m with
        kmem := t.kmem
        proc := { m.proc with
          pagetable := t.pt
          paging := ((swapSource i slot).prepare m.proc.paging).settle va
            (swapSource i slot).mark } }) : wp (readSlot i va slot mem) post abort m := by
  unfold readSlot
  simp only [wp_bind, wp_get]
  cases swap : m.proc.paging.swapfile with
  | none =>
    simp only [wp_throw]
    exact closed swap
  | some f =>
    rw [junk]
    cases read : readi m.fs f (fun _ => 5) (slot.toNat * pgsize) pgsize with
    | mk n bytes =>
      have filled : (swapSource i slot).fill m.fs m.proc.paging =
          if n = pgsize then some bytes else none := by
        simp only [swapSource, slotBytes, swap, read]
      simp only [read, wp_bind, wp_withKmem, wp_setPage]
      by_cases whole : n = pgsize
      · rw [if_pos whole] at filled
        simp only [whole, ne_eq, not_true_eq_false, if_false, wp_bind, wp_modifyPaging,
          wp_modifyPage, wp_withTable]
        refine wp_mappages_count aligned (by omega)
          (fun _ present => taken (by simp [filled]) present)
          (fun t _ grown full absent short => ?_) (fun t maps spends => ?_)
        · simp only [show (-1 : Int) < 0 by decide, if_true, wp_bind, wp_withKmem]
          refine wp_kfree (fun bad => foreign ?_) (fun managed => ?_)
          · simpa only [Kmem.Manages, grown.draws.kend, Kmem.put] using bad
          · rw [wp_pure]
            refine refused bytes t filled grown full absent ?_ short
            simpa only [Kmem.Manages, grown.draws.kend, Kmem.put] using managed
        · simp only [show ¬ (0 : Int) < 0 by decide]
          have done := mapped bytes t filled maps spends.enough
          unfold PagingInfo.settle at done
          simpa [page, becomeResident, swapSource] using done
      · rw [if_neg whole] at filled
        simp only [ne_eq, whole, not_false_eq_true, if_true, wp_bind, wp_withKmem]
        refine wp_kfree (fun bad => foreign ?_) (fun managed => ?_)
        · simpa only [Kmem.Manages, Kmem.put] using bad
        · rw [wp_pure, Kmem.give_put]
          exact unread filled (by simp [swap]) managed

theorem wp_readSlot {start : Machine} (page : getPageInfo va = some i)
    (aligned : va % pgsize = 0) (below : va < maxva) (gets : start.Gets env (some mem) m)
    (closed : m.proc.paging.swapfile = none → abort .nullSwapfile)
    (foreign : ∀ pa, start.Yields env pa → ¬ start.kmem.Manages pa → abort .kfree)
    (taken : ((swapSource i slot).fill m.fs m.proc.paging).isSome →
      (m.proc.pagetable.lookup va).isSome → abort .remap)
    (ended : ∀ r m', start.Brings env va (swapSource i slot) r m' → post r m') :
    wp (readSlot i va slot mem) post abort m := by
  refine wp_readSlot_count page aligned below gets.obtains.junk closed
    (fun bad => foreign mem gets.yields.1 fun managed => bad (gets.yields.2.mpr managed)) taken
    (fun unread isOpen managed => ended _ _ (.unread m mem gets unread isOpen managed))
    (fun bytes t filled grown full absent managed short => ?_) (fun bytes t filled maps room => ?_)
  · exact ended _ _ (.refused m mem bytes t gets filled grown full absent short managed)
  · exact ended _ _ (.mapped m mem bytes t gets filled maps room)

theorem getPageInfo_some (page : getPageInfo va = some i) :
    i = va / pgsize ∧ i < maxTrackedPages := by
  unfold getPageInfo at page
  rw [pgrounddown_div] at page
  split at page
  · simp at page
  · obtain rfl : va / pgsize = i := by simpa using page
    exact ⟨rfl, by omega⟩

theorem wp_swapinPage
    (refused : (∀ i, getPageInfo (pgrounddown va) = some i →
      (m.proc.paging.pages i).state = .swapped → (m.proc.paging.pages i).swapSlot < 0) →
      post (-1) m)
    (foreign : ∀ i pa, getPageInfo (pgrounddown va) = some i →
      (m.proc.paging.pages i).state = .swapped → 0 ≤ (m.proc.paging.pages i).swapSlot →
      m.Yields env pa → ¬ m.kmem.Manages pa → abort .kfree)
    (closed : ∀ i mem m', getPageInfo (pgrounddown va) = some i →
      (m.proc.paging.pages i).state = .swapped → 0 ≤ (m.proc.paging.pages i).swapSlot →
      m.Gets env (some mem) m' → m'.proc.paging.swapfile = none → abort .nullSwapfile)
    (taken : ∀ i mem m', getPageInfo (pgrounddown va) = some i →
      (m.proc.paging.pages i).state = .swapped → 0 ≤ (m.proc.paging.pages i).swapSlot →
      m.Gets env (some mem) m' →
      ((swapSource i (m.proc.paging.pages i).swapSlot).fill m'.fs m'.proc.paging).isSome →
      (m'.proc.pagetable.lookup (pgrounddown va)).isSome → abort .remap)
    (ended : ∀ i r m', getPageInfo (pgrounddown va) = some i →
      (m.proc.paging.pages i).state = .swapped → 0 ≤ (m.proc.paging.pages i).swapSlot →
      m.Brings env (pgrounddown va) (swapSource i (m.proc.paging.pages i).swapSlot) r m' →
      post r m') :
    wp (swapinPage env va) post abort m := by
  unfold swapinPage
  cases page : getPageInfo (pgrounddown va) with
  | none =>
    simp only [page, wp_pure]
    exact refused fun i found => by simp [page] at found
  | some i =>
    obtain ⟨number, tracked⟩ := getPageInfo_some page
    have aligned : pgrounddown va % pgsize = 0 := Nat.mul_mod_left _ _
    have below : pgrounddown va < maxva := by
      have limit := tracked_lt_maxva tracked
      rwa [number, pgrounddown_div, ← pgrounddown_eq] at limit
    simp only [page, wp_bind, wp_get]
    by_cases ready : (m.proc.paging.pages i).state ≠ .swapped ∨ (m.proc.paging.pages i).swapSlot < 0
    · simp only [ready, if_true, wp_pure]
      refine refused fun j found swapped => ?_
      obtain rfl : i = j := by simpa [page] using found
      exact ready.resolve_left fun other => other swapped
    · simp only [ready, if_false, wp_bind]
      have swapped : (m.proc.paging.pages i).state = .swapped := by
        by_contra other
        exact ready (Or.inl other)
      have held : 0 ≤ (m.proc.paging.pages i).swapSlot := by omega
      have foreign := fun pa => foreign i pa page swapped held
      refine wp_obtainFrame foreign (fun frame m' gets => ?_)
      cases frame with
      | none =>
        rw [wp_pure]
        exact ended i _ _ page swapped held (.starved m' gets)
      | some mem =>
        exact wp_readSlot page aligned below gets (closed i mem m' page swapped held gets) foreign
          (taken i mem m' page swapped held gets) (fun r m'' => ended i r m'' page swapped held)

end

def Machine.Swapped (m : Machine) (va : Nat) : Prop :=
  ∃ i, getPageInfo va = some i ∧ (m.proc.paging.pages i).state = .swapped

/-- Where the handler takes a page from. -/
inductive Machine.Serves (m : Machine) (va cause : Nat) : Source → Prop where
  /-- A page in swap is read back, whatever range it lies in. -/
  | swap (i : Nat) (page : getPageInfo va = some i)
      (swapped : (m.proc.paging.pages i).state = .swapped)
      (held : 0 ≤ (m.proc.paging.pages i).swapSlot)
      (readable : ¬ (m.proc.paging.segs.text.Has va ∧ cause = 15)) :
      Serves m va cause (swapSource i (m.proc.paging.pages i).swapSlot)
  /-- Text is loaded from the program file. -/
  | text (here : ¬ m.Swapped va) (inText : m.proc.paging.segs.text.Has va)
      (readable : cause ≠ 15) : Serves m va cause (textSource m.proc.paging.segs.text va)
  /-- Data outside the text is loaded from the program file. -/
  | data (here : ¬ m.Swapped va) (notText : ¬ m.proc.paging.segs.text.Has va)
      (inData : m.proc.paging.segs.data.Has va) :
      Serves m va cause (dataSource m.proc.paging.segs.data va)
  /-- Heap outside both segments starts as zeroes. -/
  | heap (here : ¬ m.Swapped va) (notText : ¬ m.proc.paging.segs.text.Has va)
      (notData : ¬ m.proc.paging.segs.data.Has va)
      (inHeap : m.proc.paging.heapStart ≤ va ∧ va < m.proc.sz) :
      Serves m va cause (heapSource va)

/-- The ways handling a fault can end. -/
inductive Machine.Handles (m : Machine) (va cause : Nat) : Int → Machine → Prop where
  /-- The address is no user address. -/
  | high (above : maxva ≤ va) : Handles m va cause (-1) m
  /-- A write to text kills the process. -/
  | textWrite (inText : m.proc.paging.segs.text.Has va) (write : cause = 15) :
      Handles m va cause 0 { m with proc := { m.proc with killed := true } }
  /-- The page is in swap but its slot is unknown. -/
  | lost (i : Nat) (page : getPageInfo va = some i)
      (swapped : (m.proc.paging.pages i).state = .swapped)
      (gone : (m.proc.paging.pages i).swapSlot < 0) : Handles m va cause (-1) m
  /-- The address is in no range, which kills the process. -/
  | outside (here : ¬ m.Swapped va) (notText : ¬ m.proc.paging.segs.text.Has va)
      (notData : ¬ m.proc.paging.segs.data.Has va)
      (notHeap : ¬ (m.proc.paging.heapStart ≤ va ∧ va < m.proc.sz)) :
      Handles m va cause (-1) { m with proc := { m.proc with killed := true } }
  /-- The page was looked for in its source. -/
  | paged {env : FsEnv} (src : Source) (r : Int) (m' : Machine) (serves : m.Serves va cause src)
      (pages : m.Brings env va src r m') (below : va < maxva) : Handles m va cause r m'

theorem Machine.Serves.unique {src' : Source} (serves : m.Serves va cause src)
    (serves' : m.Serves va cause src') : src = src' := by
  cases serves with
  | swap i page swapped held readable =>
    cases serves' with
    | swap j page' => obtain rfl : i = j := by simpa [page] using page'
                      rfl
    | text here => exact absurd ⟨i, page, swapped⟩ here
    | data here => exact absurd ⟨i, page, swapped⟩ here
    | heap here => exact absurd ⟨i, page, swapped⟩ here
  | text here inText readable =>
    cases serves' with
    | swap j page swapped => exact absurd ⟨j, page, swapped⟩ here
    | text => rfl
    | data _ notText => exact absurd inText notText
    | heap _ notText => exact absurd inText notText
  | data here notText inData =>
    cases serves' with
    | swap j page swapped => exact absurd ⟨j, page, swapped⟩ here
    | text _ inText => exact absurd inText notText
    | data => rfl
    | heap _ _ notData => exact absurd inData notData
  | heap here notText notData inHeap =>
    cases serves' with
    | swap j page swapped => exact absurd ⟨j, page, swapped⟩ here
    | text _ inText => exact absurd inText notText
    | data _ _ inData => exact absurd inData notData
    | heap => rfl

theorem Machine.Serves.of_lost (serves : m.Serves va cause src) (page : getPageInfo va = some i)
    (swapped : (m.proc.paging.pages i).state = .swapped)
    (gone : (m.proc.paging.pages i).swapSlot < 0) : False := by
  cases serves with
  | swap j found _ held =>
    obtain rfl : i = j := by simpa [page] using found
    omega
  | text here => exact here ⟨i, page, swapped⟩
  | data here => exact here ⟨i, page, swapped⟩
  | heap here => exact here ⟨i, page, swapped⟩

theorem Machine.Serves.of_outside (serves : m.Serves va cause src) (here : ¬ m.Swapped va)
    (notText : ¬ m.proc.paging.segs.text.Has va) (notData : ¬ m.proc.paging.segs.data.Has va)
    (notHeap : ¬ (m.proc.paging.heapStart ≤ va ∧ va < m.proc.sz)) : False := by
  cases serves with
  | swap i page swapped => exact here ⟨i, page, swapped⟩
  | text _ inText => exact notText inText
  | data _ _ inData => exact notData inData
  | heap _ _ _ inHeap => exact notHeap inHeap

theorem Machine.Serves.of_textWrite (serves : m.Serves va cause src) :
    ¬ (m.proc.paging.segs.text.Has va ∧ cause = 15) := by
  rintro ⟨inText, write⟩
  cases serves with
  | swap _ _ _ _ readable => exact readable ⟨inText, write⟩
  | text _ _ readable => exact readable write
  | data _ notText => exact notText inText
  | heap _ notText => exact notText inText

theorem Machine.Serves.not_shut {fs : Fs} {pg : PagingInfo} (serves : m.Serves va cause src)
    (filled : src.fill fs pg ≠ none) : ¬ src.Shut pg := by
  intro shut
  cases serves with
  | swap =>
    have none : pg.swapfile = none := shut
    simp [swapSource, slotBytes, none] at filled
  | text | data | heap => exact shut

/-- Handling a fault ends at once where no source serves the page, and else as its source does. -/
theorem wp_handlePageFault
    (foreign : ∀ src pa, pgrounddown va < maxva → m.Serves (pgrounddown va) cause src →
      m.Yields env pa → ¬ m.kmem.Manages pa → abort .kfree)
    (closed : ∀ src mem m', pgrounddown va < maxva → m.Serves (pgrounddown va) cause src →
      m.Gets env (some mem) m' → src.Shut m'.proc.paging → abort .nullSwapfile)
    (taken : ∀ src mem m', pgrounddown va < maxva → m.Serves (pgrounddown va) cause src →
      m.Gets env (some mem) m' → (src.fill m'.fs m'.proc.paging).isSome →
      (m'.proc.pagetable.lookup (pgrounddown va)).isSome → abort .remap)
    (unserved : ∀ r m', m.Handles (pgrounddown va) cause r m' →
      (pgrounddown va < maxva → ∀ src, ¬ m.Serves (pgrounddown va) cause src) → post r m')
    (served : ∀ src r m', pgrounddown va < maxva → m.Serves (pgrounddown va) cause src →
      m.Brings env (pgrounddown va) src r m' → post r m') :
    wp (handlePageFault env va cause) post abort m := by
  have aligned : pgrounddown va % pgsize = 0 := Nat.mul_mod_left _ _
  have again : pgrounddown (pgrounddown va) = pgrounddown va := by
    rw [pgrounddown_eq, pgrounddown_div, ← pgrounddown_eq]
  unfold handlePageFault
  generalize pgrounddown va = page at *
  by_cases above : maxva ≤ page
  · simp only [above, if_true, wp_pure]
    exact unserved _ _ (.high above) fun below => absurd above (by omega)
  have below : page < maxva := by omega
  simp only [above, if_false, wp_bind, wp_get]
  by_cases write : m.proc.paging.segs.text.Has page ∧ cause = 15
  · simp only [write, and_self, if_true, wp_bind, wp_setkilled, wp_pure]
    exact unserved _ _ (.textWrite write.1 write.2) fun _ src serves => serves.of_textWrite write
  simp only [write, if_false]
  have swappedIff : ((getPageInfo page).any fun i =>
      decide ((m.proc.paging.pages i).state = .swapped)) = true ↔ m.Swapped page := by
    unfold Machine.Swapped
    cases getPageInfo page <;> simp
  by_cases swapped : m.Swapped page
  · -- A swapped page goes to the swap code, which looks the entry up again.
    rw [if_pos (swappedIff.mpr swapped)]
    refine wp_swapinPage ?_ ?_ ?_ ?_ ?_
    · intro lost
      obtain ⟨i, found, state⟩ := swapped
      rw [again] at lost
      exact unserved _ _ (.lost i found state (lost i found state)) fun _ src serves =>
        serves.of_lost found state (lost i found state)
    · rw [again]
      intro i pa found state held
      exact foreign _ pa below (.swap i found state held write)
    · rw [again]
      intro i mem m' found state held gets shut
      exact closed _ mem m' below (.swap i found state held write) gets shut
    · rw [again]
      intro i mem m' found state held gets filled present
      exact taken _ mem m' below (.swap i found state held write) gets filled present
    · rw [again]
      intro i r m' found state held brings
      exact served _ r m' below (.swap i found state held write) brings
  rw [if_neg (fun any => swapped (swappedIff.mp any))]
  by_cases inText : m.proc.paging.segs.text.Has page
  · have serves : m.Serves page cause (textSource m.proc.paging.segs.text page) :=
      .text swapped inText fun store => write ⟨inText, store⟩
    simp only [inText, if_true, faultText, wp_bind, wp_get]
    exact wp_faultIn (textSource m.proc.paging.segs.text page) aligned below
      (fun _ => ⟨rfl, id⟩) (fun m' mem good => wp_loadSegmentPage) (fun pa => foreign _ pa below serves)
      (fun mem m' gets => taken _ mem m' below serves gets)
      (fun r m' brings => served _ r m' below serves brings)
  simp only [inText, if_false]
  by_cases inData : m.proc.paging.segs.data.Has page
  · have serves : m.Serves page cause (dataSource m.proc.paging.segs.data page) :=
      .data swapped inText inData
    simp only [inData, if_true, faultData, wp_bind, wp_get]
    exact wp_faultIn (dataSource m.proc.paging.segs.data page) aligned below
      (fun _ => ⟨rfl, id⟩) (fun m' mem good => wp_loadSegmentPage) (fun pa => foreign _ pa below serves)
      (fun mem m' gets => taken _ mem m' below serves gets)
      (fun r m' brings => served _ r m' below serves brings)
  simp only [inData, if_false, wp_bind, wp_get]
  by_cases inHeap : m.proc.paging.heapStart ≤ page ∧ page < m.proc.sz
  · have serves : m.Serves page cause (heapSource page) := .heap swapped inText inData inHeap
    simp only [inHeap, and_self, if_true]
    refine wp_faultIn (heapSource page) aligned below (fun _ => ⟨rfl, id⟩)
      (fun m' mem good zeroed loaded _ => ?_) (fun pa => foreign _ pa below serves)
      (fun mem m' gets => taken _ mem m' below serves gets)
      (fun r m' brings => served _ r m' below serves brings)
    have kept : m'.kmem.put mem (fun _ => 0) = m'.kmem := by
      rw [← zeroed]
      simp [Kmem.put]
    have plain := loaded (fun _ => 0) rfl
    rw [kept] at plain
    simpa only [wp_pure] using plain
  · simp only [inHeap, if_false, wp_bind, wp_setkilled, wp_pure]
    exact unserved _ _ (.outside swapped inText inData inHeap) fun _ src serves =>
      serves.of_outside swapped inText inData inHeap

theorem Machine.Serves.handled (serves : m.Serves (pgrounddown va) cause src) (env : FsEnv)
    (managed : m.Managed) (room : 3 ≤ m.kmem.freelist.length) (below : pgrounddown va < maxva)
    (absent : m.proc.pagetable.lookup (pgrounddown va) = none)
    (filled : src.fill m.fs m.proc.paging = some bytes) :
    ∃ m', handlePageFault env va cause m = .ok (0, m') ∧ m.Brings env (pgrounddown va) src 0 m' ∧
      m'.proc.killed = m.proc.killed := by
  obtain ⟨pa, rest, front⟩ : ∃ pa rest, m.kmem.freelist = pa :: rest := by
    cases free : m.kmem.freelist with
    | nil => simp [free] at room
    | cons pa rest => exact ⟨pa, rest, rfl⟩
  have judged : wp (handlePageFault env va cause) (fun r m' => r = 0 ∧
      m.Brings env (pgrounddown va) src 0 m' ∧ m'.proc.killed = m.proc.killed) (fun _ => False) m := by
    refine wp_handlePageFault (fun _ pa _ _ yields foreign => foreign (managed.yields yields))
      ?closed ?taken ?unserved ?served
    case closed =>
      -- A page that was read from swap has an open swap file.
      intro src' mem m₁ _ serves' gets shut
      obtain rfl := serves'.unique serves
      obtain ⟨-, rfl⟩ := gets.of_free front
      have readable : src'.fill m.fs m.proc.paging ≠ none := by simp [filled]
      exact serves.not_shut readable shut
    case taken =>
      intro _ mem m₁ _ _ gets _ present
      obtain ⟨-, rfl⟩ := gets.of_free front
      simp [absent] at present
    case unserved => exact fun r m' _ none => absurd serves (none below src)
    case served =>
      intro src' r m' _ serves' brings
      obtain rfl := serves'.unique serves
      have pages := brings
      cases brings with
      | starved _ gets => exact absurd (gets.of_free front).1 (by simp)
      | unread m₁ mem gets unread =>
        obtain ⟨-, rfl⟩ := gets.of_free front
        simp [filled] at unread
      | refused m₁ mem bytes' t gets _ _ _ _ short =>
        -- The frame came off a list that still had two pages for the table.
        obtain ⟨-, rfl⟩ := gets.of_free front
        have bound := missing_le_two m.proc.pagetable (pgrounddown va)
        simp only [front, List.length_cons, Kmem.take] at room short
        omega
      | mapped m₁ mem bytes' t gets =>
        obtain ⟨-, rfl⟩ := gets.of_free front
        exact ⟨rfl, pages, rfl⟩
  obtain ⟨r, m', ran, rfl, pages, killed⟩ := exists_ok_of_wp judged
  exact ⟨m', ran, pages, killed⟩

theorem handlePageFault_heap
    (heap : m.proc.paging.heapStart ≤ pgrounddown va ∧ pgrounddown va < m.proc.sz)
    (below : pgrounddown va < maxva) (notText : ¬ m.proc.paging.segs.text.Has (pgrounddown va))
    (notData : ¬ m.proc.paging.segs.data.Has (pgrounddown va))
    (unswapped : ¬ (getPageInfo (pgrounddown va)).any fun i =>
      (m.proc.paging.pages i).state = .swapped) :
    handlePageFault env va cause m = faultHeap env (pgrounddown va) m := by
  simp only [handlePageFault, Nat.not_le.mpr below, notText, notData, unswapped, if_false,
    false_and, bind, StateT.bind, get, getThe, MonadStateOf.get, StateT.get, pure, Except.pure,
    Except.bind, Bool.false_eq_true]
  rw [if_pos heap]

theorem faultHeap_congr {m₁ : Machine} (same : obtainFrame env m = obtainFrame env m₁) :
    faultHeap env va m = faultHeap env va m₁ := by
  simp only [faultHeap, faultIn, bind, StateT.bind, same]

/-- The paging operations of the kernel. -/
inductive PagingOp where
  | fault (va cause : Nat)
  | swapin (va : Nat)
  | swapout (va : Nat)
  | evict
  deriving DecidableEq, Repr

def PagingOp.run (env : FsEnv) : PagingOp → KernOp Int
  | .fault va cause => handlePageFault env va cause
  | .swapin va => swapinPage env va
  | .swapout va => swapoutPage env va
  | .evict => evictPageFifo env

/-- The ways a paging operation can end. -/
inductive Machine.Does (m : Machine) : PagingOp → Int → Machine → Prop where
  | fault (va cause : Nat) (r : Int) (m' : Machine) (handles : m.Handles (pgrounddown va) cause r m') :
      Does m (.fault va cause) r m'
  | refused (va : Nat) : Does m (.swapin va) (-1) m
  | swapin {env : FsEnv} (va i : Nat) (r : Int) (m' : Machine) (page : getPageInfo (pgrounddown va) = some i)
      (swapped : (m.proc.paging.pages i).state = .swapped)
      (held : 0 ≤ (m.proc.paging.pages i).swapSlot)
      (pages : m.Brings env (pgrounddown va) (swapSource i (m.proc.paging.pages i).swapSlot) r m') :
      Does m (.swapin va) r m'
  | idle (op : PagingOp) (m' : Machine) (idle : m.Idles m') : Does m op (-1) m'
  | swapout (va : Nat) (m' : Machine) (tracked : va / pgsize < maxTrackedPages)
      (evicts : m.Evicts (va / pgsize) m') : Does m (.swapout va) 0 m'
  | evict (i : Nat) (m' : Machine) (chosen : m.victim = some i) (evicts : m.Evicts i m') :
      Does m .evict 0 m'

theorem PagingOp.run_does {op : PagingOp} {r : Int} (ran : op.run env m = .ok (r, m')) :
    m.Does op r m' := by
  have judged : wp (op.run env) (fun r m' => m.Does op r m') (fun _ => True) m := ?_
  · exact wp_ok judged ran
  cases op with
  | fault va cause =>
    exact wp_handlePageFault (fun _ _ _ _ _ _ => trivial) (fun _ _ _ _ _ _ _ => trivial)
      (fun _ _ _ _ _ _ _ _ => trivial) (fun r m' handles _ => .fault va cause r m' handles)
      fun src r m' below serves brings =>
        .fault va cause r m' (.paged src r m' serves brings below)
  | swapin va =>
    exact wp_swapinPage (fun _ => .refused va) (fun _ _ _ _ _ _ _ => trivial)
      (fun _ _ _ _ _ _ _ _ => trivial) (fun _ _ _ _ _ _ _ _ _ => trivial)
      fun i r m' page swapped held brings =>
        .swapin va i r m' page swapped held brings
  | swapout va =>
    exact wp_swapoutPage (fun _ _ _ => trivial) (fun m' idle => .idle _ m' idle)
      fun m' tracked evicts => .swapout va m' tracked evicts
  | evict =>
    exact wp_evictPageFifo (fun _ _ _ _ _ => trivial) (fun m' idle => .idle _ m' idle)
      fun i m' chosen evicts => .evict i m' chosen evicts

end Xv6
