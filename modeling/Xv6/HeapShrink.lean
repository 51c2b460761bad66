import Xv6.HeapRuns
import Xv6.FaultAccess

/-! What shrinking the heap leaves behind in the paging table, and what is read there later. -/

namespace Xv6

open Prog

section Slots

variable {s₀ s t : Sys} {es : List SysEvent} {e : SysEvent}

theorem Machine.Turns.slotsHeld {m m' : Machine} (turns : m.Turns e m')
    (held : m.proc.paging.SlotsHeld) : m'.proc.paging.SlotsHeld := by
  cases turns with
  | store slot va value _ same => exact same ▸ held
  | page slot env op r _ does => exact does.slotsHeld held
  | kill => exact held
  | exec slot env path argv r _ ends =>
    obtain ⟨pages, bitmap, -⟩ := ends.slots
    have same : ∀ i slot, m'.proc.paging.Claims i slot ↔ m.proc.paging.Claims i slot := by
      intro i slot
      rw [PagingInfo.Claims, PagingInfo.Claims, PagingInfo.claim, PagingInfo.claim, pages]
    refine held.shrink (fun i slot => (same i slot).mp) fun i slot claims => ?_
    rw [bitmap]
    exact (held.marked i slot ((same i slot).mp claims)).2
  | sbrk slot n _ same => exact same ▸ held
  | exit => exact held.shrink (fun _ _ claims => claims) fun i slot claims =>
      (held.marked i slot claims).2

theorem Sys.Boot.slotsHeld_of_run (boot : s₀.Boot) (run : Trace.Run Sys.Steps s₀ es s) :
    s.Pagings PagingInfo.SlotsHeld := by
  have kept : s.Accounts 0 ∧ s.Pagings PagingInfo.SlotsHeld := by
    refine run.invariant (fun s => s.Accounts 0 ∧ s.Pagings PagingInfo.SlotsHeld)
      (fun s e t before stepped => ⟨before.1.step stepped, ?_⟩)
      ⟨boot.accounts, fun i p here => by simp [boot.procs] at here⟩
    refine before.2.step before.1 stepped
      (PagingInfo.slotsHeld_of_unswapped fun i => by simp [initPagingInfo])
      (fun pg _ => PagingInfo.slotsHeld_of_unswapped fun i swapped => ?_)
      (fun i m m' _ _ turns held => turns.slotsHeld held)
    -- A child has nothing in swap.
    have none := (forkPaging_claim pg).2.2 i
    simp [PagingInfo.claim, swapped] at none
  exact kept.2

end Slots

structure Proc.HeapPage (p : Proc) (i : Nat) : Prop where
  tracked : i < maxTrackedPages
  above : p.paging.heapStart ≤ i * pgsize
  below : i * pgsize < p.sz
  notText : ¬ p.paging.segs.text.Has (i * pgsize)
  notData : ¬ p.paging.segs.data.Has (i * pgsize)

instance (p : Proc) (i : Nat) : Decidable (p.HeapPage i) :=
  decidable_of_iff (i < maxTrackedPages ∧ p.paging.heapStart ≤ i * pgsize ∧ i * pgsize < p.sz ∧
      ¬ p.paging.segs.text.Has (i * pgsize) ∧ ¬ p.paging.segs.data.Has (i * pgsize))
    ⟨fun ⟨a, b, c, d, e⟩ => ⟨a, b, c, d, e⟩, fun h => ⟨h.1, h.2, h.3, h.4, h.5⟩⟩

theorem Proc.HeapPage.user {p : Proc} {va : Nat} (heap : p.HeapPage (va / pgsize)) :
    UserAddress va := by
  have below := heap.tracked
  have user := kernelPage_tracked below
  rw [Nat.mul_div_cancel _ pgsize_pos] at user
  refine ⟨?_, user⟩
  simp only [maxTrackedPages, pgsize, maxva] at *
  omega

def PagingInfo.Free (pg : PagingInfo) (i : Nat) : Prop :=
  (pg.pages i).state = .unmapped ∧ pg.claim i = none

def Proc.GivesUp (p : Proc) (pg : PagingInfo) (newsz : Nat) : Prop :=
  ∀ i, p.HeapPage i → pgroundup newsz ≤ i * pgsize → pg.Free i

def Machine.ReadsZero (m : Machine) (p : Proc) (newsz : Nat) : Prop :=
  ∀ (before after : List UserEvent) (va : Nat) (value : UInt8) (m' : Machine),
    Trace.Run Machine.UserStep m (before ++ .load va value :: after) m' →
    Flat.lastStore before va = none → p.HeapPage (va / pgsize) →
    pgroundup newsz ≤ va / pgsize * pgsize → value = 0

section Zero

variable {m m' : Machine} {es : List UserEvent} {va : Nat}

theorem lastStore_cons_eq_none {e : UserEvent} (quiet : Flat.lastStore (e :: es) va = none) :
    Flat.lastStore es va = none ∧ ∀ value, e ≠ .store va value := by
  rw [Flat.lastStore_cons, Option.or_eq_none_iff] at quiet
  refine ⟨quiet.1, fun value stored => ?_⟩
  simp [stored, Flat.Event.stored] at quiet

theorem Machine.Keeps.zero_of_run (run : Trace.Run Machine.UserStep m es m')
    (steady : m.SteadyAt (pgrounddown va)) (user : UserAddress va)
    (outside : ¬ m.proc.paging.segs.text.Has (pgrounddown va) ∧
      ¬ m.proc.paging.segs.data.Has (pgrounddown va))
    (quiet : Flat.lastStore es va = none) (keeps : m.Keeps va 0) :
    m'.Sound ∧ m'.Keeps va 0 := by
  induction run with
  | nil => exact ⟨steady.sound, keeps⟩
  | @cons m t _ e es first _ ih =>
    obtain ⟨later, other⟩ := lastStore_cons_eq_none quiet
    have segs : t.proc.paging.segs = m.proc.paging.segs :=
      congrArg PagingContext.segs (first.context steady.sound)
    refine ih (first.steadyAt steady) (by rw [segs]; exact outside) later ?_
    -- A page that is read afresh has zeroes again.
    refine first.keeps steady user other keeps fun _ bytes loaded => ?_
    simp only [Machine.fresh, outside.1, outside.2, if_false, Option.some.injEq] at loaded
    rw [← loaded]

end Zero

section Shrink

variable {m m' : Machine} {n r : Int}

theorem Machine.Resizes.sound (resizes : m.Resizes m') (sound : m.Sound) : m'.Sound := by
  have shape := resizes.shape ⟨sound.leaves, sound.kernel, sound.size⟩
  exact ⟨resizes.trades.total ▸ sound.nodup, resizes.trades.manages sound.managed, shape.leaves,
    shape.kernel, shape.size⟩

theorem u64_add_negative {sz : Nat} (small : sz ≤ trapframeVa) (negative : n < 0)
    (fits : 0 ≤ sz + n) : u64 (sz + u64OfInt n) = (sz + n).toNat := by
  simp only [u64, u64OfInt, trapframeVa, trampolineVa, maxva, pgsize] at *
  omega

theorem resizes_of_shrink (sound : m.Sound) (negative : n < 0) (fits : 0 ≤ m.proc.sz + n) :
    ∃ m', sysSbrk n m = .ok ((m.proc.sz : Int), m') ∧ m.Resizes m' ∧
      m'.proc.sz = (m.proc.sz + n).toNat ∧ m'.proc.paging = m.proc.paging := by
  have judged : wp (sysSbrk n) (fun r m' => r = m.proc.sz ∧ m.Resizes m' ∧
      m'.proc.sz = (m.proc.sz + n).toNat) (fun _ => False) m := by
    apply wp_sysSbrk sound
    · intro positive
      omega
    · intro _ positive
      omega
    · intro m' _ size resizes
      refine ⟨rfl, resizes, ?_⟩
      rw [size, u64_add_negative sound.size negative fits]
      omega
  obtain ⟨r, m', ran, returned, resizes, size⟩ := exists_ok_of_wp judged
  exact ⟨m', returned ▸ ran, resizes, size, by rw [resizes.same]⟩

theorem Machine.Resizes.keeps_zero {va : Nat} (resizes : m.Resizes m')
    (small : m.proc.sz ≤ trapframeVa) (paging : m'.proc.paging = m.proc.paging)
    (heap : m.proc.HeapPage (va / pgsize)) (above : pgroundup m'.proc.sz ≤ va / pgsize * pgsize)
    (free : m.proc.paging.Free (va / pgsize)) : m'.Keeps va 0 := by
  have outside : m'.image va = 0 := by
    simp [Machine.image, Machine.fresh, paging, pgrounddown_eq, heap.notText, heap.notData]
  rw [← outside]
  apply Machine.keeps_image
  · -- The page lies between the new and the old size.
    have below := heap.below
    apply resizes.freed va (lt_vaSpan heap.user.below)
    · simp only [pgsize] at above ⊢
      omega
    · simp only [pgroundup, u64, trapframeVa, trampolineVa, maxva, pgsize] at small below ⊢
      omega
  · rw [Machine.swapped_iff, paging, free.1]
    simp

/-- Shrinking the heap releases it exactly when there was nothing to release. -/
theorem shrink_releases_iff {s₀ s : Sys} {es : List SysEvent} {slot : Nat} (boot : s₀.Boot)
    (run : Trace.Run Sys.Steps s₀ es s) (entered : s.enter slot = some m) (negative : n < 0)
    (fits : 0 ≤ m.proc.sz + n) :
    ∃ m', sysSbrk n m = .ok ((m.proc.sz : Int), m') ∧ m'.proc.sz = (m.proc.sz + n).toNat ∧
      (m.proc.GivesUp m'.proc.paging m'.proc.sz ∧ m'.ReadsZero m.proc m'.proc.sz ↔
        m.proc.GivesUp m.proc.paging m'.proc.sz) := by
  obtain ⟨sound, here, -⟩ := (boot.accounts_of_run run).sound entered
  obtain ⟨m', ran, resizes, size, paging⟩ := resizes_of_shrink sound negative fits
  refine ⟨m', ran, size, fun released => paging ▸ released.1, fun released => ?_⟩
  refine ⟨paging ▸ released, ?_⟩
  intro before after va value m'' later quiet heap above
  -- The load reads what the events before it left.
  obtain ⟨t, front, back⟩ := later.split
  have outside : ¬ m'.proc.paging.segs.text.Has (pgrounddown va) ∧
      ¬ m'.proc.paging.segs.data.Has (pgrounddown va) := by
    rw [paging]
    exact ⟨heap.notText, heap.notData⟩
  have steady : m'.SteadyAt (pgrounddown va) :=
    ⟨resizes.sound sound, paging ▸ boot.slotsHeld_of_run run slot m.proc here, Or.inr outside⟩
  have keeps := resizes.keeps_zero sound.size paging heap above (released _ heap above)
  obtain ⟨sound', keeps'⟩ := keeps.zero_of_run front steady heap.user outside quiet
  cases back with
  | cons first _ => exact keeps'.load sound' first.1

def storeEvict : List SysEvent :=
  growHeap ++ [.page 0 someRoom (.fault 12296 15), .store 0 12296 42, .page 0 someRoom .evict]

def regrowRead (value : UInt8) : List UserEvent :=
  [.other (.grow 4096), .other (.page someRoom (.fault 12296 13)), .load 12296 value]

def rereads (value : UInt8) (m : Machine) : Bool :=
  let m' := after (sysSbrk (-4096)) m
  decide (m.proc.HeapPage 3) && decide (4096 ≤ m.proc.sz) &&
    decide (pgroundup m'.proc.sz = 12288) &&
    (Trace.steps Machine.userStep m' (regrowRead value)).isSome

theorem run_of_rereads {value : UInt8} (computed : rereads value m = true)
    (ran : sysSbrk (-4096) m = .ok (r, m')) :
    m.proc.HeapPage 3 ∧ pgroundup m'.proc.sz ≤ 3 * pgsize ∧
      ∃ m'', Trace.Run Machine.UserStep m' (regrowRead value) m'' := by
  have reached : after (sysSbrk (-4096)) m = m' := by
    rw [after, ran]
  simp only [rereads, reached, Bool.and_eq_true, decide_eq_true_eq] at computed
  obtain ⟨⟨⟨heap, -⟩, size⟩, steps⟩ := computed
  obtain ⟨m'', steps⟩ := Option.isSome_iff_exists.mp steps
  exact ⟨heap, size.le, m'', Trace.Run.of_steps Machine.userStep_sound steps⟩

/-- A heap that was never touched is released, and reads as zeroes when it is there again. -/
theorem shrink_releases_untouched : initSys.Boot ∧ ∃ s m m' m'',
    Trace.Run Sys.Steps initSys growHeap s ∧ s.enter 0 = some m ∧ m.proc.HeapPage 3 ∧
    sysSbrk (-4096) m = .ok ((m.proc.sz : Int), m') ∧
    Trace.Run Machine.UserStep m' (regrowRead 0) m'' ∧
    (m.proc.GivesUp m'.proc.paging m'.proc.sz ∧ m'.ReadsZero m.proc m'.proc.sz ↔
      m.proc.GivesUp m.proc.paging m'.proc.sz) := by
  obtain ⟨s, m, run, entered, facts⟩ := Sys.exists_run initSys growHeap 0
    (fun m => rereads 0 m = true) (by decide +kernel)
  have size : 4096 ≤ m.proc.sz := by
    simp only [rereads, Bool.and_eq_true, decide_eq_true_eq] at facts
    exact facts.1.1.2
  obtain ⟨m', shrunk, -, released⟩ :=
    shrink_releases_iff initSys_boot run entered (n := -4096) (by decide) (by omega)
  obtain ⟨heap, -, m'', later⟩ := run_of_rereads facts shrunk
  exact ⟨initSys_boot, s, m, m', m'', run, entered, heap, shrunk, later, released⟩

/-- A heap page that was evicted comes back with its old bytes. -/
theorem shrink_keeps_swapped : initSys.Boot ∧ ∃ s m m' m'',
    Trace.Run Sys.Steps initSys storeEvict s ∧ s.enter 0 = some m ∧ m.proc.HeapPage 3 ∧
    sysSbrk (-4096) m = .ok ((m.proc.sz : Int), m') ∧ pgroundup m'.proc.sz ≤ 3 * pgsize ∧
    (m'.proc.paging.pages 3).state = .swapped ∧ m'.proc.paging.claim 3 = some 0 ∧
    Trace.Run Machine.UserStep m' (regrowRead 42) m'' := by
  obtain ⟨s, m, run, -, entered, facts, returned, swapped, claimed⟩ := initSys_boot.exists_among
    (.one 3 (by decide)) storeEvict 0 (fun m => rereads 42 m = true ∧
      valueOf (sysSbrk (-4096) m) = some (m.proc.sz : Int) ∧
      ((after (sysSbrk (-4096)) m).proc.paging.pages 3).state = .swapped ∧
      (after (sysSbrk (-4096)) m).proc.paging.claim 3 = some 0) (by decide +kernel)
  have shrunk := eq_ok_of_valueOf returned
  obtain ⟨heap, above, m'', later⟩ := run_of_rereads facts shrunk
  exact ⟨initSys_boot, s, m, _, m'', run, entered, heap, shrunk, above, swapped, claimed, later⟩

end Shrink

end Xv6
