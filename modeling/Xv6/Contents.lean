import Xv6.ExecEnds
import Xv6.Slots

/-! Where the kernel keeps the bytes of a user address, and that paging does not lose them. -/

namespace Xv6

open Prog
open Function (update_self update_of_ne)

def Machine.fresh (m : Machine) (page : Nat) : Option (Nat → UInt8) :=
  -- The handler asks for the text first, then for the data; everything else starts as zeroes.
  if m.proc.paging.segs.text.Has page then
    segmentBytes m.fs m.proc.paging.execIp m.proc.paging.segs.text page
  else if m.proc.paging.segs.data.Has page then
    segmentBytes m.fs m.proc.paging.execIp m.proc.paging.segs.data page
  else some fun _ => 0

structure Machine.Steady (m : Machine) : Prop where
  sound : m.Sound
  slots : m.proc.paging.SlotsHeld
  /-- The program file is not the swap file and is not found under its name. -/
  apart : ∀ ip, m.proc.paging.execIp = some ip →
    m.fs.Apart (swapName m.proc.pid) m.proc.paging.swapfile ip

def Machine.Files (m m' : Machine) : Prop :=
  m.fs.SwapStep m'.fs (swapName m.proc.pid) m.proc.paging.swapfile m'.proc.paging.swapfile
    m.proc.paging.swapBitmap

variable {cause i mem page va : Nat} {frame : Option Nat} {src : Source} {r : Int} {op : PagingOp}
  {hand : Multiset Nat} {pte : Pte}

section Files

variable {m m' : Machine}

theorem Machine.Evicts.files (evicts : m.Evicts i m') : m.Files m' := by
  cases evicts with
  | discard => exact Fs.SwapStep.refl _ _ _ _
  | forget => exact Fs.SwapStep.refl _ _ _ _
  | save pte slot f fs resident kept entry managed chosen files => exact files

theorem Machine.Obtains.files (obtains : m.Obtains frame m') : m.Files m' := by
  cases obtains with
  | free => exact Fs.SwapStep.refl _ _ _ _
  | starved _ _ idle => exact idle.files
  | evicted i _ _ _ _ _ evicts => exact (evicts.files :)
  | wasted i _ _ _ evicts => exact evicts.files

def Source.Quiet (src : Source) : Prop := ∀ pg, (src.prepare pg).swapfile = pg.swapfile

theorem PagingInfo.settle_swapfile (pg : PagingInfo) (va : Nat) (mark : PageInfo → PageInfo) :
    (pg.settle va mark).swapfile = pg.swapfile := by
  unfold PagingInfo.settle
  cases getPageInfo va <;> rfl

theorem swapSource_quiet (i : Nat) (slot : Int) : (swapSource i slot).Quiet := by
  intro pg
  simp only [swapSource, freeSwapSlot]
  split
  · rfl
  · split <;> rfl

theorem Machine.Serves.quiet (serves : m.Serves va cause src) : src.Quiet := by
  cases serves with
  | swap i => exact swapSource_quiet i _
  | text => exact fun _ => rfl
  | data => exact fun _ => rfl
  | heap => exact fun _ => rfl

theorem Machine.Brings.files (pages : m.Brings env va src r m') (quiet : src.Quiet) : m.Files m' := by
  cases pages with
  | starved _ gets => exact gets.obtains.files
  | unread m₁ mem gets => exact (gets.obtains.files :)
  | refused m₁ mem bytes t gets =>
    have files := gets.obtains.files
    unfold Machine.Files at files ⊢
    simpa only [quiet m₁.proc.paging] using files
  | mapped m₁ mem bytes t gets =>
    have files := gets.obtains.files
    unfold Machine.Files at files ⊢
    simpa only [PagingInfo.settle_swapfile, quiet m₁.proc.paging] using files

theorem Machine.Does.files (does : m.Does op r m') : m.Files m' := by
  cases does with
  | fault va cause r m' handles =>
    cases handles with
    | paged src r m' serves pages => exact pages.files serves.quiet
    | _ => exact Fs.SwapStep.refl _ _ _ _
  | refused => exact Fs.SwapStep.refl _ _ _ _
  | swapin va i r m' page swapped held pages => exact pages.files (swapSource_quiet i _)
  | idle op m' idle => exact idle.files
  | swapout va m' tracked evicts => exact evicts.files
  | evict i m' chosen evicts => exact evicts.files

end Files

theorem segmentBytes_congr {fs fs' : Fs} {execIp : Option Nat}
    (file : ∀ ip, execIp = some ip → fs'.inodes ip = fs.inodes ip) (seg : Segment) (va : Nat) :
    segmentBytes fs' execIp seg va = segmentBytes fs execIp seg va := by
  cases execIp with
  | none => rfl
  | some ip => simp only [segmentBytes, readi, file ip rfl]

section Steady

variable {m m' : Machine}

theorem Machine.Sound.traded (sound : m.Sound)
    (traded : m.kmem.Trades m'.kmem m.proc.pagetable.frames (m'.proc.pagetable.frames + hand))
    (retouched : m.proc.pagetable.Retouches m'.proc.pagetable) (size : m'.proc.sz = m.proc.sz) :
    m'.Sound where
  nodup := by
    have total := traded.total ▸ sound.nodup
    rw [← add_assoc] at total
    exact (Multiset.nodup_add.mp total).1
  managed f member := by
    apply traded.manages sound.managed
    rw [← add_assoc]
    exact Multiset.mem_add.mpr (Or.inl member)
  leaves := retouched.leaves sound.leaves
  kernel := retouched.kernel sound.kernel
  size := size ▸ sound.size

theorem Machine.Steady.file (steady : m.Steady) (files : m.Files m') :
    ∀ ip, m.proc.paging.execIp = some ip → m'.fs.inodes ip = m.fs.inodes ip :=
  fun ip running => (files.spares ip (steady.apart ip running)).2

theorem Machine.fresh_congr_paging (paging : m'.proc.paging.context = m.proc.paging.context)
    (file : ∀ ip, m.proc.paging.execIp = some ip → m'.fs.inodes ip = m.fs.inodes ip)
    (page : Nat) : m'.fresh page = m.fresh page := by
  have segs : m'.proc.paging.segs = m.proc.paging.segs := congrArg PagingContext.segs paging
  have execIp : m'.proc.paging.execIp = m.proc.paging.execIp :=
    congrArg PagingContext.execIp paging
  simp only [Machine.fresh, segs, execIp, segmentBytes_congr file]

theorem Machine.fresh_congr (context : m'.proc.context = m.proc.context)
    (file : ∀ ip, m.proc.paging.execIp = some ip → m'.fs.inodes ip = m.fs.inodes ip)
    (page : Nat) : m'.fresh page = m.fresh page :=
  Machine.fresh_congr_paging (congrArg ProcContext.paging context) file page

theorem Machine.Steady.change (steady : m.Steady)
    (traded : m.kmem.Trades m'.kmem m.proc.pagetable.frames (m'.proc.pagetable.frames + hand))
    (retouched : m.proc.pagetable.Retouches m'.proc.pagetable)
    (context : m'.proc.context = m.proc.context) (files : m.Files m')
    (slots : m'.proc.paging.SlotsHeld) : m'.Steady where
  sound := steady.sound.traded traded retouched (congrArg ProcContext.sz context)
  slots := slots
  apart ip running := by
    have paging : m'.proc.paging.context = m.proc.paging.context :=
      congrArg ProcContext.paging context
    have execIp : m'.proc.paging.execIp = m.proc.paging.execIp :=
      congrArg PagingContext.execIp paging
    have pid : m'.proc.pid = m.proc.pid := congrArg ProcContext.pid context
    rw [pid]
    exact (files.spares ip (steady.apart ip (execIp ▸ running))).1

structure Machine.SteadyAt (m : Machine) (page : Nat) : Prop where
  sound : m.Sound
  slots : m.proc.paging.SlotsHeld
  /-- Outside the segments it does not matter which file the program is. -/
  file : (∀ ip, m.proc.paging.execIp = some ip →
      m.fs.Apart (swapName m.proc.pid) m.proc.paging.swapfile ip) ∨
    ¬ m.proc.paging.segs.text.Has page ∧ ¬ m.proc.paging.segs.data.Has page

theorem Machine.Steady.at (steady : m.Steady) (page : Nat) : m.SteadyAt page :=
  ⟨steady.sound, steady.slots, Or.inl steady.apart⟩

section At

variable {page : Nat} {hand : Multiset Nat}

theorem Machine.SteadyAt.fresh (steady : m.SteadyAt page)
    (context : m'.proc.context = m.proc.context) (files : m.Files m') :
    m'.fresh page = m.fresh page := by
  rcases steady.file with apart | ⟨notText, notData⟩
  · exact m.fresh_congr context (fun ip running => (files.spares ip (apart ip running)).2) page
  · -- Outside the segments fresh bytes are zeroes.
    have segs : m'.proc.paging.segs = m.proc.paging.segs :=
      congrArg PagingContext.segs (congrArg ProcContext.paging context)
    simp only [Machine.fresh, segs, notText, notData, if_false]

theorem Machine.SteadyAt.change (steady : m.SteadyAt page)
    (traded : m.kmem.Trades m'.kmem m.proc.pagetable.frames (m'.proc.pagetable.frames + hand))
    (retouched : m.proc.pagetable.Retouches m'.proc.pagetable)
    (context : m'.proc.context = m.proc.context) (files : m.Files m')
    (slots : m'.proc.paging.SlotsHeld) : m'.SteadyAt page := by
  have paging : m'.proc.paging.context = m.proc.paging.context :=
    congrArg ProcContext.paging context
  refine ⟨steady.sound.traded traded retouched (congrArg ProcContext.sz context), slots, ?_⟩
  rcases steady.file with apart | ⟨notText, notData⟩
  · left
    intro ip running
    have execIp : m'.proc.paging.execIp = m.proc.paging.execIp :=
      congrArg PagingContext.execIp paging
    have pid : m'.proc.pid = m.proc.pid := congrArg ProcContext.pid context
    rw [pid]
    exact (files.spares ip (apart ip (execIp ▸ running))).1
  · right
    have segs : m'.proc.paging.segs = m.proc.paging.segs := congrArg PagingContext.segs paging
    rw [segs]
    exact ⟨notText, notData⟩

theorem Machine.Evicts.steadyAt (tracked : i < maxTrackedPages) (evicts : m.Evicts i m')
    (steady : m.SteadyAt page) : m'.SteadyAt page := by
  -- An eviction leaves no frame in hand.
  have traded : m.kmem.Trades m'.kmem m.proc.pagetable.frames (m'.proc.pagetable.frames + 0) := by
    rw [add_zero]
    exact evicts.trades tracked
  exact steady.change traded (evicts.retouches tracked) evicts.context evicts.files
    (evicts.slotsHeld steady.slots)

theorem Machine.Obtains.steadyAt (obtains : m.Obtains frame m') (steady : m.SteadyAt page) :
    m'.SteadyAt page :=
  steady.change obtains.trades obtains.retouches obtains.context obtains.files
    (obtains.slotsHeld steady.slots)

theorem Machine.Does.steadyAt (does : m.Does op r m') (steady : m.SteadyAt page) :
    m'.SteadyAt page := by
  obtain ⟨traded, retouched⟩ := does.memory steady.sound.kernel
  rw [← add_zero m'.proc.pagetable.frames] at traded
  exact steady.change traded retouched does.context does.files (does.slotsHeld steady.slots)

end At

theorem Machine.Does.steady (does : m.Does op r m') (steady : m.Steady) : m'.Steady := by
  obtain ⟨traded, retouched⟩ := does.memory steady.sound.kernel
  rw [← add_zero m'.proc.pagetable.frames] at traded
  exact steady.change traded retouched does.context does.files (does.slotsHeld steady.slots)

end Steady

structure Machine.Keeps (m : Machine) (va : Nat) (byte : UInt8) : Prop where
  mapped : ∀ pte, m.proc.pagetable.lookup va = some pte → m.kmem.ram pte.pa (va % pgsize) = byte
  swapped : m.proc.pagetable.lookup va = none → ∀ slot : Nat,
    m.proc.paging.Claims (va / pgsize) slot → ∃ f page, m.proc.paging.swapfile = some f ∧
      m.fs.SlotHas f slot page ∧ page (va % pgsize) = byte
  fresh : m.proc.pagetable.lookup va = none → ¬ m.Swapped va → ∀ bytes,
    m.fresh (pgrounddown va) = some bytes → bytes (va % pgsize) = byte

structure UserAddress (va : Nat) : Prop where
  below : va < maxva
  user : kernelPage (va / pgsize) = false

section Keeps

variable {m m' : Machine} {va : Nat} {byte : UInt8}

theorem Machine.swapped_iff : m.Swapped va ↔
    va / pgsize < maxTrackedPages ∧ (m.proc.paging.pages (va / pgsize)).state = .swapped := by
  constructor
  · rintro ⟨i, page, swapped⟩
    obtain ⟨rfl, tracked⟩ := getPageInfo_some page
    exact ⟨tracked, swapped⟩
  · rintro ⟨tracked, swapped⟩
    refine ⟨va / pgsize, ?_, swapped⟩
    rw [getPageInfo, pgrounddown_div, if_neg (by omega)]

theorem Machine.Keeps.transfer (keeps : m.Keeps va byte) (steady : m.SteadyAt (pgrounddown va))
    (lookup : m'.proc.pagetable.lookup va = m.proc.pagetable.lookup va)
    (ram : ∀ pte, m.proc.pagetable.lookup va = some pte →
      m'.kmem.ram pte.pa (va % pgsize) = m.kmem.ram pte.pa (va % pgsize))
    (state : (m'.proc.paging.pages (va / pgsize)).state =
      (m.proc.paging.pages (va / pgsize)).state)
    (fewer : ∀ slot, m'.proc.paging.Claims (va / pgsize) slot →
      m.proc.paging.Claims (va / pgsize) slot)
    (context : m'.proc.context = m.proc.context) (files : m.Files m') : m'.Keeps va byte where
  mapped pte entry := by
    rw [lookup] at entry
    rw [ram pte entry]
    exact keeps.mapped pte entry
  swapped absent s claims := by
    have before := fewer s claims
    obtain ⟨f, page, isOpen, has, same⟩ := keeps.swapped (lookup ▸ absent) s before
    -- The slot is marked, so writing other slots leaves it alone.
    obtain ⟨still, kept⟩ := files.keeps f isOpen
    exact ⟨f, page, still, kept s page (steady.slots.marked _ s before).2 has, same⟩
  fresh absent here bytes loaded := by
    rw [steady.fresh context files] at loaded
    refine keeps.fresh (lookup ▸ absent) (fun swapped => here ?_) bytes loaded
    obtain ⟨tracked, before⟩ := Machine.swapped_iff.mp swapped
    exact Machine.swapped_iff.mpr ⟨tracked, state.trans before⟩

structure Machine.Spares (m m' : Machine) (va : Nat) : Prop where
  lookup : m'.proc.pagetable.lookup va = m.proc.pagetable.lookup va
  ram : ∀ pte, m.proc.pagetable.lookup va = some pte →
    m'.kmem.ram pte.pa (va % pgsize) = m.kmem.ram pte.pa (va % pgsize)
  entry : m'.proc.paging.pages (va / pgsize) = m.proc.paging.pages (va / pgsize)
  context : m'.proc.context = m.proc.context

theorem Machine.Keeps.carry (keeps : m.Keeps va byte) (steady : m.SteadyAt (pgrounddown va))
    (spares : m.Spares m' va) (files : m.Files m') : m'.Keeps va byte := by
  apply keeps.transfer steady spares.lookup spares.ram (by rw [spares.entry]) _ spares.context files
  rintro slot ⟨tracked, claims⟩
  exact ⟨tracked, by simpa only [PagingInfo.claim, spares.entry] using claims⟩

theorem Machine.Sound.frames_ne {vb : Nat} {pte' : Pte} (sound : m.Sound) (first : UserAddress va)
    (second : UserAddress vb) (pages : va / pgsize ≠ vb / pgsize)
    (entry : m.proc.pagetable.lookup va = some pte)
    (entry' : m.proc.pagetable.lookup vb = some pte') : pte.pa ≠ pte'.pa := by
  intro same
  exact pages (lookup_injective (Multiset.nodup_add.mp sound.nodup).2.1 (lt_vaSpan first.below)
    (lt_vaSpan second.below) first.user second.user entry entry' same).symm

theorem Machine.Sound.not_free (sound : m.Sound) (user : UserAddress va)
    (entry : m.proc.pagetable.lookup va = some pte) : pte.pa ∉ m.kmem.freelist := by
  intro free
  exact Multiset.disjoint_left.mp (Multiset.nodup_add.mp sound.nodup).2.2
    (Multiset.mem_coe.mpr free)
    (mem_frames_of_lookup (lt_vaSpan user.below) entry user.user)

theorem userAddress_tracked (tracked : i < maxTrackedPages) : UserAddress (i * pgsize) :=
  ⟨tracked_lt_maxva tracked, kernelPage_tracked tracked⟩

theorem lookup_page (pt : PageTable) (va : Nat) :
    pt.lookup (va / pgsize * pgsize) = pt.lookup va :=
  lookup_congr pt (Nat.mul_div_cancel _ pgsize_pos)

theorem Machine.Evicts.spares (tracked : i < maxTrackedPages) (evicts : m.Evicts i m')
    (sound : m.Sound) (user : UserAddress va) (other : va / pgsize ≠ i) : m.Spares m' va := by
  have lookup := evicts.lookup tracked (lt_vaSpan user.below)
  rw [if_neg other] at lookup
  -- The frame that was freed belonged to the evicted page alone.
  have frame : ∀ pte pte', m.proc.pagetable.lookup (i * pgsize) = some pte' →
      m.proc.pagetable.lookup va = some pte → pte.pa ≠ pte'.pa := by
    intro pte pte' entry' entry
    refine sound.frames_ne user (userAddress_tracked tracked) ?_ entry entry'
    rwa [Nat.mul_div_cancel _ pgsize_pos]
  refine ⟨lookup, fun pte entry => ?_, ?_, evicts.context⟩
  · cases evicts with
    | discard pte' _ _ entry' =>
      simp [Machine.release, Kmem.give, update_of_ne (frame pte pte' entry' entry)]
    | forget => rfl
    | save pte' _ _ _ _ _ entry' =>
      simp [Machine.release, Kmem.give, update_of_ne (frame pte pte' entry' entry)]
  · cases evicts <;>
      simp [Machine.release, PagingInfo.drop, PagingInfo.save, PagingInfo.setPage, other]

theorem Machine.Evicts.keeps_self (tracked : va / pgsize < maxTrackedPages)
    (evicts : m.Evicts (va / pgsize) m') (steady : m.SteadyAt (pgrounddown va)) (user : UserAddress va)
    (keeps : m.Keeps va byte)
    (reread : (m.proc.paging.pages (va / pgsize)).Droppable → ∀ bytes,
      m.fresh (pgrounddown va) = some bytes → bytes (va % pgsize) = byte) : m'.Keeps va byte := by
  have absent := evicts.lookup tracked (lt_vaSpan user.below)
  have unchanged := steady.fresh evicts.context evicts.files
  refine ⟨fun pte entry => by simp [absent] at entry, fun _ s claims => ?_,
    fun _ here bytes loaded => ?_⟩
  · obtain ⟨-, claims⟩ := claims
    cases evicts with
    | discard => simp [Machine.release, PagingInfo.claim, PagingInfo.drop, PagingInfo.setPage] at claims
    | forget => simp [PagingInfo.claim, PagingInfo.drop, PagingInfo.setPage] at claims
    | save pte slot f fs resident kept entry managed chosen files stored =>
      -- The slot that is claimed is the one the frame was written to.
      simp only [Machine.release, PagingInfo.claim, PagingInfo.save, PagingInfo.setPage,
        update_self, if_true, Option.some.injEq] at claims
      obtain rfl : slot = s := by omega
      rw [lookup_page] at entry
      exact ⟨f, _, rfl, stored, keeps.mapped pte entry⟩
  · rw [unchanged] at loaded
    cases evicts with
    | discard pte resident clean => exact reread clean bytes loaded
    | forget resident clean => exact reread clean bytes loaded
    | save =>
      refine absurd (Machine.swapped_iff.mpr ⟨tracked, ?_⟩) here
      simp [Machine.release, PagingInfo.save, PagingInfo.setPage]

theorem Machine.Sound.spares_take {pa : Nat} {rest : List Nat} (sound : m.Sound)
    (user : UserAddress va) (front : m.kmem.freelist = pa :: rest) :
    m.Spares { m with kmem := m.kmem.take pa rest } va := by
  refine ⟨rfl, fun pte entry => ?_, rfl, rfl⟩
  have other : pte.pa ≠ pa := fun same => sound.not_free user entry (by simp [front, same])
  simp [Kmem.take, update_of_ne other]

theorem Machine.Idles.spares (idle : m.Idles m') (va : Nat) : m.Spares m' va := by
  obtain ⟨memory, table⟩ := idle.memory
  refine ⟨by rw [table], fun _ _ => by rw [memory], ?_, idle.context⟩
  rw [idle.same]
  rfl

theorem Machine.Obtains.keeps (obtains : m.Obtains frame m') (steady : m.SteadyAt (pgrounddown va))
    (user : UserAddress va) (keeps : m.Keeps va byte)
    (reread : m.kmem.freelist = [] → m.victim = some (va / pgsize) →
      (m.proc.paging.pages (va / pgsize)).Droppable → ∀ bytes,
      m.fresh (pgrounddown va) = some bytes → bytes (va % pgsize) = byte) : m'.Keeps va byte := by
  -- The page evicted is that of the address or another one.
  have evicted : ∀ {i m₁}, m.kmem.freelist = [] → m.victim = some i → m.Evicts i m₁ →
      m₁.SteadyAt (pgrounddown va) ∧ m₁.Keeps va byte := by
    intro i m₁ full chosen evicts
    have tracked := (fifoScan_spec chosen).1
    refine ⟨evicts.steadyAt tracked steady, ?_⟩
    by_cases same : va / pgsize = i
    · subst same
      exact evicts.keeps_self tracked steady user keeps (reread full chosen)
    · exact keeps.carry steady (evicts.spares tracked steady.sound user same) evicts.files
  cases obtains with
  | free pa rest front =>
    exact keeps.carry steady (steady.sound.spares_take user front) (Fs.SwapStep.refl _ _ _ _)
  | starved _ _ idle => exact keeps.carry steady (idle.spares va) idle.files
  | evicted i m₁ pa rest full chosen evicts front =>
    obtain ⟨steady₁, keeps₁⟩ := evicted full chosen evicts
    exact keeps₁.carry steady₁ (steady₁.sound.spares_take user front) (Fs.SwapStep.refl _ _ _ _)
  | wasted i _ full chosen evicts => exact (evicted full chosen evicts).2

theorem Machine.Obtains.in_hand (obtains : m.Obtains (some mem) m') (sound : m.Sound) :
    mem ∉ m'.kmem.freelist ∧ mem ∉ m'.proc.pagetable.frames := by
  have nodup := obtains.trades.total ▸ sound.nodup
  rw [← add_assoc, inHand, Option.elim_some] at nodup
  have fresh := Multiset.disjoint_right.mp (Multiset.nodup_add.mp nodup).2.2
    (Multiset.mem_singleton_self mem)
  exact ⟨fun free => fresh (Multiset.mem_add.mpr (Or.inl (Multiset.mem_coe.mpr free))),
    fun owned => fresh (Multiset.mem_add.mpr (Or.inr owned))⟩

structure Source.Local (src : Source) (page : Nat) : Prop where
  quiet : src.Quiet
  calm : src.Calm
  others : ∀ pg j, j ≠ page / pgsize → (src.prepare pg).pages j = pg.pages j
  state : ∀ pg, ((src.prepare pg).pages (page / pgsize)).state = (pg.pages (page / pgsize)).state
  fewer : ∀ pg slot, (src.prepare pg).Claims (page / pgsize) slot → pg.Claims (page / pgsize) slot

theorem Machine.Obtains.away (obtains : m.Obtains (some mem) m') (sound : m.Sound)
    (user : UserAddress va) (entry : m'.proc.pagetable.lookup va = some pte) :
    pte.pa ≠ mem ∧ pte.pa ∉ m'.kmem.freelist := by
  have sound' : m'.Sound :=
    sound.traded obtains.trades obtains.retouches (congrArg ProcContext.sz obtains.context)
  refine ⟨fun same => (obtains.in_hand sound).2 (same ▸ ?_), sound'.not_free user entry⟩
  exact mem_frames_of_lookup (lt_vaSpan user.below) entry user.user

theorem Machine.Brings.spares (pages : m.Brings env page src r m') (isLocal : src.Local page)
    (sound : m.Sound) (user : UserAddress va) (other : va / pgsize ≠ page / pgsize) :
    ∃ frame m₁, m.Obtains frame m₁ ∧ (r = 0 → frame ≠ none) ∧ m₁.Spares m' va ∧ m'.fs = m₁.fs ∧
      m'.proc.paging.swapfile = m₁.proc.paging.swapfile := by
  -- The frame in hand is not the one of the address, so filling or freeing it is harmless.
  cases pages with
  | starved _ gets =>
    exact ⟨_, _, gets.obtains, by decide, ⟨rfl, fun _ _ => rfl, rfl, rfl⟩, rfl, rfl⟩
  | unread m₁ mem gets =>
    refine ⟨_, m₁, gets.obtains, by simp, ⟨rfl, fun pte entry => ?_, rfl, rfl⟩, rfl, rfl⟩
    simp [Kmem.give, update_of_ne (gets.obtains.away sound user entry).1]
  | refused m₁ mem bytes t gets filled grown full absent =>
    refine ⟨_, m₁, gets.obtains, by simp, ⟨grown.lookup va, fun pte entry => ?_,
      isLocal.others _ _ other, Proc.context_congr (isLocal.calm _)⟩, rfl, isLocal.quiet _⟩
    obtain ⟨different, taken⟩ := gets.obtains.away sound user entry
    -- The interior pages came from the free list.
    have drawn : t.kmem.ram pte.pa = (m₁.kmem.put mem bytes).ram pte.pa := grown.draws.ram _ taken
    simp [Kmem.give, update_of_ne different, drawn, Kmem.put]
  | mapped m₁ mem bytes t gets filled maps =>
    have lookup := maps.lookup va (lt_vaSpan user.below)
    rw [if_neg other] at lookup
    refine ⟨_, m₁, gets.obtains, by simp, ⟨lookup, fun pte entry => ?_, ?_, ?_⟩, rfl, ?_⟩
    · obtain ⟨different, taken⟩ := gets.obtains.away sound user entry
      have drawn : t.kmem.ram pte.pa = (m₁.kmem.put mem bytes).ram pte.pa := maps.draws.ram _ taken
      simp [drawn, Kmem.put, update_of_ne different]
    · simp only [PagingInfo.settle_of_ne _ _ other, isLocal.others _ _ other]
    · exact Proc.context_congr (by rw [PagingInfo.settle_context, isLocal.calm])
    · simp only [PagingInfo.settle_swapfile, isLocal.quiet m₁.proc.paging]

theorem Machine.Brings.keeps_other (pages : m.Brings env page src r m') (isLocal : src.Local page)
    (steady : m.SteadyAt (pgrounddown va)) (user : UserAddress va)
    (other : va / pgsize ≠ page / pgsize) (keeps : m.Keeps va byte)
    (reread : m.kmem.freelist = [] → m.victim = some (va / pgsize) →
      (m.proc.paging.pages (va / pgsize)).Droppable → ∀ bytes,
      m.fresh (pgrounddown va) = some bytes → bytes (va % pgsize) = byte) : m'.Keeps va byte := by
  obtain ⟨frame, m₁, obtains, -, spares, fs, swapfile⟩ :=
    pages.spares isLocal steady.sound user other
  refine (obtains.keeps steady user keeps reread).carry (obtains.steadyAt steady) spares ?_
  rw [Machine.Files, fs, swapfile]
  exact Fs.SwapStep.refl _ _ _ _

theorem Machine.Brings.keeps_self (pages : m.Brings env page src r m') (isLocal : src.Local page)
    (steady : m.SteadyAt (pgrounddown va)) (user : UserAddress va)
    (same : va / pgsize = page / pgsize) (keeps : m.Keeps va byte)
    (reread : m.kmem.freelist = [] → m.victim = some (va / pgsize) →
      (m.proc.paging.pages (va / pgsize)).Droppable → ∀ bytes,
      m.fresh (pgrounddown va) = some bytes → bytes (va % pgsize) = byte)
    (loads : ∀ mem m₁ bytes, m.Obtains (some mem) m₁ → m₁.Keeps va byte →
      m₁.proc.pagetable.lookup va = none → src.fill m₁.fs m₁.proc.paging = some bytes →
      bytes (va % pgsize) = byte) : m'.Keeps va byte := by
  have entry : ∀ pt : PageTable, pt.lookup page = pt.lookup va := fun pt =>
    lookup_congr pt same.symm
  cases pages with
  | starved _ gets => exact gets.obtains.keeps steady user keeps reread
  | unread m₁ mem gets =>
    refine (gets.obtains.keeps steady user keeps reread).carry (gets.obtains.steadyAt steady)
      ⟨rfl, fun pte entry => ?_, rfl, rfl⟩ (Fs.SwapStep.refl _ _ _ _)
    simp [Kmem.give, update_of_ne (gets.obtains.away steady.sound user entry).1]
  | refused m₁ mem bytes t gets filled grown full absent =>
    rw [entry] at absent
    -- The page stays unmapped; at most its claim to a slot is given up.
    refine (gets.obtains.keeps steady user keeps reread).transfer (gets.obtains.steadyAt steady)
      (grown.lookup va) (fun pte present => ?_) ?_ ?_ (Proc.context_congr (isLocal.calm _)) ?_
    · simp [absent] at present
    · rw [same]
      exact isLocal.state _
    · rw [same]
      exact isLocal.fewer _
    · simp only [Machine.Files, isLocal.quiet m₁.proc.paging]
      exact Fs.SwapStep.refl _ _ _ _
  | mapped m₁ mem bytes t gets filled maps =>
    have absent : m₁.proc.pagetable.lookup va = none := (entry _).symm.trans maps.absent
    have lookup := maps.lookup va (lt_vaSpan user.below)
    rw [if_pos same] at lookup
    have byteOk := loads mem m₁ bytes gets.obtains
      (gets.obtains.keeps steady user keeps reread) absent filled
    refine ⟨fun pte present => ?_, fun gone => by simp [lookup] at gone,
      fun gone => by simp [lookup] at gone⟩
    -- The entry names the frame that was filled.
    obtain rfl : (⟨mem, src.perm⟩ : Pte) = pte := Option.some.inj (lookup.symm.trans present)
    have drawn : t.kmem.ram mem = (m₁.kmem.put mem bytes).ram mem :=
      maps.draws.ram _ (gets.obtains.in_hand steady.sound).1
    simp only [drawn, Kmem.ram_put_self]
    exact byteOk

theorem swapSource_local (number : getPageInfo page = some i) (slot : Int) :
    (swapSource i slot).Local page := by
  obtain ⟨rfl, -⟩ := getPageInfo_some number
  have pages : ∀ pg, (freeSwapSlot pg slot).pages = pg.pages := fun pg =>
    (freeSwapSlot_pages pg slot).1
  refine ⟨swapSource_quiet _ _, swapSource_calm _ _, fun pg j other => ?_, fun pg => ?_,
    fun pg s claims => ?_⟩
  · simp [swapSource, PagingInfo.setPage, other, pages]
  · simp [swapSource, PagingInfo.setPage, pages]
  · -- The entry names no slot any more.
    obtain ⟨-, named⟩ := PagingInfo.claim_eq_some.mp claims.2
    simp only [swapSource, PagingInfo.setPage, update_self] at named
    omega

theorem Machine.Serves.isLocal (serves : m.Serves page cause src) : src.Local page := by
  cases serves with
  | swap i number => exact swapSource_local number _
  | text => exact ⟨fun _ => rfl, fun _ => rfl, fun _ _ _ => rfl, fun _ => rfl, fun _ _ claims => claims⟩
  | data => exact ⟨fun _ => rfl, fun _ => rfl, fun _ _ _ => rfl, fun _ => rfl, fun _ _ claims => claims⟩
  | heap => exact ⟨fun _ => rfl, fun _ => rfl, fun _ _ _ => rfl, fun _ => rfl, fun _ _ claims => claims⟩

theorem Machine.Serves.fill (serves : m.Serves page cause src) (here : ¬ m.Swapped page)
    (context : m'.proc.context = m.proc.context)
    (file : ∀ ip, m.proc.paging.execIp = some ip → m'.fs.inodes ip = m.fs.inodes ip) :
    src.fill m'.fs m'.proc.paging = m.fresh page := by
  have execIp : m'.proc.paging.execIp = m.proc.paging.execIp :=
    congrArg PagingContext.execIp (congrArg ProcContext.paging context)
  cases serves with
  | swap i number swapped => exact absurd ⟨i, number, swapped⟩ here
  | text _ inText =>
    simp only [textSource, Machine.fresh, inText, if_true, execIp, segmentBytes_congr file]
  | data _ notText inData =>
    simp only [dataSource, Machine.fresh, notText, inData, if_true, if_false, execIp,
      segmentBytes_congr file]
  | heap _ notText notData =>
    simp only [heapSource, Machine.fresh, notText, notData, if_false]

theorem Machine.SteadyAt.fill (steady : m.SteadyAt page) (serves : m.Serves page cause src)
    (here : ¬ m.Swapped page) (context : m'.proc.context = m.proc.context) (files : m.Files m') :
    src.fill m'.fs m'.proc.paging = m.fresh page := by
  rcases steady.file with apart | ⟨notText, notData⟩
  · exact serves.fill here context fun ip running => (files.spares ip (apart ip running)).2
  · cases serves with
    | swap i number swapped => exact absurd ⟨i, number, swapped⟩ here
    | text _ inText => exact absurd inText notText
    | data _ _ inData => exact absurd inData notData
    | heap => simp only [heapSource, Machine.fresh, notText, notData, if_false]

theorem Machine.Obtains.victim_of_swapped (obtains : m.Obtains frame m') (before : ¬ m.Swapped va)
    (after : m'.Swapped va) : m.kmem.freelist = [] ∧ m.victim = some (va / pgsize) := by
  obtain ⟨tracked, swapped⟩ := Machine.swapped_iff.mp after
  -- An eviction changes no other entry.
  have evicted : ∀ {i m₁}, m.Evicts i m₁ →
      (m₁.proc.paging.pages (va / pgsize)).state = .swapped → i = va / pgsize := by
    intro i m₁ evicts state
    by_contra other
    have different : va / pgsize ≠ i := Ne.symm other
    refine before (Machine.swapped_iff.mpr ⟨tracked, ?_⟩)
    cases evicts <;>
      simpa [Machine.release, PagingInfo.drop, PagingInfo.save, PagingInfo.setPage, different]
        using state
  cases obtains with
  | free => exact absurd after before
  | starved _ _ idle =>
    rw [idle.same] at swapped
    exact absurd (Machine.swapped_iff.mpr ⟨tracked, swapped⟩) before
  | evicted i _ _ _ full chosen evicts => exact ⟨full, evicted evicts swapped ▸ chosen⟩
  | wasted i _ full chosen evicts => exact ⟨full, evicted evicts swapped ▸ chosen⟩

theorem Machine.Obtains.loads_swap {bytes : Nat → UInt8} (obtains : m.Obtains (some mem) m')
    (number : getPageInfo page = some i) (same : va / pgsize = page / pgsize)
    (swapped : (m.proc.paging.pages i).state = .swapped)
    (positive : 0 ≤ (m.proc.paging.pages i).swapSlot) (steady : m.SteadyAt (pgrounddown va))
    (keeps : m'.Keeps va byte) (absent : m'.proc.pagetable.lookup va = none)
    (filled : (swapSource i (m.proc.paging.pages i).swapSlot).fill m'.fs m'.proc.paging =
      some bytes) : bytes (va % pgsize) = byte := by
  obtain ⟨rfl, tracked⟩ := getPageInfo_some number
  rw [← same] at swapped positive filled tracked
  obtain ⟨slot, named⟩ : ∃ slot : Nat, (m.proc.paging.pages (va / pgsize)).swapSlot = slot :=
    ⟨_, (Int.toNat_of_nonneg positive).symm⟩
  -- The entry is as before, because only resident pages are evicted.
  have kept := obtains.pages_of_not_resident (j := va / pgsize) (by rw [swapped]; decide)
  have mine : m'.proc.paging.Claims (va / pgsize) slot :=
    ⟨tracked, PagingInfo.claim_eq_some.mpr ⟨by rw [kept, swapped], by rw [kept, named]⟩⟩
  obtain ⟨f, stored, isOpen, has, right⟩ := keeps.swapped absent slot mine
  have inside := ((obtains.steadyAt steady).slots.marked _ slot mine).1
  obtain ⟨read, readIt, equal⟩ :
      ∃ read, readi m'.fs f (fun _ => 5) (slot * pgsize) pgsize = (pgsize, read) ∧
        ∀ k, k < pgsize → read k = stored k := readi_slot inside has
  simp only [swapSource, slotBytes, isOpen, named, Int.toNat_natCast, readIt, if_true,
    Option.some.injEq] at filled
  rw [← filled, equal _ (Nat.mod_lt _ pgsize_pos), right]

theorem Machine.Brings.keeps_swap (number : getPageInfo page = some i)
    (swapped : (m.proc.paging.pages i).state = .swapped)
    (positive : 0 ≤ (m.proc.paging.pages i).swapSlot)
    (pages : m.Brings env page (swapSource i (m.proc.paging.pages i).swapSlot) r m')
    (steady : m.SteadyAt (pgrounddown va)) (user : UserAddress va) (keeps : m.Keeps va byte)
    (reread : m.kmem.freelist = [] → m.victim = some (va / pgsize) →
      (m.proc.paging.pages (va / pgsize)).Droppable → ∀ bytes,
      m.fresh (pgrounddown va) = some bytes → bytes (va % pgsize) = byte) : m'.Keeps va byte := by
  by_cases same : va / pgsize = page / pgsize
  · apply pages.keeps_self (swapSource_local number _) steady user same keeps reread
    intro mem m₁ bytes obtains kept absent filled
    exact obtains.loads_swap number same swapped positive steady kept absent filled
  · exact pages.keeps_other (swapSource_local number _) steady user same keeps reread

theorem pgrounddown_of_same (aligned : page % pgsize = 0) (same : va / pgsize = page / pgsize) :
    pgrounddown va = page := by
  rw [pgrounddown_eq, same]
  simp only [pgsize] at *
  omega

theorem Machine.Handles.keeps (handles : m.Handles page cause r m') (aligned : page % pgsize = 0)
    (steady : m.SteadyAt (pgrounddown va)) (user : UserAddress va) (keeps : m.Keeps va byte)
    (reread : m.kmem.freelist = [] → m.victim = some (va / pgsize) →
      ((m.proc.paging.pages (va / pgsize)).Droppable ∨
        va / pgsize = page / pgsize ∧ ∃ src, m.Serves page cause src) → ∀ bytes,
      m.fresh (pgrounddown va) = some bytes → bytes (va % pgsize) = byte) : m'.Keeps va byte := by
  have killed : Machine.Keeps { m with proc := { m.proc with killed := true } } va byte :=
    keeps.carry steady ⟨rfl, fun _ _ => rfl, rfl, rfl⟩ (Fs.SwapStep.refl _ _ _ _)
  have dropped : m.kmem.freelist = [] → m.victim = some (va / pgsize) →
      (m.proc.paging.pages (va / pgsize)).Droppable → ∀ bytes,
      m.fresh (pgrounddown va) = some bytes → bytes (va % pgsize) = byte :=
    fun full chosen clean => reread full chosen (Or.inl clean)
  cases handles with
  | high => exact keeps
  | textWrite => exact killed
  | lost => exact keeps
  | outside => exact killed
  | paged src _ _ serves pages =>
    by_cases swapped : m.Swapped page
    · -- A page in swap is served from its slot.
      cases serves with
      | swap i number state positive =>
        exact pages.keeps_swap number state positive steady user keeps dropped
      | text here => exact absurd swapped here
      | data here => exact absurd swapped here
      | heap here => exact absurd swapped here
    by_cases same : va / pgsize = page / pgsize
    · apply pages.keeps_self serves.isLocal steady user same keeps dropped
      intro mem m₁ bytes obtains kept absent filled
      have start := pgrounddown_of_same aligned same
      have here : m.Serves (pgrounddown va) cause src := start.symm ▸ serves
      have before : ¬ m.Swapped (pgrounddown va) := start.symm ▸ swapped
      rw [steady.fill here before obtains.context obtains.files] at filled
      have absent' : ¬ m.Swapped va := by
        rw [Machine.swapped_iff] at swapped ⊢
        rwa [same]
      by_cases itself : m₁.Swapped va
      · -- The page was saved to swap only to be replaced by a fresh one.
        obtain ⟨full, chosen⟩ := obtains.victim_of_swapped absent' itself
        exact reread full chosen (Or.inr ⟨same, src, serves⟩) bytes filled
      · rw [← steady.fresh obtains.context obtains.files] at filled
        exact kept.fresh absent itself bytes filled
    · exact pages.keeps_other serves.isLocal steady user same keeps dropped

def Machine.WouldEvict (m : Machine) (i : Nat) : PagingOp → Prop
  | .fault _ _ | .swapin _ => m.kmem.freelist = [] ∧ m.victim = some i
  | .swapout va => va / pgsize = i
  | .evict => m.victim = some i

def Machine.ServesPage (m : Machine) (i : Nat) : PagingOp → Prop
  | .fault va cause => va / pgsize = i ∧ ∃ src, m.Serves (pgrounddown va) cause src
  | _ => False

structure Machine.Rereads (m : Machine) (op : PagingOp) (va : Nat) : Prop where
  evicted : m.WouldEvict (va / pgsize) op
  resident : (m.proc.paging.pages (va / pgsize)).state = .resident
  /-- The page is dropped, or it is the page being served. -/
  lost : (m.proc.paging.pages (va / pgsize)).Droppable ∨ m.ServesPage (va / pgsize) op

theorem Machine.victim_resident (chosen : m.victim = some i) :
    (m.proc.paging.pages i).state = .resident :=
  (fifoScan_spec chosen).2

theorem Machine.Evicts.resident (evicts : m.Evicts i m') :
    (m.proc.paging.pages i).state = .resident := by
  cases evicts <;> assumption

theorem Machine.Does.keeps (does : m.Does op r m') (steady : m.SteadyAt (pgrounddown va))
    (user : UserAddress va) (keeps : m.Keeps va byte)
    (reread : m.Rereads op va → ∀ bytes, m.fresh (pgrounddown va) = some bytes →
      bytes (va % pgsize) = byte) : m'.Keeps va byte := by
  cases does with
  | fault vb cause _ _ handles =>
    apply handles.keeps (Nat.mul_mod_left _ _) steady user keeps
    intro full chosen lost
    rw [pgrounddown_div] at lost
    exact reread ⟨⟨full, chosen⟩, Machine.victim_resident chosen, lost.imp_right fun own => ⟨own.1.symm, own.2⟩⟩
  | refused => exact keeps
  | swapin vb i _ _ number swapped positive pages =>
    apply pages.keeps_swap number swapped positive steady user keeps
    intro full chosen clean
    exact reread ⟨⟨full, chosen⟩, Machine.victim_resident chosen, Or.inl clean⟩
  | idle _ _ idle => exact keeps.carry steady (idle.spares va) idle.files
  | swapout vb _ tracked evicts =>
    by_cases same : va / pgsize = vb / pgsize
    · rw [← same] at tracked evicts
      exact evicts.keeps_self tracked steady user keeps fun clean =>
        reread ⟨same.symm, evicts.resident, Or.inl clean⟩
    · exact keeps.carry steady (evicts.spares tracked steady.sound user same) evicts.files
  | evict i _ chosen evicts =>
    have tracked := (fifoScan_spec chosen).1
    by_cases same : va / pgsize = i
    · subst same
      exact evicts.keeps_self tracked steady user keeps fun clean =>
        reread ⟨chosen, evicts.resident, Or.inl clean⟩
    · exact keeps.carry steady (evicts.spares tracked steady.sound user same) evicts.files

end Keeps

end Xv6
