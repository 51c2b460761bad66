import Xv6.PagingMemory

/-! Swap slots are accounted for exactly, except when a fault evicts the page it is about. -/

namespace Xv6

open Prog
open Function (update update_self update_of_ne)

def setBits (bitmap : Nat → Bool) : Finset Nat := {s ∈ Finset.range maxSwapPages | bitmap s}

def PagingInfo.claim (pg : PagingInfo) (i : Nat) : Option Int :=
  if (pg.pages i).state = .swapped then some (pg.pages i).swapSlot else none

structure PagingInfo.SlotsExact (pg : PagingInfo) : Prop where
  /-- The counter counts the bits. -/
  used : pg.swapUsed = (setBits pg.swapBitmap).card
  /-- No two pages hold one slot. -/
  distinct : ∀ i j, i < maxTrackedPages → j < maxTrackedPages → ∀ slot, 0 ≤ slot →
    pg.claim i = some slot → pg.claim j = some slot → i = j
  /-- A bit is set exactly when a page holds its slot. -/
  held : ∀ s, s < maxSwapPages →
    (pg.swapBitmap s = true ↔ ∃ i, i < maxTrackedPages ∧ pg.claim i = some (s : Int))

variable {pg : PagingInfo} {cause i slot va : Nat} {m m' : Machine} {frame : Option Nat}
  {src : Source} {r : Int} {op : PagingOp}

theorem PagingInfo.claim_eq_some {slot : Int} :
    pg.claim i = some slot ↔ (pg.pages i).state = .swapped ∧ (pg.pages i).swapSlot = slot := by
  unfold PagingInfo.claim
  split <;> simp [*]

theorem setBits_mark {bitmap : Nat → Bool} (inside : slot < maxSwapPages) :
    setBits (update bitmap slot true) = insert slot (setBits bitmap) := by
  ext s
  by_cases same : s = slot
  · simp [setBits, same, inside]
  · simp [setBits, same]

theorem setBits_clear (bitmap : Nat → Bool) (slot : Nat) :
    setBits (update bitmap slot false) = (setBits bitmap).erase slot := by
  ext s
  by_cases same : s = slot
  · simp [setBits, same]
  · simp [setBits, same]

def PagingInfo.Counted (pg : PagingInfo) : Prop := pg.swapUsed = (setBits pg.swapBitmap).card

theorem PagingInfo.Counted.take {pg' : PagingInfo} (counted : pg.Counted)
    (inside : slot < maxSwapPages) (clear : pg.swapBitmap slot = false)
    (bitmap : pg'.swapBitmap = update pg.swapBitmap slot true)
    (count : pg'.swapUsed = pg.swapUsed + 1) : pg'.Counted := by
  have absent : slot ∉ setBits pg.swapBitmap := by simp [setBits, clear]
  unfold PagingInfo.Counted at counted ⊢
  rw [count, bitmap, setBits_mark inside, Finset.card_insert_of_notMem absent, counted]
  rfl

theorem PagingInfo.Counted.free (counted : pg.Counted) (slot : Int) :
    (freeSwapSlot pg slot).Counted := by
  unfold freeSwapSlot
  split
  · exact counted
  split
  · rename_i set
    have member : slot.toNat ∈ setBits pg.swapBitmap := by
      simp only [setBits, Finset.mem_filter, Finset.mem_range, set, and_true]
      omega
    have positive := Finset.card_pos.mpr ⟨_, member⟩
    unfold PagingInfo.Counted at counted ⊢
    simp only [setBits_clear, Finset.card_erase_of_mem member]
    omega
  · exact counted

namespace PagingInfo.SlotsExact

variable {pg pg' : PagingInfo}

theorem congr (exact : pg.SlotsExact) (bitmap : pg'.swapBitmap = pg.swapBitmap)
    (count : pg'.swapUsed = pg.swapUsed)
    (claims : ∀ i, i < maxTrackedPages → ∀ slot, 0 ≤ slot →
      (pg'.claim i = some slot ↔ pg.claim i = some slot)) : pg'.SlotsExact := by
  refine ⟨by rw [count, bitmap, exact.used], fun i j iIn jIn slot positive iHas jHas => ?_,
    fun s inside => ?_⟩
  · rw [claims i iIn slot positive] at iHas
    rw [claims j jIn slot positive] at jHas
    exact exact.distinct i j iIn jIn slot positive iHas jHas
  · rw [bitmap, exact.held s inside]
    exact exists_congr fun i => and_congr_right fun iIn => (claims i iIn s (by omega)).symm

theorem take (exact : pg.SlotsExact) (iIn : i < maxTrackedPages) (inside : slot < maxSwapPages)
    (clear : pg.swapBitmap slot = false) (free : pg.claim i = none)
    (bitmap : pg'.swapBitmap = update pg.swapBitmap slot true)
    (count : pg'.swapUsed = pg.swapUsed + 1) (mine : pg'.claim i = some (slot : Int))
    (others : ∀ j, j < maxTrackedPages → j ≠ i → pg'.claim j = pg.claim j) : pg'.SlotsExact := by
  -- Nobody held the slot, because its bit was clear.
  have unclaimed : ∀ j, j < maxTrackedPages → pg.claim j ≠ some (slot : Int) := by
    intro j jIn claims
    have set := (exact.held slot inside).mpr ⟨j, jIn, claims⟩
    simp [clear] at set
  have counted : pg'.Counted := PagingInfo.Counted.take exact.used inside clear bitmap count
  refine ⟨counted, fun a b aIn bIn t positive aHas bHas => ?_, fun s sIn => ?_⟩
  · by_cases aHere : a = i <;> by_cases bHere : b = i
    · rw [aHere, bHere]
    · rw [aHere, mine] at aHas
      rw [others b bIn bHere] at bHas
      exact absurd (bHas.trans aHas.symm) (unclaimed b bIn)
    · rw [bHere, mine] at bHas
      rw [others a aIn aHere] at aHas
      exact absurd (aHas.trans bHas.symm) (unclaimed a aIn)
    · rw [others a aIn aHere] at aHas
      rw [others b bIn bHere] at bHas
      exact exact.distinct a b aIn bIn t positive aHas bHas
  · rw [bitmap]
    by_cases same : s = slot
    · rw [same, update_self]
      exact ⟨fun _ => ⟨i, iIn, mine⟩, fun _ => rfl⟩
    · rw [update_of_ne same, exact.held s sIn]
      constructor
      · rintro ⟨j, jIn, claims⟩
        have other : j ≠ i := fun equal => by simp [equal, free] at claims
        exact ⟨j, jIn, by rw [others j jIn other, claims]⟩
      · rintro ⟨j, jIn, claims⟩
        by_cases here : j = i
        · rw [here, mine] at claims
          exact absurd (by simpa using claims.symm) same
        · exact ⟨j, jIn, by rw [← others j jIn here, claims]⟩

theorem release {slot : Int} (exact : pg.SlotsExact) (iIn : i < maxTrackedPages)
    (positive : 0 ≤ slot) (had : pg.claim i = some slot)
    (bitmap : pg'.swapBitmap = (freeSwapSlot pg slot).swapBitmap)
    (count : pg'.swapUsed = (freeSwapSlot pg slot).swapUsed)
    (gone : ∀ t, 0 ≤ t → pg'.claim i ≠ some t)
    (others : ∀ j, j < maxTrackedPages → j ≠ i → pg'.claim j = pg.claim j) : pg'.SlotsExact := by
  have distinct : ∀ a b, a < maxTrackedPages → b < maxTrackedPages → ∀ t, 0 ≤ t →
      pg'.claim a = some t → pg'.claim b = some t → a = b := by
    intro a b aIn bIn t tPositive aHas bHas
    have aOther : a ≠ i := fun here => gone t tPositive (here ▸ aHas)
    have bOther : b ≠ i := fun here => gone t tPositive (here ▸ bHas)
    rw [others a aIn aOther] at aHas
    rw [others b bIn bOther] at bHas
    exact exact.distinct a b aIn bIn t tPositive aHas bHas
  -- The claims that remain are the old ones of the other pages.
  have remain : ∀ s : Nat, (s : Int) ≠ slot →
      ((∃ j, j < maxTrackedPages ∧ pg'.claim j = some (s : Int)) ↔
        ∃ j, j < maxTrackedPages ∧ pg.claim j = some (s : Int)) := by
    intro s different
    constructor
    · rintro ⟨j, jIn, claims⟩
      have other : j ≠ i := fun here => gone s (by omega) (here ▸ claims)
      exact ⟨j, jIn, by rw [← others j jIn other, claims]⟩
    · rintro ⟨j, jIn, claims⟩
      have other : j ≠ i := by
        rintro rfl
        rw [had] at claims
        exact different (by simpa using claims.symm)
      exact ⟨j, jIn, by rw [others j jIn other, claims]⟩
  by_cases inRange : slot < (maxSwapPages : Int)
  · obtain ⟨t, rfl⟩ : ∃ t : Nat, slot = t := ⟨slot.toNat, by omega⟩
    have inside : t < maxSwapPages := by omega
    have set : pg.swapBitmap t = true := (exact.held t inside).mpr ⟨i, iIn, had⟩
    have cleared : freeSwapSlot pg t = { pg with
        swapBitmap := update pg.swapBitmap t false
        swapUsed := pg.swapUsed - 1 } := by
      simp [freeSwapSlot, inside, set]
    have counted : pg'.swapUsed = (setBits pg'.swapBitmap).card := by
      rw [count, bitmap]
      exact PagingInfo.Counted.free exact.used t
    rw [cleared] at bitmap count
    refine ⟨counted, distinct, fun s sIn => ?_⟩
    · rw [bitmap]
      by_cases same : s = t
      · subst same
        simp only [update_self, Bool.false_eq_true, false_iff]
        rintro ⟨j, jIn, claims⟩
        have other : j ≠ i := fun here => gone s (by omega) (here ▸ claims)
        rw [others j jIn other] at claims
        exact other (exact.distinct j i jIn iIn s (by omega) claims had)
      · simp only [update_of_ne same]
        rw [exact.held s sIn, remain s (by omega)]
  · have unchanged : freeSwapSlot pg slot = pg := by
      rw [freeSwapSlot, if_pos (by omega)]
    rw [unchanged] at bitmap count
    refine ⟨by rw [count, bitmap, exact.used], distinct, fun s sIn => ?_⟩
    rw [bitmap, exact.held s sIn, remain s (by omega)]

end PagingInfo.SlotsExact

theorem initPagingInfo_slotsExact : initPagingInfo.SlotsExact := by
  have none : ∀ i, initPagingInfo.claim i = none := fun i => rfl
  refine ⟨by simp [setBits, initPagingInfo], fun i j _ _ slot _ iHas => by simp [none] at iHas,
    fun s _ => ?_⟩
  have clear : initPagingInfo.swapBitmap s = false := rfl
  simp [none, clear]

theorem Machine.Evicts.slotsExact (tracked : i < maxTrackedPages) (evicts : m.Evicts i m')
    (exact : m.proc.paging.SlotsExact) : m'.proc.paging.SlotsExact := by
  -- A resident page claims no slot.
  have free : (m.proc.paging.pages i).state = .resident → m.proc.paging.claim i = none := by
    intro resident
    simp [PagingInfo.claim, resident]
  have dropped : (m.proc.paging.pages i).state = .resident → (m.proc.paging.drop i).SlotsExact := by
    intro resident
    refine exact.congr rfl rfl fun j _ slot _ => ?_
    by_cases here : j = i <;>
      simp [PagingInfo.claim, PagingInfo.drop, PagingInfo.setPage, here, resident]
  cases evicts with
  | discard pte resident => exact dropped resident
  | forget resident => exact dropped resident
  | save pte slot f fs resident kept entry managed chosen =>
    obtain ⟨-, inside, clear⟩ := firstClear_spec chosen
    refine exact.take tracked (by omega) clear (free resident) rfl rfl ?_ fun j _ other => ?_
    · simp [Machine.release, PagingInfo.claim, PagingInfo.save, PagingInfo.setPage]
    · simp [Machine.release, PagingInfo.claim, PagingInfo.save, PagingInfo.setPage, other]

theorem Machine.Obtains.slotsExact (obtains : m.Obtains frame m')
    (exact : m.proc.paging.SlotsExact) : m'.proc.paging.SlotsExact := by
  cases obtains with
  | free => exact exact
  | starved _ _ idle =>
    rw [idle.same]
    exact exact.congr rfl rfl fun _ _ _ _ => Iff.rfl
  | evicted i _ _ _ _ chosen evicts =>
    have kept := evicts.slotsExact (fifoScan_spec chosen).1 exact
    exact kept
  | wasted i _ _ chosen evicts => exact evicts.slotsExact (fifoScan_spec chosen).1 exact

theorem PagingInfo.settle_slots (pg : PagingInfo) (va : Nat) (mark : PageInfo → PageInfo) :
    (pg.settle va mark).swapBitmap = pg.swapBitmap ∧
      (pg.settle va mark).swapUsed = pg.swapUsed := by
  unfold PagingInfo.settle
  cases getPageInfo va <;> exact ⟨rfl, rfl⟩

theorem PagingInfo.SlotsExact.settle (mark : PageInfo → PageInfo) (exact : pg.SlotsExact)
    (free : va / pgsize < maxTrackedPages → ∀ t, 0 ≤ t → pg.claim (va / pgsize) ≠ some t) :
    (pg.settle va mark).SlotsExact := by
  obtain ⟨bitmap, count⟩ := pg.settle_slots va mark
  refine exact.congr bitmap count fun j jIn t positive => ?_
  by_cases here : j = va / pgsize
  · subst here
    have claims : (pg.settle va mark).claim (va / pgsize) = none := by
      simp [PagingInfo.claim, pg.settle_self mark jIn]
    simp [claims, free jIn t positive]
  · simp only [PagingInfo.claim, pg.settle_of_ne mark here]

def Machine.EvictsItself (m : Machine) (va : Nat) : Prop :=
  m.kmem.freelist = [] ∧ m.victim = some (va / pgsize) ∧
    ¬ (m.proc.paging.pages (va / pgsize)).Droppable

theorem Machine.Obtains.claim_none (obtains : m.Obtains frame m') (here : ¬ m.Swapped va)
    (tracked : va / pgsize < maxTrackedPages) (other : ¬ m.EvictsItself va) :
    m'.proc.paging.claim (va / pgsize) = none := by
  have page : getPageInfo va = some (va / pgsize) := by
    rw [getPageInfo, pgrounddown_div, if_neg (by omega)]
  have notSwapped : (m.proc.paging.pages (va / pgsize)).state ≠ .swapped :=
    fun swapped => here ⟨_, page, swapped⟩
  have before : m.proc.paging.claim (va / pgsize) = none := by
    simp [PagingInfo.claim, notSwapped]
  -- An eviction of another page leaves the entry alone; its own can only be a discard.
  have evicted : ∀ {i m₁}, m.kmem.freelist = [] → m.victim = some i → m.Evicts i m₁ →
      m₁.proc.paging.claim (va / pgsize) = none := by
    intro i m₁ full chosen evicts
    by_cases same : va / pgsize = i
    · cases evicts with
      | discard => simp [Machine.release, PagingInfo.claim, PagingInfo.drop, PagingInfo.setPage, same]
      | forget => simp [PagingInfo.claim, PagingInfo.drop, PagingInfo.setPage, same]
      | save pte slot f fs resident kept => exact absurd ⟨full, same ▸ chosen, same ▸ kept⟩ other
    · cases evicts <;>
        simp [Machine.release, PagingInfo.claim, PagingInfo.drop, PagingInfo.save,
          PagingInfo.setPage, same, notSwapped]
  cases obtains with
  | free => exact before
  | starved _ _ idle => rw [idle.same]; exact before
  | evicted i _ _ _ full chosen evicts => exact (evicted full chosen evicts :)
  | wasted i _ full chosen evicts => exact evicted full chosen evicts

theorem Machine.Brings.slotsExact (pages : m.Brings env va src r m')
    (plain : ∀ pg, src.prepare pg = pg) (here : ¬ m.Swapped va) (other : ¬ m.EvictsItself va)
    (exact : m.proc.paging.SlotsExact) : m'.proc.paging.SlotsExact := by
  cases pages with
  | starved _ gets => exact gets.obtains.slotsExact exact
  | unread m₁ mem gets => exact (gets.obtains.slotsExact exact :)
  | refused m₁ mem bytes t gets =>
    simp only [plain]
    exact gets.obtains.slotsExact exact
  | mapped m₁ mem bytes t gets =>
    simp only [plain]
    refine (gets.obtains.slotsExact exact).settle src.mark fun tracked t _ => ?_
    simp [gets.obtains.claim_none here tracked other]

theorem Machine.Brings.slotsExact_swap (page : getPageInfo va = some i)
    (swapped : (m.proc.paging.pages i).state = .swapped)
    (held : 0 ≤ (m.proc.paging.pages i).swapSlot)
    (pages : m.Brings env va (swapSource i (m.proc.paging.pages i).swapSlot) r m')
    (exact : m.proc.paging.SlotsExact) : m'.proc.paging.SlotsExact := by
  obtain ⟨rfl, tracked⟩ := getPageInfo_some page
  -- The entry is not resident, so obtaining a frame leaves its claim alone.
  have same : ∀ {frame m₁}, m.Obtains frame m₁ →
      m₁.proc.paging.pages (va / pgsize) = m.proc.paging.pages (va / pgsize) :=
    fun obtains => obtains.pages_of_not_resident (by rw [swapped]; decide)
  have released : ∀ {frame m₁}, m.Obtains frame m₁ →
      ((swapSource (va / pgsize) (m.proc.paging.pages (va / pgsize)).swapSlot).prepare
        m₁.proc.paging).SlotsExact ∧
      ∀ t, 0 ≤ t → ((swapSource (va / pgsize)
        (m.proc.paging.pages (va / pgsize)).swapSlot).prepare m₁.proc.paging).claim
          (va / pgsize) ≠ some t := by
    intro frame m₁ obtains
    have kept := same obtains
    have entries := (freeSwapSlot_pages m₁.proc.paging
      (m.proc.paging.pages (va / pgsize)).swapSlot).1
    have gone : ∀ t, 0 ≤ t → ((swapSource (va / pgsize)
        (m.proc.paging.pages (va / pgsize)).swapSlot).prepare m₁.proc.paging).claim
          (va / pgsize) ≠ some t := by
      intro t positive claims
      obtain ⟨-, slot⟩ := PagingInfo.claim_eq_some.mp claims
      simp only [swapSource, PagingInfo.setPage, update_self] at slot
      omega
    refine ⟨(obtains.slotsExact exact).release tracked held
      (PagingInfo.claim_eq_some.mpr ⟨by rw [kept, swapped], by rw [kept]⟩) rfl rfl gone
      fun j _ other => ?_, gone⟩
    simp [swapSource, PagingInfo.claim, PagingInfo.setPage, other, entries]
  cases pages with
  | starved _ gets => exact gets.obtains.slotsExact exact
  | unread m₁ mem gets => exact (gets.obtains.slotsExact exact :)
  | refused m₁ mem bytes t gets => exact (released gets.obtains).1
  | mapped m₁ mem bytes t gets =>
    obtain ⟨before, gone⟩ := released gets.obtains
    exact before.settle _ fun _ => gone

theorem Machine.Serves.plain (serves : m.Serves va cause src) (here : ¬ m.Swapped va)
    (pg : PagingInfo) : src.prepare pg = pg := by
  cases serves with
  | swap i page swapped => exact absurd ⟨i, page, swapped⟩ here
  | text => rfl
  | data => rfl
  | heap => rfl

theorem Machine.Handles.slotsExact (handles : m.Handles va cause r m')
    (other : ¬ (m.EvictsItself va ∧ ∃ src, m.Serves va cause src))
    (exact : m.proc.paging.SlotsExact) : m'.proc.paging.SlotsExact := by
  cases handles with
  | high => exact exact
  | textWrite => exact exact
  | lost => exact exact
  | outside => exact exact
  | paged src _ _ serves pages =>
    have different : ¬ m.EvictsItself va := fun itself => other ⟨itself, src, serves⟩
    cases serves with
    | swap i page swapped held => exact pages.slotsExact_swap page swapped held exact
    | text here => exact pages.slotsExact (fun _ => rfl) here different exact
    | data here => exact pages.slotsExact (fun _ => rfl) here different exact
    | heap here => exact pages.slotsExact (fun _ => rfl) here different exact

def Machine.LosesSlot (m : Machine) : PagingOp → Prop
  | .fault va cause =>
    m.EvictsItself (pgrounddown va) ∧ ∃ src, m.Serves (pgrounddown va) cause src
  | _ => False

theorem Machine.Does.slotsExact (does : m.Does op r m') (other : ¬ m.LosesSlot op)
    (exact : m.proc.paging.SlotsExact) : m'.proc.paging.SlotsExact := by
  cases does with
  | fault va cause _ _ handles => exact handles.slotsExact other exact
  | refused => exact exact
  | swapin va i _ _ page swapped held pages => exact pages.slotsExact_swap page swapped held exact
  | idle _ _ idle =>
    rw [idle.same]
    exact exact.congr rfl rfl fun _ _ _ _ => Iff.rfl
  | swapout va _ tracked evicts => exact evicts.slotsExact tracked exact
  | evict i _ chosen evicts => exact evicts.slotsExact (fifoScan_spec chosen).1 exact

theorem Machine.Handles.leaks (handles : m.Handles va cause 0 m')
    (present : (m.proc.pagetable.lookup va).isSome) (aligned : va % pgsize = 0)
    (tracked : va / pgsize < maxTrackedPages) (load : cause ≠ 15)
    (kept : ¬ (m.proc.paging.pages (va / pgsize)).Droppable) (exact : m.proc.paging.SlotsExact) :
    ¬ m'.proc.paging.SlotsExact := by
  intro exact'
  have page : va / pgsize * pgsize = va := by
    simp only [pgsize] at *
    omega
  cases handles with
  | textWrite _ store => exact load store
  | paged src _ _ serves pages =>
    cases pages with
    | mapped m₁ mem bytes t gets filled maps =>
      have absent : m₁.proc.pagetable.lookup va = none := maps.absent
      cases gets.obtains with
      | free => simp [absent] at present
      | evicted i m₂ pa rest full chosen evicts front =>
        -- The page could only be mapped again because it was the one evicted.
        have below : va < vaSpan := page ▸ lt_vaSpan (tracked_lt_maxva tracked)
        have gone := evicts.lookup (fifoScan_spec chosen).1 below
        rw [show m₂.proc.pagetable.lookup va = none from absent] at gone
        obtain rfl : va / pgsize = i := by
          by_contra different
          rw [if_neg different] at gone
          simp [← gone] at present
        cases evicts with
        | discard _ _ clean => exact kept clean
        | forget _ clean => exact kept clean
        | save pte slot f fs resident _ entry managed free files stored =>
          obtain ⟨-, inside, clear⟩ := firstClear_spec free
          have here : ¬ m.Swapped va := by
            rintro ⟨j, number, swapped⟩
            obtain ⟨rfl, -⟩ := getPageInfo_some number
            simp [resident] at swapped
          rw [serves.plain here] at exact'
          -- Its bit stays set, and no entry claims the slot: the page is resident again.
          obtain ⟨bitmap, -⟩ := (m.proc.paging.save (va / pgsize) slot f).settle_slots va src.mark
          obtain ⟨j, jTracked, claims⟩ := (exact'.held slot inside).mp (by
            simp only [Machine.release, bitmap]
            simp [PagingInfo.save])
          simp only [Machine.release] at claims
          by_cases same : j = va / pgsize
          · subst same
            simp [PagingInfo.claim, PagingInfo.settle_self _ _ tracked] at claims
          · have old : m.proc.paging.claim j = some (slot : Int) := by
              rw [← claims]
              simp only [PagingInfo.claim, PagingInfo.settle_of_ne _ _ same]
              simp [PagingInfo.save, PagingInfo.setPage, same]
            have set := (exact.held slot inside).mpr ⟨j, jTracked, old⟩
            simp [clear] at set

def PagingInfo.Claims (pg : PagingInfo) (i slot : Nat) : Prop :=
  i < maxTrackedPages ∧ pg.claim i = some (slot : Int)

structure PagingInfo.SlotsHeld (pg : PagingInfo) : Prop where
  distinct : ∀ i j slot, pg.Claims i slot → pg.Claims j slot → i = j
  marked : ∀ i slot, pg.Claims i slot → slot < maxSwapPages ∧ pg.swapBitmap slot = true

section Held

variable {pg pg' : PagingInfo}

theorem PagingInfo.slotsHeld_of_unswapped (unswapped : ∀ i, (pg.pages i).state ≠ .swapped) :
    pg.SlotsHeld := by
  have none : ∀ i slot, ¬ pg.Claims i slot := fun i slot claims =>
    unswapped i (PagingInfo.claim_eq_some.mp claims.2).1
  exact ⟨fun i j slot claims => absurd claims (none i slot),
    fun i slot claims => absurd claims (none i slot)⟩

theorem PagingInfo.SlotsHeld.shrink (held : pg.SlotsHeld)
    (fewer : ∀ i slot, pg'.Claims i slot → pg.Claims i slot)
    (marks : ∀ i slot, pg'.Claims i slot → pg'.swapBitmap slot = true) : pg'.SlotsHeld where
  distinct i j slot first second := held.distinct i j slot (fewer i slot first) (fewer j slot second)
  marked i slot claims := ⟨(held.marked i slot (fewer i slot claims)).1, marks i slot claims⟩

theorem freeSwapSlot_bitmap_of_ne (pg : PagingInfo) {slot : Int} {s : Nat} (other : (s : Int) ≠ slot) :
    (freeSwapSlot pg slot).swapBitmap s = pg.swapBitmap s := by
  unfold freeSwapSlot
  split
  · rfl
  · split
    · exact update_of_ne (by omega) _ _
    · rfl

theorem PagingInfo.SlotsHeld.settle (mark : PageInfo → PageInfo) (held : pg.SlotsHeld) :
    (pg.settle va mark).SlotsHeld := by
  obtain ⟨bitmap, -⟩ := pg.settle_slots va mark
  have fewer : ∀ i slot, (pg.settle va mark).Claims i slot → pg.Claims i slot := by
    rintro i slot ⟨tracked, claims⟩
    -- The page itself is resident now, so a claim can only be that of another page.
    by_cases here : i = va / pgsize
    · subst here
      simp [PagingInfo.claim, pg.settle_self mark tracked] at claims
    · simp only [PagingInfo.claim, pg.settle_of_ne mark here] at claims
      exact ⟨tracked, claims⟩
  exact held.shrink fewer fun i slot claims => by
    rw [bitmap]
    exact (held.marked i slot (fewer i slot claims)).2

theorem Machine.Evicts.slotsHeld (evicts : m.Evicts i m') (held : m.proc.paging.SlotsHeld) :
    m'.proc.paging.SlotsHeld := by
  have dropped : (m.proc.paging.drop i).SlotsHeld := by
    have fewer : ∀ j slot, (m.proc.paging.drop i).Claims j slot → m.proc.paging.Claims j slot := by
      rintro j slot ⟨tracked, claims⟩
      by_cases here : j = i
      · simp [PagingInfo.claim, PagingInfo.drop, PagingInfo.setPage, here] at claims
      · exact ⟨tracked, by
          simpa [PagingInfo.claim, PagingInfo.drop, PagingInfo.setPage, here] using claims⟩
    exact held.shrink fewer fun j slot claims => (held.marked j slot (fewer j slot claims)).2
  cases evicts with
  | discard => exact dropped
  | forget => exact dropped
  | save pte slot f fs resident kept entry managed chosen =>
    obtain ⟨-, inside, clear⟩ := firstClear_spec chosen
    -- The slot taken was not marked, so nobody had claimed it.
    have split : ∀ j s, (m.proc.paging.save i slot f).Claims j s →
        j = i ∧ s = slot ∨ j ≠ i ∧ m.proc.paging.Claims j s := by
      rintro j s ⟨tracked, claims⟩
      by_cases here : j = i
      · subst here
        simp only [PagingInfo.claim, PagingInfo.save, PagingInfo.setPage, update_self,
          if_true, Option.some.injEq] at claims
        exact Or.inl ⟨rfl, by omega⟩
      · refine Or.inr ⟨here, tracked, ?_⟩
        simpa [PagingInfo.claim, PagingInfo.save, PagingInfo.setPage, here] using claims
    have unclaimed : ∀ j, ¬ m.proc.paging.Claims j slot := by
      intro j claims
      have marked := (held.marked j slot claims).2
      simp [clear] at marked
    refine ⟨fun j j' s first second => ?_, fun j s claims => ?_⟩
    · rcases split j s first with ⟨rfl, rfl⟩ | ⟨-, old⟩
      · rcases split j' s second with ⟨rfl, -⟩ | ⟨-, old⟩
        · rfl
        · exact absurd old (unclaimed j')
      · rcases split j' s second with ⟨rfl, rfl⟩ | ⟨-, old'⟩
        · exact absurd old (unclaimed j)
        · exact held.distinct j j' s old old'
    · rcases split j s claims with ⟨-, rfl⟩ | ⟨-, old⟩
      · exact ⟨by omega, by simp [Machine.release, PagingInfo.save]⟩
      · obtain ⟨small, marked⟩ := held.marked j s old
        refine ⟨small, ?_⟩
        simp only [Machine.release, PagingInfo.save, Function.update_apply]
        split
        · rfl
        · exact marked

theorem Machine.Obtains.slotsHeld (obtains : m.Obtains frame m') (held : m.proc.paging.SlotsHeld) :
    m'.proc.paging.SlotsHeld := by
  cases obtains with
  | free => exact held
  | starved _ _ idle =>
    rw [idle.same]
    exact held.shrink (fun _ _ claims => claims) fun i slot claims => (held.marked i slot claims).2
  | evicted i _ _ _ _ _ evicts => exact (evicts.slotsHeld held :)
  | wasted i _ _ _ evicts => exact evicts.slotsHeld held

theorem PagingInfo.SlotsHeld.giveBack (held : pg.SlotsHeld) (mine : pg.Claims i slot) :
    ((freeSwapSlot pg slot).setPage i fun pi => { pi with swapSlot := -1 }).SlotsHeld := by
  have pages : (freeSwapSlot pg slot).pages = pg.pages := (freeSwapSlot_pages pg slot).1
  have fewer : ∀ j s,
      ((freeSwapSlot pg slot).setPage i fun pi => { pi with swapSlot := -1 }).Claims j s →
        j ≠ i ∧ pg.Claims j s := by
    rintro j s ⟨tracked, claims⟩
    by_cases here : j = i
    · obtain ⟨-, named⟩ := PagingInfo.claim_eq_some.mp claims
      simp only [PagingInfo.setPage, here, update_self] at named
      omega
    · refine ⟨here, tracked, ?_⟩
      simpa [PagingInfo.claim, PagingInfo.setPage, here, pages] using claims
  apply held.shrink fun j s claims => (fewer j s claims).2
  intro j s claims
  obtain ⟨other, old⟩ := fewer j s claims
  have different : s ≠ slot := fun same => other (held.distinct j i slot (same ▸ old) mine)
  simp only [PagingInfo.setPage]
  rw [freeSwapSlot_bitmap_of_ne pg (by omega)]
  exact (held.marked j s old).2

theorem Machine.Obtains.slotsHeld_swap (obtains : m.Obtains frame m')
    (page : getPageInfo va = some i) (swapped : (m.proc.paging.pages i).state = .swapped)
    (positive : 0 ≤ (m.proc.paging.pages i).swapSlot) (held : m.proc.paging.SlotsHeld) :
    ((swapSource i (m.proc.paging.pages i).swapSlot).prepare m'.proc.paging).SlotsHeld := by
  obtain ⟨rfl, tracked⟩ := getPageInfo_some page
  -- The entry is not resident, so obtaining a frame leaves it alone.
  have kept := obtains.pages_of_not_resident (j := va / pgsize) (by rw [swapped]; decide)
  obtain ⟨slot, named⟩ : ∃ slot : Nat, (m.proc.paging.pages (va / pgsize)).swapSlot = slot :=
    ⟨_, (Int.toNat_of_nonneg positive).symm⟩
  have mine : m'.proc.paging.Claims (va / pgsize) slot :=
    ⟨tracked, PagingInfo.claim_eq_some.mpr ⟨by rw [kept, swapped], by rw [kept, named]⟩⟩
  rw [named]
  exact (obtains.slotsHeld held).giveBack mine

theorem Machine.Brings.slotsHeld (pages : m.Brings env va src r m') (held : m.proc.paging.SlotsHeld)
    (prepared : ∀ frame m₁, m.Obtains frame m₁ → (src.prepare m₁.proc.paging).SlotsHeld) :
    m'.proc.paging.SlotsHeld := by
  cases pages with
  | starved _ gets => exact gets.obtains.slotsHeld held
  | unread m₁ mem gets => exact (gets.obtains.slotsHeld held :)
  | refused m₁ mem bytes t gets => exact prepared _ _ gets.obtains
  | mapped m₁ mem bytes t gets => exact (prepared _ _ gets.obtains).settle src.mark

theorem Machine.Handles.slotsHeld (handles : m.Handles va cause r m')
    (held : m.proc.paging.SlotsHeld) : m'.proc.paging.SlotsHeld := by
  cases handles with
  | high => exact held
  | textWrite => exact held
  | lost => exact held
  | outside => exact held
  | paged src _ _ serves pages =>
    apply pages.slotsHeld held
    intro frame m₁ obtains
    cases serves with
    | swap i page swapped positive => exact obtains.slotsHeld_swap page swapped positive held
    | text => exact obtains.slotsHeld held
    | data => exact obtains.slotsHeld held
    | heap => exact obtains.slotsHeld held

theorem Machine.Does.slotsHeld (does : m.Does op r m') (held : m.proc.paging.SlotsHeld) :
    m'.proc.paging.SlotsHeld := by
  cases does with
  | fault va cause _ _ handles => exact handles.slotsHeld held
  | refused => exact held
  | swapin va i _ _ page swapped positive pages =>
    exact pages.slotsHeld held fun frame m₁ obtains =>
      obtains.slotsHeld_swap page swapped positive held
  | idle _ _ idle =>
    rw [idle.same]
    exact held.shrink (fun _ _ claims => claims) fun i slot claims => (held.marked i slot claims).2
  | swapout va _ tracked evicts => exact evicts.slotsHeld held
  | evict i _ chosen evicts => exact evicts.slotsHeld held

end Held

end Xv6
