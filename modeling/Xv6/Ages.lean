import Xv6.FaultLaws

/-! How paging operations change which pages are resident, and the numbers they carry. -/

namespace Xv6

open Prog

/-- The tracked page that a paging operation made resident, if it made one. -/
def PagingOp.arrival (op : PagingOp) (m : Machine) (r : Int) : Option Nat :=
  match op with
  | .fault va cause =>
    -- A write to text returns zero too, but only kills the process.
    if r = 0 ∧ ¬ (m.proc.paging.segs.text.Has (pgrounddown va) ∧ cause = 15) then
      getPageInfo (pgrounddown va)
    else none
  | .swapin va => if r = 0 then getPageInfo (pgrounddown va) else none
  | .swapout _ | .evict => none

/-- A table loses resident pages and gains at most one, which gets the next number. -/
structure PagingInfo.Ages (pg pg' : PagingInfo) (new : Option Nat) : Prop where
  next : pg'.nextFifoSeq = pg.nextFifoSeq + new.toList.length
  kept : ∀ j, (pg'.pages j).state = .resident → new ≠ some j →
    (pg.pages j).state = .resident ∧ (pg'.pages j).fifoSeq = (pg.pages j).fifoSeq
  numbered : ∀ j, new = some j → (pg'.pages j).fifoSeq = pg.nextFifoSeq

variable {cause i va : Nat} {src : Source} {r : Int}

section Tables

variable {pg pg' pg'' : PagingInfo} {new : Option Nat}

theorem PagingInfo.Ages.of_eq (pages : pg'.pages = pg.pages)
    (next : pg'.nextFifoSeq = pg.nextFifoSeq) : pg.Ages pg' none :=
  ⟨next, fun j resident _ => by simpa [pages] using resident, by simp⟩

theorem PagingInfo.Ages.trans (first : pg.Ages pg' none) (second : pg'.Ages pg'' new) :
    pg.Ages pg'' new := by
  have next : pg'.nextFifoSeq = pg.nextFifoSeq := first.next
  refine ⟨by rw [second.next, next], fun j resident old => ?_, fun j arrived => ?_⟩
  · obtain ⟨before, same⟩ := second.kept j resident old
    obtain ⟨before', same'⟩ := first.kept j before (by simp)
    exact ⟨before', same.trans same'⟩
  · rw [second.numbered j arrived, next]

theorem PagingInfo.Ages.update {x : PageInfo} (pages : pg'.pages = Function.update pg.pages i x)
    (next : pg'.nextFifoSeq = pg.nextFifoSeq)
    (less : x.state = .resident → (pg.pages i).state = .resident ∧ x.fifoSeq = (pg.pages i).fifoSeq) :
    pg.Ages pg' none := by
  refine ⟨next, fun j resident _ => ?_, by simp⟩
  rw [pages] at resident ⊢
  by_cases same : j = i
  · subst same
    rw [Function.update_self] at resident ⊢
    exact less resident
  · rw [Function.update_of_ne same] at resident ⊢
    exact ⟨resident, rfl⟩

theorem PagingInfo.Ages.settle (pg : PagingInfo) (va : Nat) (mark : PageInfo → PageInfo) :
    pg.Ages (pg.settle va mark) (getPageInfo va) := by
  unfold PagingInfo.settle
  cases page : getPageInfo va with
  | none => exact PagingInfo.Ages.of_eq rfl rfl
  | some i =>
    refine ⟨rfl, fun j resident old => ?_, fun j arrived => ?_⟩
    · have other : j ≠ i := fun same => old (by rw [same])
      simp only [PagingInfo.setPage, Function.update_of_ne other] at resident ⊢
      exact ⟨resident, trivial⟩
    · obtain rfl := Option.some.inj arrived
      simp [PagingInfo.setPage]

end Tables

section Operations

variable {m m' : Machine}

theorem Machine.Evicts.ages (evicts : m.Evicts i m') : m.proc.paging.Ages m'.proc.paging none := by
  cases evicts with
  | discard => exact PagingInfo.Ages.update rfl rfl (by simp)
  | forget => exact PagingInfo.Ages.update rfl rfl (by simp)
  | save => exact PagingInfo.Ages.update rfl rfl (by simp)

theorem Machine.Idles.ages (idle : m.Idles m') : m.proc.paging.Ages m'.proc.paging none := by
  rw [idle.same]
  exact PagingInfo.Ages.of_eq rfl rfl

theorem Machine.Obtains.ages {frame : Option Nat} (obtains : m.Obtains frame m') :
    m.proc.paging.Ages m'.proc.paging none := by
  cases obtains with
  | free => exact PagingInfo.Ages.of_eq rfl rfl
  | starved _ _ idle => exact idle.ages
  | evicted _ _ _ _ _ _ evicts => exact evicts.ages
  | wasted _ _ _ _ evicts => exact evicts.ages

/-- What is recorded before a page is mapped concerns its slot. -/
def Source.Slotted (src : Source) : Prop := ∀ pg : PagingInfo, pg.Ages (src.prepare pg) none

theorem Machine.Brings.ages (slotted : src.Slotted) (pages : m.Brings env va src r m') :
    m.proc.paging.Ages m'.proc.paging (if r = 0 then getPageInfo va else none) := by
  cases pages with
  | starved m' gets => exact gets.obtains.ages
  | unread m' mem gets => exact gets.obtains.ages
  | refused m' mem bytes t gets => exact gets.obtains.ages.trans (slotted _)
  | mapped m' mem bytes t gets =>
    exact (gets.obtains.ages.trans (slotted _)).trans (PagingInfo.Ages.settle _ _ _)

theorem swapSource_slotted (i : Nat) (slot : Int) : (swapSource i slot).Slotted := by
  intro pg
  have given : pg.Ages (freeSwapSlot pg slot) none := by
    unfold freeSwapSlot
    split
    · exact PagingInfo.Ages.of_eq rfl rfl
    · split <;> exact PagingInfo.Ages.of_eq rfl rfl
  exact given.trans (PagingInfo.Ages.update rfl rfl fun resident => ⟨resident, rfl⟩)

theorem Machine.Serves.slotted (serves : m.Serves va cause src) : src.Slotted := by
  cases serves with
  | swap => exact swapSource_slotted _ _
  | text => exact fun pg => PagingInfo.Ages.of_eq rfl rfl
  | data => exact fun pg => PagingInfo.Ages.of_eq rfl rfl
  | heap => exact fun pg => PagingInfo.Ages.of_eq rfl rfl

theorem Machine.Serves.not_textWrite (serves : m.Serves va cause src) :
    ¬ (m.proc.paging.segs.text.Has va ∧ cause = 15) := by
  intro ⟨inText, write⟩
  cases serves with
  | swap i page swapped held readable => exact readable ⟨inText, write⟩
  | text here _ readable => exact readable write
  | data here notText => exact notText inText
  | heap here notText => exact notText inText

theorem Machine.Does.ages {op : PagingOp} (does : m.Does op r m') :
    m.proc.paging.Ages m'.proc.paging (op.arrival m r) := by
  cases does with
  | fault va cause r m' handles =>
    cases handles with
    | high => exact PagingInfo.Ages.of_eq rfl rfl
    | textWrite inText write =>
      simp only [PagingOp.arrival, inText, write]
      exact PagingInfo.Ages.of_eq rfl rfl
    | lost => exact PagingInfo.Ages.of_eq rfl rfl
    | outside => exact PagingInfo.Ages.of_eq rfl rfl
    | paged src r m' serves pages =>
      -- A page that is served is not written as text.
      have readable := serves.not_textWrite
      simpa only [PagingOp.arrival, readable, not_false_eq_true, and_true] using
        pages.ages serves.slotted
  | refused va => exact PagingInfo.Ages.of_eq rfl rfl
  | swapin va i r m' page swapped held pages => exact pages.ages (swapSource_slotted _ _)
  | idle op m' idle =>
    have none : op.arrival m (-1) = none := by
      cases op <;> simp [PagingOp.arrival]
    rw [none]
    exact idle.ages
  | swapout va m' tracked evicts => exact evicts.ages
  | evict i m' chosen evicts => exact evicts.ages

end Operations

/-- Pages to look for a victim among, the highest first. -/
structure Candidates where
  list : List Nat
  sorted : list.Pairwise (· > ·)
  tracked : ∀ i ∈ list, i < maxTrackedPages

/-- A candidate alone. -/
def Candidates.one (v : Nat) (tracked : v < maxTrackedPages) : Candidates :=
  ⟨[v], by simp, by simpa using tracked⟩

/-- No other page is resident. -/
def PagingInfo.Among (pg : PagingInfo) (c : Candidates) : Prop :=
  ∀ i, (pg.pages i).state = .resident → i ∈ c.list

/-- Scan some of the entries for the resident page with the smallest sequence number. -/
def fifoAmong (pages : Nat → PageInfo) : List Nat → Option Nat × Nat
  | [] => (none, 0x7FFFFFFF)
  | i :: rest =>
    let best := fifoAmong pages rest
    if (pages i).state = .resident ∧ (pages i).fifoSeq < best.2 then (some i, (pages i).fifoSeq)
    else best

/-- The operation to run while only the candidates are in use, with the victim found among them. -/
def PagingOp.among (c : Candidates) (m : Machine) : PagingOp → Option PagingOp
  | .fault va cause => if pgrounddown va / pgsize ∈ c.list then some (.fault va cause) else none
  | .swapin va => if pgrounddown va / pgsize ∈ c.list then some (.swapin va) else none
  | .swapout va => some (.swapout va)
  | .evict => (fifoAmong m.proc.paging.pages c.list).1.map fun v => .swapout (v * pgsize)

section Among

variable {c : Candidates} {m m' : Machine} {op op' : PagingOp}

theorem initPagingInfo_among (c : Candidates) : initPagingInfo.Among c := fun i resident => by
  simp [initPagingInfo] at resident

theorem fifoScan_among {pages : Nat → PageInfo} {n : Nat} : ∀ {list : List Nat},
    list.Pairwise (· > ·) → (∀ i ∈ list, i < n) →
    (∀ i < n, (pages i).state = .resident → i ∈ list) →
    fifoScan pages n = fifoAmong pages list := by
  induction n with
  | zero =>
    intro list _ below _
    cases list with
    | nil => rfl
    | cons i rest => exact absurd (below i (by simp)) (by omega)
  | succ n ih =>
    intro list sorted below all
    by_cases here : n ∈ list
    · -- The last entry is the first of the candidates.
      cases list with
      | nil => simp at here
      | cons i rest =>
        obtain ⟨first, sorted⟩ := List.pairwise_cons.mp sorted
        obtain rfl : i = n := by
          rcases List.mem_cons.mp here with same | later
          · exact same.symm
          · have lower := first n later
            have bound := below i (by simp)
            omega
        rw [fifoScan, fifoAmong, ih sorted first fun j low resident => ?_]
        have member := all j (by omega) resident
        simpa [Nat.ne_of_lt low] using member
    · have absent : (pages n).state ≠ .resident := fun resident => here (all n (by omega) resident)
      rw [fifoScan, if_neg fun both => absent both.1]
      refine ih sorted (fun i member => ?_) fun i low => all i (by omega)
      have bound := below i member
      have other : i ≠ n := fun same => here (same ▸ member)
      omega

theorem PagingInfo.Among.victim (among : m.proc.paging.Among c) :
    m.victim = (fifoAmong m.proc.paging.pages c.list).1 := by
  rw [Machine.victim, fifoScan_among c.sorted c.tracked fun i _ => among i]

theorem PagingInfo.Among.ages {pg pg' : PagingInfo} {new : Option Nat} (among : pg.Among c)
    (ages : pg.Ages pg' new) (mine : ∀ j, new = some j → j ∈ c.list) : pg'.Among c := by
  intro i resident
  by_cases arrived : new = some i
  · exact mine i arrived
  · exact among i (ages.kept i resident arrived).1

theorem PagingOp.run_among (among : m.proc.paging.Among c) (env : FsEnv)
    (aimed : op.among c m = some op') : op'.run env m = op.run env m := by
  cases op with
  | evict =>
    obtain ⟨v, chosen, rfl⟩ := Option.map_eq_some_iff.mp aimed
    exact (evictPageFifo_eq (among.victim.trans chosen)).symm
  | swapout va =>
    obtain rfl := Option.some.inj aimed
    rfl
  | fault va cause =>
    obtain rfl := Option.some.inj (Option.ite_none_right_eq_some.mp aimed).2
    rfl
  | swapin va =>
    obtain rfl := Option.some.inj (Option.ite_none_right_eq_some.mp aimed).2
    rfl

theorem Machine.Does.among (does : m.Does op r m') (among : m.proc.paging.Among c)
    (aimed : op.among c m = some op') : m'.proc.paging.Among c := by
  refine among.ages does.ages fun j arrived => ?_
  cases op with
  | fault va cause =>
    have brought := (Option.ite_none_right_eq_some.mp arrived).2
    rw [(getPageInfo_some brought).1]
    exact (Option.ite_none_right_eq_some.mp aimed).1
  | swapin va =>
    have brought := (Option.ite_none_right_eq_some.mp arrived).2
    rw [(getPageInfo_some brought).1]
    exact (Option.ite_none_right_eq_some.mp aimed).1
  | swapout va => simp [PagingOp.arrival] at arrived
  | evict => simp [PagingOp.arrival] at arrived

end Among

end Xv6
