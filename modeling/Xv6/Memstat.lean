import Xv6.FaultAccess
import Xv6.UserCopies

/-! The report a process can ask for about its pages. -/

namespace Xv6

open Prog

def maxPagesInfo : Nat := 128

structure PageStat where
  va : Nat
  state : PageState
  isDirty : Bool
  seq : Nat
  swapSlot : Int
  deriving DecidableEq, Repr

structure ProcMemStat where
  pid : Nat
  numPagesTotal : Nat
  numResidentPages : Nat
  numSwappedPages : Nat
  nextFifoSeq : Nat
  pages : List PageStat
  deriving DecidableEq, Repr

def PageInfo.stat (entry : PageInfo) : PageStat :=
  ⟨u32 entry.va, entry.state, entry.dirty, entry.fifoSeq, entry.swapSlot⟩

def ProcMemStat.add (info : ProcMemStat) (entry : PageInfo) : ProcMemStat :=
  { info with
    pages := info.pages ++ [entry.stat]
    numResidentPages :=
      if entry.state = .resident then info.numResidentPages + 1 else info.numResidentPages
    numSwappedPages :=
      if entry.state = .swapped then info.numSwappedPages + 1 else info.numSwappedPages }

def PageState.code : PageState → Int
  | .unmapped => 0
  | .resident => 1
  | .swapped => 2

def PageStat.bytes (stat : PageStat) : List UInt8 :=
  [(stat.va : Int), stat.state.code, if stat.isDirty then 1 else 0, stat.seq,
    stat.swapSlot].flatMap intBytes

def ProcMemStat.bytes (info : ProcMemStat) : List UInt8 :=
  [(info.pid : Int), info.numPagesTotal, info.numResidentPages, info.numSwappedPages,
    info.nextFifoSeq].flatMap intBytes ++ info.pages.flatMap PageStat.bytes ++
    List.replicate ((maxPagesInfo - info.pages.length) * 20) 0

def Machine.userByte (m : Machine) (va : Nat) : Option UInt8 :=
  match m.proc.pagetable.lookup va with
  | some pte => some (m.kmem.ram pte.pa (va % pgsize))
  | none =>
    let entry := m.proc.paging.pages (va / pgsize)
    let page :=
      if va / pgsize < maxTrackedPages ∧ entry.state = .swapped then
        slotBytes m.fs m.proc.paging.swapfile entry.swapSlot
      else m.fresh (pgrounddown va)
    page.map (· (va % pgsize))

structure Machine.Drops (m : Machine) (page va : Nat) : Prop where
  absent : walkaddr m.proc.pagetable page = none
  full : m.kmem.freelist = []
  chosen : m.victim = some (va / pgsize)
  clean : (m.proc.paging.pages (va / pgsize)).Droppable

def PagingInfo.tracked (pg : PagingInfo) : List PageInfo :=
  ((List.range maxTrackedPages).map pg.pages).filter fun entry => decide (entry.state ≠ .unmapped)

section Listing

variable (info : ProcMemStat) (entries : List PageInfo)

end Listing

section Reading

variable {env : FsEnv} {m m' : Machine} {dst mem page va : Nat} {pte : Pte} {src : List UInt8}
  {r : Int}

theorem Machine.userByte_of_lookup (entry : m.proc.pagetable.lookup va = some pte) :
    m.userByte va = some (m.kmem.ram pte.pa (va % pgsize)) := by
  simp only [Machine.userByte, entry]

theorem Machine.Spares.userByte (spares : m.Spares m' va) (fs : m'.fs = m.fs)
    (swapfile : m'.proc.paging.swapfile = m.proc.paging.swapfile) :
    m'.userByte va = m.userByte va := by
  have fresh := m.fresh_congr spares.context (fun ip _ => congrArg (Fs.inodes · ip) fs)
  cases entry : m.proc.pagetable.lookup va with
  | some pte =>
    rw [userByte_of_lookup entry, userByte_of_lookup (spares.lookup.trans entry), spares.ram pte entry]
  | none =>
    simp only [Machine.userByte, spares.lookup, entry, spares.entry, fs, swapfile, fresh]

theorem Machine.Obtains.userByte (obtains : m.Obtains (some mem) m') (sound : m.Sound)
    (user : UserAddress va) (entry : m.proc.pagetable.lookup va = some pte)
    (absent : walkaddr m.proc.pagetable page = none) :
    (m.Drops page va → m'.userByte va = (m.fresh (pgrounddown va)).map (· (va % pgsize))) ∧
    (¬ m.Drops page va → m'.userByte va = m.userByte va) := by
  have away : m'.proc.pagetable.lookup va = some pte → pte.pa ≠ mem :=
    fun here => (obtains.away sound user here).1
  cases obtains with
  | free _ rest front =>
    refine ⟨fun drops => absurd drops.full (by simp [front]), fun _ => ?_⟩
    exact (sound.spares_take user front).userByte rfl rfl
  | evicted i m₁ _ rest full chosen evicts front =>
    have tracked := (fifoScan_spec chosen).1
    have lookup := evicts.lookup tracked (lt_vaSpan user.below)
    have context := evicts.context
    by_cases same : va / pgsize = i
    · -- The page of the address is evicted: it is dropped or saved.
      subst same
      rw [if_pos rfl] at lookup
      cases evicts with
      | discard _ _ clean =>
        refine ⟨fun _ => ?_, fun kept => absurd ⟨absent, full, chosen, clean⟩ kept⟩
        have fresh := m.fresh_congr context (fun _ _ => rfl) (pgrounddown va)
        simp only [Machine.userByte, lookup]
        rw [if_neg (by simp [Machine.release, PagingInfo.drop, PagingInfo.setPage])]
        exact congrArg _ fresh
      | forget _ _ gone =>
        rw [lookup_page, entry] at gone
        simp at gone
      | save pte' slot f fs _ kept entry' _ first _ stored =>
        refine ⟨fun drops => absurd drops.clean kept, fun _ => ?_⟩
        rw [lookup_page, entry] at entry'
        obtain rfl := Option.some.inj entry'
        have inside : slot < maxSwapPages := by
          simpa using (firstClear_spec first).2.1
        obtain ⟨bytes, read, equal⟩ :
            ∃ bytes, readi fs f (fun _ => 5) (slot * pgsize) pgsize = (pgsize, bytes) ∧
              ∀ k, k < pgsize → bytes k = m.kmem.ram pte.pa k := readi_slot inside stored
        rw [userByte_of_lookup entry, ← equal _ (Nat.mod_lt _ pgsize_pos)]
        simp only [Machine.userByte, lookup]
        simp [Machine.release, PagingInfo.save, PagingInfo.setPage, tracked, slotBytes, read]
    · have spares := evicts.spares tracked sound user same
      refine ⟨fun drops => ?_, fun _ => ?_⟩
      · exact absurd (Option.some.inj (drops.chosen.symm.trans chosen)) same
      · have here := spares.lookup.trans entry
        rw [userByte_of_lookup (m := { m₁ with kmem := m₁.kmem.take mem rest }) here,
          userByte_of_lookup entry, ← spares.ram pte entry]
        simp [Kmem.take, Function.update_of_ne (away here)]

theorem Machine.Writes.userPage {i : Nat} (writes : m.Writes m' none dst src)
    (inside : i < src.length) : ∃ pte, m'.proc.pagetable.UserPage (dst + i) pte := by
  obtain ⟨pte, there, -⟩ := writes.stored i _ (List.getElem?_eq_getElem inside)
  exact ⟨pte, there⟩

theorem Machine.Drops.congr {vb : Nat} (drops : m.Drops page va) (same : va / pgsize = vb / pgsize) :
    m.Drops page vb :=
  ⟨drops.absent, drops.full, same ▸ drops.chosen, same ▸ drops.clean⟩

end Reading

end Xv6
