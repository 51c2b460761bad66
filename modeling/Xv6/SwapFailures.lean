import Xv6.Contents
import Xv6.ExecOutcome
import Xv6.Frames

/-! What a failed swap-out and a failed swap-in leave behind. -/

namespace Xv6

open Prog

structure Machine.SavedIn (m : Machine) (i slot : Nat) : Prop where
  swapped : (m.proc.paging.pages i).state = .swapped
  held : (m.proc.paging.pages i).swapSlot = slot
  marked : m.proc.paging.swapBitmap slot = true

instance (m : Machine) (i slot : Nat) : Decidable (m.SavedIn i slot) :=
  decidable_of_iff ((m.proc.paging.pages i).state = .swapped ∧
    (m.proc.paging.pages i).swapSlot = slot ∧ m.proc.paging.swapBitmap slot = true)
    ⟨fun ⟨swapped, held, marked⟩ => ⟨swapped, held, marked⟩,
      fun ⟨swapped, held, marked⟩ => ⟨swapped, held, marked⟩⟩

def Machine.slotFile (m : Machine) : Option Nat :=
  m.proc.paging.swapfile.or (m.fs.dirlookup m.proc.cwd (swapName m.proc.pid))

def Machine.SlotKept (m m' : Machine) (slot : Nat) : Prop := ∀ f page, m.slotFile = some f →
  m.fs.SlotHas f slot page → m'.slotFile = some f ∧ m'.fs.SlotHas f slot page

structure Machine.Recoverable (m m' : Machine) (i slot : Nat) : Prop where
  saved : m'.SavedIn i slot
  contents : m.SlotKept m' slot

structure Machine.DropsFile (m : Machine) (env : FsEnv) (f : Nat) : Prop where
  shut : m.proc.paging.swapfile = none
  directory : (m.fs.inodes m.proc.cwd).type = some .dir
  named : m.fs.dirlookup m.proc.cwd (swapName m.proc.pid) = some f
  regular : (m.fs.inodes f).type = some .file ∨ (m.fs.inodes f).type = some .device
  tableFull : env.filealloc = false
  lastRef : env.lastRef = true

section Slots

variable {env : FsEnv} {m m' : Machine} {f i slot : Nat} {fs : Fs} {r : Int}

theorem Machine.swapTarget_slotFile {g : Nat} (target : m.swapTarget env = some (g, fs))
    (file : m.slotFile = some f) : g = f ∧ fs = m.fs := by
  cases swap : m.proc.paging.swapfile with
  | some h =>
    simp only [Machine.swapTarget, Machine.slotFile, swap, Option.some_or, Option.some.injEq,
      Prod.mk.injEq] at target file
    exact ⟨target.1.symm.trans file, target.2.symm⟩
  | none =>
    simp only [Machine.swapTarget, Machine.slotFile, swap, Option.none_or] at target file
    split at target
    · rcases Fs.entry_cases target with ⟨named, -, same⟩ | ⟨unnamed, -⟩
      · exact ⟨by simpa [file] using named.symm, same⟩
      · simp [file] at unnamed
    · simp at target

/-- The only failure that touches a slot in use is the one that frees the file. -/
theorem Machine.Saves.slotKept (saves : m.Saves env i r m')
    (spared : ∀ f, m.DropsFile env f → (m.fs.inodes f).size < slot * pgsize + pgsize)
    (marked : m.proc.paging.swapBitmap slot = true) : m.SlotKept m' slot := by
  intro f page file has
  -- Writing the page takes a slot that is not marked.
  have written : ∀ {new src}, firstClear m.proc.paging.swapBitmap maxSwapPages 0 = some new →
      (writei m.fs f src (new * pgsize) pgsize env.room).2.SlotHas f slot page := by
    intro new src chosen
    obtain ⟨-, inside, clear⟩ := firstClear_spec chosen
    rw [Nat.zero_add] at inside
    have step := (writei_step (swapName m.proc.pid) inside clear
      (rfl : writei m.fs f src (new * pgsize) pgsize env.room = _)).1
    exact (step.keeps f rfl).2 slot page marked has
  cases saves with
  | unopened target =>
    have shut : m.proc.paging.swapfile = none := m.shut_of_target target
    have named : m.fs.dirlookup m.proc.cwd (swapName m.proc.pid) = some f := by
      simpa [Machine.slotFile, shut] using file
    simp only [Machine.slotFile, Machine.quiet, openSwap_eq, Option.none_or]
    simp only [Machine.swapTarget, shut] at target
    cases found : m.fs.entry env m.proc.cwd (swapName m.proc.pid) with
    | none => exact ⟨named, has⟩
    | some result =>
      obtain ⟨g, fs⟩ := result
      obtain ⟨found', -, rfl⟩ : m.fs.dirlookup m.proc.cwd (swapName m.proc.pid) = some g ∧
          (m.fs.inodes g).type ≠ none ∧ fs = m.fs := by
        rcases Fs.entry_cases found with existing | ⟨unnamed, -⟩
        · exact existing
        · simp [named] at unnamed
      obtain rfl : f = g := by simpa [named] using found'
      have tableFull : env.filealloc = false := by
        cases entry : env.filealloc with
        | false => rfl
        | true => simp [entry, found] at target
      simp only [tableFull, Bool.false_eq_true, if_false, dropUnlinked]
      -- The file is freed only with its last reference.
      cases last : env.lastRef with
      | false => exact ⟨named, has⟩
      | true =>
        obtain ⟨directory, regular⟩ := Fs.entry_named found named
        have small := spared f ⟨shut, directory, named, regular, tableFull, last⟩
        exact absurd has.1 (by omega)
  | full g fs target =>
    obtain ⟨rfl, rfl⟩ := Machine.swapTarget_slotFile target file
    exact ⟨rfl, has⟩
  | unmapped g fs new target =>
    obtain ⟨rfl, rfl⟩ := Machine.swapTarget_slotFile target file
    exact ⟨rfl, has⟩
  | refused g fs new pte target chosen =>
    obtain ⟨rfl, rfl⟩ := Machine.swapTarget_slotFile target file
    exact ⟨rfl, written chosen⟩
  | saved g fs new pte target chosen =>
    obtain ⟨rfl, rfl⟩ := Machine.swapTarget_slotFile target file
    exact ⟨rfl, written chosen⟩

theorem Machine.DropsFile.swapTarget (drops : m.DropsFile env f) : m.swapTarget env = none := by
  simp [Machine.swapTarget, drops.shut, drops.tableFull]

/-- A file that is freed takes its slots with it. -/
theorem Machine.DropsFile.not_kept (drops : m.DropsFile env f)
    (inside : slot * pgsize + pgsize ≤ (m.fs.inodes f).size) (saves : m.Saves env i r m') :
    r = -1 ∧ ¬ m.SlotKept m' slot := by
  have none := drops.swapTarget
  have file : m.slotFile = some f := by simp [Machine.slotFile, drops.shut, drops.named]
  have found : m.fs.entry env m.proc.cwd (swapName m.proc.pid) = some (f, m.fs) := by
    simp [Fs.entry, drops.directory, drops.named, drops.regular]
  cases saves with
  | unopened =>
    refine ⟨rfl, fun kept => ?_⟩
    have lost := (kept f (fun k => (m.fs.inodes f).data (slot * pgsize + k)) file
      ⟨inside, fun _ _ => rfl⟩).2.1
    simp only [Machine.quiet, openSwap_eq, found, drops.tableFull, Bool.false_eq_true, if_false,
      dropUnlinked, drops.lastRef, if_true, Function.update_self] at lost
    simp only [pgsize] at lost
    omega
  | full _ _ target => simp [none] at target
  | unmapped _ _ _ target => simp [none] at target
  | refused _ _ _ _ target => simp [none] at target
  | saved _ _ _ _ target => simp [none] at target

end Slots

structure Machine.Untouched (m m' : Machine) : Prop where
  pages : m'.proc.paging.pages = m.proc.paging.pages
  swapBitmap : m'.proc.paging.swapBitmap = m.proc.paging.swapBitmap
  swapUsed : m'.proc.paging.swapUsed = m.proc.paging.swapUsed
  pagetable : m'.proc.pagetable = m.proc.pagetable
  kmem : m'.kmem = m.kmem
  rest : ∃ fs swap killed, m' = m.quiet fs swap killed

def Machine.DropsSlots (m : Machine) (env : FsEnv) (i : Nat) : Prop :=
  i < maxTrackedPages ∧ (m.proc.paging.pages i).state = .resident ∧
  ¬ (m.proc.paging.pages i).Droppable ∧ ∃ f j slot, m.DropsFile env f ∧ m.SavedIn j slot ∧
    slot * pgsize + pgsize ≤ (m.fs.inodes f).size

/-- A failed swap-out leaves memory and the tables alone, and all slots in use unless it frees the
swap file. -/
theorem failed_swapout_untouched_iff (env : FsEnv) (m : Machine) (va : Nat) :
    (∀ m', swapoutPage env va m = .ok (-1, m') → m.Untouched m') ∧
    ((∀ m', swapoutPage env va m = .ok (-1, m') → ∀ i slot, m.SavedIn i slot →
      m.SlotKept m' slot) ↔ ¬ m.DropsSlots env (va / pgsize)) := by
  refine ⟨fun m' failed => ?_, fun keeps drops => ?_, fun spared m' failed i slot saved => ?_⟩
  · have idle : m.Idles m' := by
      have does : m.Does (.swapout va) (-1) m' := PagingOp.run_does failed
      cases does with
      | idle _ _ idle => exact idle
    have same := idle.same
    refine ⟨?_, ?_, ?_, idle.memory.2, idle.memory.1, ⟨_, _, _, same⟩⟩
    all_goals
      rw [same]
      rfl
  · -- The attempt ends when the file cannot be opened, and by then it is gone.
    obtain ⟨tracked, resident, kept, f, j, slot, drops, saved, inside⟩ := drops
    have lost : wp (swapoutPage env va) (fun r m' => r = -1 ∧ ¬ m.SlotKept m' slot)
        (fun _ => False) m := by
      refine wp_swapoutPage_saves (fun pte _ _ room => ?_) (fun away => absurd ⟨tracked, resident⟩ away)
        (fun m' _ clean => absurd clean kept)
        fun r m' _ _ _ saves => drops.not_kept inside saves
      obtain ⟨g, fs, _, target, -⟩ := room.resolve_left kept
      simp [drops.swapTarget] at target
    obtain ⟨_, m', failed, rfl, gone⟩ := exists_ok_of_wp lost
    exact gone (keeps m' failed j slot saved)
  · have judged : wp (swapoutPage env va) (fun r m' => r = -1 → m.SlotKept m' slot)
        (fun _ => True) m := by
      refine wp_swapoutPage_saves (fun _ _ _ _ => trivial) (fun _ _ f page file has => ⟨file, has⟩)
        (fun _ _ _ _ zero => absurd zero (by decide)) fun r m' tracked resident kept saves _ => ?_
      refine saves.slotKept (fun f drops => ?_) saved.marked
      by_contra inside
      exact spared ⟨tracked, resident, kept, f, i, slot, drops, saved, Nat.not_lt.mp inside⟩
    exact wp_ok judged failed rfl

def Machine.SwapinLoses (m : Machine) (env : FsEnv) (va slot : Nat) : Prop :=
  (m.Saving ∧ ∃ f, m.DropsFile env f ∧ slot * pgsize + pgsize ≤ (m.fs.inodes f).size) ∨
  (m.Obtainable env ∧
    slotBytes (m.ready env).fs (m.ready env).proc.paging.swapfile slot ≠ none ∧
    m.kmem.freelist.length - 1 < m.proc.pagetable.missing (pgrounddown va))

section Swapin

variable {env : FsEnv} {m m' : Machine} {i slot va : Nat} {frame : Option Nat}

theorem Machine.Evicts.savedIn {j : Nat} (evicts : m.Evicts j m') (saved : m.SavedIn i slot) :
    m'.SavedIn i slot := by
  -- The page evicted was resident, and it takes a slot that was not marked.
  have other : i ≠ j := by
    rintro rfl
    have resident := evicts.resident
    rw [saved.swapped] at resident
    exact absurd resident (by decide)
  obtain ⟨swapped, held, marked⟩ := saved
  cases evicts with
  | discard | forget =>
    refine ⟨?_, ?_, marked⟩ <;>
      simpa [Machine.release, PagingInfo.drop, PagingInfo.setPage, other]
  | save pte new f fs _ _ _ _ chosen =>
    refine ⟨?_, ?_, ?_⟩
    · simpa [Machine.release, PagingInfo.save, PagingInfo.setPage, other]
    · simpa [Machine.release, PagingInfo.save, PagingInfo.setPage, other]
    · by_cases same : slot = new
      · simp [Machine.release, PagingInfo.save, same]
      · simpa [Machine.release, PagingInfo.save, same]

theorem Machine.Gets.savedIn (gets : m.Gets env frame m') (saved : m.SavedIn i slot) :
    m'.SavedIn i slot := by
  cases gets.obtains with
  | free => exact ⟨saved.swapped, saved.held, saved.marked⟩
  | starved _ _ idle =>
    rw [idle.same]
    exact ⟨saved.swapped, saved.held, saved.marked⟩
  | evicted j _ _ _ _ _ evicts =>
    obtain ⟨swapped, held, marked⟩ := evicts.savedIn saved
    exact ⟨swapped, held, marked⟩
  | wasted j _ _ _ evicts => exact evicts.savedIn saved

theorem Machine.Gets.slotKept (gets : m.Gets env frame m')
    (spared : m.Saving → ∀ f, m.DropsFile env f → (m.fs.inodes f).size < slot * pgsize + pgsize)
    (marked : m.proc.paging.swapBitmap slot = true) : m.SlotKept m' slot := by
  cases gets with
  | free | bare | forgot | dropped => exact fun f page file has => ⟨file, has⟩
  | stuck j _ full chosen kept saves => exact saves.slotKept (spared ⟨full, j, chosen, kept⟩) marked
  | saved j f fs new pte full chosen kept target free entry accepted managed =>
    have saves : m.Saves env j 0 _ := .saved f fs new pte target free entry accepted managed
    exact saves.slotKept (spared ⟨full, j, chosen, kept⟩) marked

theorem not_recoverable_prepare {pg : PagingInfo} (lost : m'.proc.paging =
    (swapSource i slot).prepare pg) : ¬ m.Recoverable m' i slot := by
  rintro ⟨⟨_, held, _⟩, _⟩
  simp [lost, swapSource, PagingInfo.setPage] at held

theorem slotBytes_ready {mem : Nat} (gets : m.Gets env (some mem) m') :
    slotBytes m'.fs m'.proc.paging.swapfile slot = none ↔
      slotBytes (m.ready env).fs (m.ready env).proc.paging.swapfile slot = none := by
  obtain ⟨swapfile, -, sizes⟩ := gets.sized
  rw [swapfile]
  cases (m.ready env).proc.paging.swapfile with
  | none => rfl
  | some f => exact slotBytes_none (sizes f) _

/-- A swap-in that loses the page returns -1. -/
theorem swapinPage_loses (page : getPageInfo (pgrounddown va) = some i)
    (saved : m.SavedIn i slot) (loses : m.SwapinLoses env va slot) :
    wp (swapinPage env va) (fun r m' => r = -1 ∧ ¬ m.Recoverable m' i slot) (fun _ => False) m := by
  have here : ∀ {j}, getPageInfo (pgrounddown va) = some j →
      i = j ∧ (m.proc.paging.pages j).swapSlot = slot := by
    intro j found
    obtain rfl : i = j := by simpa [page] using found
    exact ⟨rfl, saved.held⟩
  have notLost : ¬ ∀ j, getPageInfo (pgrounddown va) = some j →
      (m.proc.paging.pages j).state = .swapped → (m.proc.paging.pages j).swapSlot < 0 := by
    intro lost
    have negative := lost i page saved.swapped
    rw [saved.held] at negative
    omega
  rcases loses with ⟨saving, f, drops, inside⟩ | ⟨⟨pa, yields, managed⟩, readable, short⟩
  · -- No frame can be had, and the attempt has freed the file.
    obtain ⟨full, j, chosen, kept⟩ := saving
    have stuck : ∀ pa, ¬ m.Yields env pa := by
      rintro pa (⟨rest, front⟩ | ⟨-, k, pte, chosen', -, -, room⟩)
      · simp [full] at front
      · obtain rfl : j = k := by simpa [chosen] using chosen'
        obtain ⟨g, fs, _, target, -⟩ := room.resolve_left kept
        simp [drops.swapTarget] at target
    have gone : ∀ {frame m'}, m.Gets env frame m' → frame = none ∧ ¬ m.SlotKept m' slot := by
      intro frame m' gets
      cases gets with
      | free _ rest front => simp [full] at front
      | bare _ alone => simp [chosen] at alone
      | forgot k _ chosen' clean | dropped k _ _ chosen' clean =>
        obtain rfl : j = k := by simpa [chosen] using chosen'
        exact absurd clean kept
      | stuck k _ _ _ _ saves => exact ⟨rfl, (drops.not_kept inside saves).2⟩
      | saved _ _ _ _ _ _ _ _ target => simp [drops.swapTarget] at target
    refine wp_swapinPage (fun lost => absurd lost notLost) (fun _ pa _ _ _ yields => absurd yields (stuck pa))
      (fun _ mem m' _ _ _ gets => absurd (gone gets).1 (by simp))
      (fun _ mem m' _ _ _ gets => absurd (gone gets).1 (by simp)) fun j r m' found _ _ brings => ?_
    cases brings with
    | starved _ gets => exact ⟨rfl, fun kept => (gone gets).2 kept.contents⟩
    | unread _ _ gets => exact absurd (gone gets).1 (by simp)
    | refused _ _ _ _ gets => exact absurd (gone gets).1 (by simp)
    | mapped _ _ _ _ gets => exact absurd (gone gets).1 (by simp)
  · -- The slot is given back before the table turns out to lack memory.
    have readable' : ∀ {mem m'}, m.Gets env (some mem) m' →
        slotBytes m'.fs m'.proc.paging.swapfile slot ≠ none :=
      fun gets none => readable ((slotBytes_ready gets).mp none)
    refine wp_swapinPage (fun lost => absurd lost notLost) (fun _ pa' _ _ _ yields' bad => ?_)
      (fun j mem m' found _ _ gets shut => ?_) (fun j mem m' found _ _ gets _ present => ?_)
      fun j r m' found _ _ brings => ?_
    · exact bad (yields.unique yields' ▸ managed)
    · exact readable' gets (by simp [slotBytes, shut])
    · -- A page that is mapped has all of its table pages.
      obtain ⟨pte, entry⟩ := Option.isSome_iff_exists.mp present
      have none := missing_eq_zero.mpr (lowDir_isSome_of_lookup entry)
      have same := (gets.left (pgrounddown va)).2
      omega
    obtain ⟨rfl, held⟩ := here found
    rw [held] at brings
    cases brings with
    | starved _ gets => exact absurd yields (gets.not_yields pa)
    | unread m₁ mem gets unread => exact absurd unread (readable' gets)
    | refused m₁ mem bytes t gets => exact ⟨rfl, not_recoverable_prepare rfl⟩
    | mapped m₁ mem bytes t gets _ _ room =>
      obtain ⟨left, same⟩ := gets.left (pgrounddown va)
      omega

/-- A swap-in that fails keeps the page in its slot exactly if the state before does not lose it.

The slot is given back before the page is mapped, and mapping it may still fail. -/
theorem failed_swapin_recoverable_iff (page : getPageInfo (pgrounddown va) = some i)
    (saved : m.SavedIn i slot) :
    (∀ m', swapinPage env va m = .ok (-1, m') → m.Recoverable m' i slot) ↔
      ¬ m.SwapinLoses env va slot := by
  refine ⟨fun keeps loses => ?_, fun spared m' failed => ?_⟩
  · obtain ⟨_, m', ended, rfl, gone⟩ := exists_ok_of_wp (swapinPage_loses page saved loses)
    exact gone (keeps m' ended)
  · have kept : ∀ {frame m'}, m.Gets env frame m' → m.Recoverable m' i slot := fun gets =>
      ⟨gets.savedIn saved, gets.slotKept (fun saving f drops => by
        by_contra inside
        exact spared (Or.inl ⟨saving, f, drops, Nat.not_lt.mp inside⟩)) saved.marked⟩
    have judged : wp (swapinPage env va) (fun r m' => r = -1 → m.Recoverable m' i slot)
        (fun _ => True) m := by
      refine wp_swapinPage (fun lost _ => ?_) (fun _ _ _ _ _ _ _ => trivial)
        (fun _ _ _ _ _ _ _ _ => trivial) (fun _ _ _ _ _ _ _ _ _ => trivial) fun j r m' found _ _ brings => ?_
      · have negative := lost i page saved.swapped
        rw [saved.held] at negative
        omega
      obtain rfl : i = j := by simpa [page] using found
      rw [saved.held] at brings
      cases brings with
      | starved _ gets => exact fun _ => kept gets
      | unread m₁ mem gets =>
        -- A frame given back leaves the tables and the files alone.
        obtain ⟨stays, files⟩ := kept gets
        exact fun _ => ⟨⟨stays.swapped, stays.held, stays.marked⟩, files⟩
      | refused m₁ mem bytes t gets filled grown _ _ short managed =>
        -- There was a frame and the slot could be read, so the table pages could be had.
        obtain ⟨left, same⟩ := gets.left (pgrounddown va)
        refine absurd (Or.inr ⟨⟨mem, gets.yields.1, gets.yields.2.mp managed⟩, fun none => ?_, ?_⟩)
          spared
        · have readable : slotBytes m₁.fs m₁.proc.paging.swapfile slot = some bytes := filled
          simp [(slotBytes_ready gets).mpr none] at readable
        · omega
      | mapped => exact fun zero => absurd zero (by decide)
    exact wp_ok judged failed rfl

end Swapin

def savedMachine (free : Nat) : Machine :=
  let m := initMachine free ⟨some .file, pgsize, fun _ => 42⟩
  { m with proc := { m.proc with paging := { m.proc.paging with
      swapfile := some 2
      swapBitmap := fun slot => slot == 0
      swapUsed := 1
      pages := Function.update m.proc.paging.pages 514
        ⟨514 * pgsize, .swapped, true, 1, 0, false⟩ } } }

theorem savedMachine_saved (free : Nat) : (savedMachine free).SavedIn 514 0 :=
  ⟨by simp [savedMachine], by simp [savedMachine], rfl⟩

/-- With memory for the frame but not for its table pages, the page is lost. -/
theorem failed_swapin_loses : (savedMachine 1).SavedIn 514 0 ∧
    ∃ m', swapinPage someFiles 0x202008 (savedMachine 1) = .ok (-1, m') ∧
      ¬ (savedMachine 1).Recoverable m' 514 0 := by
  have ran : (swapinPage someFiles 0x202008 (savedMachine 1)).toOption.any
      (fun (r, m') => r = -1 ∧ ¬ m'.SavedIn 514 0) := by decide
  obtain ⟨r, m', failed, ended⟩ := exists_ok_of_any ran
  obtain ⟨rfl, lost⟩ := of_decide_eq_true ended
  exact ⟨savedMachine_saved 1, m', failed, fun kept => lost kept.saved⟩

/-- With three pages free a failure would leave the page to be recovered. -/
theorem failed_swapin_recoverable_three : getPageInfo (pgrounddown 0x202008) = some 514 ∧
    (savedMachine 3).SavedIn 514 0 ∧ ¬ (savedMachine 3).SwapinLoses someFiles 0x202008 0 ∧
    ∀ m', swapinPage someFiles 0x202008 (savedMachine 3) = .ok (-1, m') →
      (savedMachine 3).Recoverable m' 514 0 := by
  have page : getPageInfo (pgrounddown 0x202008) = some 514 := by decide
  have spared : ¬ (savedMachine 3).SwapinLoses someFiles 0x202008 0 := by
    rintro (⟨saving, -⟩ | ⟨-, -, short⟩)
    · exact absurd saving.1 (by decide)
    · exact absurd short (by decide)
  exact ⟨page, savedMachine_saved 3, spared,
    (failed_swapin_recoverable_iff page (savedMachine_saved 3)).mpr spared⟩

/-- A page that is not resident cannot be swapped out, and trying leaves everything alone. -/
theorem failed_swapout_untouched_saved : ∃ m',
    swapoutPage someFiles 0x202008 (savedMachine 1) = .ok (-1, m') ∧
    (savedMachine 1).Untouched m' ∧ (savedMachine 1).SlotKept m' 0 := by
  have ran : swapoutPage someFiles 0x202008 (savedMachine 1) = .ok (-1, savedMachine 1) := rfl
  obtain ⟨untouched, slots⟩ := failed_swapout_untouched_iff someFiles (savedMachine 1) 0x202008
  have spared : ¬ (savedMachine 1).DropsSlots someFiles (0x202008 / pgsize) := by
    rintro ⟨-, resident, -⟩
    exact absurd resident (by decide)
  exact ⟨_, ran, untouched _ ran, slots.mpr spared _ ran 514 0 (savedMachine_saved 1)⟩

def closedMachine : Machine :=
  let m := savedMachine 1
  { m with
    fs := { m.fs with dirlookup := fun d n =>
      if d = rootino ∧ n = swapName 1 then some 2 else m.fs.dirlookup d n }
    proc := { m.proc with paging := { m.proc.paging with
      swapfile := none
      pages := Function.update m.proc.paging.pages 3 ⟨3 * pgsize, .resident, true, 2, -1, false⟩ } } }

def noEntry : FsEnv := ⟨some 3, true, false, true, 2 ^ 22⟩

/-- Swapping out a page while the file table is full frees the file another page is saved in. -/
theorem swapout_frees_slot : closedMachine.SavedIn 514 0 ∧
    (∃ page, closedMachine.fs.SlotHas 2 0 page) ∧ closedMachine.slotFile = some 2 ∧
    ∃ m', swapoutPage noEntry (3 * pgsize) closedMachine = .ok (-1, m') ∧
      (m'.fs.inodes 2).type = none ∧ (m'.fs.inodes 2).size = 0 ∧
      ¬ closedMachine.SlotKept m' 0 := by
  have ran : (swapoutPage noEntry (3 * pgsize) closedMachine).toOption.any (fun (r, m') =>
      r = -1 ∧ (m'.fs.inodes 2).type = none ∧ (m'.fs.inodes 2).size = 0) := by decide
  obtain ⟨r, m', failed, ended⟩ := exists_ok_of_any ran
  obtain ⟨rfl, freed, empty⟩ := of_decide_eq_true ended
  have has : closedMachine.fs.SlotHas 2 0 fun _ => 42 := ⟨by decide, fun _ _ => rfl⟩
  refine ⟨⟨by decide, by decide, rfl⟩, ⟨_, has⟩, by decide, m', failed, freed, empty, fun kept => ?_⟩
  have still := (kept 2 _ (by decide) has).2.1
  rw [empty] at still
  exact absurd still (by decide)

end Xv6
