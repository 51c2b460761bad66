import Xv6.ArgLaws
import Xv6.FillLaws

/-! Everything that replacing the image of a process can do, and when it panics. -/

namespace Xv6

open Prog

def execHeader (fs : Fs) (ip : Nat) : Option Elfhdr :=
  let (got, bytes) := readi fs ip (fun _ => 0) 0 elfhdrSize
  if got ≠ elfhdrSize then none
  else if (parseElfhdr bytes).magic ≠ elfMagic then none
  else some (parseElfhdr bytes)

def execLoad (fs : Fs) (ip : Nat) (hdr : Elfhdr) : SegmentLoad :=
  loadSegments fs ip hdr.phnum (u32 hdr.phoff) 0 Segments.zero

def SegmentLoad.top (load : SegmentLoad) : Nat := pgroundup load.sz

def kernelMissing (va : Nat) : Nat :=
  if px 2 va = px 2 trampolineVa then if px 1 va = px 1 trampolineVa then 0 else 1 else 2

def stackPages (top : Nat) : Nat := needs kernelMissing top 2

def SegmentLoad.Panics (load : SegmentLoad) (n : Nat) : Prop :=
  -- The cleanup walks past the address limit, or a stack page meets the kernel's pages.
  maxva < load.top ∨ load.ok = true ∧
    (4 ≤ n ∧ trapframeVa ≤ load.top ∨ 5 ≤ n ∧ trapframeVa ≤ load.top + pgsize)

instance (load : SegmentLoad) (n : Nat) : Decidable (load.Panics n) :=
  inferInstanceAs (Decidable (_ ∨ _ ∧ (_ ∧ _ ∨ _ ∧ _)))

variable {entry sz top va : Nat} {k : Kmem} {pte : Pte} {pt : PageTable} {argv : List (List UInt8)}

section Image

variable (root mid low trampoline trapframe : Nat)

theorem missing_kernelTable :
    (kernelTable root mid low trampoline trapframe).missing = kernelMissing := by
  funext va
  -- Storing the two kernel entries creates no interior page.
  rw [kernelTable, missing_setPte, missing_setPte, PageTable.missing, kernelMissing]
  by_cases high : px 2 va = px 2 trampolineVa
  · rw [high, Dir.slot_set_self, if_pos rfl]
    simp only [Dir.slot_set, Dir.slot_empty]
    by_cases middle : px 1 va = px 1 trampolineVa
    · simp only [middle, if_true, Option.isSome_some]
    · simp only [middle, if_false, Option.isSome_none, Bool.false_eq_true]
  · rw [Dir.slot_set_of_ne _ _ high, Dir.slot_empty, if_neg high]

theorem kernelTable_vacant (aligned : va % pgsize = 0) :
    va < maxva ∧ (kernelTable root mid low trampoline trapframe).lookup va = none ↔
      va < trapframeVa := by
  constructor
  · rintro ⟨below, absent⟩
    rw [lookup_kernelTable _ _ _ _ _ (lt_vaSpan below)] at absent
    -- The two pages at or above the trapframe are both mapped.
    by_contra high
    have page : va / pgsize = trapframeVa / pgsize ∨ va / pgsize = trampolineVa / pgsize := by
      simp only [trapframeVa, trampolineVa, maxva, pgsize] at *
      omega
    rcases page with frame | code
    · simp [frame] at absent
    · rw [code] at absent
      split at absent <;> simp at absent
  · intro under
    have below : va < maxva := by
      simp only [trapframeVa, trampolineVa] at *
      omega
    refine ⟨below, ?_⟩
    rw [lookup_kernelTable _ _ _ _ _ (lt_vaSpan below), if_neg, if_neg]
    · simp only [trapframeVa, pgsize] at *
      omega
    · simp only [trapframeVa, trampolineVa, maxva, pgsize] at *
      omega

theorem kernelTable_kernel : (kernelTable root mid low trampoline trapframe).Kernel := by
  intro va below kernel
  rw [lookup_kernelTable _ _ _ _ _ below]
  simp only [kernelPage, Bool.or_eq_true, beq_iff_eq] at kernel
  split
  · exact ⟨_, rfl, rfl⟩
  · rw [if_pos (by tauto)]
    exact ⟨_, rfl, rfl⟩

theorem kernelMissing_top (top : maxva ≤ va + 4 * pgsize) (below : va < maxva) :
    kernelMissing va = 0 := by
  rw [kernelMissing, if_pos, if_pos]
  · simp only [px, trampolineVa, maxva, pgsize] at *
    omega
  · simp only [px, trampolineVa, maxva, pgsize] at *
    omega

theorem fits_kernelTable (aligned : top % pgsize = 0) :
    Vm.Fits ⟨k, kernelTable root mid low trampoline trapframe⟩ top 2 ↔
      (1 ≤ k.freelist.length → top < trapframeVa) ∧
        (2 ≤ k.freelist.length → top + pgsize < trapframeVa) := by
  have next : (top + pgsize) % pgsize = 0 := by simp only [pgsize] at *; omega
  have first := kernelTable_vacant root mid low trampoline trapframe aligned
  have second := kernelTable_vacant root mid low trampoline trapframe next
  have one : needs kernelMissing top 1 = 1 + kernelMissing top := by
    simp only [needs, grownMissing, Nat.zero_mul, Nat.add_zero]
  unfold Vm.Fits
  rw [missing_kernelTable]
  constructor
  · intro fits
    constructor
    · intro some
      have here := fits 0 (by decide) (by rw [needs]; exact some)
      exact first.mp here
    · intro more
      -- The first page is below the trapframe; next to it nothing is missing for the second.
      have here := fits 0 (by decide) (by rw [needs]; exact Nat.lt_of_lt_of_le (by decide) more)
      by_contra above
      have near : maxva ≤ top + 4 * pgsize := by
        simp only [trapframeVa, trampolineVa] at *
        omega
      have there := fits 1 (by decide) (by rw [one, kernelMissing_top near here.1]; exact more)
      exact above (second.mp there)
  · rintro ⟨some, more⟩ i two framed
    obtain rfl | rfl : i = 0 ∨ i = 1 := by omega
    · rw [Nat.zero_mul, Nat.add_zero]
      exact first.mpr (some (by rw [needs] at framed; exact framed))
    · rw [Nat.one_mul]
      have enough : 1 + kernelMissing top < k.freelist.length := framed
      exact second.mpr (more (by omega))

structure PageTable.Image (pt : PageTable) (top guard stack : Nat) : Prop where
  lookup : ∀ vb, vb < vaSpan → pt.lookup vb =
    if vb / pgsize = top / pgsize then some ⟨guard, ⟨true, true, false, false⟩⟩
    else if vb / pgsize = top / pgsize + 1 then some ⟨stack, ⟨true, true, false, true⟩⟩
    else if vb / pgsize = trapframeVa / pgsize then
      some ⟨trapframe, ⟨true, true, false, false⟩⟩
    else if vb / pgsize = trampolineVa / pgsize then
      some ⟨trampoline, ⟨true, false, true, false⟩⟩
    else none

variable {root mid low trampoline trapframe} {pt : PageTable} {top guard stack : Nat}

theorem PageTable.Image.leaves (image : pt.Image trampoline trapframe top guard stack) :
    pt.Leaves := by
  intro va pte below entry
  rw [image.lookup va below] at entry
  -- Each of the four entries of the image is readable.
  split at entry
  · obtain rfl := Option.some.inj entry; rfl
  split at entry
  · obtain rfl := Option.some.inj entry; rfl
  split at entry
  · obtain rfl := Option.some.inj entry; rfl
  split at entry
  · obtain rfl := Option.some.inj entry; rfl
  · simp at entry

theorem PageTable.Image.kernel (image : pt.Image trampoline trapframe top guard stack)
    (under : top + pgsize < trapframeVa) : pt.Kernel := by
  intro va below kernel
  rw [image.lookup va below]
  simp only [kernelPage, Bool.or_eq_true, beq_iff_eq] at kernel
  -- The guard page and the stack page lie below the kernel's pages.
  have apart : va / pgsize ≠ top / pgsize ∧ va / pgsize ≠ top / pgsize + 1 := by
    simp only [trapframeVa, trampolineVa, maxva, pgsize] at *
    omega
  rw [if_neg apart.1, if_neg apart.2]
  split
  · exact ⟨_, rfl, rfl⟩
  · rw [if_pos (by tauto)]
    exact ⟨_, rfl, rfl⟩

theorem PageTable.Image.stack_entry (image : pt.Image trampoline trapframe top guard stack)
    (under : top + pgsize < trapframeVa) :
    pt.lookup (top + pgsize) = some ⟨stack, ⟨true, true, false, true⟩⟩ := by
  have next : (top + pgsize) / pgsize = top / pgsize + 1 := Nat.add_div_right top (by decide)
  have below : top + pgsize < vaSpan := by
    simp only [trapframeVa, trampolineVa, maxva, pgsize, vaSpan] at *
    omega
  rw [image.lookup _ below, if_neg (by omega), if_pos next]

theorem image_of_fills {v : Vm} (aligned : top % pgsize = 0) (under : top + pgsize < trapframeVa)
    (filled : Vm.Fills ⟨k, kernelTable root mid low trampoline trapframe⟩ v
      (pageRun (top / pgsize) 2 ⟨true, true, false, true⟩ fun _ => 0)) :
    ∃ guard stack, v.pt.lookup top = some ⟨guard, ⟨true, true, false, true⟩⟩ ∧
      stack ∈ k.freelist ∧ stack ∉ v.kmem.freelist ∧ (v.kmem.ram stack = fun _ => 0) ∧
      (v.pt.setPte top (some ⟨guard, ⟨true, true, false, false⟩⟩)).Image trampoline trapframe
        top guard stack ∧
      (v.pt.setPte top (some ⟨guard, ⟨true, true, false, false⟩⟩)).frames = v.pt.frames := by
  have next : (top + pgsize) / pgsize = top / pgsize + 1 := Nat.add_div_right top (by decide)
  have limit : top + pgsize < vaSpan ∧ top < vaSpan ∧ top / pgsize + 1 < trapframeVa / pgsize := by
    simp only [trapframeVa, trampolineVa, maxva, pgsize, vaSpan] at *
    omega
  obtain ⟨_, guard, guardEntry, -, -, -⟩ := filled.added top _ _ limit.2.1
    (show pageRun (top / pgsize) 2 _ _ (top / pgsize) = _ from if_pos (by omega))
  obtain ⟨_, stack, stackEntry, taken, gone, zero⟩ := filled.added (top + pgsize) _ _ limit.1
    (show pageRun (top / pgsize) 2 _ _ ((top + pgsize) / pgsize) = _ from if_pos (by omega))
  have path := lowDir_isSome_of_lookup guardEntry
  refine ⟨guard, stack, guardEntry, taken, gone, zero, ⟨fun vb below => ?_⟩, ?_⟩
  · rw [lookup_setPte path _ limit.2.1 below]
    -- The guard page was just stored, the stack page was filled, the rest is the new table's.
    by_cases isGuard : vb / pgsize = top / pgsize
    · rw [if_pos isGuard, if_pos isGuard]
    by_cases isStack : vb / pgsize = top / pgsize + 1
    · rw [if_pos isStack, lookup_congr v.pt (isStack.trans next.symm), stackEntry]
    rw [if_neg isStack]
    have other : pageRun (top / pgsize) 2 (⟨true, true, false, true⟩ : Perm) (fun _ => (0 : UInt8))
        (vb / pgsize) = none := if_neg (by omega)
    rw [filled.kept vb below other, lookup_kernelTable _ _ _ _ _ below]
  · have exchange := frames_setPte limit.2.1 path (some ⟨guard, ⟨true, true, false, false⟩⟩)
    rw [guardEntry] at exchange
    -- The guard page keeps its frame and only loses a permission bit.
    exact add_right_cancel exchange

end Image

theorem usub_add {a b : Nat} (fits : a + b < 2 ^ 64) : usub (a + b) b = a := by
  simp only [usub, u64]
  omega

section Clear

variable {va : Nat} {post : Unit → Vm → Prop} {abort : Panic → Prop} {s : Vm}

theorem wp_uvmclear (below : va < maxva) (entry : s.pt.lookup va = some pte)
    (done : post () ⟨s.kmem,
      s.pt.setPte va (some { pte with perm := { pte.perm with u := false } })⟩) :
    wp (uvmclear va) post abort s := by
  unfold uvmclear
  rw [wp_bind]
  apply wp_walk_present below (lowDir_isSome_of_lookup entry)
  simp only [Bool.not_true, Bool.false_eq_true, if_false, wp_bind, wp_get, entry, storePte,
    wp_modify]
  exact done

theorem wp_uvmclear_above (above : maxva ≤ va) (panicked : abort .walk) :
    wp (uvmclear va) post abort s := by
  unfold uvmclear
  rw [wp_bind]
  exact wp_walk_false (fun _ => panicked) fun below => by omega

end Clear

section Exec

variable {env : FsEnv} {post : Int → Machine → Prop} {abort : Panic → Prop} {m : Machine}

theorem wp_execBad (leaves : pt.Leaves) (managed : pt.Managed m.kmem)
    (above : maxva < pgroundup sz → abort .walk)
    (done : ∀ k, pgroundup sz ≤ maxva → m.kmem.Trades k pt.frames 0 →
      post (-1) { m with
        kmem := k
        proc := { m.proc with paging := { m.proc.paging with execIp := none } } }) :
    wp (execBad (some (pt, sz))) post abort m := by
  simp only [execBad, wp_bind, wp_withKmem, wp_modifyPaging, wp_pure]
  apply wp_procFreepagetable above (fun odd => absurd leaves odd)
    (fun foreign => absurd managed foreign)
  intro k within traded
  exact done k within traded

theorem wp_execArgs (base : Nat) (top : sz = base + pgsize) (aligned : base % pgsize = 0)
    (room : pgsize ≤ base) (below : sz ≤ maxva) (short : ∀ arg ∈ argv, arg.length < pgsize)
    (found : pt.lookup base = some pte) (user : pte.perm.u = true) (writable : pte.perm.w = true)
    (zeroed : m.kmem.ram pte.pa = fun _ => 0) (mine : pte.pa ∈ pt.frames) (leaves : pt.Leaves)
    (managed : pt.Managed m.kmem) (oldLeaves : m.proc.pagetable.Leaves)
    (oldManaged : m.proc.pagetable.Managed m.kmem) (oldSize : m.proc.sz ≤ maxva)
    (failed : ∀ k, layStack base argv = none → m.kmem.Trades k pt.frames 0 →
      post (-1) { m with
        kmem := k
        proc := { m.proc with paging := { m.proc.paging with execIp := none } } })
    (done : ∀ sp argc page k, layStack base argv = some (sp, argc, page) →
      (m.kmem.put pte.pa page).Trades k m.proc.pagetable.frames 0 →
      post argc { m with
        kmem := k
        proc := { m.proc with
          pagetable := pt
          sz := sz
          tf := { m.proc.tf with a1 := sp, epc := entry, sp := sp } } }) :
    wp (execArgs env entry argv pt sz) post abort m := by
  have limit : maxva < 2 ^ 64 := by decide
  have stackbase : usub sz (userstack * pgsize) = base := by
    rw [top, show userstack * pgsize = pgsize from rfl]
    exact usub_add (by omega)
  have rounded : pgroundup sz ≤ maxva := pgroundup_le_maxva below
  -- Whatever was written to the stack page, giving up frees the whole image.
  have give : ∀ page, layStack base argv = none →
      wp (execBad (some (pt, sz))) post abort { m with kmem := m.kmem.put pte.pa page } := by
    intro page stopped
    apply wp_execBad (m := { m with kmem := m.kmem.put pte.pa page }) leaves managed
      (fun above => by omega)
    intro k _ traded
    exact failed k stopped ((Kmem.trades_write mine page).trans traded)
  have same : m = { m with kmem := m.kmem.put pte.pa fun _ => 0 } := by
    rw [← zeroed, Kmem.put_ram]
  rw [execArgs, stackbase, wp_bind, same]
  apply wp_pushArgs aligned room (by omega) found user writable argv sz [] (fun _ => 0) short
    (by omega) (by omega)
  · -- The strings did not fit.
    intro stopped page
    have none : layStack base argv = none := by simp only [layStack, ← top, stopped]
    exact give page none
  · intro sp ustack page laid
    have bounds := layArgs_bounds room (by omega) short laid (by omega) (by omega) (by simp)
    have words : ((ustack ++ [0]).flatMap wordBytes).length = (ustack.length + 1) * 8 := by
      rw [length_flatMap_wordBytes, List.length_append]
      rfl
    have few : (ustack.length + 1) * 8 ≤ pgsize := by
      simp only [maxarg, pgsize] at *
      omega
    have moved := pushDown_le room bounds.1 (by omega) few
    have whole : layStack base argv = layWords base sp ustack page := by
      simp only [layStack, ← top, laid]
    by_cases under : pushDown sp ((ustack.length + 1) * 8) < base
    · -- The addresses of the strings did not fit below them.
      rw [layWords, if_pos under] at whole
      simp only [under]
      exact give page whole
    rw [layWords, if_neg under] at whole
    simp only [under, if_false, wp_bind]
    apply wp_copyout_page aligned (by simp only [pgsize] at *; omega) found user writable
      (Nat.not_lt.mp under) (by omega)
    simp only [Kmem.ram_put_self, Kmem.put_put, show ¬ ((0 : Int) < 0) by decide, if_false]
    simp only [execCommit, wp_bind, wp_get, wp_modify, wp_withKmem, wp_pure]
    -- The old image is freed last, with its own size.
    have small := pgroundup_le_maxva oldSize
    have held : m.proc.pagetable.Managed (m.kmem.put pte.pa (writeBytes page
        (pushDown sp ((ustack.length + 1) * 8) - base) ((ustack ++ [0]).flatMap wordBytes))) :=
      oldManaged
    apply wp_procFreepagetable (fun above => by omega) (fun odd => absurd oldLeaves odd)
      (fun foreign => absurd held foreign)
    intro k _ traded
    exact done _ _ _ k whole traded

theorem wp_execStack {guard stack trampoline trapframe : Nat} {pt' : PageTable}
    (aligned : top % pgsize = 0) (under : top + pgsize < trapframeVa)
    (guarded : pt.lookup top = some ⟨guard, ⟨true, true, false, true⟩⟩)
    (cleared : pt' = pt.setPte top (some ⟨guard, ⟨true, true, false, false⟩⟩))
    (image : pt'.Image trampoline trapframe top guard stack)
    (zeroed : m.kmem.ram stack = fun _ => 0) (managed : pt'.Managed m.kmem)
    (short : ∀ arg ∈ argv, arg.length < pgsize) (oldLeaves : m.proc.pagetable.Leaves)
    (oldManaged : m.proc.pagetable.Managed m.kmem) (oldSize : m.proc.sz ≤ maxva)
    (noSwap : ∀ k, (openSwap m.fs env m.proc.cwd m.proc.pid).1 = none →
      m.kmem.Trades k pt'.frames 0 →
      post (-1) { m with
        kmem := k
        fs := (openSwap m.fs env m.proc.cwd m.proc.pid).2
        proc := { m.proc with paging := { m.proc.paging with
          heapStart := top + 2 * pgsize, stackTop := top + 2 * pgsize
          swapfile := none, execIp := none } } })
    (badArgs : ∀ f k, (openSwap m.fs env m.proc.cwd m.proc.pid).1 = some f →
      layStack (top + pgsize) argv = none → m.kmem.Trades k pt'.frames 0 →
      post (-1) { m with
        kmem := k
        fs := (openSwap m.fs env m.proc.cwd m.proc.pid).2
        proc := { m.proc with paging := { m.proc.paging with
          heapStart := top + 2 * pgsize, stackTop := top + 2 * pgsize
          swapfile := some f, execIp := none } } })
    (done : ∀ f sp argc page k, (openSwap m.fs env m.proc.cwd m.proc.pid).1 = some f →
      layStack (top + pgsize) argv = some (sp, argc, page) →
      (m.kmem.put stack page).Trades k m.proc.pagetable.frames 0 →
      post argc { m with
        kmem := k
        fs := (openSwap m.fs env m.proc.cwd m.proc.pid).2
        proc := { m.proc with
          pagetable := pt'
          sz := top + 2 * pgsize
          tf := { m.proc.tf with a1 := sp, epc := entry, sp := sp }
          paging := { m.proc.paging with
            heapStart := top + 2 * pgsize, stackTop := top + 2 * pgsize
            swapfile := some f } } }) :
    wp (execStack env entry argv pt (top + 2 * pgsize)) post abort m := by
  have limit : top + 2 * pgsize ≤ maxva ∧ top < maxva ∧ maxva < 2 ^ 64 := by
    simp only [trapframeVa, trampolineVa, maxva] at *
    omega
  have bottom : usub (top + 2 * pgsize) ((userstack + 1) * pgsize) = top := by
    exact usub_add (by omega)
  have rounded : pgroundup (top + 2 * pgsize) ≤ maxva := pgroundup_le_maxva limit.1
  rw [execStack, bottom]
  simp only [wp_bind, wp_withKmem, wp_onTable]
  apply wp_uvmclear limit.2.1 guarded
  simp only [wp_modifyPaging]
  rw [← cleared]
  -- The old swap file is closed, so the one opened is determined by the file system.
  apply wp_createSwapFile_none rfl
  · intro refused
    refine wp_execBad image.leaves ?_ (fun above => by omega) ?_
    · exact managed
    · intro k _ traded
      exact noSwap k refused traded
  · intro f opened
    have next : (top + pgsize) % pgsize = 0 := by simp only [pgsize] at *; omega
    have user : kernelPage ((top + pgsize) / pgsize) = false := by
      simp only [kernelPage, Bool.or_eq_false_iff, beq_eq_false_iff_ne, trapframeVa, trampolineVa,
        maxva, pgsize] at *
      omega
    have found := image.stack_entry under
    have mine : stack ∈ pt'.frames := mem_frames_of_lookup
      (lt_vaSpan (by simp only [pgsize] at *; omega)) found user
    refine wp_execArgs (top + pgsize) (by omega) next (by omega) limit.1 short found rfl rfl
      ?_ mine image.leaves ?_ ?_ ?_ ?_ ?_ ?_
    · exact zeroed
    · exact managed
    · exact oldLeaves
    · exact oldManaged
    · exact oldSize
    · intro k stopped traded
      exact badArgs f k opened stopped traded
    · intro sp argc page k laid traded
      exact done f sp argc page k opened laid traded

end Exec

end Xv6
