import Xv6.ExecEnds
import Xv6.Fork

/-! Everything that creating, copying, resizing and freeing a process can do. -/

namespace Xv6

open Prog

section Memory

variable {abort : Panic → Prop} {k : Kmem}

theorem wp_allocproc {pid : Nat} {post : Option Proc → Kmem → Prop}
    (managed : ∀ f, f ∈ k.freelist → k.Manages f)
    (short : ∀ l, k.Trades l 0 0 → post none l)
    (made : ∀ frame root mid low l, l.freelist <:+ k.freelist → k.Draws l →
      k.Trades l 0 ({frame} + (kernelTable root mid low k.trampoline frame).frames) →
      post (some ⟨.used, pid, false, 0, kernelTable root mid low k.trampoline frame, frame,
        Trapframe.junk, 0, initPagingInfo⟩) l) :
    wp (allocproc pid) post abort k := by
  simp only [allocproc, wp_bind]
  apply wp_kalloc
  · intro _
    rw [wp_pure]
    exact short k (Kmem.Trades.refl k 0)
  intro frame rest front
  have drawn : k.Draws (k.take frame rest) := by
    have taken := Kmem.draws_take front fun _ => 5
    simpa only [Kmem.take, Function.update_idem] using taken
  have traded : k.Trades (k.take frame rest) 0 {frame} := Kmem.trades_obtain 0 front
  have owned : ∀ f, f ∈ (k.take frame rest).freelist → (k.take frame rest).Manages f :=
    fun f member => managed f (by rw [front]; exact List.mem_cons_of_mem _ member)
  simp only [wp_bind]
  apply wp_procPagetable (fun foreign => absurd owned foreign)
  · -- Without memory for a table the trapframe is given back.
    intro l _ back
    simp only [wp_bind, wp_pure]
    apply wp_kfree
    · intro foreign
      have mine := managed frame (by rw [front]; exact List.mem_cons_self)
      have same : l.Manages frame ↔ k.Manages frame := by
        simp only [Kmem.Manages, back.kend, Kmem.take]
      exact absurd (same.mpr mine) foreign
    · intro _
      have framed := back.frame {frame}
      exact short _ ((traded.trans framed).trans (Kmem.trades_give l frame))
  · intro root mid low rest' l front' left drawn' back
    have suffix : l.freelist <:+ k.freelist := by
      have lower : rest = root :: mid :: low :: rest' := front'
      rw [left, front, lower]
      exact ⟨[frame, root, mid, low], rfl⟩
    have framed := back.frame {frame}
    rw [zero_add, add_comm] at framed
    rw [wp_pure]
    refine made frame root mid low l suffix (drawn.trans drawn') ?_
    rw [frames_kernelTable]
    exact traded.trans framed

theorem wp_freeproc {p : Proc} {post : Unit → Kmem → Prop} (size : p.sz ≤ maxva)
    (leaves : p.pagetable.Leaves)
    (managed : ∀ f, f ∈ {p.trapframe} + p.pagetable.frames → k.Manages f)
    (done : ∀ l, k.Trades l ({p.trapframe} + p.pagetable.frames) 0 → post () l) :
    wp (freeproc p) post abort k := by
  have rounded := pgroundup_le_maxva size
  simp only [freeproc, wp_bind]
  apply wp_kfree
  · intro foreign
    have mine := managed p.trapframe (Multiset.mem_add.mpr (Or.inl (Multiset.mem_singleton_self _)))
    exact absurd mine foreign
  · intro _
    have rest : p.pagetable.Managed (k.give p.trapframe) :=
      fun f member => managed f (Multiset.mem_add.mpr (Or.inr member))
    apply wp_procFreepagetable (fun above => by omega) (fun odd => absurd leaves odd)
      (fun foreign => absurd rest foreign)
    intro l _ traded
    have given := (Kmem.trades_give k p.trapframe).frame p.pagetable.frames
    rw [zero_add] at given
    exact done l (given.trans traded)

end Memory

structure Machine.Forks (m : Machine) (pid : Nat) (np : Proc) (k : Kmem) : Prop where
  trades : m.kmem.Trades k 0 ({np.trapframe} + np.pagetable.frames)
  /-- Everything but the memory is determined by the parent. -/
  record : np =
    { state := .runnable
      pid := pid
      killed := false
      sz := m.proc.sz
      pagetable := np.pagetable
      trapframe := np.trapframe
      tf := { m.proc.tf with a0 := 0 }
      cwd := m.proc.cwd
      paging := forkPaging m.proc.paging initPagingInfo }
  kernel : np.pagetable.Kernel
  leaves : np.pagetable.Leaves
  /-- Pages the parent has not mapped below its size are not mapped in the child. -/
  vacant : ∀ vb, vb < vaSpan → kernelPage (vb / pgsize) = false →
    m.proc.pagetable.lookup vb = none → np.pagetable.lookup vb = none
  /-- Pages from the size of the parent on are not mapped in the child. -/
  above : ∀ vb, vb < vaSpan → kernelPage (vb / pgsize) = false →
    (m.proc.sz + (pgsize - 1)) / pgsize ≤ vb / pgsize → np.pagetable.lookup vb = none
  /-- Pages the parent has mapped below its size are copied. -/
  copies : ∀ vb pte, vb / pgsize < (m.proc.sz + (pgsize - 1)) / pgsize →
    m.proc.pagetable.lookup vb = some pte →
    ∃ pa, np.pagetable.lookup vb = some ⟨pa, pte.perm⟩ ∧ k.ram pa = m.kmem.ram pte.pa

section Fork

variable {m : Machine} {post : Option Proc → Machine → Prop} {abort : Panic → Prop} {pid : Nat}

theorem Machine.Sound.forks {l : Kmem} {v : Vm} {frame root mid low : Nat} (sound : m.Sound)
    (drawn : m.kmem.Draws l)
    (traded : m.kmem.Trades l 0
      ({frame} + (kernelTable root mid low m.kmem.trampoline frame).frames))
    (filled : Vm.Fills ⟨l, kernelTable root mid low m.kmem.trampoline frame⟩ v
      (copied m.proc.pagetable l.ram ((m.proc.sz + (pgsize - 1)) / pgsize))) :
    m.Forks pid
      { state := .runnable
        pid := pid
        killed := false
        sz := m.proc.sz
        pagetable := v.pt
        trapframe := frame
        tf := { m.proc.tf with a0 := 0 }
        cwd := m.proc.cwd
        paging := forkPaging m.proc.paging initPagingInfo } v.kmem := by
  have few : (m.proc.sz + (pgsize - 1)) / pgsize ≤ trapframeVa / pgsize := by
    have size := sound.size
    simp only [trapframeVa, trampolineVa, maxva, pgsize] at *
    omega
  have framed := filled.trades.frame {frame}
  rw [add_comm, add_comm v.pt.frames] at framed
  -- An entry is looked up through the first address of its page.
  have first : ∀ vb, m.proc.pagetable.lookup (vb / pgsize * pgsize) = m.proc.pagetable.lookup vb :=
    fun vb => lookup_congr _ (Nat.mul_div_cancel _ (by decide))
  have wanted : ∀ vb pte, vb / pgsize < (m.proc.sz + (pgsize - 1)) / pgsize →
      m.proc.pagetable.lookup vb = some pte →
      copied m.proc.pagetable l.ram ((m.proc.sz + (pgsize - 1)) / pgsize) (vb / pgsize) =
        some (pte.perm, l.ram pte.pa) := by
    intro vb pte low entry
    rw [copied, if_pos low, first, entry]
    rfl
  have unwanted : ∀ vb, ¬ (vb / pgsize < (m.proc.sz + (pgsize - 1)) / pgsize ∧
      (m.proc.pagetable.lookup vb).isSome) →
      copied m.proc.pagetable l.ram ((m.proc.sz + (pgsize - 1)) / pgsize) (vb / pgsize) = none := by
    intro vb other
    rw [copied]
    split
    · rename_i low
      rw [first]
      cases entry : m.proc.pagetable.lookup vb with
      | none => rfl
      | some pte => exact absurd ⟨low, by rw [entry]; rfl⟩ other
    · rfl
  -- A user page that is not copied is as absent as it was in the new table.
  have left : ∀ vb, vb < vaSpan → kernelPage (vb / pgsize) = false →
      ¬ (vb / pgsize < (m.proc.sz + (pgsize - 1)) / pgsize ∧
        (m.proc.pagetable.lookup vb).isSome) → v.pt.lookup vb = none := by
    intro vb below user other
    have same := filled.kept vb below (unwanted vb other)
    rw [same, lookup_kernelTable _ _ _ _ _ below]
    simp only [kernelPage, Bool.or_eq_false_iff, beq_eq_false_iff_ne] at user
    rw [if_neg user.1, if_neg user.2]
  refine ⟨traded.trans framed, rfl, fun va below kernel => ?_, fun va pte below entry => ?_,
    fun vb below user absent => ?_, fun vb below user high => ?_, fun vb pte low entry => ?_⟩
  · -- The kernel pages lie above everything that is copied.
    have high : ¬ va / pgsize < (m.proc.sz + (pgsize - 1)) / pgsize := by
      simp only [kernelPage, Bool.or_eq_true, beq_iff_eq] at kernel
      simp only [trapframeVa, pgsize] at *
      omega
    have same := filled.kept va below (unwanted va fun both => high both.1)
    rw [same]
    exact kernelTable_kernel _ _ _ _ _ va below kernel
  · -- A copied entry keeps the permissions of the parent's entry.
    by_cases both : va / pgsize < (m.proc.sz + (pgsize - 1)) / pgsize ∧
        (m.proc.pagetable.lookup va).isSome
    · obtain ⟨pte', entry'⟩ := Option.isSome_iff_exists.mp both.2
      obtain ⟨-, pa, found, -⟩ := filled.added va _ _ below (wanted va pte' both.1 entry')
      obtain rfl : pte = ⟨pa, pte'.perm⟩ := Option.some.inj (entry.symm.trans found)
      exact sound.leaves va pte' below entry'
    · have same := filled.kept va below (unwanted va both)
      rw [same] at entry
      exact kernelTable_leaves _ _ _ _ _ va pte below entry
  · exact left vb below user fun both => by simp [absent] at both
  · exact left vb below user fun both => by omega
  · have below : vb < vaSpan := by
      simp only [trapframeVa, trampolineVa, maxva, pgsize, vaSpan] at *
      omega
    have user : kernelPage (vb / pgsize) = false := by
      simp only [kernelPage, Bool.or_eq_false_iff, beq_eq_false_iff_ne]
      simp only [trapframeVa, trampolineVa, maxva, pgsize] at *
      omega
    obtain ⟨-, pa, found, -, -, bytes⟩ := filled.added vb _ _ below (wanted vb pte low entry)
    refine ⟨pa, found, ?_⟩
    -- The parent's frame was not free, so building the child did not change it.
    have mapped := mem_frames_of_lookup below entry user
    rw [bytes, drawn.ram pte.pa]
    intro free
    exact Multiset.disjoint_left.mp (Multiset.nodup_add.mp sound.nodup).2.2 free mapped

theorem wp_kfork (sound : m.Sound)
    (failed : ∀ k, m.kmem.Trades k 0 0 → post none { m with kmem := k })
    (done : ∀ np k, m.Forks pid np k → post (some np) { m with kmem := k }) :
    wp (kfork pid) post abort m := by
  simp only [kfork, wp_bind, wp_withKmem]
  apply wp_allocproc
  · exact fun f member => sound.managed f (Multiset.mem_add.mpr (Or.inl member))
  · intro l traded
    rw [wp_pure]
    exact failed l traded
  intro frame root mid low l suffix drawn traded
  obtain ⟨building, -⟩ := sound.building traded
  have nodup : l.freelist.Nodup :=
    (Multiset.coe_nodup.mp (Multiset.nodup_add.mp sound.nodup).1).sublist suffix.sublist
  have few : (m.proc.sz + (pgsize - 1)) / pgsize ≤ trapframeVa / pgsize := by
    have size := sound.size
    simp only [trapframeVa, trampolineVa, maxva, pgsize] at *
    omega
  have managed : Vm.Managed ⟨l, kernelTable root mid low m.kmem.trampoline frame⟩ := by
    intro f member
    apply building
    rcases Multiset.mem_add.mp member with free | owned
    · exact Multiset.mem_add.mpr (Or.inl free)
    · exact Multiset.mem_add.mpr (Or.inr (Multiset.mem_add.mpr (Or.inr owned)))
  simp only [wp_bind, wp_get, wp_withKmem, wp_onTable]
  -- The copy starts at the first page with nothing copied.
  change wp (uvmcopyFrom _ _ (0 * pgsize)) _ _ _
  refine wp_uvmcopyFrom (s := ⟨l, kernelTable root mid low m.kmem.trampoline frame⟩) nodup few
    ?vacant ?apart (fun foreign => absurd managed foreign) ?failed ?done
    ((m.proc.sz + (pgsize - 1)) / pgsize) 0 _ (by omega) ?start
  case vacant =>
    intro vb below low
    rw [lookup_kernelTable _ _ _ _ _ below, if_neg (by omega), if_neg]
    simp only [trapframeVa, pgsize] at *
    omega
  case apart =>
    -- A page the parent has mapped is not free.
    intro vpn pte low entry free
    have below : vpn * pgsize < vaSpan := by
      simp only [trapframeVa, trampolineVa, maxva, pgsize, vaSpan] at *
      omega
    have user : kernelPage (vpn * pgsize / pgsize) = false := by
      simp only [kernelPage, Bool.or_eq_false_iff, beq_eq_false_iff_ne]
      simp only [trapframeVa, trampolineVa, maxva, pgsize] at *
      omega
    have mapped := mem_frames_of_lookup below entry user
    exact Multiset.disjoint_left.mp (Multiset.nodup_add.mp sound.nodup).2.2
      (suffix.subset free) mapped
  case failed =>
    intro v undone
    simp only [show (-1 : Int) < 0 by decide, if_true, wp_bind, wp_withKmem, wp_pure]
    have back := undone.trades.frame {frame}
    rw [add_comm, add_comm v.pt.frames] at back
    refine wp_freeproc (Nat.zero_le _) (fun va pte below entry => ?_) (fun f member => ?_) ?_
    · rw [undone.lookup va below] at entry
      exact kernelTable_leaves _ _ _ _ _ va pte below entry
    · exact (sound.building (traded.trans back)).1 f (Multiset.mem_add.mpr (Or.inr member))
    · intro k freed
      exact failed k ((traded.trans back).trans freed)
  case done =>
    intro v filled
    simp only [show ¬ ((0 : Int) < 0) by decide, if_false, wp_pure]
    exact done _ _ (sound.forks drawn traded filled)
  case start =>
    have none : copied m.proc.pagetable l.ram 0 = fun _ => none := by
      funext vpn
      exact if_neg (by omega)
    exact Vm.Fills.refl _

theorem forks_of_kfork {m' : Machine} {np : Proc} (sound : m.Sound)
    (ran : kfork pid m = .ok (some np, m')) : ∃ k, m' = { m with kmem := k } ∧ m.Forks pid np k := by
  have judged : wp (kfork pid) (fun made t => ∀ np, made = some np →
      ∃ k, t = { m with kmem := k } ∧ m.Forks pid np k) (fun _ => True) m := by
    refine wp_kfork sound (fun k _ np made => by simp at made) fun np k forked np' made => ?_
    obtain rfl := Option.some.inj made
    exact ⟨k, rfl, forked⟩
  exact wp_ok judged ran np rfl

end Fork

structure Machine.Resizes (m m' : Machine) : Prop where
  same : m' = { m with
    kmem := m'.kmem
    proc := { m.proc with sz := m'.proc.sz, pagetable := m'.proc.pagetable } }
  trades : m.kmem.Trades m'.kmem m.proc.pagetable.frames m'.proc.pagetable.frames
  size : m'.proc.sz ≤ trapframeVa
  lookup : ∀ vb, vb < vaSpan → m'.proc.pagetable.lookup vb = m.proc.pagetable.lookup vb ∨
    m'.proc.pagetable.lookup vb = none ∧ kernelPage (vb / pgsize) = false
  /-- Pages between the sizes are not mapped any more. -/
  freed : ∀ vb, vb < vaSpan → pgroundup m'.proc.sz / pgsize ≤ vb / pgsize →
    vb / pgsize < pgroundup m.proc.sz / pgsize → m'.proc.pagetable.lookup vb = none

theorem not_kernelPage_below {sz vb : Nat} (size : sz ≤ trapframeVa)
    (kernel : kernelPage (vb / pgsize) = true) : ¬ vb / pgsize < pgroundup sz / pgsize := by
  have top : pgroundup sz / pgsize ≤ trapframeVa / pgsize := by
    simp only [pgroundup, u64, trapframeVa, trampolineVa, maxva, pgsize] at *
    omega
  simp only [kernelPage, Bool.or_eq_true, beq_iff_eq] at kernel
  simp only [trapframeVa, trampolineVa, maxva, pgsize] at *
  omega

variable {n : Int} {m : Machine} {post : Int → Machine → Prop} {abort : Panic → Prop}

theorem wp_sysSbrk_cases (sound : m.Sound)
    (refused : 0 < n → (u64 (m.proc.sz + u64OfInt n) < m.proc.sz ∨
      trapframeVa < u64 (m.proc.sz + u64OfInt n)) → post (-1) m)
    (grown : 0 < n → m.proc.sz ≤ u64 (m.proc.sz + u64OfInt n) →
      u64 (m.proc.sz + u64OfInt n) ≤ trapframeVa →
      post m.proc.sz { m with proc := { m.proc with sz := u64 (m.proc.sz + u64OfInt n) } })
    (kept : n ≤ 0 → (n < 0 → m.proc.sz ≤ u64 (m.proc.sz + u64OfInt n)) → post m.proc.sz m)
    (shrunk : ∀ t, n < 0 → u64 (m.proc.sz + u64OfInt n) < m.proc.sz →
      Vm.Releases ⟨m.kmem, m.proc.pagetable⟩ t (pgroundup (u64 (m.proc.sz + u64OfInt n)) / pgsize)
        (pgroundup m.proc.sz / pgsize - pgroundup (u64 (m.proc.sz + u64OfInt n)) / pgsize) →
      post m.proc.sz { m with
        kmem := t.kmem
        proc := { m.proc with sz := u64 (m.proc.sz + u64OfInt n), pagetable := t.pt } }) :
    wp (sysSbrk n) post abort m := by
  have size := sound.size
  have limit : trapframeVa ≤ maxva := by decide
  simp only [sysSbrk, wp_bind, wp_get]
  by_cases grows : 0 < n
  · simp only [grows, if_true]
    split
    · rename_i outside
      rw [wp_pure]
      exact refused grows outside
    · rename_i fits
      simp only [wp_bind, wp_modify, wp_pure]
      exact grown grows (by omega) (by omega)
  simp only [grows, if_false]
  by_cases shrinks : n < 0
  · simp only [shrinks, if_true, wp_bind, wp_withTable]
    refine wp_uvmdealloc (fun _ => by omega)
      (fun vb _ kernel _ low => absurd low (not_kernelPage_below size kernel))
      (fun vb pte below entry mine foreign => ?_) (fun more => ?_) (fun t less unmapped => ?_)
    · have managed := sound.managed pte.pa
        (Multiset.mem_add.mpr (Or.inr (mem_frames_of_lookup below entry mine)))
      exact absurd managed foreign
    · simp only [wp_modify, wp_pure]
      exact kept (by omega) fun _ => more
    · simp only [wp_modify, wp_pure]
      exact shrunk t shrinks less unmapped
  · simp only [shrinks, if_false, wp_pure]
    exact kept (by omega) fun negative => absurd negative shrinks

theorem wp_sysSbrk (sound : m.Sound) (refused : 0 < n → post (-1) m)
    (grown : ∀ sz, 0 ≤ n → m.proc.sz ≤ sz → sz ≤ trapframeVa →
      post m.proc.sz { m with proc := { m.proc with sz := sz } })
    (shrunk : ∀ m', n < 0 → m'.proc.sz = min m.proc.sz (u64 (m.proc.sz + u64OfInt n)) →
      m.Resizes m' → post m.proc.sz m') : wp (sysSbrk n) post abort m := by
  have size := sound.size
  refine wp_sysSbrk_cases sound (fun grows _ => refused grows)
    (fun grows more fits => grown _ (by omega) more fits) (fun _ more => ?_)
    (fun t shrinks less released => ?_)
  · -- Nothing changes, whether the size stays or the shrink was too large.
    by_cases shrinks : n < 0
    · exact shrunk m shrinks (Nat.min_eq_left (more shrinks)).symm ⟨rfl, Kmem.Trades.refl _ _, size,
        fun _ _ => Or.inl rfl, fun vb _ low high => absurd high (Nat.not_lt.mpr low)⟩
    · exact grown m.proc.sz (by omega) (Nat.le_refl _) size
  · refine shrunk _ shrinks (Nat.min_eq_right (Nat.le_of_lt less)).symm
      ⟨rfl, released.trades, Nat.le_trans (Nat.le_of_lt less) size, fun vb below => ?_,
        fun vb below low high => ?_⟩
    · change t.pt.lookup vb = _ ∨ t.pt.lookup vb = _ ∧ _
      rw [released.lookup vb below]
      split
      · rename_i range
        refine Or.inr ⟨rfl, ?_⟩
        by_contra kernel
        exact not_kernelPage_below size (by simpa using kernel) (by omega)
      · exact Or.inl rfl
    · change t.pt.lookup vb = none
      rw [released.lookup vb below, if_pos]
      exact ⟨low, by omega⟩

end Xv6
