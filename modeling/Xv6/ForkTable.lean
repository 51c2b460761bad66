import Xv6.Ownership
import Xv6.SwapIsolation

/-! The paging table a child starts with, against its parent's table and its own page table. -/

namespace Xv6

open Prog

def PagingInfo.residents (pg : PagingInfo) : Nat → List Nat
  | 0 => []
  | n + 1 => if (pg.pages n).state = .resident then n :: pg.residents n else pg.residents n

variable {a b k n pid : Nat} {m : Machine} {np : Proc} {old pt : PageTable}

theorem PagingInfo.mem_residents {pg : PagingInfo} {i : Nat} :
    i ∈ pg.residents n ↔ i < n ∧ (pg.pages i).state = .resident := by
  induction n with
  | zero => simp [PagingInfo.residents]
  | succ n ih =>
    unfold PagingInfo.residents
    rcases eq_or_ne i n with rfl | other
    · split <;> simp_all
    · have same : i < n + 1 ↔ i < n := by omega
      split <;> simp [other, ih, same]

section Copies

variable (parent child : PagingInfo) (n : Nat)

theorem copyPages_next :
    (copyPages parent n child).nextFifoSeq = child.nextFifoSeq + (parent.residents n).length := by
  induction n with
  | zero => rfl
  | succ n ih =>
    simp only [copyPages, PagingInfo.residents]
    split
    · simp only [ih, List.length_cons, Nat.add_assoc]
    · exact ih

theorem copyPages_page (j : Nat) : (copyPages parent n child).pages j =
    if j < n then
      if (parent.pages j).state = .resident then
        ⟨(parent.pages j).va, .resident, false,
          child.nextFifoSeq + (parent.residents j).length, -1, (parent.pages j).fromExec⟩
      else { child.pages j with state := .unmapped }
    else child.pages j := by
  induction n with
  | zero => rfl
  | succ n ih =>
    -- The last turn writes entry `n` alone; the others are as the earlier turns left them.
    unfold copyPages
    rcases eq_or_ne j n with rfl | other
    · rw [if_neg (Nat.lt_irrefl j)] at ih
      rw [if_pos (Nat.lt_succ_self j)]
      split
      · simp only [Function.update_self, copyPages_next]
      · simp only [PagingInfo.setPage, Function.update_self, ih]
    · have same : j < n + 1 ↔ j < n := by omega
      rw [if_congr same rfl rfl, ← ih]
      split
      · simp only [Function.update_of_ne other]
      · simp only [PagingInfo.setPage, Function.update_of_ne other]

end Copies

theorem forkPaging_resident_iff (parent : PagingInfo) (i : Nat) :
    ((forkPaging parent initPagingInfo).pages i).state = .resident ↔
      i < 16384 ∧ (parent.pages i).state = .resident := by
  unfold forkPaging
  rw [copyPages_page]
  -- Entries past the bound of the loop are those of a fresh table.
  by_cases copied : i < 16384
  · rw [if_pos copied]
    split
    · simp_all
    · simp_all
  · simp [copied, initPagingInfo]

def Machine.TableCopied (m : Machine) (np : Proc) : Prop := ∀ i, i < maxTrackedPages →
  ((np.paging.pages i).state = .resident ↔ (m.proc.paging.pages i).state = .resident) ∧
  ((np.paging.pages i).state = .resident →
    ∃ pte, np.pagetable.lookup (i * pgsize) = some pte ∧ pte.pa ∉ m.proc.pagetable.frames)

def Machine.CopyReaches (m : Machine) : Prop := ∀ i, i < maxTrackedPages →
  (m.proc.paging.pages i).state = .resident → i < 16384 ∧ i * pgsize < m.proc.sz

section Fork

variable {m : Machine} {pid : Nat} {np : Proc} {k : Kmem}

theorem Machine.Forks.own {va : Nat} {pte : Pte} (forked : m.Forks pid np k) (sound : m.Sound)
    (below : va < vaSpan) (user : kernelPage (va / pgsize) = false)
    (entry : np.pagetable.lookup va = some pte) : pte.pa ∉ m.proc.pagetable.frames := by
  intro shared
  -- What the child owns was free while the parent owned its own pages.
  have member : pte.pa ∈ m.kmem.free := by
    have mine := mem_frames_of_lookup below entry user
    have total := forked.trades.total
    rw [add_zero] at total
    rw [← total]
    exact Multiset.mem_add.mpr (Or.inr (Multiset.mem_add.mpr (Or.inr mine)))
  exact Multiset.disjoint_left.mp (Multiset.nodup_add.mp sound.nodup).2.2 member shared

theorem copied_iff (m : Machine) (i : Nat) :
    i < (m.proc.sz + (pgsize - 1)) / pgsize ↔ i * pgsize < m.proc.sz := by
  simp only [pgsize]
  omega

theorem Machine.Forks.tableCopied (forked : m.Forks pid np k) (sound : m.Sound)
    (mapped : ∀ i, i < maxTrackedPages → (m.proc.paging.pages i).state = .resident →
      (m.proc.pagetable.lookup (i * pgsize)).isSome)
    (reaches : m.CopyReaches) : m.TableCopied np := by
  intro i tracked
  have paging : np.paging = forkPaging m.proc.paging initPagingInfo := by rw [forked.record]
  have page : i * pgsize / pgsize = i := Nat.mul_div_cancel _ pgsize_pos
  rw [paging, forkPaging_resident_iff]
  refine ⟨⟨And.right, fun resident => ⟨(reaches i tracked resident).1, resident⟩⟩, ?_⟩
  intro ⟨_, resident⟩
  obtain ⟨pte, entry⟩ := Option.isSome_iff_exists.mp (mapped i tracked resident)
  have reached : i * pgsize / pgsize < (m.proc.sz + (pgsize - 1)) / pgsize := by
    rw [page, copied_iff]
    exact (reaches i tracked resident).2
  obtain ⟨pa, copy, -⟩ := forked.copies (i * pgsize) pte reached entry
  exact ⟨_, copy, forked.own sound (lt_vaSpan (tracked_lt_maxva tracked))
    (kernelPage_tracked tracked) copy⟩

theorem Machine.Forks.copyReaches (forked : m.Forks pid np k) (copied : m.TableCopied np) :
    m.CopyReaches := by
  intro i tracked resident
  have paging : np.paging = forkPaging m.proc.paging initPagingInfo := by rw [forked.record]
  have page : i * pgsize / pgsize = i := Nat.mul_div_cancel _ pgsize_pos
  obtain ⟨same, owned⟩ := copied i tracked
  have child := same.mpr resident
  constructor
  · -- The loop over the table stops at its own bound.
    rw [paging, forkPaging_resident_iff] at child
    exact child.1
  · -- The loop over the page table stops at the size.
    by_contra beyond
    rw [← copied_iff] at beyond
    obtain ⟨pte, entry, -⟩ := owned child
    rw [forked.above (i * pgsize) (lt_vaSpan (tracked_lt_maxva tracked))
      (kernelPage_tracked tracked) (by rw [page]; omega)] at entry
    simp at entry

end Fork

/-- When every resident page of the parent is mapped, the table of a child matches exactly if every
resident page lies below the size and below page 16384. -/
theorem fork_table_copied_iff {s₀ s : Sys} {es : List SysEvent} {slot pid : Nat} {m m' : Machine}
    {np : Proc} (boot : s₀.Boot) (run : Trace.Run Sys.Steps s₀ es s)
    (entered : s.enter slot = some m)
    (mapped : ∀ i, i < maxTrackedPages → (m.proc.paging.pages i).state = .resident →
      (m.proc.pagetable.lookup (i * pgsize)).isSome)
    (ran : kfork pid m = .ok (some np, m')) : m.TableCopied np ↔ m.CopyReaches := by
  have sound := ((boot.accounts_of_run run).sound entered).1
  obtain ⟨k, -, forked⟩ := forks_of_kfork sound ran
  exact ⟨forked.copyReaches, forked.tableCopied sound mapped⟩

theorem PagingInfo.Among.mapped {c : Candidates} (among : m.proc.paging.Among c)
    (mapped : ∀ i ∈ c.list, (m.proc.pagetable.lookup (i * pgsize)).isSome) :
    ∀ i, i < maxTrackedPages → (m.proc.paging.pages i).state = .resident →
      (m.proc.pagetable.lookup (i * pgsize)).isSome :=
  fun i _ resident => mapped i (among i resident)

def forkChild (pid : Nat) (m : Machine) : Option Proc := (valueOf (kfork pid m)).getD none

theorem ran_of_forkChild (made : forkChild pid m = some np) :
    kfork pid m = .ok (some np, after (kfork pid) m) := by
  apply eq_ok_of_valueOf
  unfold forkChild at made
  cases returned : valueOf (kfork pid m) with
  | none => simp [returned] at made
  | some child => simpa [returned] using made

def fetchFirst : List SysEvent := startInit ++ [.page 0 someRoom (.fault 0 12)]

/-- The page of the first instruction is in the table of a child, with a page of its own. -/
theorem fork_table_copied_first : wideSys.Boot ∧ ∃ s m np m',
    Trace.Run Sys.Steps wideSys fetchFirst s ∧ s.enter 0 = some m ∧
    kfork 2 m = .ok (some np, m') ∧ (m.proc.paging.pages 0).state = .resident ∧
    (m.TableCopied np ↔ m.CopyReaches) := by
  obtain ⟨s, m, run, among, entered, mapped, made, resident⟩ := wideSys_boot.exists_among
    (.one 0 (by decide)) fetchFirst 0 (fun m => (m.proc.pagetable.lookup (0 * pgsize)).isSome ∧
      (forkChild 2 m).isSome ∧ (m.proc.paging.pages 0).state = .resident) (by decide +kernel)
  obtain ⟨np, made⟩ := Option.isSome_iff_exists.mp made
  exact ⟨wideSys_boot, s, m, np, _, run, entered, ran_of_forkChild made, resident,
    fork_table_copied_iff wideSys_boot run entered
      (among.mapped (by simpa [Candidates.one] using mapped)) (ran_of_forkChild made)⟩

theorem succ_pages (i k : Nat) : i + (k + 1) * pgsize = i + pgsize + k * pgsize := by
  rw [Nat.succ_mul]
  omega

theorem uvmcopyFrom_skip : ∀ {i : Nat},
    (∀ j, j < k → old.lookup (i + j * pgsize) = none) → i + k * pgsize ≤ maxva →
    uvmcopyFrom old (k + n) i = uvmcopyFrom old n (i + k * pgsize) := by
  induction k with
  | zero => simp
  | succ k ih =>
    intro i absent small
    have first : old.lookup i = none := by simpa using absent 0 (by omega)
    have rest : ∀ j, j < k → old.lookup (i + pgsize + j * pgsize) = none := fun j below => by
      rw [← succ_pages]
      exact absent (j + 1) (by omega)
    have low : ¬ maxva ≤ i := by
      simp only [pgsize] at small
      omega
    rw [succ_pages] at small ⊢
    rw [show k + 1 + n = (k + n) + 1 by omega, uvmcopyFrom]
    simp only [low, first]
    exact ih rest small

theorem uvmcopyFrom_add : ∀ {i : Nat},
    uvmcopyFrom old (a + b) i = (do
      let r ← uvmcopyFrom old a i
      if r = 0 then uvmcopyFrom old b (i + a * pgsize) else return r) := by
  induction a with
  | zero =>
    simp [uvmcopyFrom]
  | succ a ih =>
    intro i
    rw [show a + 1 + b = (a + b) + 1 by omega, uvmcopyFrom, uvmcopyFrom]
    simp only [ih, succ_pages]
    split
    · rfl
    · split
      · simp
      · simp only [bind_assoc]
        congr 1
        funext frame
        cases frame with
        | none => simp
        | some mem =>
          simp only [bind_assoc]
          congr 1
          funext _
          congr 1
          funext r
          split <;> simp
def PageTable.gap (pt : PageTable) (a b : Nat) : Bool :=
  (pt.slot 0).all fun mid => (List.range 512).all fun j => (mid.slot j).all fun low =>
    (List.range 512).all fun k =>
      decide (j * 512 + k < a) || decide (b ≤ j * 512 + k) || (low.slot k).isNone

theorem PageTable.lookup_of_gap {p : Nat} (gap : pt.gap a b = true) (start : a ≤ p) (stop : p < b)
    (low : p < 512 * 512) : pt.lookup (p * pgsize) = none := by
  have root : px 2 (p * pgsize) = 0 := by
    simp only [px, pgsize]
    omega
  have mid : px 1 (p * pgsize) = p / 512 := by
    simp only [px, pgsize]
    omega
  have leaf : px 0 (p * pgsize) = p % 512 := by
    simp only [px, pgsize]
    omega
  rw [PageTable.lookup, root, mid, leaf]
  cases first : pt.slot 0 with
  | none => rfl
  | some d =>
    cases second : d.slot (p / 512) with
    | none => simp [second]
    | some l =>
      simp only [PageTable.gap, first, Option.all_some, List.all_eq_true, List.mem_range] at gap
      have here := gap (p / 512) (by omega)
      simp only [second, Option.all_some, List.all_eq_true, List.mem_range] at here
      have entry := here (p % 512) (by omega)
      rw [Nat.div_add_mod' p 512] at entry
      simpa [second, Nat.not_lt.mpr start, Nat.not_le.mpr stop] using entry

theorem uvmcopy_around {sz : Nat} (gap : old.gap a (a + k) = true) (low : a + k ≤ 512 * 512)
    (pages : (sz + (pgsize - 1)) / pgsize = a + (k + b)) : uvmcopy old sz = (do
      let r ← uvmcopyFrom old a 0
      if r = 0 then uvmcopyFrom old b ((a + k) * pgsize) else return r) := by
  have small : a * pgsize + k * pgsize ≤ maxva := by
    simp only [pgsize, maxva]
    omega
  have absent : ∀ j, j < k → old.lookup (a * pgsize + j * pgsize) = none := fun j below => by
    rw [← Nat.add_mul]
    exact PageTable.lookup_of_gap gap (by omega) (by omega) (by omega)
  rw [uvmcopy, pages, uvmcopyFrom_add, Nat.zero_add, uvmcopyFrom_skip absent small, Nat.add_mul]

theorem kfork_of_copied {k k' : Kmem} {copied : Int}
    (made : allocproc pid m.kmem = .ok (some np, k))
    (done : onTable np.pagetable (uvmcopy m.proc.pagetable m.proc.sz) k = .ok ((copied, pt), k'))
    (fine : ¬ copied < 0) : ∃ child m', kfork pid m = .ok (some child, m') := by
  simp only [kfork, withKmem, focus, made, done, fine, bind, StateT.bind, Except.bind, get, getThe,
    MonadStateOf.get, StateT.get, pure, Except.pure]
  exact ⟨_, _, rfl⟩
def forksAround (pid a k b : Nat) (m : Machine) : Bool :=
  m.proc.pagetable.gap a (a + k) && decide (a + k ≤ 512 * 512) &&
    decide ((m.proc.sz + (pgsize - 1)) / pgsize = a + (k + b)) &&
    ((valueOf (allocproc pid m.kmem)).getD none).any fun np =>
      (valueOf (onTable np.pagetable (do
        let r ← uvmcopyFrom m.proc.pagetable a 0
        if r = 0 then uvmcopyFrom m.proc.pagetable b ((a + k) * pgsize) else return r)
          (after (allocproc pid) m.kmem))).any fun (copied, _) => !decide (copied < 0)

theorem forked_of_forksAround (computed : forksAround pid a k b m = true) :
    ∃ np m', kfork pid m = .ok (some np, m') := by
  simp only [forksAround, Bool.and_eq_true, decide_eq_true_eq] at computed
  obtain ⟨⟨⟨gap, low⟩, pages⟩, made⟩ := computed
  obtain ⟨np, made, copied⟩ := (Option.any_eq_true _ _).mp made
  obtain ⟨⟨r, pt⟩, done, fine⟩ := (Option.any_eq_true _ _).mp copied
  have first : allocproc pid m.kmem = .ok (some np, after (allocproc pid) m.kmem) := by
    apply eq_ok_of_valueOf
    cases returned : valueOf (allocproc pid m.kmem) with
    | none => simp [returned] at made
    | some child => simpa [returned] using made
  rw [← uvmcopy_around gap low pages] at done
  exact kfork_of_copied first (eq_ok_of_valueOf done) (by simpa using fine)

def readFar : List SysEvent :=
  startInit ++ [.sbrk 0 0x4000000, .page 0 someRoom (.fault 0x4000000 13)]

set_option maxRecDepth 400000 in
/-- The page is copied to the child, and the child's table does not know of it. -/
theorem fork_forgets_far : wideSys.Boot ∧ ∃ s m np m', Trace.Run Sys.Steps wideSys readFar s ∧
    s.enter 0 = some m ∧ (∀ i, i < maxTrackedPages → (m.proc.paging.pages i).state = .resident →
      (m.proc.pagetable.lookup (i * pgsize)).isSome) ∧
    kfork 2 m = .ok (some np, m') ∧ (m.proc.paging.pages 16384).state = .resident ∧
    (np.pagetable.lookup (16384 * pgsize)).isSome ∧
    (np.paging.pages 16384).state = .unmapped := by
  obtain ⟨s, m, run, among, entered, mapped, resident, size, child⟩ := wideSys_boot.exists_among
    (.one 16384 (by decide)) readFar 0 (fun m =>
      (m.proc.pagetable.lookup (16384 * pgsize)).isSome ∧
      (m.proc.paging.pages 16384).state = .resident ∧ 0x4000000 < m.proc.sz ∧
      forksAround 2 3 16381 3 m = true) (by decide +kernel)
  obtain ⟨np, m', made⟩ := forked_of_forksAround child
  obtain ⟨k, -, forked⟩ :=
    forks_of_kfork ((wideSys_boot.accounts_of_run run).sound entered).1 made
  refine ⟨wideSys_boot, s, m, np, m', run, entered,
    among.mapped (by simpa [Candidates.one] using mapped), made, resident, ?_, ?_⟩
  · -- The page lies below the size, so it was copied.
    obtain ⟨pte, entry⟩ := Option.isSome_iff_exists.mp mapped
    have below : 16384 * pgsize / pgsize < (m.proc.sz + (pgsize - 1)) / pgsize := by
      simp only [pgsize]
      omega
    obtain ⟨pa, copied, -⟩ := forked.copies _ pte below entry
    simp [copied]
  · -- The copy of the table stops before the page.
    rw [forked.record]
    simp [forkPaging, copyPages_page, initPagingInfo]

end Xv6
