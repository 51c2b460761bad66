import Xv6.FaultPanics
import Xv6.SlotRuns

/-! Whether the access that faulted is allowed once its fault was handled. -/

namespace Xv6

open Prog

/-- The page has a valid user entry that allows the access. -/
def Proc.Admits (p : Proc) (access : Access) (va : Nat) : Prop :=
  ∃ pte, p.pagetable.lookup va = some pte ∧ pte.perm.u = true ∧ access.allowed pte.perm = true

variable {access : Access} {va : Nat} {m : Machine} {src : Source}

theorem Proc.Admits.translates {p : Proc} (admits : p.Admits access va) (below : va < maxva) :
    (translate p.pagetable access va).isSome := by
  obtain ⟨pte, entry, user, allowed⟩ := admits
  simp [translate, Nat.not_le.mpr below, entry, user, allowed]

/-- A jump goes to a page of the text segment that was not swapped out. -/
def Machine.Fetchable (m : Machine) (access : Access) (va : Nat) : Prop :=
  access = .fetch →
    m.proc.paging.segs.text.Has (pgrounddown va) ∧ ¬ m.Swapped (pgrounddown va)

theorem Machine.Serves.allowed_iff {page : Nat} (serves : m.Serves page access.cause src) :
    access.allowed src.perm = true ↔
      (access = .fetch → m.proc.paging.segs.text.Has page ∧ ¬ m.Swapped page) := by
  cases serves with
  | swap i number swapped held readable =>
    -- A page read back from swap is never executable, whatever it was before.
    have here : m.Swapped page := ⟨i, number, swapped⟩
    cases access <;> simp [Access.allowed, swapSource, here]
  | text here inText readable =>
    -- Writes to text do not get this far.
    cases access with
    | fetch => simp [Access.allowed, textSource, inText, here]
    | load => simp [Access.allowed, textSource]
    | store => exact absurd rfl readable
  | data here notText inData => cases access <;> simp [Access.allowed, dataSource, notText]
  | heap here notText notData inHeap => cases access <;> simp [Access.allowed, heapSource, notText]

theorem Machine.Brings.entry {m' : Machine} (pages : m.Brings env (pgrounddown va) src 0 m') :
    va < maxva ∧
      ∃ pa, m'.proc.pagetable.lookup va = some ⟨pa, src.perm⟩ := by
  cases pages with
  | mapped m₁ mem bytes t gets filled maps =>
    have below : va < maxva := by
      have start := maps.below
      simp only [pgrounddown, pgsize, maxva] at *
      omega
    refine ⟨below, mem, ?_⟩
    rw [maps.lookup va (lt_vaSpan below), if_pos (pgrounddown_div va).symm]

/-- Once its fault was handled and the process goes on, an access is allowed exactly if it is no
jump, or jumps to a text page that was not swapped out. -/
theorem fault_admits_iff {env : FsEnv} {m m' : Machine} {access : Access} {va : Nat}
    (handled : handlePageFault env va access.cause m = .ok (0, m'))
    (alive : m'.proc.killed = false) :
    m'.proc.Admits access va ∧ (translate m'.proc.pagetable access va).isSome ↔
      m.Fetchable access va := by
  have ran : (PagingOp.fault va access.cause).run env m = .ok (0, m') := handled
  cases PagingOp.run_does ran with
  | fault _ _ _ _ handles =>
    cases handles with
    | textWrite => exact absurd alive (by simp)
    | paged src _ _ serves pages =>
      obtain ⟨below, pa, entry⟩ := pages.entry
      -- The only valid entry of the page is the one the handler just made.
      have admits : m'.proc.Admits access va ↔ access.allowed src.perm = true := by
        have user : src.perm.u = true := serves.sound.user
        simp [Proc.Admits, entry, user]
      rw [Machine.Fetchable, ← serves.allowed_iff, ← admits]
      exact ⟨And.left, fun here => ⟨here, here.translates below⟩⟩

/-- The first process runs its program and grows by a page. -/
def growHeap : List SysEvent := readHeap.take 3

/-- Whether handling a fault ends well and leaves the process alive. -/
def handlesWell (env : FsEnv) (m : Machine) (access : Access) (va : Nat) : Bool :=
  valueOf (handlePageFault env va access.cause m) = some 0 &&
    !(after (handlePageFault env va access.cause) m).proc.killed

theorem handled_of_handlesWell {env : FsEnv} (well : handlesWell env m access va = true) :
    ∃ m', handlePageFault env va access.cause m = .ok (0, m') ∧ m'.proc.killed = false := by
  simp only [handlesWell, Bool.and_eq_true, decide_eq_true_eq, Bool.not_eq_true'] at well
  exact ⟨_, eq_ok_of_valueOf well.1, well.2⟩

/-- The first load from the heap succeeds after its fault was handled. -/
theorem fault_admits_load : ∃ s m m', Trace.Run Sys.Steps initSys growHeap s ∧
    s.enter 0 = some m ∧ handlePageFault someRoom 12296 (Access.cause .load) m = .ok (0, m') ∧
    m'.proc.Admits .load 12296 := by
  obtain ⟨s, m, run, entered, well⟩ := Sys.exists_run initSys growHeap 0
    (fun m => handlesWell someRoom m .load 12296 = true) (by decide +kernel)
  obtain ⟨m', handled, alive⟩ := handled_of_handlesWell well
  have fetchable : m.Fetchable .load 12296 := fun jump => by simp at jump
  exact ⟨s, m, m', run, entered, handled, ((fault_admits_iff handled alive).mpr fetchable).1⟩

/-- A jump into the heap is reported as handled, and faults again at once. -/
theorem fetch_faults_again : ∃ s m m', Trace.Run Sys.Steps initSys growHeap s ∧
    s.enter 0 = some m ∧ translate m.proc.pagetable .fetch 12296 = none ∧
    handlePageFault someRoom 12296 (Access.cause .fetch) m = .ok (0, m') ∧
    m'.proc.killed = false ∧ translate m'.proc.pagetable .fetch 12296 = none := by
  obtain ⟨s, m, run, entered, faults, well, again⟩ := Sys.exists_run initSys growHeap 0 (fun m =>
      translate m.proc.pagetable .fetch 12296 = none ∧ handlesWell someRoom m .fetch 12296 = true ∧
      translate (after (handlePageFault someRoom 12296 (Access.cause .fetch)) m).proc.pagetable
        .fetch 12296 = none) (by decide +kernel)
  simp only [handlesWell, Bool.and_eq_true, decide_eq_true_eq, Bool.not_eq_true'] at well
  exact ⟨s, m, _, run, entered, faults, eq_ok_of_valueOf well.1, well.2, again⟩

end Xv6
