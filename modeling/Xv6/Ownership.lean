import Xv6.Lib.Run
import Xv6.ForkLaws
import Xv6.PagingMemory
import Xv6.System

/-! Every frame has one owner in every state the system can reach. -/

namespace Xv6

open Prog
open Function (update update_self update_of_ne)

def Proc.frames (p : Proc) : Multiset Nat := p.pagetable.frames + {p.trapframe}

structure Proc.Shape (p : Proc) : Prop where
  leaves : p.pagetable.Leaves
  kernel : p.pagetable.Kernel
  size : p.sz ≤ trapframeVa

def Sys.owned (s : Sys) : Multiset Nat :=
  (s.held : Multiset Nat) + ∑ i ∈ Finset.range nproc, (s.procs i).elim 0 Proc.frames

def Sys.frames (s : Sys) : Multiset Nat := s.kmem.free + s.owned

structure Sys.Accounts (s : Sys) (hand : Multiset Nat) : Prop where
  nodup : (s.frames + hand).Nodup
  managed : ∀ f, f ∈ s.frames + hand → s.kmem.Manages f
  shape : ∀ i p, s.procs i = some p → p.Shape
  slots : ∀ i, nproc ≤ i → s.procs i = none

variable {s t : Sys} {m m' : Machine} {α : Type} {i pid : Nat} {env : FsEnv} {path : List UInt8}
  {argv : List (List UInt8)} {r : Int}

namespace Sys.Accounts

variable {s : Sys} {a b : Multiset Nat} {i : Nat} {p : Proc}

theorem congr (accounts : s.Accounts a) (free : t.kmem.freelist = s.kmem.freelist)
    (kend : t.kmem.kend = s.kmem.kend) (held : t.held = s.held) (procs : t.procs = s.procs) :
    t.Accounts a := by
  have same : t.frames = s.frames := by
    rw [Sys.frames, Sys.owned, Kmem.free, free, held, procs]
    rfl
  refine ⟨?_, ?_, ?_, ?_⟩
  · rw [same]
    exact accounts.nodup
  · rw [same]
    intro f member
    simpa only [Kmem.Manages, kend] using accounts.managed f member
  · rw [procs]
    exact accounts.shape
  · rw [procs]
    exact accounts.slots

theorem trade {k : Kmem} (accounts : s.Accounts a) (traded : s.kmem.Trades k a b) :
    Accounts { s with kmem := k } b := by
  -- The owned frames are untouched, so the total is the same multiset.
  have total : Sys.frames { s with kmem := k } + b = s.frames + a := by
    change k.free + s.owned + b = s.kmem.free + s.owned + a
    rw [add_right_comm, traded.total, add_right_comm]
  refine ⟨?_, ?_, accounts.shape, accounts.slots⟩
  · rw [total]
    exact accounts.nodup
  · intro f member
    rw [total] at member
    have before := accounts.managed f member
    simpa only [Kmem.Manages, traded.kend] using before

theorem empty (accounts : s.Accounts a) (here : s.procs i = some p) :
    Accounts { s with procs := update s.procs i none } (a + p.frames) := by
  have inside : i < nproc := by
    by_contra outside
    simp [accounts.slots i (by omega)] at here
  have exchange := Sums.sum_exchange (s := Finset.range nproc)
    (f := fun j => (update s.procs i none j).elim 0 Proc.frames)
    (g := fun j => (s.procs j).elim 0 Proc.frames) (Finset.mem_range.mpr inside)
    (fun j _ other => by simp only [update_of_ne other])
  simp only [update_self, here, Option.elim_none, add_zero] at exchange
  have total : Sys.frames { s with procs := update s.procs i none } + (a + p.frames) =
      s.frames + a := by
    simp only [Sys.frames, Sys.owned]
    rw [← exchange]
    abel
  refine ⟨?_, ?_, fun j q found => ?_, fun j outside => ?_⟩
  · rw [total]
    exact accounts.nodup
  · rw [total]
    exact accounts.managed
  · by_cases same : j = i
    · simp [same] at found
    · exact accounts.shape j q (by simpa [update_of_ne same] using found)
  · by_cases same : j = i
    · simp [same]
    · simpa [update_of_ne same] using accounts.slots j outside

theorem fill (accounts : s.Accounts (a + p.frames)) (unused : s.Unused i) (shape : p.Shape) :
    Accounts { s with procs := update s.procs i (some p) } a := by
  obtain ⟨inside, vacant⟩ := unused
  have exchange := Sums.sum_exchange (s := Finset.range nproc)
    (f := fun j => (update s.procs i (some p) j).elim 0 Proc.frames)
    (g := fun j => (s.procs j).elim 0 Proc.frames) (Finset.mem_range.mpr inside)
    (fun j _ other => by simp only [update_of_ne other])
  simp only [update_self, vacant, Option.elim_some, Option.elim_none, add_zero] at exchange
  have total : Sys.frames { s with procs := update s.procs i (some p) } + a =
      s.frames + (a + p.frames) := by
    simp only [Sys.frames, Sys.owned]
    rw [exchange]
    abel
  refine ⟨?_, ?_, fun j q found => ?_, fun j outside => ?_⟩
  · rw [total]
    exact accounts.nodup
  · rw [total]
    exact accounts.managed
  · by_cases same : j = i
    · simp only [same, update_self, Option.some.injEq] at found
      exact found ▸ shape
    · exact accounts.shape j q (by simpa [update_of_ne same] using found)
  · by_cases same : j = i
    · omega
    · simpa [update_of_ne same] using accounts.slots j outside

theorem sound (accounts : s.Accounts 0) (entered : s.enter i = some m) :
    m.Sound ∧ s.procs i = some m.proc ∧ m.kmem = s.kmem := by
  unfold Sys.enter at entered
  cases here : s.procs i with
  | none => simp [here] at entered
  | some p =>
    rw [here] at entered
    simp only at entered
    split at entered
    · simp at entered
    obtain rfl := Option.some.inj entered
    have shape := accounts.shape i p here
    -- The frames of the process are among those of the system.
    have part : s.kmem.free + p.pagetable.frames ≤ s.frames := by
      have inside : i < nproc := by
        by_contra outside
        simp [accounts.slots i (by omega)] at here
      have mine : p.frames ≤ ∑ j ∈ Finset.range nproc, (s.procs j).elim 0 Proc.frames := by
        have single := Finset.single_le_sum (f := fun j => (s.procs j).elim 0 Proc.frames)
          (fun _ _ => Multiset.zero_le _) (Finset.mem_range.mpr inside)
        simpa only [here, Option.elim_some] using single
      calc s.kmem.free + p.pagetable.frames
          ≤ s.kmem.free + p.frames := by
            exact add_le_add_right (Multiset.le_add_right _ _) _
        _ ≤ s.kmem.free + s.owned := by
            refine add_le_add_right (le_trans mine ?_) _
            exact Multiset.le_add_left _ _
    have nodup := accounts.nodup
    have managed := accounts.managed
    rw [add_zero] at nodup managed
    exact ⟨⟨Multiset.nodup_of_le part nodup,
      fun f member => managed f (Multiset.mem_of_le part member), shape.leaves, shape.kernel,
      shape.size⟩, rfl, rfl⟩

theorem leave (accounts : s.Accounts 0) (entered : s.enter i = some m)
    (traded : m.kmem.Trades m'.kmem m.proc.frames (m'.proc.frames + b)) (shape : m'.proc.Shape) :
    (s.leave i m').Accounts b := by
  obtain ⟨-, here, memory⟩ := accounts.sound entered
  have inside : i < nproc := by
    by_contra outside
    simp [accounts.slots i (by omega)] at here
  -- The slot is emptied, its frames are traded, and it is filled again.
  have hand := accounts.empty here
  rw [zero_add] at hand
  rw [memory] at traded
  have after := hand.trade traded
  rw [add_comm] at after
  have back := after.fill (i := i) ⟨inside, by simp⟩ shape
  refine back.congr rfl rfl rfl ?_
  simp only [Sys.leave, Function.update_idem]

theorem leave_still (accounts : s.Accounts 0) (entered : s.enter i = some m)
    (free : m'.kmem.freelist = m.kmem.freelist) (kend : m'.kmem.kend = m.kmem.kend)
    (frames : m'.proc.frames = m.proc.frames) (shape : m'.proc.Shape) :
    (s.leave i m').Accounts 0 := by
  -- The memory may differ in its bytes, which no account mentions.
  have kept : (s.leave i { m with proc := m'.proc }).Accounts 0 :=
    accounts.leave entered (by rw [frames, add_zero]; exact Kmem.Trades.refl _ _) shape
  exact kept.congr free kend rfl rfl

end Sys.Accounts

theorem Sys.act_eq_some {op : KernOp α} {a : α} (ran : s.act i op = some (a, t)) :
    ∃ m m', s.enter i = some m ∧ op m = .ok (a, m') ∧ t = s.leave i m' := by
  unfold Sys.act at ran
  split at ran
  · simp at ran
  · rename_i m entered
    split at ran
    · rename_i a' m' done
      obtain ⟨rfl, rfl⟩ := Prod.mk.inj (Option.some.inj ran)
      exact ⟨m, m', entered, done, rfl⟩
    · simp at ran

theorem Sys.actKmem_eq_some {op : MemOp α} {a : α} (ran : s.actKmem op = some (a, t)) :
    ∃ k, op s.kmem = .ok (a, k) ∧ t = { s with kmem := k } := by
  unfold Sys.actKmem at ran
  split at ran
  · rename_i a' k done
    obtain ⟨rfl, rfl⟩ := Prod.mk.inj (Option.some.inj ran)
    exact ⟨k, done, rfl⟩
  · simp at ran

section Steps

variable {s t : Sys} {i : Nat}

theorem userStore_ok {va : Nat} {value : UInt8} {r : Bool}
    (ran : userStore va value m = .ok (r, m')) : m'.proc = m.proc ∧ m'.fs = m.fs ∧
      (r = false ∧ m' = m ∨ ∃ pa, r = true ∧ translate m.proc.pagetable .store va = some pa ∧
        m'.kmem = m.kmem.put pa (update (m.kmem.ram pa) (va % pgsize) value)) := by
  refine of_ran r m' ran ?_
  simp only [userStore, wp_bind, wp_get]
  cases target : translate m.proc.pagetable .store va with
  | none =>
    rw [wp_pure]
    exact ⟨rfl, rfl, Or.inl ⟨rfl, rfl⟩⟩
  | some pa =>
    simp only [wp_bind, wp_withKmem, wp_setPage]
    rw [wp_pure]
    exact ⟨rfl, rfl, Or.inr ⟨pa, rfl, rfl, rfl⟩⟩

theorem Machine.Execs.memory (ends : m.Execs env path argv r m') (shape : m.proc.Shape) :
    m.kmem.Trades m'.kmem m.proc.pagetable.frames m'.proc.pagetable.frames ∧
      m'.proc.trapframe = m.proc.trapframe ∧ m'.proc.Shape := by
  have failed : ∀ k fs pg, m.kmem.Trades k 0 0 →
      m.kmem.Trades (m.exec k fs pg).kmem m.proc.pagetable.frames
        (m.exec k fs pg).proc.pagetable.frames ∧
        (m.exec k fs pg).proc.trapframe = m.proc.trapframe ∧ (m.exec k fs pg).proc.Shape := by
    intro k fs pg traded
    have framed := traded.frame m.proc.pagetable.frames
    rw [zero_add] at framed
    exact ⟨framed, rfl, shape.leaves, shape.kernel, shape.size⟩
  cases ends with
  | noFile => exact failed _ _ _ (Kmem.Trades.refl _ _)
  | badFile ip k _ _ traded => exact failed _ _ _ traded
  | badImage ip hdr k _ _ _ traded => exact failed _ _ _ traded
  | noSwap ip hdr k _ _ _ traded => exact failed _ _ _ traded
  | badArgs ip hdr f k _ _ _ _ traded => exact failed _ _ _ traded
  | commit ip hdr f k pt guard stack sp argc page _ ready _ _ image traded =>
    have under := ready.under
    refine ⟨traded, rfl, image.leaves, image.kernel under, ?_⟩
    -- Both stack pages end at or below the trapframe.
    have aligned : (execLoad m.fs ip hdr).top % pgsize = 0 := pgroundup_mod _
    simp only [trapframeVa, trampolineVa, maxva, pgsize] at *
    omega

theorem Machine.Resizes.shape (resizes : m.Resizes m') (shape : m.proc.Shape) : m'.proc.Shape := by
  have retouched : m.proc.pagetable.Retouches m'.proc.pagetable := by
    intro vb below
    rcases resizes.lookup vb below with same | ⟨gone, user⟩
    · exact Or.inl same
    · exact Or.inr ⟨user, by simp [gone]⟩
  exact ⟨retouched.leaves shape.leaves, retouched.kernel shape.kernel, resizes.size⟩

theorem Sys.Accounts.act {op : KernOp α} {a : α} (accounts : s.Accounts 0)
    (ran : s.act i op = some (a, t))
    (keeps : ∀ m m', m.Sound → m.proc.Shape → op m = .ok (a, m') →
      m.kmem.Trades m'.kmem m.proc.frames m'.proc.frames ∧ m'.proc.Shape) : t.Accounts 0 := by
  obtain ⟨m, m', entered, done, rfl⟩ := Sys.act_eq_some ran
  obtain ⟨sound, here, -⟩ := accounts.sound entered
  obtain ⟨traded, shape⟩ := keeps m m' sound (accounts.shape i _ here) done
  exact accounts.leave entered (by rwa [add_zero]) shape

theorem Sys.Accounts.page {op : PagingOp} (accounts : s.Accounts 0)
    (ran : s.act i (op.run env) = some (r, t)) : t.Accounts 0 := by
  apply accounts.act ran
  intro m m' _ shape done
  have does := PagingOp.run_does done
  obtain ⟨traded, retouched⟩ := does.memory shape.kernel
  have context := does.context
  have trapframe : m'.proc.trapframe = m.proc.trapframe := congrArg ProcContext.trapframe context
  have size : m'.proc.sz = m.proc.sz := congrArg ProcContext.sz context
  constructor
  · rw [Proc.frames, Proc.frames, trapframe]
    exact traded.frame _
  · exact ⟨retouched.leaves shape.leaves, retouched.kernel shape.kernel, size ▸ shape.size⟩

theorem Sys.Accounts.exec (accounts : s.Accounts 0) (short : ShortArgs argv)
    (ran : s.act i (kexec env path argv) = some (r, t)) : t.Accounts 0 := by
  apply accounts.act ran
  intro m m' sound shape done
  have judged : wp (kexec env path argv) (fun r m' => m.Execs env path argv r m')
      (fun _ => True) m :=
    wp_kexec sound short.2 (fun _ _ => trivial) fun _ _ ends => ends
  obtain ⟨traded, trapframe, shape'⟩ := (wp_ok judged done).memory shape
  refine ⟨?_, shape'⟩
  rw [Proc.frames, Proc.frames, trapframe]
  exact traded.frame _

theorem Sys.Accounts.sbrk {n : Int} (accounts : s.Accounts 0)
    (ran : s.act i (sysSbrk n) = some (r, t)) : t.Accounts 0 := by
  apply accounts.act ran
  intro m m' sound shape done
  have judged : wp (sysSbrk n) (fun _ m' =>
      m.kmem.Trades m'.kmem m.proc.frames m'.proc.frames ∧ m'.proc.Shape) (fun _ => True) m := by
    apply wp_sysSbrk sound
    · exact fun _ => ⟨Kmem.Trades.refl _ _, shape⟩
    · intro sz _ _ small
      exact ⟨Kmem.Trades.refl _ _, shape.leaves, shape.kernel, small⟩
    · intro m' _ _ resizes
      have trapframe : m'.proc.trapframe = m.proc.trapframe := by rw [resizes.same]
      refine ⟨?_, resizes.shape shape⟩
      rw [Proc.frames, Proc.frames, trapframe]
      exact resizes.trades.frame _
  have result := wp_ok judged done
  exact result

theorem Sys.Accounts.fork {child : Nat} {np : Option Proc} (accounts : s.Accounts 0)
    (unused : s.Unused child) (ran : s.act i (kfork pid) = some (np, t)) :
    (t.place child np).Accounts 0 := by
  obtain ⟨m, m', entered, done, rfl⟩ := Sys.act_eq_some ran
  obtain ⟨sound, here, memory⟩ := accounts.sound entered
  have shape := accounts.shape i _ here
  have judged : wp (kfork pid) (fun np m' => m'.proc = m.proc ∧
      (np = none ∧ m.kmem.Trades m'.kmem 0 0 ∨ ∃ p, np = some p ∧ m.Forks pid p m'.kmem))
      (fun _ => True) m := by
    apply wp_kfork sound
    · exact fun k traded => ⟨rfl, Or.inl ⟨rfl, traded⟩⟩
    · exact fun p k forks => ⟨rfl, Or.inr ⟨p, rfl, forks⟩⟩
  obtain ⟨same, ends⟩ := wp_ok judged done
  have other : child ≠ i := by
    intro equal
    have vacant := unused.2
    simp [equal, here] at vacant
  rcases ends with ⟨rfl, traded⟩ | ⟨p, rfl, forks⟩
  · -- A failed fork gives everything back.
    have framed := traded.frame m.proc.frames
    rw [zero_add] at framed
    have kept : (s.leave i m').Accounts 0 :=
      accounts.leave entered (by rw [add_zero, same]; exact framed) (same ▸ shape)
    exact kept.congr rfl rfl rfl rfl
  · have framed := forks.trades.frame m.proc.frames
    rw [zero_add, add_comm _ m.proc.frames, add_comm _ p.pagetable.frames] at framed
    have given : (s.leave i m').Accounts p.frames :=
      accounts.leave entered (by rw [same]; exact framed) (same ▸ shape)
    have size : p.sz = m.proc.sz := by rw [forks.record]
    have filled := Sys.Accounts.fill (a := 0) (i := child) (by rwa [zero_add])
      ⟨unused.1, by simpa [Sys.leave, update_of_ne other] using unused.2⟩
      ⟨forks.leaves, forks.kernel, size ▸ shape.size⟩
    exact filled.congr rfl rfl rfl rfl

theorem Sys.Accounts.userinit {p : Option Proc} (accounts : s.Accounts 0) (unused : s.Unused i)
    (ran : s.actKmem (allocproc pid) = some (p, t)) :
    (t.place i (p.map fun p => { p with state := .runnable, cwd := rootino })).Accounts 0 := by
  obtain ⟨k, done, rfl⟩ := Sys.actKmem_eq_some ran
  have managed : ∀ f, f ∈ s.kmem.freelist → s.kmem.Manages f := fun f member =>
    accounts.managed f (Multiset.mem_add.mpr (Or.inl (Multiset.mem_add.mpr (Or.inl member))))
  have judged : wp (allocproc pid) (fun p k => p = none ∧ s.kmem.Trades k 0 0 ∨
      ∃ q, p = some q ∧ s.kmem.Trades k 0 q.frames ∧ q.Shape) (fun _ => True) s.kmem := by
    apply wp_allocproc managed
    · exact fun l traded => Or.inl ⟨rfl, traded⟩
    · intro frame root mid low l _ _ traded
      rw [add_comm] at traded
      exact Or.inr ⟨_, rfl, traded, kernelTable_leaves _ _ _ _ _, kernelTable_kernel _ _ _ _ _,
        Nat.zero_le _⟩
  rcases wp_ok judged done with ⟨rfl, traded⟩ | ⟨q, rfl, traded, shape⟩
  · exact (accounts.trade traded).congr rfl rfl rfl rfl
  · have hand : Sys.Accounts { s with kmem := k }
        (0 + Proc.frames { q with state := .runnable, cwd := rootino }) := by
      rw [zero_add]
      exact accounts.trade traded
    exact (hand.fill unused ⟨shape.leaves, shape.kernel, shape.size⟩).congr rfl rfl rfl rfl

theorem Sys.Accounts.reap {p : Proc} {r : Unit} (accounts : s.Accounts 0)
    (here : s.procs i = some p) (ran : s.actKmem (freeproc p) = some (r, t)) :
    Sys.Accounts { t with procs := update t.procs i none } 0 := by
  obtain ⟨k, done, rfl⟩ := Sys.actKmem_eq_some ran
  have shape := accounts.shape i p here
  have emptied := accounts.empty here
  rw [zero_add] at emptied
  have limit : trapframeVa ≤ maxva := by decide
  have judged : wp (freeproc p) (fun _ k => s.kmem.Trades k p.frames 0) (fun _ => True)
      s.kmem := by
    apply wp_freeproc (Nat.le_trans shape.size limit) shape.leaves
    · intro f member
      refine emptied.managed f (Multiset.mem_add.mpr (Or.inr ?_))
      rw [Proc.frames, add_comm]
      exact member
    · intro l traded
      rw [Proc.frames, add_comm]
      exact traded
  have traded := wp_ok judged done
  exact emptied.trade traded

theorem Sys.Accounts.kalloc {pa : Option Nat} (accounts : s.Accounts 0)
    (ran : s.actKmem Xv6.kalloc = some (pa, t)) :
    Sys.Accounts { t with held := pa.toList ++ t.held } 0 := by
  obtain ⟨k, done, rfl⟩ := Sys.actKmem_eq_some ran
  have judged : wp Xv6.kalloc (fun pa k => s.kmem.Trades k 0 (pa.toList : Multiset Nat))
      (fun _ => True) s.kmem := by
    apply wp_kalloc
    · exact fun _ => Kmem.Trades.refl _ _
    · intro pa rest front
      exact Kmem.trades_obtain 0 front
  have traded := wp_ok judged done
  have hand := accounts.trade traded
  -- What was in hand is now held.
  have total : Sys.frames { s with kmem := k, held := pa.toList ++ s.held } + 0 =
      Sys.frames { s with kmem := k } + (pa.toList : Multiset Nat) := by
    simp only [Sys.frames, Sys.owned, ← Multiset.coe_add]
    abel
  refine ⟨?_, ?_, hand.shape, hand.slots⟩
  · rw [total]
    exact hand.nodup
  · rw [total]
    exact hand.managed

theorem Sys.Accounts.kfree {pa : Nat} {r : Unit} (accounts : s.Accounts 0) (mine : pa ∈ s.held)
    (ran : s.actKmem (Xv6.kfree pa) = some (r, t)) :
    Sys.Accounts { t with held := t.held.erase pa } 0 := by
  obtain ⟨k, done, rfl⟩ := Sys.actKmem_eq_some ran
  -- The page is taken into hand first.
  have total : Sys.frames { s with held := s.held.erase pa } + {pa} = s.frames + 0 := by
    have split : ((s.held.erase pa : List Nat) : Multiset Nat) + {pa} = (s.held : Multiset Nat) := by
      rw [← Multiset.coe_erase, add_comm, Multiset.singleton_add]
      exact Multiset.cons_erase (Multiset.mem_coe.mpr mine)
    simp only [Sys.frames, Sys.owned, ← split]
    abel
  have hand : Sys.Accounts { s with held := s.held.erase pa } {pa} := by
    refine ⟨?_, ?_, accounts.shape, accounts.slots⟩
    · rw [total]
      exact accounts.nodup
    · rw [total]
      exact accounts.managed
  have judged : wp (Xv6.kfree pa) (fun _ k => s.kmem.Trades k {pa} 0) (fun _ => True) s.kmem := by
    apply wp_kfree
    · exact fun _ => trivial
    · exact fun _ => Kmem.trades_give _ _
  have traded := wp_ok judged done
  exact hand.trade traded

theorem Sys.Accounts.step {e : SysEvent} (accounts : s.Accounts 0) (stepped : s.step e = some t) :
    t.Accounts 0 := by
  -- Marks and byte writes change nothing that is accounted for.
  have still : ∀ {α : Type} {op : KernOp α} {a : α} {t : Sys} {i : Nat},
      s.act i op = some (a, t) →
      (∀ m m', op m = .ok (a, m') → m'.kmem.freelist = m.kmem.freelist ∧
        m'.kmem.kend = m.kmem.kend ∧ m'.proc.pagetable = m.proc.pagetable ∧
        m'.proc.trapframe = m.proc.trapframe ∧ m'.proc.sz = m.proc.sz) → t.Accounts 0 := by
    intro α op a t i ran keeps
    obtain ⟨m, m', entered, done, rfl⟩ := Sys.act_eq_some ran
    obtain ⟨free, kend, table, trapframe, size⟩ := keeps m m' done
    have shape := accounts.shape i _ (accounts.sound entered).2.1
    refine accounts.leave_still entered free kend ?_ ⟨?_, ?_, size ▸ shape.size⟩
    · rw [Proc.frames, Proc.frames, table, trapframe]
    · rw [table]
      exact shape.leaves
    · rw [table]
      exact shape.kernel
  cases e with
  | userinit slot =>
    simp only [Sys.step] at stepped
    split at stepped
    · obtain ⟨⟨p, t'⟩, ran, rfl⟩ := Option.map_eq_some_iff.mp stepped
      exact accounts.userinit ‹_› ran
    · simp at stepped
  | store slot va value =>
    obtain ⟨⟨r, t'⟩, ran, rfl⟩ := Option.map_eq_some_iff.mp stepped
    apply still ran
    intro m m' done
    obtain ⟨proc, -, rest⟩ := userStore_ok done
    rcases rest with ⟨-, rfl⟩ | ⟨pa, -, -, memory⟩
    · exact ⟨rfl, rfl, rfl, rfl, rfl⟩
    · rw [proc, memory]
      exact ⟨rfl, rfl, rfl, rfl, rfl⟩
  | page slot env op =>
    obtain ⟨⟨r, t'⟩, ran, rfl⟩ := Option.map_eq_some_iff.mp stepped
    exact accounts.page ran
  | kill slot =>
    obtain ⟨⟨r, t'⟩, ran, rfl⟩ := Option.map_eq_some_iff.mp stepped
    apply still ran
    intro m m' done
    obtain ⟨-, rfl⟩ := Prod.mk.inj (Except.ok.inj done)
    exact ⟨rfl, rfl, rfl, rfl, rfl⟩
  | fork slot child =>
    simp only [Sys.step] at stepped
    split at stepped
    · obtain ⟨⟨np, t'⟩, ran, rfl⟩ := Option.map_eq_some_iff.mp stepped
      exact accounts.fork ‹_› ran
    · simp at stepped
  | exec slot env path argv =>
    simp only [Sys.step] at stepped
    split at stepped
    · obtain ⟨⟨r, t'⟩, ran, rfl⟩ := Option.map_eq_some_iff.mp stepped
      exact accounts.exec ‹_› ran
    · simp at stepped
  | sbrk slot n =>
    obtain ⟨⟨r, t'⟩, ran, rfl⟩ := Option.map_eq_some_iff.mp stepped
    exact accounts.sbrk ran
  | exit slot =>
    obtain ⟨⟨r, t'⟩, ran, rfl⟩ := Option.map_eq_some_iff.mp stepped
    apply still ran
    intro m m' done
    obtain ⟨-, rfl⟩ := Prod.mk.inj (Except.ok.inj done)
    exact ⟨rfl, rfl, rfl, rfl, rfl⟩
  | reap slot =>
    simp only [Sys.step] at stepped
    split at stepped
    · simp at stepped
    split at stepped
    · obtain ⟨⟨r, t'⟩, ran, rfl⟩ := Option.map_eq_some_iff.mp stepped
      exact accounts.reap ‹_› ran
    · simp at stepped
  | kalloc =>
    obtain ⟨⟨pa, t'⟩, ran, rfl⟩ := Option.map_eq_some_iff.mp stepped
    exact accounts.kalloc ran
  | kfree pa =>
    simp only [Sys.step] at stepped
    split at stepped
    · obtain ⟨⟨r, t'⟩, ran, rfl⟩ := Option.map_eq_some_iff.mp stepped
      exact accounts.kfree ‹_› ran
    · simp at stepped

end Steps

def Sys.Steps (s : Sys) (e : SysEvent) (t : Sys) : Prop := s.step e = some t

/-- A computed run, and the process in a slot at its end. -/
theorem Sys.exists_run (s : Sys) (es : List SysEvent) (i : Nat) (good : Machine → Prop)
    [DecidablePred good]
    (computed : ((Trace.steps Sys.step s es).bind (·.enter i)).any fun m => good m) :
    ∃ t m, Trace.Run Sys.Steps s es t ∧ t.enter i = some m ∧ good m := by
  obtain ⟨m, found, holds⟩ := (Option.any_eq_true _ _).mp computed
  obtain ⟨t, reached, entered⟩ := Option.bind_eq_some_iff.mp found
  exact ⟨t, m, Trace.Run.of_steps (fun _ _ _ stepped => stepped) reached, entered,
    of_decide_eq_true holds⟩

structure Sys.Boot (s : Sys) : Prop where
  nodup : (s.kmem.free + (s.held : Multiset Nat)).Nodup
  managed : ∀ f, f ∈ s.kmem.free + (s.held : Multiset Nat) → s.kmem.Manages f
  procs : ∀ i, s.procs i = none

theorem Sys.Boot.accounts (boot : s.Boot) : s.Accounts 0 := by
  have total : s.frames + 0 = s.kmem.free + (s.held : Multiset Nat) := by
    simp only [Sys.frames, Sys.owned, boot.procs, Option.elim_none, Finset.sum_const_zero, add_zero]
  refine ⟨?_, ?_, fun i p here => ?_, fun i _ => boot.procs i⟩
  · rw [total]
    exact boot.nodup
  · rw [total]
    exact boot.managed
  · simp [boot.procs] at here

theorem Sys.Boot.accounts_of_run {s₀ : Sys} {es : List SysEvent} (boot : s₀.Boot)
    (run : Trace.Run Sys.Steps s₀ es s) : s.Accounts 0 :=
  run.invariant (Sys.Accounts · 0) (fun _ _ _ kept stepped => kept.step stepped) boot.accounts

def Sys.MapsTo (s : Sys) (i vpn f : Nat) : Prop :=
  vpn * pgsize < vaSpan ∧ kernelPage vpn = false ∧ ∃ p pte, s.procs i = some p ∧
    p.pagetable.lookup (vpn * pgsize) = some pte ∧ pte.pa = f

theorem Sys.MapsTo.owned {vpn f : Nat} (maps : s.MapsTo i vpn f) :
    ∃ p pte, s.procs i = some p ∧ p.pagetable.lookup (vpn * pgsize) = some pte ∧ pte.pa = f ∧
      f ∈ p.frames := by
  obtain ⟨below, user, p, pte, here, entry, rfl⟩ := maps
  refine ⟨p, pte, here, entry, rfl, Multiset.mem_add.mpr (Or.inl ?_)⟩
  refine mem_frames_of_lookup below entry ?_
  rwa [Nat.mul_div_cancel _ pgsize_pos]

/-- Every frame has at most one owner in every state the system reaches. -/
theorem frames_owned_once {s₀ s : Sys} {es : List SysEvent} (boot : s₀.Boot)
    (run : Trace.Run Sys.Steps s₀ es s) :
    s.frames.Nodup ∧ (∀ f, f ∈ s.frames → s.kmem.Manages f) ∧
    (∀ i j vpn vpn' f, s.MapsTo i vpn f → s.MapsTo j vpn' f → i = j ∧ vpn = vpn') ∧
    (∀ i vpn f, s.MapsTo i vpn f → f ∉ s.kmem.freelist) := by
  have accounts := boot.accounts_of_run run
  have nodup := accounts.nodup
  have managed := accounts.managed
  rw [add_zero] at nodup managed
  have inside : ∀ i p, s.procs i = some p → i < nproc := by
    intro i p here
    by_contra outside
    simp [accounts.slots i (by omega)] at here
  -- The processes share nothing with each other and nothing with the free list.
  have processes : (∑ i ∈ Finset.range nproc, (s.procs i).elim 0 Proc.frames).Nodup :=
    (Multiset.nodup_add.mp (Multiset.nodup_add.mp nodup).2.1).2.1
  refine ⟨nodup, managed, fun i j vpn vpn' f first second => ?_, fun i vpn f maps free => ?_⟩
  · obtain ⟨p, pte, here, entry, named, mine⟩ := first.owned
    obtain ⟨q, pte', here', entry', named', mine'⟩ := second.owned
    obtain rfl : i = j := Sums.eq_of_mem_of_nodup processes
      (Finset.mem_range.mpr (inside i p here)) (Finset.mem_range.mpr (inside j q here'))
      (a := f) (by rw [here]; exact mine) (by rw [here']; exact mine')
    obtain rfl : p = q := Option.some.inj (here.symm.trans here')
    have own : p.frames.Nodup := by
      have single := Sums.nodup_of_nodup_sum processes (Finset.mem_range.mpr (inside i p here))
      simpa only [here, Option.elim_some] using single
    have page : ∀ v, v * pgsize / pgsize = v := fun v => Nat.mul_div_cancel v pgsize_pos
    have equal := lookup_injective (Multiset.nodup_add.mp own).1 first.1 second.1
      (by rw [page]; exact first.2.1) (by rw [page]; exact second.2.1) entry entry'
      (named.trans named'.symm)
    rw [page, page] at equal
    exact ⟨rfl, equal.symm⟩
  · obtain ⟨p, pte, here, -, -, mine⟩ := maps.owned
    have part : p.frames ≤ s.owned := by
      have single := Finset.single_le_sum (f := fun j => (s.procs j).elim 0 Proc.frames)
        (fun _ _ => Multiset.zero_le _) (Finset.mem_range.mpr (inside i p here))
      simp only [here] at single
      exact le_trans single (Multiset.le_add_left _ _)
    exact Multiset.disjoint_left.mp (Multiset.nodup_add.mp nodup).2.2 free
      (Multiset.mem_of_le part mine)

def bootSys : Sys where
  kmem := ⟨0x80020000, 0x80007000, (List.range 12).map fun i => 0x80100000 + i * pgsize,
    fun _ _ => 0⟩
  fs := ⟨fun _ => ⟨none, 0, fun _ => 0⟩, fun _ _ => none⟩
  procs := fun _ => none
  nextpid := 1
  held := [0x80200000]

/-- Setting up the first process and forking it leaves every frame with one owner. -/
theorem frames_owned_once_bootSys : bootSys.Boot ∧
    ∃ s, Trace.Run Sys.Steps bootSys [.userinit 0, .fork 0 1, .kalloc] s ∧ s.frames.Nodup := by
  have boot : bootSys.Boot := ⟨by decide, by decide, fun _ => rfl⟩
  refine ⟨boot, ?_⟩
  have ran : (Trace.steps Sys.step bootSys [.userinit 0, .fork 0 1, .kalloc]).isSome := by
    decide +kernel
  obtain ⟨s, computed⟩ := Option.isSome_iff_exists.mp ran
  have run : Trace.Run Sys.Steps bootSys [.userinit 0, .fork 0 1, .kalloc] s :=
    Trace.Run.of_steps (fun _ _ _ stepped => stepped) computed
  exact ⟨s, run, (frames_owned_once boot run).1⟩

end Xv6
