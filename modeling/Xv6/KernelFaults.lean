import Xv6.FaultAccess

/-! Faults the kernel takes on behalf of a process: what they decline and what they leave alone. -/

namespace Xv6

open Prog

def usable (pt : PageTable) (va : Nat) (isWrite : Bool) : Option Nat :=
  match walkaddr pt va with
  | none => none
  | some pa => if isWrite && !((pt.lookup va).any fun pte => pte.perm.w) then none else some pa

def copyCause (isWrite : Bool) : Nat := if isWrite then 15 else 13

def Machine.PageRefused (m : Machine) (va : Nat) : Prop :=
  trapframeVa ≤ pgrounddown va ∨ ¬ m.proc.Serviced (pgrounddown va)

theorem pgrounddown_idem (va : Nat) : pgrounddown (pgrounddown va) = pgrounddown va := by
  rw [pgrounddown_eq, pgrounddown_div, ← pgrounddown_eq]

theorem pgrounddown_mod (va : Nat) : pgrounddown va % pgsize = 0 := by
  exact Nat.mul_mod_left _ _

theorem sub_pgrounddown (va : Nat) : va - pgrounddown va = va % pgsize := by
  simp only [pgrounddown, pgsize]
  omega

section Fault

variable {env : FsEnv} {other : Option PageTable} {m m' : Machine} {va : Nat} {isWrite : Bool}

theorem wp_handleKernelPagefault {post : Option Nat → Machine → Prop} {abort : Panic → Prop}
    (refused : m.PageRefused va → post none m)
    (served : ¬ m.PageRefused va → wp (handlePageFault env (pgrounddown va) (copyCause isWrite))
      (fun r m' => post (if r = 0 then usable (copyTable m' other) (pgrounddown va) isWrite
        else none) m') abort m) :
    wp (handleKernelPagefault env other va isWrite) post abort m := by
  unfold handleKernelPagefault
  by_cases high : trapframeVa ≤ pgrounddown va
  · simp only [high, if_true, wp_pure]
    exact refused (Or.inl high)
  simp only [high, if_false, wp_bind, wp_get]
  by_cases inside : m.proc.Serviced (pgrounddown va)
  · have ranges : m.proc.paging.segs.text.Has (pgrounddown va) ∨
        m.proc.paging.segs.data.Has (pgrounddown va) ∨
        m.proc.paging.heapStart ≤ pgrounddown va ∧ pgrounddown va < m.proc.sz := inside
    simp only [ranges, decide_true, Bool.not_true, Bool.false_eq_true, if_false, wp_bind]
    refine wp_imp (served fun bad => bad.elim high fun outside => outside inside) ?_
    intro r m' done
    by_cases zero : r = 0
    · simp only [zero, ne_eq, not_true_eq_false, if_false, wp_bind, wp_get]
      rw [if_pos zero, usable] at done
      -- The lookup that follows is the one that decides whether the page can be used.
      cases found : walkaddr (copyTable m' other) (pgrounddown va) with
      | none => simpa only [found, wp_pure] using done
      | some pa =>
        simp only [found] at done
        simp only
        split
        · rename_i fixed
          rw [if_pos fixed] at done
          simpa only [wp_pure] using done
        · rename_i writable
          rw [if_neg writable] at done
          simpa only [wp_pure] using done
    · simp only [zero, ne_eq, not_false_eq_true, if_true, wp_pure]
      rwa [if_neg zero] at done
  · have ranges : ¬ (m.proc.paging.segs.text.Has (pgrounddown va) ∨
        m.proc.paging.segs.data.Has (pgrounddown va) ∨
        m.proc.paging.heapStart ≤ pgrounddown va ∧ pgrounddown va < m.proc.sz) := inside
    simp only [ranges, decide_false, Bool.not_false, if_true, wp_pure]
    exact refused (Or.inr inside)

theorem handleKernelPagefault_refused (refused : m.PageRefused va) :
    handleKernelPagefault env other va isWrite m = .ok (none, m) := by
  have judged : wp (handleKernelPagefault env other va isWrite) (fun pa m' => pa = none ∧ m' = m)
      (fun _ => False) m :=
    wp_handleKernelPagefault (fun _ => ⟨rfl, rfl⟩) fun served => absurd refused served
  obtain ⟨_, _, ran, rfl, rfl⟩ := exists_ok_of_wp judged
  exact ran

theorem handleKernelPagefault_served {pa : Option Nat} (served : ¬ m.PageRefused va) :
    handleKernelPagefault env other va isWrite m = .ok (pa, m') ↔
      ∃ r, handlePageFault env (pgrounddown va) (copyCause isWrite) m = .ok (r, m') ∧
        pa = if r = 0 then usable (copyTable m' other) (pgrounddown va) isWrite else none := by
  cases handled : handlePageFault env (pgrounddown va) (copyCause isWrite) m with
  | error e =>
    have judged : wp (handleKernelPagefault env other va isWrite) (fun _ _ => False)
        (fun e' => e' = e) m := by
      refine wp_handleKernelPagefault (fun refused => served refused) fun _ => ?_
      exact wp_intro (fun r t ran => by simp [handled] at ran)
        fun e' ran => by simpa [handled] using ran.symm
    simp [eq_error_of_wp judged]
  | ok result =>
    obtain ⟨r, t⟩ := result
    have judged : wp (handleKernelPagefault env other va isWrite) (fun pa' t' => t' = t ∧
        pa' = if r = 0 then usable (copyTable t other) (pgrounddown va) isWrite else none)
        (fun _ => False) m := by
      refine wp_handleKernelPagefault (fun refused => absurd refused served) fun _ => ?_
      refine wp_intro (fun r' t' ran => ?_) fun e' ran => by simp [handled] at ran
      obtain ⟨rfl, rfl⟩ : r = r' ∧ t = t' := by simpa [handled] using ran
      exact ⟨rfl, rfl⟩
    obtain ⟨pa', t', ran, rfl, rfl⟩ := exists_ok_of_wp judged
    rw [ran]
    constructor
    · intro same
      obtain ⟨rfl, rfl⟩ : _ ∧ t' = m' := by simpa using same
      exact ⟨r, rfl, rfl⟩
    · rintro ⟨r', same, rfl⟩
      obtain ⟨rfl, rfl⟩ : r = r' ∧ t' = m' := by simpa using same
      rfl

structure Machine.Undisturbed (m m' : Machine) : Prop where
  killed : m'.proc.killed = m.proc.killed
  pagetable : m'.proc.pagetable = m.proc.pagetable
  pages : m'.proc.paging.pages = m.proc.paging.pages
  swapBitmap : m'.proc.paging.swapBitmap = m.proc.paging.swapBitmap
  freelist : m'.kmem.freelist = m.kmem.freelist

def Machine.Starves (m : Machine) (env : FsEnv) : Prop :=
  m.kmem.freelist = [] ∧ ∀ i, m.victim = some i → ¬ (m.proc.paging.pages i).Droppable ∧
    ¬ (m.CanSave env ∧ (m.proc.pagetable.lookup (i * pgsize)).isSome) ∧
    -- Without a swap file or a slot the process is killed, so it must have been before.
    (m.proc.killed = true ∨ m.swapTarget env ≠ none ∧
      firstClear m.proc.paging.swapBitmap maxSwapPages 0 ≠ none)

theorem Machine.Undisturbed.refl (m : Machine) : m.Undisturbed m := ⟨rfl, rfl, rfl, rfl, rfl⟩

theorem Machine.Starves.not_yields (starves : m.Starves env) (pa : Nat) : ¬ m.Yields env pa := by
  rintro (⟨rest, front⟩ | ⟨-, i, pte, chosen, entry, -, room⟩)
  · simp [starves.1] at front
  · obtain ⟨kept, short, -⟩ := starves.2 i chosen
    exact short ⟨room.resolve_left kept, by simp [entry]⟩

theorem Machine.Brings.usable {src : Source} (serves : m.Serves (pgrounddown va)
    (copyCause isWrite) src) (pages : m.Brings env (pgrounddown va) src 0 m') :
    Xv6.usable m'.proc.pagetable (pgrounddown va) isWrite ≠ none := by
  rw [← pgrounddown_idem] at pages
  obtain ⟨below, pa, entry⟩ := pages.entry
  have user : src.perm.u = true := serves.sound.user
  have found : walkaddr m'.proc.pagetable (pgrounddown va) = some pa := by
    simp only [walkaddr, Nat.not_le.mpr below, if_false, entry, user, if_true]
  -- Only text is not writable, and text is not served for writing.
  have writable : isWrite = true → src.perm.w = true := by
    rintro rfl
    cases serves with
    | text _ _ readable => exact absurd rfl readable
    | _ => rfl
  simp only [Xv6.usable]
  cases isWrite <;> simp_all

end Fault

def Machine.Evicting (m : Machine) (env : FsEnv) : Prop :=
  m.kmem.freelist = [] ∧ m.Obtainable env

def Machine.FaultCalm (m : Machine) (env : FsEnv) (va cause : Nat) : Prop :=
  ∀ src, m.Serves va cause src → ¬ m.Evicting env

structure Machine.Extends (m m' : Machine) : Prop where
  ram : ∀ f, f ∉ m.kmem.freelist → m'.kmem.ram f = m.kmem.ram f
  free : m'.kmem.free ≤ m.kmem.free
  /-- What was mapped stays mapped. -/
  lookup : ∀ va pte, va < vaSpan → m.proc.pagetable.lookup va = some pte →
    m'.proc.pagetable.lookup va = some pte
  /-- What is mapped and was not is readable. -/
  readable : ∀ va pte, va < vaSpan → m'.proc.pagetable.lookup va = some pte →
    m.proc.pagetable.lookup va = some pte ∨ pte.perm.r = true

namespace Machine.Extends

variable {m m' m'' : Machine}

theorem of_eq (memory : m'.kmem = m.kmem) (table : m'.proc.pagetable = m.proc.pagetable) :
    m.Extends m' where
  ram f _ := by rw [memory]
  free := by rw [memory]
  lookup va pte _ entry := by rwa [table]
  readable va pte _ entry := Or.inl (table ▸ entry)

theorem trans (first : m.Extends m') (second : m'.Extends m'') : m.Extends m'' where
  ram f used := by
    rw [second.ram f fun free => used (Multiset.mem_coe.mp (Multiset.mem_of_le first.free
      (Multiset.mem_coe.mpr free))), first.ram f used]
  free := second.free.trans first.free
  lookup va pte below entry := second.lookup va pte below (first.lookup va pte below entry)
  readable va pte below entry := (second.readable va pte below entry).elim
    (first.readable va pte below) Or.inr

end Machine.Extends

theorem Machine.Gets.memory {env : FsEnv} {m m' : Machine} (gets : m.Gets env none m') :
    m'.kmem = m.kmem ∧ m'.proc.pagetable = m.proc.pagetable := by
  cases gets with
  | bare | forgot => exact ⟨rfl, rfl⟩
  | stuck i _ _ _ _ saves => exact (saves.idles (by decide)).memory

/-- A frame that had to be freed first was taken back by the allocator. -/
theorem Machine.Gets.managed {env : FsEnv} {m m' : Machine} {mem : Nat}
    (gets : m.Gets env (some mem) m') (full : m.kmem.freelist = []) : m.kmem.Manages mem := by
  cases gets with
  | free _ rest front => simp [full] at front
  | dropped _ _ _ _ _ _ managed => exact managed
  | saved _ _ _ _ _ _ _ _ _ _ _ _ managed => exact managed

section Calm

variable {env : FsEnv} {m m' : Machine} {va cause : Nat} {r : Int}

theorem Machine.Brings.extends {src : Source} {pa : Nat} {rest : List Nat}
    (front : m.kmem.freelist = pa :: rest) (readable : src.perm.r = true)
    (pages : m.Brings env va src r m') : m.Extends m' ∧
      (r ≠ 0 → ∀ vb, m'.proc.pagetable.lookup vb = m.proc.pagetable.lookup vb) := by
  have all : m.kmem.free = pa ::ₘ (rest : Multiset Nat) := by
    rw [Kmem.free, front]
    rfl
  -- Frames that are not free are none of those taken.
  have other : ∀ {f}, f ∉ m.kmem.freelist → f ≠ pa ∧ f ∉ rest := by
    intro f used
    rw [front] at used
    simpa using used
  cases pages with
  | starved _ gets => exact absurd (gets.obtains.of_free front).1 (by simp)
  | unread m₁ mem gets =>
    obtain ⟨same, rfl⟩ := gets.obtains.of_free front
    obtain rfl := Option.some.inj same
    refine ⟨⟨fun f used => ?_, ?_, fun _ _ _ entry => entry, fun _ _ _ entry => Or.inl entry⟩,
      fun _ _ => rfl⟩
    · simp [Kmem.give, Kmem.take, (other used).1]
    · rw [all]
      exact le_refl _
  | refused m₁ mem bytes t gets _ grown full =>
    obtain ⟨same, rfl⟩ := gets.obtains.of_free front
    obtain rfl := Option.some.inj same
    refine ⟨⟨fun f used => ?_, ?_, fun va pte _ entry => ?_, fun va pte _ entry => ?_⟩,
      fun _ vb => grown.lookup vb⟩
    · have kept := grown.draws.ram f (other used).2
      simp only [Kmem.give, Function.update_of_ne (other used).1]
      rw [kept]
      simp [Kmem.put, Kmem.take, (other used).1]
    · rw [all, Kmem.free, Kmem.give, full]
      simp
    · exact (grown.lookup va).trans entry
    · exact Or.inl ((grown.lookup va).symm.trans entry)
  | mapped m₁ mem bytes t gets _ maps =>
    obtain ⟨same, rfl⟩ := gets.obtains.of_free front
    obtain rfl := Option.some.inj same
    refine ⟨⟨fun f used => ?_, ?_, fun va pte below entry => ?_, fun va pte below entry => ?_⟩,
      fun failed => absurd rfl failed⟩
    · have kept := maps.draws.ram f (other used).2
      rw [kept]
      simp [Kmem.put, Kmem.take, (other used).1]
    · rw [all]
      exact (Multiset.coe_le.mpr maps.draws.suffix.sublist.subperm).trans
        (Multiset.le_cons_self _ _)
    · -- The page itself was not mapped.
      rw [maps.lookup va below]
      split
      · rename_i here
        have absent : m.proc.pagetable.lookup va = none :=
          (lookup_congr _ here).trans maps.absent
        simp [absent] at entry
      · exact entry
    · change t.pt.lookup va = some pte at entry
      rw [maps.lookup va below] at entry
      split at entry
      · obtain rfl := Option.some.inj entry
        exact Or.inr readable
      · exact Or.inl entry

theorem handlePageFault_extends (calm : m.FaultCalm env (pgrounddown va) cause)
    (ran : handlePageFault env va cause m = .ok (r, m')) : m.Extends m' ∧
      (r ≠ 0 → ∀ vb, m'.proc.pagetable.lookup vb = m.proc.pagetable.lookup vb) := by
  refine of_ran r m' ran ?_
  refine wp_handlePageFault (fun _ _ _ _ _ _ => trivial) (fun _ _ _ _ _ _ _ => trivial)
    (fun _ _ _ _ _ _ _ _ => trivial) (fun r m' handles none => ?_)
    (fun src r m' _ serves brings => ?_)
  · cases handles with
    | paged src _ _ serves _ below => exact absurd serves (none below src)
    | _ => exact ⟨.of_eq rfl rfl, fun _ _ => rfl⟩
  · cases free : m.kmem.freelist with
    | nil =>
      -- With no page free the fault could only have evicted one.
      cases brings with
      | starved _ gets =>
        obtain ⟨memory, table⟩ := gets.memory
        exact ⟨.of_eq memory table, fun _ vb => by rw [table]⟩
      | unread m₁ mem gets _ _ managed =>
        exact absurd ⟨free, mem, gets.yields.1, gets.yields.2.mp managed⟩ (calm src serves)
      | refused m₁ mem bytes t gets _ _ _ _ _ managed =>
        exact absurd ⟨free, mem, gets.yields.1, gets.yields.2.mp managed⟩ (calm src serves)
      | mapped m₁ mem bytes t gets =>
        exact absurd ⟨free, mem, gets.yields.1, gets.managed free⟩ (calm src serves)
    | cons pa rest => exact brings.extends free serves.readable

end Calm

end Xv6
