import Xv6.Contents
import Xv6.KernelFaults
import Xv6.LockedCopies

/-! Copies between the kernel and user memory: which bytes they move and when they fail. -/

namespace Xv6

open Prog

def reachIn (env : FsEnv) (other : Option PageTable) (va0 : Nat) (isWrite : Bool) :
    KernOp (Option Nat) := do
  match walkaddr (copyTable (← get) other) va0 with
  | some pa => return some pa
  | none => handleKernelPagefault env other va0 isWrite

def copyoutPage (env : FsEnv) (other : Option PageTable) (dstva : Nat) (src : List UInt8) :
    KernOp (Option Nat) := do
  let va0 := pgrounddown dstva
  match ← reachIn env other va0 true with
  | none => return none
  | some pa0 =>
    if maxva ≤ va0 then throw .walk
    if !(((copyTable (← get) other).lookup va0).any fun pte => pte.perm.w) then return none
    let n := min (pgsize - (dstva - va0)) src.length
    withKmem (setPage pa0 (writeBytes ((← get).kmem.ram pa0) (dstva - va0) (src.take n)))
    return some n

def copyinPage (env : FsEnv) (other : Option PageTable) (srcva len : Nat) :
    KernOp (Option (List UInt8)) := do
  let va0 := pgrounddown srcva
  match ← reachIn env other va0 false with
  | none => return none
  | some pa0 =>
    let page := (← get).kmem.ram pa0
    return some ((List.range (min (pgsize - (srcva - va0)) len)).map fun k => page (srcva - va0 + k))

def copyinTableFrom (env : FsEnv) (other : Option PageTable) :
    Nat → Nat → Nat → KernOp (Option (List UInt8))
  | 0, _, _ => return some []
  | fuel + 1, srcva, len => do
    if len = 0 then return some []
    match ← copyinPage env other srcva len with
    | none => return none
    | some bytes =>
      return (← copyinTableFrom env other fuel (pgrounddown srcva + pgsize)
        (len - bytes.length)).map (bytes ++ ·)

def copyinTable (env : FsEnv) (other : Option PageTable) (srcva len : Nat) :
    KernOp (Option (List UInt8)) :=
  copyinTableFrom env other len srcva len

structure PageTable.UserPage (pt : PageTable) (va : Nat) (pte : Pte) : Prop where
  below : va < maxva
  entry : pt.lookup va = some pte
  user : pte.perm.u = true

variable {pt : PageTable} {va vb : Nat} {src : List UInt8} {r : Int} {found : Option Nat}

theorem walkaddr_eq_some {pa : Nat} :
    walkaddr pt va = some pa ↔ ∃ pte, pt.UserPage va pte ∧ pte.pa = pa := by
  unfold walkaddr
  constructor
  · intro found
    split at found
    · simp at found
    rename_i below
    cases entry : pt.lookup va with
    | none => simp [entry] at found
    | some pte =>
      by_cases user : pte.perm.u = true
      · exact ⟨pte, ⟨Nat.not_le.mp below, entry, user⟩, by simpa [entry, user] using found⟩
      · simp [entry, user] at found
  · rintro ⟨pte, ⟨below, entry, user⟩, rfl⟩
    rw [if_neg (Nat.not_le.mpr below), entry]
    simp [user]

section Turns

variable {env : FsEnv} {other : Option PageTable} {m m' : Machine} {abort : Panic → Prop}

theorem writeBytes_take (page : Nat → UInt8) (off : Nat) {n : Nat} (fits : n ≤ src.length) :
    writeBytes page off (src.take n) = fun k =>
      if off ≤ k ∧ k < off + n then src.getD (k - off) 0 else page k := by
  funext k
  rw [writeBytes, List.length_take, Nat.min_eq_left fits]
  split
  · rename_i inside
    rw [List.getD_eq_getElem?_getD, List.getElem?_take_of_lt (by omega),
      ← List.getD_eq_getElem?_getD]
  · rfl

theorem wp_copyoutFrom_succ {fuel dstva : Nat} {post : Int → Machine → Prop} (more : src ≠ []) :
    wp (copyoutFrom env other (fuel + 1) dstva src) post abort m ↔
      wp (copyoutPage env other dstva src) (fun found m' => match found with
        | none => post (-1) m'
        | some n => wp (copyoutFrom env other fuel (pgrounddown dstva + pgsize) (src.drop n))
            post abort m') abort m := by
  have fits := Nat.min_le_right (pgsize - (dstva - pgrounddown dstva)) src.length
  simp only [copyoutFrom, copyoutPage, more, if_false, reachIn, wp_bind, wp_get]
  rcases walkaddr (copyTable m other) (pgrounddown dstva) with _ | pa
  · simp only [wp_bind]
    refine wp_congr fun found m₁ => ?_
    rcases found with _ | pa
    · simp only [wp_pure]
    -- Once the frame is known, both sides check the page, write to it and go on.
    by_cases high : maxva ≤ pgrounddown dstva
    · simp only [high, if_true, wp_bind, wp_throw]
    · simp only [high, if_false, wp_bind, wp_get]
      split <;> simp only [wp_bind, wp_pure, writeBytes_take _ _ fits]
  · by_cases high : maxva ≤ pgrounddown dstva
    · simp only [high, if_true, wp_bind, wp_pure, wp_throw]
    · simp only [high, if_false, wp_bind, wp_pure, wp_get]
      split <;> simp only [wp_bind, wp_pure, writeBytes_take _ _ fits]

theorem copyin_eq (srcva len : Nat) : copyin env srcva len = copyinTable env none srcva len := by
  have turns : ∀ fuel va len, copyinFrom env fuel va len = copyinTableFrom env none fuel va len := by
    intro fuel
    induction fuel with
    | zero => exact fun _ _ => rfl
    | succ fuel ih =>
      intro va len
      have reached : reachPage env (pgrounddown va) false =
          reachIn env none (pgrounddown va) false := rfl
      simp only [copyinFrom, copyinTableFrom, copyinPage, bind_assoc, ih]
      split
      · rfl
      · -- Whatever frame is reached, the same bytes are taken from it.
        refine bind_congr fun found => ?_
        cases found with
        | none => simp only [pure_bind]
        | some pa0 => simp only [bind_assoc, pure_bind, List.length_map, List.length_range]
  exact turns _ _ _

end Turns

structure Machine.CopyReady (m : Machine) (other : Option PageTable) : Prop where
  sound : m.Sound
  /-- The table names no frame twice and none that is free. -/
  nodup : (m.kmem.free + (copyTable m other).frames).Nodup
  kernel : (copyTable m other).Kernel

def Machine.ReachCalm (m : Machine) (env : FsEnv) (other : Option PageTable) (va0 : Nat)
    (isWrite : Bool) : Prop :=
  walkaddr (copyTable m other) va0 = none → ¬ m.PageRefused va0 →
    m.FaultCalm env va0 (copyCause isWrite)

def CopyoutCalm (env : FsEnv) (other : Option PageTable) :
    Nat → Nat → List UInt8 → Machine → Prop
  | 0, _, _, _ => True
  | fuel + 1, dstva, src, m =>
    src = [] ∨ m.ReachCalm env other (pgrounddown dstva) true ∧
      ∀ n m', copyoutPage env other dstva src m = .ok (some n, m') →
        CopyoutCalm env other fuel (pgrounddown dstva + pgsize) (src.drop n) m'

def CopyinCalm (env : FsEnv) (other : Option PageTable) : Nat → Nat → Nat → Machine → Prop
  | 0, _, _, _ => True
  | fuel + 1, srcva, len, m =>
    len = 0 ∨ m.ReachCalm env other (pgrounddown srcva) false ∧
      ∀ bytes m', copyinPage env other srcva len m = .ok (some bytes, m') →
        CopyinCalm env other fuel (pgrounddown srcva + pgsize) (len - bytes.length) m'

section Reach

variable {env : FsEnv} {other : Option PageTable} {m m' : Machine} {va0 : Nat} {isWrite : Bool}

def PageTable.Readable (pt : PageTable) : Prop := ∀ va pte, pt.UserPage va pte → pte.perm.r = true

theorem Machine.CopyReady.extend (ready : m.CopyReady other) (extension : m.Extends m')
    (sound : m'.Sound) : m'.CopyReady other := by
  cases other with
  | none =>
    exact ⟨sound, sound.nodup, sound.kernel⟩
  | some pt =>
    refine ⟨sound, ?_, ready.kernel⟩
    exact Multiset.nodup_of_le (Multiset.add_le_add_right extension.free) ready.nodup

theorem Machine.Extends.copyTable_readable (extension : m.Extends m')
    (before : (copyTable m other).Readable) : (copyTable m' other).Readable := by
  cases other with
  | none =>
    intro va pte page
    exact (extension.readable va pte (lt_vaSpan page.below) page.entry).elim
      (fun entry => before va pte ⟨page.below, entry, page.user⟩) id
  | some pt => exact before

theorem handlePageFault_sound {cause : Nat} (sound : m.Sound)
    (ran : handlePageFault env va cause m = .ok (r, m')) : m'.Sound := by
  have does : m.Does (.fault va cause) r m' := PagingOp.run_does ran
  obtain ⟨traded, retouched⟩ := does.memory sound.kernel
  rw [← add_zero m'.proc.pagetable.frames] at traded
  exact sound.traded traded retouched (congrArg ProcContext.sz does.context)

theorem reachIn_cases (aligned : va0 % pgsize = 0)
    (ran : reachIn env other va0 isWrite m = .ok (found, m')) :
    m' = m ∧ found = walkaddr (copyTable m other) va0 ∨
    walkaddr (copyTable m other) va0 = none ∧ ¬ m.PageRefused va0 ∧
      ∃ r, handlePageFault env va0 (copyCause isWrite) m = .ok (r, m') ∧
        found = if r = 0 then usable (copyTable m' other) va0 isWrite else none := by
  have page : pgrounddown va0 = va0 := pgrounddown_of_same aligned rfl
  refine of_ran found m' ran ?_
  simp only [reachIn, wp_bind, wp_get]
  cases there : walkaddr (copyTable m other) va0 with
  | some pa =>
    simp only [wp_pure]
    exact .inl ⟨trivial, trivial⟩
  | none =>
    refine wp_intro (fun found m' ran => ?_) fun _ _ => trivial
    change handleKernelPagefault env other va0 isWrite m = .ok (found, m') at ran
    by_cases refused : m.PageRefused va0
    · rw [handleKernelPagefault_refused refused] at ran
      obtain ⟨rfl, rfl⟩ : none = found ∧ m = m' := by simpa using ran
      exact .inl ⟨rfl, rfl⟩
    · obtain ⟨r, handled, rfl⟩ := (handleKernelPagefault_served refused).mp ran
      rw [page] at handled ⊢
      exact .inr ⟨rfl, refused, r, handled, rfl⟩

theorem walkaddr_of_usable {pa : Nat} (found : usable pt va isWrite = some pa) :
    walkaddr pt va = some pa := by
  unfold usable at found
  split at found
  · simp at found
  · rename_i there
    split at found
    · simp at found
    · rw [there, found]

theorem reachIn_mapped {pa : Nat} (aligned : va0 % pgsize = 0)
    (ran : reachIn env other va0 isWrite m = .ok (some pa, m')) :
    walkaddr (copyTable m' other) va0 = some pa := by
  obtain ⟨rfl, there⟩ | ⟨-, -, r, -, same⟩ := reachIn_cases aligned ran
  · exact there.symm
  · split at same
    · exact walkaddr_of_usable same.symm
    · simp at same

theorem reachIn_spec (ready : m.CopyReady other) (aligned : va0 % pgsize = 0)
    (calm : m.ReachCalm env other va0 isWrite)
    (ran : reachIn env other va0 isWrite m = .ok (found, m')) : m.Extends m' ∧ m'.CopyReady other ∧
    (found = none → usable (copyTable m' other) va0 isWrite = none) := by
  obtain ⟨rfl, rfl⟩ | ⟨there, served, r, handled, rfl⟩ := reachIn_cases aligned ran
  · exact ⟨.of_eq rfl rfl, ready, fun absent => by simp [usable, absent]⟩
  have page : pgrounddown va0 = va0 := pgrounddown_of_same aligned rfl
  have quiet : m.FaultCalm env (pgrounddown va0) (copyCause isWrite) := by
    rw [page]
    exact calm there served
  obtain ⟨extension, failed⟩ := handlePageFault_extends quiet handled
  refine ⟨extension, ready.extend extension (handlePageFault_sound ready.sound handled),
    fun same => ?_⟩
  by_cases zero : r = 0
  · rwa [if_pos zero] at same
  · -- A failure maps nothing, so the page is as absent as it was.
    have still : walkaddr (copyTable m' other) va0 = none := by
      rw [← there]
      cases other with
      | none => simp only [walkaddr, copyTable, Option.getD_none, failed zero]
      | some pt => rfl
    simp [usable, still]

end Reach

structure Machine.Writes (m m' : Machine) (other : Option PageTable) (dst : Nat)
    (bytes : List UInt8) : Prop where
  stored : ∀ i byte, bytes[i]? = some byte → ∃ pte, (copyTable m' other).UserPage (dst + i) pte ∧
    pte.perm.w = true ∧ m'.kmem.ram pte.pa ((dst + i) % pgsize) = byte
  others : ∀ f o, f ∉ m.kmem.freelist →
    (∀ i pte, i < bytes.length → (copyTable m' other).UserPage (dst + i) pte →
      ¬ (pte.pa = f ∧ (dst + i) % pgsize = o)) → m'.kmem.ram f o = m.kmem.ram f o
  free : m'.kmem.free ≤ m.kmem.free
  lookup : ∀ va pte, va < vaSpan → m.proc.pagetable.lookup va = some pte →
    m'.proc.pagetable.lookup va = some pte

section Copyout

variable {env : FsEnv} {other : Option PageTable} {m m₁ m' : Machine} {dst va : Nat}
  {src bytes more : List UInt8} {pte pte' : Pte}

theorem Machine.Extends.writes_nil (extension : m.Extends m') : m.Writes m' other dst [] where
  stored i byte here := by simp at here
  others f o used _ := by rw [extension.ram f used]
  free := extension.free
  lookup := extension.lookup

theorem Machine.Writes.move_nil {dst' : Nat} (writes : m.Writes m' other dst []) :
    m.Writes m' other dst' [] where
  stored i byte here := by simp at here
  others f o used _ := writes.others f o used fun i pte inside => by simp at inside
  free := writes.free
  lookup := writes.lookup

theorem PageTable.UserPage.address (page : pt.UserPage va pte) (kernel : pt.Kernel) :
    UserAddress va := by
  refine ⟨page.below, ?_⟩
  by_contra isKernel
  obtain ⟨entry, found, private_⟩ := kernel va (lt_vaSpan page.below) (by simpa using isKernel)
  rw [page.entry] at found
  obtain rfl := Option.some.inj found
  simp [page.user] at private_

theorem Machine.CopyReady.not_free (ready : m.CopyReady other)
    (page : (copyTable m other).UserPage va pte) : pte.pa ∉ m.kmem.freelist := by
  intro free
  have address := page.address ready.kernel
  exact Multiset.disjoint_left.mp (Multiset.nodup_add.mp ready.nodup).2.2
    (Multiset.mem_coe.mpr free)
    (mem_frames_of_lookup (lt_vaSpan page.below) page.entry address.user)

theorem Machine.CopyReady.same_page (ready : m.CopyReady other)
    (first : (copyTable m other).UserPage va pte) (second : (copyTable m other).UserPage vb pte')
    (same : pte.pa = pte'.pa) : vb / pgsize = va / pgsize :=
  lookup_injective (Multiset.nodup_add.mp ready.nodup).2.1 (lt_vaSpan first.below)
    (lt_vaSpan second.below) (first.address ready.kernel).user (second.address ready.kernel).user
    first.entry second.entry same

theorem PageTable.UserPage.kept (page : (copyTable m other).UserPage va pte)
    (lookup : ∀ va pte, va < vaSpan → m.proc.pagetable.lookup va = some pte →
      m'.proc.pagetable.lookup va = some pte) : (copyTable m' other).UserPage va pte := by
  refine ⟨page.below, ?_, page.user⟩
  cases other with
  | none => exact lookup va pte (lt_vaSpan page.below) page.entry
  | some pt => exact page.entry

theorem PageTable.UserPage.near (page : pt.UserPage va pte) (same : vb / pgsize = va / pgsize) :
    pt.UserPage vb pte := by
  refine ⟨?_, (lookup_congr pt same).trans page.entry, page.user⟩
  have below := page.below
  simp only [maxva, pgsize] at *
  omega

theorem Machine.CopyReady.put (ready : m.CopyReady other) (pa : Nat) (page : Nat → UInt8) :
    Machine.CopyReady { m with kmem := m.kmem.put pa page } other where
  sound := ⟨ready.sound.nodup, ready.sound.managed, ready.sound.leaves, ready.sound.kernel,
    ready.sound.size⟩
  nodup := ready.nodup
  kernel := ready.kernel

theorem Machine.Writes.append (first : m.Writes m₁ other dst bytes)
    (second : m₁.Writes m' other (dst + bytes.length) more) (ready₁ : m₁.CopyReady other)
    (ready : m'.CopyReady other) : m.Writes m' other dst (bytes ++ more) where
  stored i byte here := by
    by_cases early : i < bytes.length
    · -- A byte of the first part is on another page, or at another place of it.
      rw [List.getElem?_append_left early] at here
      obtain ⟨pte, page, writable, held⟩ := first.stored i byte here
      refine ⟨pte, page.kept second.lookup, writable, ?_⟩
      rw [second.others pte.pa _ (ready₁.not_free page), held]
      rintro j pte' later page' ⟨same, offset⟩
      have one := ready.same_page (page.kept second.lookup) page' same.symm
      have split := Nat.div_add_mod (dst + i) pgsize
      have split' := Nat.div_add_mod (dst + bytes.length + j) pgsize
      rw [one, offset] at split'
      omega
    · rw [List.getElem?_append_right (by omega)] at here
      obtain ⟨pte, page, writable, held⟩ := second.stored _ byte here
      have place : dst + bytes.length + (i - bytes.length) = dst + i := by omega
      rw [place] at page held
      exact ⟨pte, page, writable, held⟩
  others f o used spared := by
    have used₁ : f ∉ m₁.kmem.freelist := fun free => used (Multiset.mem_coe.mp
      (Multiset.mem_of_le first.free (Multiset.mem_coe.mpr free)))
    rw [second.others f o used₁, first.others f o used]
    · intro i pte early page
      exact spared i pte (by rw [List.length_append]; omega) (page.kept second.lookup)
    · intro j pte later page
      rw [Nat.add_assoc] at page ⊢
      exact spared (bytes.length + j) pte (by rw [List.length_append]; omega) page
  free := second.free.trans first.free
  lookup va pte below entry := second.lookup va pte below (first.lookup va pte below entry)

theorem Machine.Extends.writes_page {contents : Nat → UInt8} (extension : m.Extends m₁)
    (page : (copyTable m₁ other).UserPage (pgrounddown dst) pte) (writable : pte.perm.w = true)
    (fits : dst % pgsize + bytes.length ≤ pgsize)
    (new : contents = writeBytes (m₁.kmem.ram pte.pa) (dst % pgsize) bytes) :
    m.Writes { m₁ with kmem := m₁.kmem.put pte.pa contents } other dst bytes := by
  subst new
  have near : ∀ i < bytes.length, (dst + i) / pgsize = pgrounddown dst / pgsize ∧
      (dst + i) % pgsize = dst % pgsize + i := by
    simp only [pgrounddown, pgsize] at *
    omega
  refine ⟨fun i byte here => ?_, fun f o used spared => ?_, extension.free, extension.lookup⟩
  · -- The byte is at its place in the frame of the page.
    obtain ⟨inside, rfl⟩ := List.getElem?_eq_some_iff.mp here
    refine ⟨pte, page.near (near i inside).1, writable, ?_⟩
    simp [writeBytes, (near i inside).2, inside]
  · rw [← extension.ram f used]
    by_cases same : f = pte.pa
    · subst same
      -- A place in the frame that is not written to belongs to no address of the range.
      have outside : ¬ (dst % pgsize ≤ o ∧ o < dst % pgsize + bytes.length) := by
        rintro ⟨low, high⟩
        have inside : o - dst % pgsize < bytes.length := by omega
        refine spared (o - dst % pgsize) pte inside (page.near (near _ inside).1) ⟨rfl, ?_⟩
        rw [(near _ inside).2]
        omega
      simp only [Kmem.put, Function.update_self, writeBytes, outside, if_false]
    · simp only [Kmem.put, Function.update_of_ne same]

theorem copyoutPage_cases (ran : copyoutPage env other dst src m = .ok (found, m')) :
    ∃ frame m₁, reachIn env other (pgrounddown dst) true m = .ok (frame, m₁) ∧
      (found = none ∧ m' = m₁ ∨
      ∃ n pte contents, found = some n ∧ n = min (pgsize - dst % pgsize) src.length ∧
        (copyTable m₁ other).UserPage (pgrounddown dst) pte ∧
        m' = { m₁ with kmem := m₁.kmem.put pte.pa contents } ∧
        frame ≠ none ∧ ∀ {m : Machine}, m.Extends m₁ → m.Writes m' other dst (src.take n)) := by
  refine of_ran found m' ran ?_
  simp only [copyoutPage, wp_bind, sub_pgrounddown]
  refine wp_intro (fun frame m₁ reached => ?_) fun _ _ => trivial
  cases frame with
  | none =>
    simp only [wp_pure]
    exact ⟨_, m₁, reached, .inl ⟨trivial, rfl⟩⟩
  | some pa0 =>
    obtain ⟨pte, page, rfl⟩ := walkaddr_eq_some.mp (reachIn_mapped (pgrounddown_mod dst) reached)
    simp only [Nat.not_le.mpr page.below, if_false, wp_bind, wp_get, page.entry, Option.any_some]
    cases writable : pte.perm.w with
    | false =>
      simp only [Bool.not_false, if_true, wp_pure]
      exact ⟨_, m₁, reached, .inl ⟨trivial, rfl⟩⟩
    | true =>
      simp only [Bool.not_true, Bool.false_eq_true, if_false, wp_bind, wp_get, wp_withKmem,
        wp_setPage, wp_pure]
      refine ⟨_, m₁, reached, .inr ⟨_, pte, _, rfl, rfl, page, rfl, by simp, fun extension => ?_⟩⟩
      refine extension.writes_page page writable ?_ rfl
      have inPage : dst % pgsize < pgsize := Nat.mod_lt _ pgsize_pos
      simp only [List.length_take]
      omega

theorem copyoutPage_spec (ready : m.CopyReady other)
    (calm : m.ReachCalm env other (pgrounddown dst) true)
    (ran : copyoutPage env other dst src m = .ok (found, m')) : m'.CopyReady other ∧
      m.Writes m' other dst (src.take (found.getD 0)) ∧
      ∀ n, found = some n → n = min (pgsize - dst % pgsize) src.length := by
  obtain ⟨frame, m₁, reached, ends⟩ := copyoutPage_cases ran
  obtain ⟨extension, ready₁, -⟩ := reachIn_spec ready (pgrounddown_mod dst) calm reached
  obtain ⟨rfl, rfl⟩ | ⟨n, pte, contents, rfl, size, -, rfl, -, writes⟩ := ends
  · exact ⟨ready₁, extension.writes_nil, by simp⟩
  · exact ⟨ready₁.put _ _, writes extension, fun k same => Option.some.inj same ▸ size⟩

theorem copyoutFrom_spec (fuel : Nat) : ∀ {dst : Nat} {src : List UInt8} {m : Machine},
    m.CopyReady other → src.length ≤ fuel → CopyoutCalm env other fuel dst src m →
    wp (copyoutFrom env other fuel dst src) (fun r m' => m'.CopyReady other ∧
      ∃ k, m.Writes m' other dst (src.take k) ∧
        (r = 0 ∧ k = src.length ∨ r = -1 ∧ k < src.length)) (fun _ => True) m := by
  -- The induction is on the turns; each turn writes at least one byte.
  induction fuel with
  | zero =>
    intro dst src m ready enough _
    obtain rfl := List.length_eq_zero_iff.mp (Nat.le_zero.mp enough)
    simp only [copyoutFrom, wp_pure]
    exact ⟨ready, 0, (Machine.Extends.of_eq rfl rfl).writes_nil, Or.inl ⟨trivial, rfl⟩⟩
  | succ fuel ih =>
    intro dst src m ready enough calm
    by_cases more : src = []
    · subst more
      simp only [copyoutFrom, if_true, wp_pure]
      exact ⟨ready, 0, (Machine.Extends.of_eq rfl rfl).writes_nil, Or.inl ⟨trivial, rfl⟩⟩
    obtain ⟨reach, rest⟩ := calm.resolve_left more
    have some_ : 0 < src.length := List.length_pos_iff.mpr more
    have inPage : dst % pgsize < pgsize := Nat.mod_lt _ pgsize_pos
    refine (wp_copyoutFrom_succ more).mpr (wp_intro (fun found m₁ ran => ?_) fun _ _ => trivial)
    obtain ⟨ready₁, writes, size⟩ := copyoutPage_spec ready reach ran
    cases found with
    | none => exact ⟨ready₁, 0, writes, Or.inr ⟨rfl, some_⟩⟩
    | some n =>
      have turn := size n rfl
      simp only [Option.getD_some] at writes
      refine wp_imp (ih ready₁ (by rw [List.length_drop]; omega) (rest n m₁ ran)) ?_
      rintro r m' ⟨ready', k, writes', result⟩
      rw [List.length_drop] at result
      refine ⟨ready', n + k, ?_, by omega⟩
      rw [List.take_add]
      refine writes.append ?_ ready₁ ready'
      have length : (src.take n).length = n := by rw [List.length_take]; omega
      rw [length]
      by_cases last : n = src.length
      · -- Nothing is left to write, wherever the next page is.
        have nothing : src.drop n = [] := by rw [last, List.drop_length]
        rw [nothing, List.take_nil] at writes' ⊢
        exact writes'.move_nil
      · have next : pgrounddown dst + pgsize = dst + n := by
          simp only [pgrounddown, pgsize] at *
          omega
        rwa [next] at writes'

end Copyout

section Copyin

variable {env : FsEnv} {other : Option PageTable} {m m' : Machine} {src len : Nat}

def Machine.UserBytes (m : Machine) (other : Option PageTable) (src : Nat) (bytes : List UInt8) :
    Prop :=
  ∀ i byte, bytes[i]? = some byte → ∃ pte, (copyTable m other).UserPage (src + i) pte ∧
    m.kmem.ram pte.pa ((src + i) % pgsize) = byte

theorem copyinPage_spec (ready : m.CopyReady other)
    (calm : m.ReachCalm env other (pgrounddown src) false) {found : Option (List UInt8)}
    (ran : copyinPage env other src len m = .ok (found, m')) :
    m.Extends m' ∧ m'.CopyReady other ∧
    (found = none → ∀ pte, ¬ (copyTable m' other).UserPage src pte) ∧
    ∀ bytes, found = some bytes → bytes.length = min (pgsize - src % pgsize) len ∧
      m'.UserBytes other src bytes := by
  refine of_ran found m' ran ?_
  simp only [copyinPage, wp_bind, sub_pgrounddown]
  refine wp_intro (fun frame m₁ reached => ?_) fun _ _ => trivial
  obtain ⟨extension, ready₁, absent⟩ :=
    reachIn_spec ready (pgrounddown_mod src) calm reached
  cases frame with
  | none =>
    simp only [wp_pure]
    refine ⟨extension, ready₁, fun _ pte page => ?_, by simp⟩
    -- The page of the address would have been found.
    have there := walkaddr_eq_some.mpr ⟨pte, page.near (pgrounddown_div src), rfl⟩
    simp [usable, there] at absent
  | some pa0 =>
    obtain ⟨pte, page, rfl⟩ := walkaddr_eq_some.mp (reachIn_mapped (pgrounddown_mod src) reached)
    simp only [wp_bind, wp_get, wp_pure]
    refine ⟨extension, ready₁, by simp, ?_⟩
    rintro bytes same
    obtain rfl := Option.some.inj same
    refine ⟨by simp, fun i byte here => ?_⟩
    have inside : i < min (pgsize - src % pgsize) len := by
      have := (List.getElem?_eq_some_iff.mp here).1
      simpa using this
    have near : (src + i) / pgsize = pgrounddown src / pgsize ∧
        (src + i) % pgsize = src % pgsize + i := by
      simp only [pgrounddown, pgsize] at *
      omega
    refine ⟨pte, page.near near.1, ?_⟩
    rw [List.getElem?_map, List.getElem?_range inside, Option.map_some] at here
    rw [near.2]
    exact Option.some.inj here

theorem Machine.UserBytes.extend {bytes : List UInt8} (held : m.UserBytes other src bytes)
    (ready : m.CopyReady other) (extension : m.Extends m') : m'.UserBytes other src bytes := by
  intro i byte here
  obtain ⟨pte, page, same⟩ := held i byte here
  refine ⟨pte, page.kept extension.lookup, ?_⟩
  rw [extension.ram _ (ready.not_free page), same]

theorem copyinTableFrom_spec (fuel : Nat) : ∀ {src len : Nat} {m : Machine},
    m.CopyReady other → len ≤ fuel → CopyinCalm env other fuel src len m →
    wp (copyinTableFrom env other fuel src len) (fun found m' =>
      m.Extends m' ∧
      (found = none → ∃ k < len, ∀ pte, ¬ (copyTable m' other).UserPage (src + k) pte) ∧
      ∀ bytes, found = some bytes → bytes.length = len ∧ m'.UserBytes other src bytes)
      (fun _ => True) m := by
  -- The induction is on the turns; each turn takes at least one byte.
  induction fuel with
  | zero =>
    intro src len m ready enough _
    obtain rfl := Nat.le_zero.mp enough
    simp only [copyinTableFrom, wp_pure]
    refine ⟨.of_eq rfl rfl, by simp, fun bytes same => ?_⟩
    obtain rfl := Option.some.inj same
    exact ⟨rfl, fun i byte here => by simp at here⟩
  | succ fuel ih =>
    intro src len m ready enough calm
    by_cases none_ : len = 0
    · simp only [copyinTableFrom, none_, if_true, wp_pure]
      refine ⟨.of_eq rfl rfl, by simp, fun bytes same => ?_⟩
      obtain rfl := Option.some.inj same
      exact ⟨rfl, fun i byte here => by simp at here⟩
    obtain ⟨reach, rest⟩ := calm.resolve_left none_
    have inPage : src % pgsize < pgsize := Nat.mod_lt _ pgsize_pos
    simp only [copyinTableFrom, none_, if_false, wp_bind]
    refine wp_intro (fun found m₁ ran => ?_) fun _ _ => trivial
    obtain ⟨extension, ready₁, absent, taken⟩ := copyinPage_spec ready reach ran
    cases found with
    | none =>
      simp only [wp_pure]
      exact ⟨extension, fun _ => ⟨0, by omega, absent rfl⟩, by simp⟩
    | some bytes =>
      obtain ⟨length, held⟩ := taken bytes rfl
      simp only [wp_bind]
      refine wp_imp (ih ready₁ (by omega) (rest bytes m₁ ran)) ?_
      rintro found m' ⟨extension', absent', taken'⟩
      simp only [wp_pure]
      -- Unless the range ends in this page, the next page starts behind the bytes taken.
      have next : len - bytes.length ≠ 0 → pgrounddown src + pgsize = src + bytes.length := by
        simp only [pgrounddown, pgsize] at *
        omega
      refine ⟨extension.trans extension', fun failed => ?_, fun all same => ?_⟩
      · obtain ⟨k, inside, lacks⟩ := absent' (by simpa using failed)
        refine ⟨bytes.length + k, by omega, ?_⟩
        rwa [next (by omega), Nat.add_assoc] at lacks
      · obtain ⟨later, rfl, rfl⟩ := Option.map_eq_some_iff.mp same
        obtain ⟨length', held'⟩ := taken' later rfl
        refine ⟨by rw [List.length_append]; omega, fun i byte here => ?_⟩
        by_cases early : i < bytes.length
        · rw [List.getElem?_append_left early] at here
          exact held.extend ready₁ extension' i byte here
        · rw [List.getElem?_append_right (by omega)] at here
          have inside := (List.getElem?_eq_some_iff.mp here).1
          have there := held' _ byte here
          have place : src + bytes.length + (i - bytes.length) = src + i := by omega
          rwa [next (by omega), place] at there

/-- Copies that evict no page move exactly the bytes asked for. -/
theorem copies_exact (ready : m.CopyReady other) :
    (∀ dst src r m', CopyoutCalm env other src.length dst src m →
      copyout env other dst src m = .ok (r, m') →
      (r = 0 ∧ m.Writes m' other dst src) ∨
      (r = -1 ∧ ∃ k < src.length, m.Writes m' other dst (src.take k))) ∧
    (∀ src len, copyin env src len = copyinTable env none src len) ∧
    ∀ src len found m', CopyinCalm env other len src len m →
      copyinTable env other src len m = .ok (found, m') →
      m.Extends m' ∧ ((copyTable m other).Readable → (copyTable m' other).Readable) ∧
      (found.isSome = true ↔ ∀ k < len, ∃ pte, (copyTable m' other).UserPage (src + k) pte) ∧
      ∀ bytes, found = some bytes → bytes.length = len ∧ m'.UserBytes other src bytes := by
  refine ⟨fun dst src r m' calm ran => ?_, copyin_eq, fun src len found m' calm ran => ?_⟩
  · have copied := wp_ok (copyoutFrom_spec src.length ready le_rfl calm) ran
    obtain ⟨-, k, writes, ⟨rfl, rfl⟩ | ⟨rfl, short⟩⟩ := copied
    · rw [List.take_length] at writes
      exact Or.inl ⟨rfl, writes⟩
    · exact Or.inr ⟨rfl, k, short, writes⟩
  · have copied := wp_ok (copyinTableFrom_spec len ready le_rfl calm) ran
    obtain ⟨extension, absent, taken⟩ := copied
    refine ⟨extension, extension.copyTable_readable, ?_, taken⟩
    cases found with
    | none =>
      obtain ⟨k, inside, lacks⟩ := absent rfl
      refine iff_of_false (by simp) fun all => ?_
      obtain ⟨pte, page⟩ := all k inside
      exact lacks pte page
    | some bytes =>
      obtain ⟨length, held⟩ := taken bytes rfl
      refine iff_of_true rfl fun k inside => ?_
      -- The byte taken from an address shows its page.
      obtain ⟨pte, page, -⟩ := held k bytes[k] (List.getElem?_eq_getElem (length ▸ inside))
      exact ⟨pte, page⟩

def freshHeap : Machine :=
  let m := initMachine 12 (elfFile 5 pgsize)
  { m with proc := { m.proc with sz := 2 * pgsize } }

theorem freshHeap_ready : freshHeap.CopyReady none :=
  let sound := initMachine_sound (elfFile 5 pgsize)
  ⟨⟨sound.nodup, sound.managed, sound.leaves, sound.kernel, by decide⟩, sound.nodup, sound.kernel⟩

theorem reachCalm_of_free {va0 : Nat} {isWrite : Bool} (free : m.kmem.freelist ≠ []) :
    m.ReachCalm env other va0 isWrite :=
  fun _ _ _ _ evicting => free evicting.1

theorem CopyoutCalm.turn {fuel dst n : Nat} {src : List UInt8} {m₁ : Machine}
    (free : m.kmem.freelist ≠ []) (ran : copyoutPage env other dst src m = .ok (some n, m₁))
    (rest : CopyoutCalm env other fuel (pgrounddown dst + pgsize) (src.drop n) m₁) :
    CopyoutCalm env other (fuel + 1) dst src m := by
  refine Or.inr ⟨reachCalm_of_free free, fun n' m' ran' => ?_⟩
  obtain ⟨rfl, rfl⟩ : n = n' ∧ m₁ = m' := by simpa [ran] using ran'
  exact rest

theorem CopyinCalm.turn {fuel : Nat} {bytes : List UInt8} {m₁ : Machine}
    (free : m.kmem.freelist ≠ []) (ran : copyinPage env other src len m = .ok (some bytes, m₁))
    (rest : CopyinCalm env other fuel (pgrounddown src + pgsize) (len - bytes.length) m₁) :
    CopyinCalm env other (fuel + 1) src len m := by
  refine Or.inr ⟨reachCalm_of_free free, fun bytes' m' ran' => ?_⟩
  obtain ⟨rfl, rfl⟩ : bytes = bytes' ∧ m₁ = m' := by simpa [ran] using ran'
  exact rest

theorem freshHeap_copyoutCalm : CopyoutCalm someFiles none 3 4094 [1, 2, 3] freshHeap :=
  .turn (n := 2) (by decide) (eq_ok_of_valueOf (by decide))
    (.turn (n := 1) (by decide) (eq_ok_of_valueOf (by decide)) (Or.inl rfl))

theorem freshHeap_copyinCalm : CopyinCalm someFiles none 3 4094 3 freshHeap :=
  CopyinCalm.turn (by decide) (eq_ok_of_valueOf (a := some [0, 0]) (by decide))
    (CopyinCalm.turn (by decide) (eq_ok_of_valueOf (a := some [0]) (by decide)) (Or.inl rfl))

/-- Three bytes arrive across the pages of a new heap, and three come out. -/
theorem copies_exact_two : ∃ m', copyout someFiles none 4094 [1, 2, 3] freshHeap = .ok (0, m') ∧
    freshHeap.Writes m' none 4094 [1, 2, 3] ∧ ∃ bytes m'',
      copyinTable someFiles none 4094 3 freshHeap = .ok (some bytes, m'') ∧
      bytes.length = 3 ∧ m''.UserBytes none 4094 bytes := by
  have wrote : copyout someFiles none 4094 [1, 2, 3] freshHeap = .ok (0, _) :=
    eq_ok_of_valueOf (by decide +kernel)
  have read : copyinTable someFiles none 4094 3 freshHeap = .ok (some [0, 0, 0], _) :=
    eq_ok_of_valueOf (by decide)
  obtain ⟨out, -, into⟩ := @copies_exact someFiles none freshHeap freshHeap_ready
  obtain ⟨-, writes⟩ | ⟨failed, -⟩ := out 4094 [1, 2, 3] 0 _ freshHeap_copyoutCalm wrote
  · obtain ⟨-, -, -, taken⟩ := into _ _ _ _ freshHeap_copyinCalm read
    obtain ⟨length, held⟩ := taken _ rfl
    exact ⟨_, wrote, writes, _, _, read, length, held⟩
  · simp at failed

end Copyin

section Pointers

variable {env : FsEnv} {m : Machine} {va : Nat} {isWrite : Bool}

end Pointers

end Xv6
