import Xv6.FsLaws
import Xv6.MappingLaws

/-! Everything that swapping a page out, evicting one and obtaining a frame can do. -/

namespace Xv6

open Prog

section Rules

variable {α : Type} {abort : Panic → Prop} {m : Machine}

@[simp] theorem wp_withKmem (op : MemOp α) (post : α → Machine → Prop) :
    wp (withKmem op) post abort m ↔
      wp op (fun a k => post a { m with kmem := k }) abort m.kmem := by
  simp only [withKmem, wp_focus]

@[simp] theorem wp_withTable (op : VmOp α) (post : α → Machine → Prop) :
    wp (withTable op) post abort m ↔
      wp op (fun a s => post a
        { m with kmem := s.kmem, proc := { m.proc with pagetable := s.pt } }) abort
        ⟨m.kmem, m.proc.pagetable⟩ := by
  simp only [withTable, wp_focus]

@[simp] theorem wp_modifyPaging (f : PagingInfo → PagingInfo) (post : Unit → Machine → Prop) :
    wp (modifyPaging f) post abort m ↔
      post () { m with proc := { m.proc with paging := f m.proc.paging } } := by
  simp only [modifyPaging, wp_modify]

@[simp] theorem wp_modifyPage (i : Nat) (f : PageInfo → PageInfo)
    (post : Unit → Machine → Prop) :
    wp (modifyPage i f) post abort m ↔
      post () { m with proc := { m.proc with paging := m.proc.paging.setPage i f } } := by
  simp only [modifyPage, wp_modifyPaging]

@[simp] theorem wp_setkilled (post : Unit → Machine → Prop) :
    wp setkilled post abort m ↔ post () { m with proc := { m.proc with killed := true } } := by
  simp only [setkilled, wp_modify]

end Rules

variable {f i n slot va : Nat} {abort : Panic → Prop} {m m' m'' : Machine} {env : FsEnv}
  {pages : Nat → PageInfo}

theorem wp_lookupPte {post : Option Pte → Vm → Prop} {s : Vm} (below : va < maxva)
    (found : post (s.pt.lookup va) s) : wp (lookupPte va) post abort s := by
  unfold lookupPte
  rw [wp_bind]
  refine wp_walk_false (by omega) fun _ => ?_
  cases path : s.pt.lowDir va with
  | none =>
    have absent : s.pt.lookup va = none := by rw [lookup_eq_lowDir, path]; rfl
    simpa [absent] using found
  | some low => simpa using found

theorem firstClear_spec {bitmap : Nat → Bool} (found : firstClear bitmap n i = some slot) :
    i ≤ slot ∧ slot < i + n ∧ bitmap slot = false := by
  induction n generalizing i with
  | zero => simp [firstClear] at found
  | succ n ih =>
    unfold firstClear at found
    split at found
    · rename_i clear
      obtain rfl : i = slot := by simpa using found
      exact ⟨le_refl _, by omega, clear⟩
    · obtain ⟨low, high, clear⟩ := ih found
      exact ⟨by omega, by omega, clear⟩

theorem freeSwapSlot_alloc (pg : PagingInfo) (inside : slot < maxSwapPages)
    (clear : pg.swapBitmap slot = false) : freeSwapSlot { pg with
      swapBitmap := Function.update pg.swapBitmap slot true
      swapUsed := pg.swapUsed + 1 } slot = pg := by
  have back : Function.update pg.swapBitmap slot false = pg.swapBitmap := by
    rw [← clear, Function.update_eq_self]
  simp [freeSwapSlot, back, inside]

def Machine.quiet (m : Machine) (fs : Fs) (swap : Option Nat) (killed : Bool) : Machine :=
  { m with
    fs := fs
    proc := { m.proc with
      killed := killed
      paging := { m.proc.paging with swapfile := swap } } }

structure Machine.Idles (m m' : Machine) : Prop where
  same : m' = m.quiet m'.fs m'.proc.paging.swapfile m'.proc.killed
  files : m.fs.SwapStep m'.fs (swapName m.proc.pid) m.proc.paging.swapfile
    m'.proc.paging.swapfile m.proc.paging.swapBitmap

theorem Machine.Idles.refl (m : Machine) : m.Idles m := ⟨rfl, Fs.SwapStep.refl _ _ _ _⟩

def openSwap (fs : Fs) (env : FsEnv) (cwd pid : Nat) : Option Nat × Fs :=
  match create fs env cwd (swapName pid) with
  | (none, fs) => (none, fs)
  | (some ip, fs) => if !env.filealloc then (none, dropUnlinked fs env ip) else (some ip, fs)

def Machine.swapTarget (m : Machine) (env : FsEnv) : Option (Nat × Fs) :=
  match m.proc.paging.swapfile with
  | some f => some (f, m.fs)
  | none =>
    if env.filealloc then m.fs.entry env m.proc.cwd (swapName m.proc.pid) else none

theorem openSwap_eq (fs : Fs) (env : FsEnv) (cwd pid : Nat) :
    openSwap fs env cwd pid = match fs.entry env cwd (swapName pid) with
      | none => (none, fs)
      | some (ip, fs') =>
        if env.filealloc then (some ip, fs') else (none, dropUnlinked fs' env ip) := by
  rw [openSwap, create_swapName]
  cases fs.entry env cwd (swapName pid) with
  | none => rfl
  | some found => cases env.filealloc <;> rfl

theorem openSwap_step (fs : Fs) (env : FsEnv) (cwd pid : Nat) (held : Nat → Bool) :
    fs.SwapStep (openSwap fs env cwd pid).2 (swapName pid) none (openSwap fs env cwd pid).1
      held := by
  rw [openSwap_eq]
  cases found : fs.entry env cwd (swapName pid) with
  | none => exact Fs.SwapStep.refl _ _ _ _
  | some result =>
    have step := Fs.entry_step held found
    -- Without a file entry the inode just opened is dropped.
    cases entry : env.filealloc with
    | false => exact dropUnlinked_step env step
    | true => exact step

theorem Machine.swapTarget_none (m : Machine) (env : FsEnv)
    (shut : m.proc.paging.swapfile = none) :
    (openSwap m.fs env m.proc.cwd m.proc.pid).1 = (m.swapTarget env).map Prod.fst ∧
      ∀ f fs, m.swapTarget env = some (f, fs) →
        (openSwap m.fs env m.proc.cwd m.proc.pid).2 = fs := by
  rw [openSwap_eq, Machine.swapTarget, shut]
  cases m.fs.entry env m.proc.cwd (swapName m.proc.pid) with
  | none => simp
  | some found =>
    cases env.filealloc with
    | false => simp
    | true => simp +contextual

theorem Machine.shut_of_target (m : Machine) (target : m.swapTarget env = none) :
    m.proc.paging.swapfile = none := by
  cases swap : m.proc.paging.swapfile with
  | none => rfl
  | some f => simp [Machine.swapTarget, swap] at target

theorem Machine.swapTarget_step {fs : Fs} (target : m.swapTarget env = some (f, fs)) :
    m.fs.SwapStep fs (swapName m.proc.pid) m.proc.paging.swapfile (some f)
      m.proc.paging.swapBitmap := by
  cases swap : m.proc.paging.swapfile with
  | some g =>
    rw [Machine.swapTarget, swap] at target
    obtain ⟨rfl, rfl⟩ := Prod.mk.inj (Option.some.inj target)
    exact Fs.SwapStep.refl _ _ _ _
  | none =>
    obtain ⟨opened, files⟩ := m.swapTarget_none env swap
    have step := openSwap_step m.fs env m.proc.cwd m.proc.pid m.proc.paging.swapBitmap
    rwa [opened, files f fs target, target] at step

theorem wp_createSwapFile_none {post : Int → Machine → Prop}
    (closed : m.proc.paging.swapfile = none)
    (failed : (openSwap m.fs env m.proc.cwd m.proc.pid).1 = none →
      post (-1) { m with fs := (openSwap m.fs env m.proc.cwd m.proc.pid).2 })
    (opened : ∀ f, (openSwap m.fs env m.proc.cwd m.proc.pid).1 = some f →
      post 0 { m with
        fs := (openSwap m.fs env m.proc.cwd m.proc.pid).2
        proc := { m.proc with paging := { m.proc.paging with swapfile := some f } } }) :
    wp (createSwapFile env) post abort m := by
  unfold createSwapFile
  simp only [wp_bind, wp_get, closed, ne_eq, not_true_eq_false, if_false]
  unfold openSwap at failed opened
  -- The two failures and the success of the source are the cases of the definition.
  rcases made : create m.fs env m.proc.cwd (swapName m.proc.pid) with ⟨result, fs⟩
  rw [made] at failed opened
  cases result with
  | none =>
    simp only [wp_bind, wp_set, wp_pure]
    exact failed rfl
  | some ip =>
    cases entry : env.filealloc with
    | false =>
      simp only [entry, Bool.not_false, if_true] at failed
      simp only [Bool.not_false, if_true, wp_bind, wp_set, wp_pure]
      exact failed trivial
    | true =>
      simp only [entry] at opened
      simp only [Bool.not_true, Bool.false_eq_true, if_false, wp_bind, wp_set, wp_modifyPaging,
        wp_pure]
      exact opened ip rfl

def PageInfo.Droppable (pi : PageInfo) : Prop := pi.dirty = false ∧ pi.fromExec = true

instance (pi : PageInfo) : Decidable pi.Droppable := inferInstanceAs (Decidable (_ ∧ _))

def Machine.release (m : Machine) (i pa : Nat) (fs : Fs) (paging : PagingInfo) : Machine :=
  { kmem := m.kmem.give pa
    fs := fs
    proc := { m.proc with
      pagetable := m.proc.pagetable.setPte (i * pgsize) none
      paging := paging } }

def PagingInfo.drop (pg : PagingInfo) (i : Nat) : PagingInfo :=
  pg.setPage i fun pi => { pi with state := .unmapped }

def PagingInfo.save (pg : PagingInfo) (i slot f : Nat) : PagingInfo :=
  { pg.setPage i fun pi => { pi with state := .swapped, swapSlot := slot, fromExec := false } with
    swapfile := some f
    swapBitmap := Function.update pg.swapBitmap slot true
    swapUsed := pg.swapUsed + 1 }

/-- The ways a resident page leaves memory. -/
inductive Machine.Evicts (m : Machine) (i : Nat) : Machine → Prop where
  /-- A clean program page is dropped and its frame freed. -/
  | discard (pte : Pte) (resident : (m.proc.paging.pages i).state = .resident)
      (clean : (m.proc.paging.pages i).Droppable)
      (entry : m.proc.pagetable.lookup (i * pgsize) = some pte)
      (managed : m.kmem.Manages pte.pa) :
      Evicts m i (m.release i pte.pa m.fs (m.proc.paging.drop i))
  /-- A clean program page that has no mapping is only marked. -/
  | forget (resident : (m.proc.paging.pages i).state = .resident)
      (clean : (m.proc.paging.pages i).Droppable)
      (absent : m.proc.pagetable.lookup (i * pgsize) = none) :
      Evicts m i { m with proc := { m.proc with paging := m.proc.paging.drop i } }
  /-- Any other page is written to a free slot and its frame freed. -/
  | save (pte : Pte) (slot f : Nat) (fs : Fs)
      (resident : (m.proc.paging.pages i).state = .resident)
      (kept : ¬ (m.proc.paging.pages i).Droppable)
      (entry : m.proc.pagetable.lookup (i * pgsize) = some pte)
      (managed : m.kmem.Manages pte.pa)
      (chosen : firstClear m.proc.paging.swapBitmap maxSwapPages 0 = some slot)
      (files : m.fs.SwapStep fs (swapName m.proc.pid) m.proc.paging.swapfile (some f)
        m.proc.paging.swapBitmap)
      (stored : fs.SlotHas f slot (m.kmem.ram pte.pa)) :
      Evicts m i (m.release i pte.pa fs (m.proc.paging.save i slot f))

theorem tracked_lt_maxva (tracked : i < maxTrackedPages) : i * pgsize < maxva := by
  simp only [maxTrackedPages, pgsize, maxva] at *
  omega

section Swapout

variable {env : FsEnv} {post : Int → Machine → Prop} {abort : Panic → Prop} {m : Machine} {i : Nat}

theorem wp_discardPage (tracked : i < maxTrackedPages)
    (resident : (m.proc.paging.pages i).state = .resident)
    (clean : (m.proc.paging.pages i).Droppable)
    (foreign : ∀ pte, m.proc.pagetable.lookup (i * pgsize) = some pte →
      ¬ m.kmem.Manages pte.pa → abort .kfree)
    (evicted : ∀ m', m.Evicts i m' → post 0 m') :
    wp (discardPage i (i * pgsize)) post abort m := by
  have below := tracked_lt_maxva tracked
  unfold discardPage
  simp only [wp_bind, wp_modifyPage, wp_withTable]
  refine wp_unmapPage (by omega) (fun _ absent => ?_) (by simp)
    (fun pte _ entry _ bad => foreign pte entry bad) (fun pte _ entry _ managed => ?_)
  · rw [wp_pure]
    exact evicted _ (.forget resident clean absent)
  · rw [wp_pure]
    exact evicted _ (.discard pte resident clean entry managed)

end Swapout

def Fs.Accepts (fs : Fs) (f slot : Nat) : Prop :=
  slot * pgsize ≤ (fs.inodes f).size ∧ slot * pgsize + pgsize ≤ maxfile * bsize

instance (fs : Fs) (f slot : Nat) : Decidable (fs.Accepts f slot) :=
  inferInstanceAs (Decidable (_ ∧ _))

theorem writei_full_iff {fs : Fs} {room : Nat} {src : Nat → UInt8} (inside : slot < maxSwapPages) :
    (writei fs f src (slot * pgsize) pgsize room).1 = pgsize ↔
      fs.Accepts f slot ∧ pgsize ≤ room := by
  obtain ⟨offset, length⟩ := u32_slot inside
  have narrow : ¬ 2 ^ 32 ≤ slot * pgsize + pgsize := by
    simp only [pgsize, maxSwapPages] at *
    omega
  simp only [writei, offset, length, narrow, or_false, Fs.Accepts]
  by_cases hole : (fs.inodes f).size < slot * pgsize
  · simp only [hole, if_true]
    omega
  by_cases long : maxfile * bsize < slot * pgsize + pgsize
  · simp only [hole, long, if_true, if_false]
    omega
  · simp only [hole, long, if_false]
    omega

def Machine.CanSave (m : Machine) (env : FsEnv) : Prop := ∃ f fs slot,
  m.swapTarget env = some (f, fs) ∧
  firstClear m.proc.paging.swapBitmap maxSwapPages 0 = some slot ∧
  fs.Accepts f slot ∧ pgsize ≤ env.room

/-- The ways swapping out a page that must be preserved can end, each with the state before that
leads to it. -/
inductive Machine.Saves (m : Machine) (env : FsEnv) (i : Nat) : Int → Machine → Prop where
  /-- No swap file is open and none can be opened, which kills the process. -/
  | unopened (target : m.swapTarget env = none) : Saves m env i (-1)
      (m.quiet (openSwap m.fs env m.proc.cwd m.proc.pid).2 none true)
  /-- All slots are taken, which kills the process. -/
  | full (f : Nat) (fs : Fs) (target : m.swapTarget env = some (f, fs))
      (taken : firstClear m.proc.paging.swapBitmap maxSwapPages 0 = none) :
      Saves m env i (-1) (m.quiet fs (some f) true)
  /-- The page has no mapping. -/
  | unmapped (f : Nat) (fs : Fs) (slot : Nat) (target : m.swapTarget env = some (f, fs))
      (chosen : firstClear m.proc.paging.swapBitmap maxSwapPages 0 = some slot)
      (absent : m.proc.pagetable.lookup (i * pgsize) = none) :
      Saves m env i (-1) (m.quiet fs (some f) m.proc.killed)
  /-- The file does not take the page, in full or at all. -/
  | refused (f : Nat) (fs : Fs) (slot : Nat) (pte : Pte)
      (target : m.swapTarget env = some (f, fs))
      (chosen : firstClear m.proc.paging.swapBitmap maxSwapPages 0 = some slot)
      (entry : m.proc.pagetable.lookup (i * pgsize) = some pte)
      (refused : ¬ (fs.Accepts f slot ∧ pgsize ≤ env.room)) :
      Saves m env i (-1) (m.quiet
        (writei fs f (m.kmem.ram pte.pa) (slot * pgsize) pgsize env.room).2 (some f)
        m.proc.killed)
  /-- The page is in the file and its frame is free. -/
  | saved (f : Nat) (fs : Fs) (slot : Nat) (pte : Pte) (target : m.swapTarget env = some (f, fs))
      (chosen : firstClear m.proc.paging.swapBitmap maxSwapPages 0 = some slot)
      (entry : m.proc.pagetable.lookup (i * pgsize) = some pte)
      (accepted : fs.Accepts f slot ∧ pgsize ≤ env.room) (managed : m.kmem.Manages pte.pa) :
      Saves m env i 0 (m.release i pte.pa
        (writei fs f (m.kmem.ram pte.pa) (slot * pgsize) pgsize env.room).2
        (m.proc.paging.save i slot f))

section Saves

variable {post : Int → Machine → Prop} {fs : Fs}

/-- With the swap file open, a slot is reserved, the page written to it and its frame freed. -/
theorem wp_swapToSlot (tracked : i < maxTrackedPages) (target : m.swapTarget env = some (f, fs))
    (foreign : ∀ pte, m.proc.pagetable.lookup (i * pgsize) = some pte →
      ¬ m.kmem.Manages pte.pa → m.CanSave env → abort .kfree)
    (ended : ∀ r m', m.Saves env i r m' → post r m') :
    wp (swapToSlot env i (i * pgsize)) post abort (m.quiet fs (some f) m.proc.killed) := by
  have below := tracked_lt_maxva tracked
  unfold swapToSlot
  simp only [wp_bind, wp_get, allocSwapSlot, Machine.quiet]
  cases chosen : firstClear m.proc.paging.swapBitmap maxSwapPages 0 with
  | none =>
    simp only [wp_bind, wp_setkilled, wp_pure]
    exact ended _ _ (.full f fs target chosen)
  | some slot =>
    obtain ⟨-, inside, clear⟩ := firstClear_spec chosen
    rw [Nat.zero_add] at inside
    -- A reservation that is given back leaves the slots as they were.
    have undone := freeSwapSlot_alloc { m.proc.paging with swapfile := some f } inside clear
    simp only [wp_bind, wp_modifyPaging, wp_withTable]
    refine wp_lookupPte below ?_
    cases entry : m.proc.pagetable.lookup (i * pgsize) with
    | none =>
      simp only [wp_bind, wp_modifyPaging, wp_pure, undone]
      exact ended _ _ (.unmapped f fs slot target chosen entry)
    | some pte =>
      simp only [writeSlot, wp_bind, wp_get, wp_set]
      by_cases full : (writei fs f (m.kmem.ram pte.pa) (slot * pgsize) pgsize env.room).1 = pgsize
      · simp only [full, ne_eq, not_true_eq_false, if_false, wp_bind, wp_modifyPage, wp_withKmem]
        have accepted := (writei_full_iff inside).mp full
        refine wp_kfree (fun bad => foreign pte entry bad ⟨f, fs, slot, target, chosen, accepted⟩)
          fun managed => ?_
        simp only [wp_withTable, storePte, wp_modify, wp_pure]
        exact ended _ _ (.saved f fs slot pte target chosen entry accepted managed)
      · simp only [full, ne_eq, not_false_eq_true, if_true, wp_bind, wp_modifyPaging, wp_pure,
          undone]
        exact ended _ _ (.refused f fs slot pte target chosen entry fun accepted =>
          full ((writei_full_iff inside).mpr accepted))

theorem Machine.Saves.result {r : Int} (saves : m.Saves env i r m') : r = 0 ∨ r = -1 := by
  cases saves <;> simp

/-- Saving a page succeeds exactly if it is mapped and the file takes it. -/
theorem Machine.Saves.zero_iff {r : Int} (saves : m.Saves env i r m') :
    r = 0 ↔ m.CanSave env ∧ (m.proc.pagetable.lookup (i * pgsize)).isSome := by
  cases saves with
  | unopened target => simp [Machine.CanSave, target]
  | full f fs _ taken => simp [Machine.CanSave, taken]
  | unmapped _ _ _ _ _ absent => simp [absent]
  | refused f fs slot pte target chosen _ refused =>
    refine ⟨by simp, fun room => ?_⟩
    obtain ⟨⟨g, fs', slot', target', chosen', accepted⟩, -⟩ := room
    obtain ⟨rfl, rfl⟩ := Prod.mk.inj (Option.some.inj (target.symm.trans target'))
    obtain rfl := Option.some.inj (chosen.symm.trans chosen')
    exact absurd accepted refused
  | saved f fs slot pte target chosen entry accepted =>
    exact ⟨fun _ => ⟨⟨f, fs, slot, target, chosen, accepted⟩, by simp [entry]⟩, fun _ => rfl⟩

theorem Machine.Saves.idles {r : Int} (saves : m.Saves env i r m') (failed : r ≠ 0) :
    m.Idles m' := by
  cases saves with
  | unopened target =>
    refine ⟨rfl, ?_⟩
    have shut : m.proc.paging.swapfile = none := m.shut_of_target target
    have step := openSwap_step m.fs env m.proc.cwd m.proc.pid m.proc.paging.swapBitmap
    rw [(m.swapTarget_none env shut).1, target] at step
    rw [shut]
    exact step
  | full f fs target => exact ⟨rfl, Machine.swapTarget_step target⟩
  | unmapped f fs slot target => exact ⟨rfl, Machine.swapTarget_step target⟩
  | refused f fs slot pte target chosen =>
    obtain ⟨-, inside, clear⟩ := firstClear_spec chosen
    rw [Nat.zero_add] at inside
    exact ⟨rfl, (Machine.swapTarget_step target).trans (writei_step _ inside clear rfl).1⟩
  | saved => exact absurd rfl failed

theorem Machine.Saves.evicts (saves : m.Saves env i 0 m')
    (resident : (m.proc.paging.pages i).state = .resident)
    (kept : ¬ (m.proc.paging.pages i).Droppable) : m.Evicts i m' := by
  cases saves with
  | saved f fs slot pte target chosen entry accepted managed =>
    obtain ⟨-, inside, clear⟩ := firstClear_spec chosen
    rw [Nat.zero_add] at inside
    obtain ⟨step, stored⟩ := writei_step (swapName m.proc.pid) inside clear
      (rfl : writei fs f (m.kmem.ram pte.pa) (slot * pgsize) pgsize env.room = _)
    exact .save pte slot f _ resident kept entry managed chosen
      ((Machine.swapTarget_step target).trans step)
      (stored ((writei_full_iff inside).mpr accepted))

end Saves

section Swapout

variable {env : FsEnv} {post : Int → Machine → Prop} {abort : Panic → Prop} {m : Machine}

theorem pgsize_pos : 0 < pgsize := by decide

theorem pgrounddown_div (va : Nat) : pgrounddown va / pgsize = va / pgsize := by
  simp only [pgrounddown, pgsize]
  omega

theorem pgrounddown_eq (va : Nat) : pgrounddown va = va / pgsize * pgsize := rfl

/-- Swapping out a page leaves things alone, drops the page, or ends as saving it does. -/
theorem wp_swapoutPage_saves
    (foreign : ∀ pte, m.proc.pagetable.lookup (va / pgsize * pgsize) = some pte →
      ¬ m.kmem.Manages pte.pa →
      (m.proc.paging.pages (va / pgsize)).Droppable ∨ m.CanSave env → abort .kfree)
    (away : ¬ (va / pgsize < maxTrackedPages ∧
      (m.proc.paging.pages (va / pgsize)).state = .resident) → post (-1) m)
    (dropped : ∀ m', va / pgsize < maxTrackedPages →
      (m.proc.paging.pages (va / pgsize)).Droppable → m.Evicts (va / pgsize) m' → post 0 m')
    (saved : ∀ r m', va / pgsize < maxTrackedPages →
      (m.proc.paging.pages (va / pgsize)).state = .resident →
      ¬ (m.proc.paging.pages (va / pgsize)).Droppable → m.Saves env (va / pgsize) r m' →
      post r m') : wp (swapoutPage env va) post abort m := by
  unfold swapoutPage
  simp only [getPageInfo, pgrounddown_eq, Nat.mul_div_cancel _ pgsize_pos]
  by_cases untracked : maxTrackedPages ≤ va / pgsize
  · simp only [untracked, if_true, wp_pure]
    exact away (by omega)
  have tracked : va / pgsize < maxTrackedPages := by omega
  simp only [untracked, if_false, wp_bind, wp_get]
  by_cases resident : (m.proc.paging.pages (va / pgsize)).state = .resident
  · simp only [resident, ne_eq, not_true_eq_false]
    by_cases clean : (m.proc.paging.pages (va / pgsize)).Droppable
    · simp only [clean.1, clean.2]
      exact wp_discardPage tracked resident clean
        (fun pte entry bad => foreign pte entry bad (Or.inl clean))
        fun m' => dropped m' tracked clean
    · have preserved : (!(m.proc.paging.pages (va / pgsize)).dirty &&
          (m.proc.paging.pages (va / pgsize)).fromExec) = false := by
        simpa [PageInfo.Droppable] using clean
      have kept := fun pte entry bad saves => foreign pte entry bad (Or.inr saves)
      simp only [preserved, Bool.false_eq_true, if_false, wp_bind, wp_get]
      cases swap : m.proc.paging.swapfile with
      | some f =>
        have target : m.swapTarget env = some (f, m.fs) := by simp only [Machine.swapTarget, swap]
        have same : m.quiet m.fs (some f) m.proc.killed = m := by rw [← swap]; rfl
        have ended := wp_swapToSlot tracked target kept fun r m' =>
          saved r m' tracked resident clean
        rwa [same] at ended
      | none =>
        obtain ⟨opened, files⟩ := m.swapTarget_none env swap
        simp only [if_true, wp_bind]
        refine wp_createSwapFile_none swap (fun failed => ?_) (fun f made => ?_)
        · simp only [show (-1 : Int) < 0 by decide, if_true, wp_bind, wp_setkilled, wp_pure]
          rw [failed] at opened
          have target : m.swapTarget env = none := by simpa using opened.symm
          have done := saved _ _ tracked resident clean (.unopened target)
          simp only [Machine.quiet, ← swap] at done
          exact done
        · simp only [show ¬ (0 : Int) < 0 by decide]
          rw [made] at opened
          obtain ⟨⟨g, fs⟩, target, rfl⟩ := Option.map_eq_some_iff.mp opened.symm
          rw [files g fs target]
          exact wp_swapToSlot tracked target kept fun r m' => saved r m' tracked resident clean
  · simp only [ne_eq, resident, not_false_eq_true, if_true, wp_pure]
    exact away fun here => resident here.2

theorem wp_swapoutPage_page
    (foreign : ∀ pte, m.proc.pagetable.lookup (i * pgsize) = some pte → ¬ m.kmem.Manages pte.pa →
      (m.proc.paging.pages i).Droppable ∨ m.CanSave env → abort .kfree)
    (away : ¬ (i < maxTrackedPages ∧ (m.proc.paging.pages i).state = .resident) → post (-1) m)
    (dropped : ∀ m', i < maxTrackedPages → (m.proc.paging.pages i).Droppable → m.Evicts i m' →
      post 0 m')
    (saved : ∀ r m', i < maxTrackedPages → (m.proc.paging.pages i).state = .resident →
      ¬ (m.proc.paging.pages i).Droppable → m.Saves env i r m' → post r m') :
    wp (swapoutPage env (i * pgsize)) post abort m := by
  have page : i * pgsize / pgsize = i := Nat.mul_div_cancel _ pgsize_pos
  refine wp_swapoutPage_saves ?_ ?_ ?_ ?_ <;> rw [page] <;> assumption

theorem wp_swapoutPage
    (foreign : ∀ pte, m.proc.pagetable.lookup (va / pgsize * pgsize) = some pte →
      ¬ m.kmem.Manages pte.pa → abort .kfree) (failed : ∀ m', m.Idles m' → post (-1) m')
    (evicted : ∀ m', va / pgsize < maxTrackedPages → m.Evicts (va / pgsize) m' → post 0 m') :
    wp (swapoutPage env va) post abort m := by
  refine wp_swapoutPage_saves (fun pte entry bad _ => foreign pte entry bad) (fun _ => failed m (Machine.Idles.refl m))
    (fun m' tracked _ => evicted m' tracked) fun r m' tracked resident kept saves => ?_
  rcases saves.result with rfl | rfl
  · exact evicted m' tracked (saves.evicts resident kept)
  · exact failed m' (saves.idles (by decide))

theorem fifoScan_spec (chosen : (fifoScan pages n).1 = some i) :
    i < n ∧ (pages i).state = .resident := by
  induction n with
  | zero => simp [fifoScan] at chosen
  | succ n ih =>
    unfold fifoScan at chosen
    simp only at chosen
    split at chosen
    · rename_i better
      obtain rfl : n = i := by simpa using chosen
      exact ⟨by omega, better.1⟩
    · obtain ⟨below, resident⟩ := ih chosen
      exact ⟨by omega, resident⟩

def Machine.victim (m : Machine) : Option Nat :=
  (fifoScan m.proc.paging.pages maxTrackedPages).1

theorem evictPageFifo_eq (chosen : m.victim = some i) :
    evictPageFifo env m = swapoutPage env (i * pgsize) m := by
  have scan : (fifoScan m.proc.paging.pages maxTrackedPages).1 = some i := chosen
  simp only [evictPageFifo, bind, StateT.bind, get, getThe, MonadStateOf.get, StateT.get,
    Except.bind, pure, Except.pure, scan]

theorem evictPageFifo_none (env : FsEnv) (alone : m.victim = none) :
    evictPageFifo env m = .ok (-1, m) := by
  have scan : (fifoScan m.proc.paging.pages maxTrackedPages).1 = none := alone
  simp only [evictPageFifo, bind, StateT.bind, get, getThe, MonadStateOf.get, StateT.get,
    Except.bind, pure, Except.pure, scan]
  rfl

theorem wp_evictPageFifo
    (foreign : ∀ i pte, m.victim = some i → m.proc.pagetable.lookup (i * pgsize) = some pte →
      ¬ m.kmem.Manages pte.pa → abort .kfree)
    (failed : ∀ m', m.Idles m' → post (-1) m')
    (evicted : ∀ i m', m.victim = some i → m.Evicts i m' → post 0 m') :
    wp (evictPageFifo env) post abort m := by
  unfold evictPageFifo
  simp only [wp_bind, wp_get]
  cases chosen : (fifoScan m.proc.paging.pages maxTrackedPages).1 with
  | none => simpa only [wp_pure] using failed m (Machine.Idles.refl m)
  | some i =>
    have page : i * pgsize / pgsize = i := Nat.mul_div_cancel _ pgsize_pos
    refine wp_swapoutPage (fun pte entry bad => ?_) failed (fun m' _ evicts => ?_)
    · exact foreign i pte chosen (by simpa only [page] using entry) bad
    · exact evicted i m' chosen (by simpa only [page] using evicts)

end Swapout

/-- The ways a frame is obtained, or not. -/
inductive Machine.Obtains (m : Machine) : Option Nat → Machine → Prop where
  /-- A page was free. -/
  | free (pa : Nat) (rest : List Nat) (front : m.kmem.freelist = pa :: rest) :
      Obtains m (some pa) { m with kmem := m.kmem.take pa rest }
  /-- Memory was full and no page could be evicted. -/
  | starved (m' : Machine) (full : m.kmem.freelist = []) (idle : m.Idles m') : Obtains m none m'
  /-- Memory was full and evicting a page made one free. -/
  | evicted (i : Nat) (m' : Machine) (pa : Nat) (rest : List Nat)
      (full : m.kmem.freelist = []) (chosen : m.victim = some i) (evicts : m.Evicts i m')
      (front : m'.kmem.freelist = pa :: rest) :
      Obtains m (some pa) { m' with kmem := m'.kmem.take pa rest }
  /-- Memory was full and the page evicted had no frame. -/
  | wasted (i : Nat) (m' : Machine) (full : m.kmem.freelist = []) (chosen : m.victim = some i)
      (evicts : m.Evicts i m') (empty : m'.kmem.freelist = []) : Obtains m none m'

def Machine.Yields (m : Machine) (env : FsEnv) (pa : Nat) : Prop :=
  (∃ rest, m.kmem.freelist = pa :: rest) ∨
  (m.kmem.freelist = [] ∧ ∃ i pte, m.victim = some i ∧
    m.proc.pagetable.lookup (i * pgsize) = some pte ∧ pte.pa = pa ∧
    ((m.proc.paging.pages i).Droppable ∨ m.CanSave env))

def Machine.reuse (m : Machine) (i pa : Nat) (fs : Fs) (paging : PagingInfo) : Machine :=
  { m.release i pa fs paging with kmem := (m.kmem.give pa).take pa m.kmem.freelist }

/-- The ways asking for a frame can end, each with the state before that leads to it. -/
inductive Machine.Gets (m : Machine) (env : FsEnv) : Option Nat → Machine → Prop where
  /-- A page is free. -/
  | free (pa : Nat) (rest : List Nat) (front : m.kmem.freelist = pa :: rest) :
      Gets m env (some pa) { m with kmem := m.kmem.take pa rest }
  /-- Memory is full and no page is resident. -/
  | bare (full : m.kmem.freelist = []) (alone : m.victim = none) : Gets m env none m
  /-- The page evicted is dropped, but has no frame. -/
  | forgot (i : Nat) (full : m.kmem.freelist = []) (chosen : m.victim = some i)
      (clean : (m.proc.paging.pages i).Droppable)
      (absent : m.proc.pagetable.lookup (i * pgsize) = none) :
      Gets m env none { m with proc := { m.proc with paging := m.proc.paging.drop i } }
  /-- The page evicted is dropped and gives its frame. -/
  | dropped (i : Nat) (pte : Pte) (full : m.kmem.freelist = []) (chosen : m.victim = some i)
      (clean : (m.proc.paging.pages i).Droppable)
      (entry : m.proc.pagetable.lookup (i * pgsize) = some pte)
      (managed : m.kmem.Manages pte.pa) :
      Gets m env (some pte.pa) (m.reuse i pte.pa m.fs (m.proc.paging.drop i))
  /-- The page to evict cannot be saved. -/
  | stuck (i : Nat) (m' : Machine) (full : m.kmem.freelist = []) (chosen : m.victim = some i)
      (kept : ¬ (m.proc.paging.pages i).Droppable) (saves : m.Saves env i (-1) m') :
      Gets m env none m'
  /-- The page evicted is saved and gives its frame. -/
  | saved (i f : Nat) (fs : Fs) (slot : Nat) (pte : Pte) (full : m.kmem.freelist = [])
      (chosen : m.victim = some i) (kept : ¬ (m.proc.paging.pages i).Droppable)
      (target : m.swapTarget env = some (f, fs))
      (free : firstClear m.proc.paging.swapBitmap maxSwapPages 0 = some slot)
      (entry : m.proc.pagetable.lookup (i * pgsize) = some pte)
      (accepted : fs.Accepts f slot ∧ pgsize ≤ env.room) (managed : m.kmem.Manages pte.pa) :
      Gets m env (some pte.pa) (m.reuse i pte.pa
        (writei fs f (m.kmem.ram pte.pa) (slot * pgsize) pgsize env.room).2
        (m.proc.paging.save i slot f))

/-- Asking for a frame takes a free page, or the frame of the page it evicts. -/
theorem wp_obtainFrame {post : Option Nat → Machine → Prop}
    (foreign : ∀ pa, m.Yields env pa → ¬ m.kmem.Manages pa → abort .kfree)
    (obtained : ∀ frame m', m.Gets env frame m' → post frame m') :
    wp (obtainFrame env) post abort m := by
  unfold obtainFrame
  simp only [wp_bind, wp_withKmem]
  refine wp_kalloc (fun full => ?_) fun pa rest front => by
    simpa only [wp_pure] using obtained _ _ (.free pa rest front)
  simp only [evictPageFifo, wp_bind, wp_get]
  cases chosen : (fifoScan m.proc.paging.pages maxTrackedPages).1 with
  | none =>
    simp only [wp_pure, show (-1 : Int) < 0 by decide, if_true]
    exact obtained none m (.bare full chosen)
  | some i =>
    refine wp_swapoutPage_page (fun pte entry bad room => ?_)
      (fun away => absurd (fifoScan_spec chosen) away) ?_ ?_
    · exact foreign pte.pa (Or.inr ⟨full, i, pte, chosen, entry, rfl, room⟩) bad
    · intro m' _ clean evicts
      simp only [show ¬ (0 : Int) < 0 by decide, if_false, wp_withKmem]
      cases evicts with
      | discard pte _ _ entry managed =>
        refine wp_kalloc (fun empty => by simp [Machine.release, Kmem.give] at empty) ?_
        rintro pa rest ⟨rfl, rfl⟩
        exact obtained _ _ (.dropped i pte full chosen clean entry managed)
      | forget _ _ absent =>
        refine wp_kalloc (fun _ => ?_) fun pa rest front => by simp [full] at front
        exact obtained _ _ (.forgot i full chosen clean absent)
      | save _ _ _ _ _ kept => exact absurd clean kept
    · intro r m' _ _ kept saves
      rcases saves.result with rfl | rfl
      · simp only [show ¬ (0 : Int) < 0 by decide, if_false, wp_withKmem]
        cases saves with
        | saved f fs slot pte target free entry accepted managed =>
          refine wp_kalloc (fun empty => by simp [Machine.release, Kmem.give] at empty) ?_
          rintro pa rest ⟨rfl, rfl⟩
          exact obtained _ _
            (.saved i f fs slot pte full chosen kept target free entry accepted managed)
      · simp only [show (-1 : Int) < 0 by decide, if_true, wp_pure]
        exact obtained none m' (.stuck i m' full chosen kept saves)

theorem Machine.Gets.obtains {frame : Option Nat} (gets : m.Gets env frame m') :
    m.Obtains frame m' := by
  cases gets with
  | free pa rest front => exact .free pa rest front
  | bare full => exact .starved m full (Machine.Idles.refl m)
  | forgot i full chosen clean absent =>
    exact .wasted i _ full chosen (.forget (fifoScan_spec chosen).2 clean absent) full
  | dropped i pte full chosen clean entry managed =>
    exact .evicted i _ pte.pa m.kmem.freelist full chosen
      (.discard pte (fifoScan_spec chosen).2 clean entry managed) rfl
  | stuck i _ full chosen kept saves => exact .starved m' full (saves.idles (by decide))
  | saved i f fs slot pte full chosen kept target free entry accepted managed =>
    exact .evicted i _ pte.pa m.kmem.freelist full chosen
      (Machine.Saves.evicts (.saved f fs slot pte target free entry accepted managed)
        (fifoScan_spec chosen).2 kept) rfl

theorem Machine.Gets.yields {mem : Nat} (gets : m.Gets env (some mem) m') :
    m.Yields env mem ∧ (m'.kmem.Manages mem ↔ m.kmem.Manages mem) := by
  cases gets with
  | free _ rest front => exact ⟨Or.inl ⟨rest, front⟩, Iff.rfl⟩
  | dropped i pte full chosen clean entry =>
    exact ⟨Or.inr ⟨full, i, pte, chosen, entry, rfl, Or.inl clean⟩, Iff.rfl⟩
  | saved i f fs slot pte full chosen _ target free entry accepted =>
    exact ⟨Or.inr ⟨full, i, pte, chosen, entry, rfl, Or.inr ⟨f, fs, slot, target, free, accepted⟩⟩,
      Iff.rfl⟩

theorem obtainFrame_evicted {m₁ : Machine} (full : m.kmem.freelist = [])
    (evicted : evictPageFifo env m = .ok (0, m₁)) (room : m₁.kmem.freelist ≠ []) :
    obtainFrame env m = obtainFrame env m₁ := by
  obtain ⟨pa, rest, front⟩ := List.exists_cons_of_ne_nil room
  -- Both take the frame that is free now.
  simp only [obtainFrame, withKmem, focus, kalloc_nil full, kalloc_cons front, evicted, bind,
    StateT.bind, Except.bind, lt_irrefl, if_false]
  rfl

theorem Machine.Obtains.of_free {frame : Option Nat} {pa : Nat} {rest : List Nat}
    (front : m.kmem.freelist = pa :: rest) (obtains : m.Obtains frame m') :
    frame = some pa ∧ m' = { m with kmem := m.kmem.take pa rest } := by
  cases obtains with
  | free pb rest' front' =>
    obtain ⟨rfl, rfl⟩ : pa = pb ∧ rest = rest' := by simpa [front] using front'
    exact ⟨rfl, rfl⟩
  | starved _ full => simp [front] at full
  | evicted _ _ _ _ full => simp [front] at full
  | wasted _ _ full => simp [front] at full

end Xv6
