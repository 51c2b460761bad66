import Xv6.ForkImage
import Xv6.SwapFiles

/-! What a process can read after a successful exec. -/

namespace Xv6

open Prog

structure Machine.Pinned (m : Machine) (i : Nat) (pte : Pte) : Prop where
  mapped : m.proc.pagetable.lookup (i * pgsize) = some pte
  kept : (m.proc.paging.pages i).state ≠ .resident

variable {r : Int} {e : UserEvent} {es : List UserEvent} {fs fs' : Fs} {ip : Nat} {m : Machine}

section Pinned

variable {m m' : Machine} {i : Nat} {pte : Pte}

theorem Machine.Pinned.congr (pinned : m.Pinned i pte)
    (lookup : m'.proc.pagetable.lookup (i * pgsize) = m.proc.pagetable.lookup (i * pgsize))
    (entry : m'.proc.paging.pages i = m.proc.paging.pages i) : m'.Pinned i pte := by
  obtain ⟨mapped, kept⟩ := pinned
  exact ⟨lookup.trans mapped, by rwa [entry]⟩

theorem Machine.Evicts.pinned {j : Nat} (evicts : m.Evicts j m') (tracked : j < maxTrackedPages)
    (below : i * pgsize < maxva) (pinned : m.Pinned i pte) : m'.Pinned i pte := by
  have other : i ≠ j := by
    rintro rfl
    exact pinned.kept evicts.resident
  apply pinned.congr
  · have lookup := evicts.lookup tracked (lt_vaSpan below)
    rwa [Nat.mul_div_cancel _ pgsize_pos, if_neg other] at lookup
  · cases evicts <;>
      simp [Machine.release, PagingInfo.drop, PagingInfo.save, PagingInfo.setPage, other]

theorem Machine.Obtains.pinned {frame : Option Nat} (obtains : m.Obtains frame m')
    (below : i * pgsize < maxva) (pinned : m.Pinned i pte) : m'.Pinned i pte := by
  cases obtains with
  | free => exact pinned.congr rfl rfl
  | starved _ _ idle =>
    apply pinned.congr
    · rw [idle.memory.2]
    · rw [idle.same]
      rfl
  | evicted j _ _ _ _ chosen evicts =>
    exact (evicts.pinned (fifoScan_spec chosen).1 below pinned).congr rfl rfl
  | wasted j _ _ chosen evicts => exact evicts.pinned (fifoScan_spec chosen).1 below pinned

theorem Machine.Brings.pinned {page : Nat} {src : Source} (pages : m.Brings env page src r m')
    (isLocal : src.Local page) (below : i * pgsize < maxva) (pinned : m.Pinned i pte) :
    m'.Pinned i pte := by
  have apart : ∀ {m₁ : Machine}, m₁.Pinned i pte → m₁.proc.pagetable.lookup page = none →
      i ≠ page / pgsize := by
    rintro m₁ pinned₁ absent rfl
    have mapped := pinned₁.mapped
    rw [lookup_page, absent] at mapped
    simp at mapped
  cases pages with
  | starved _ gets => exact gets.obtains.pinned below pinned
  | unread m₁ mem gets => exact (gets.obtains.pinned below pinned).congr rfl rfl
  | refused m₁ mem bytes t gets filled grown full absent =>
    have before := gets.obtains.pinned below pinned
    exact before.congr (grown.lookup _) (isLocal.others _ _ (apart before absent))
  | mapped m₁ mem bytes t gets filled maps =>
    have before := gets.obtains.pinned below pinned
    have other := apart before maps.absent
    apply before.congr
    · have lookup := maps.lookup (i * pgsize) (lt_vaSpan below)
      rwa [Nat.mul_div_cancel _ pgsize_pos, if_neg other] at lookup
    · simp only [PagingInfo.settle_of_ne _ _ other, isLocal.others _ _ other]

theorem Machine.Does.pinned {op : PagingOp} (does : m.Does op r m') (below : i * pgsize < maxva)
    (pinned : m.Pinned i pte) : m'.Pinned i pte := by
  cases does with
  | fault va cause _ _ handles =>
    cases handles with
    | paged src _ _ serves pages => exact pages.pinned serves.isLocal below pinned
    | high => exact pinned
    | textWrite => exact pinned.congr rfl rfl
    | lost => exact pinned
    | outside => exact pinned.congr rfl rfl
  | refused => exact pinned
  | swapin va j _ _ number swapped positive pages =>
    exact pages.pinned (swapSource_local number _) below pinned
  | idle _ _ idle =>
    apply pinned.congr
    · rw [idle.memory.2]
    · rw [idle.same]
      rfl
  | swapout va _ vaTracked evicts => exact evicts.pinned vaTracked below pinned
  | evict j _ chosen evicts => exact evicts.pinned (fifoScan_spec chosen).1 below pinned

theorem Machine.UserStep.pinned (step : m.UserStep e m') (sound : m.Sound)
    (below : i * pgsize < maxva) (pinned : m.Pinned i pte) : m'.Pinned i pte := by
  rcases e with ⟨va, value⟩ | ⟨va, value⟩ | (⟨env, op⟩ | n)
  · obtain ⟨-, rfl⟩ := step
    exact pinned
  · obtain ⟨pa, -, rfl⟩ := userStore_true step
    exact pinned.congr rfl rfl
  · obtain ⟨r, ran⟩ := step
    exact (PagingOp.run_does ran).pinned below pinned
  · obtain ⟨positive, r, ran⟩ := step
    obtain ⟨sz, -, rfl⟩ := sysSbrk_grow sound positive ran
    exact pinned.congr rfl rfl

theorem Machine.RereadsAt.not_pinned {va : Nat} (rereads : m.RereadsAt va e) :
    ¬ m.Pinned (va / pgsize) pte := by
  intro pinned
  rcases e with _ | _ | (⟨env, op⟩ | n)
  · exact rereads
  · exact rereads
  · exact pinned.kept rereads.resident
  · exact rereads

end Pinned

def Machine.Unpaged (m : Machine) : Prop := ∀ i, (m.proc.paging.pages i).state = .unmapped

def Machine.MayRead (m : Machine) (va : Nat) (value : UInt8) : Prop :=
  ∃ es m', Trace.Run Machine.UserStep m es m' ∧ (∀ stored, .store va stored ∉ es) ∧
    userLoad m' va = some value

structure Machine.Shows (m₀ m : Machine) (va : Nat) (byte : UInt8) : Prop where
  steady : m.Steady
  paging : m.proc.paging.context = m₀.proc.paging.context
  file : ∀ ip, m₀.proc.paging.execIp = some ip → m.fs.inodes ip = m₀.fs.inodes ip
  keeps : m.Keeps va byte
  /-- The page is pinned, or the byte is the one its page starts with. -/
  source : (∃ pte, m.Pinned (va / pgsize) pte) ∨
    ∀ bytes, m₀.fresh (pgrounddown va) = some bytes → bytes (va % pgsize) = byte

section Shows

variable {m₀ m m' : Machine} {va : Nat} {byte value : UInt8} {e : UserEvent}

theorem Machine.Shows.step (shows : m₀.Shows m va byte) (step : m.UserStep e m')
    (user : UserAddress va) (other : ∀ stored, e ≠ .store va stored) : m₀.Shows m' va byte := by
  have below : va / pgsize * pgsize < maxva := by
    have floor := Nat.div_mul_le_self va pgsize
    have limit := user.below
    omega
  have execIp : m.proc.paging.execIp = m₀.proc.paging.execIp :=
    congrArg PagingContext.execIp shows.paging
  refine ⟨step.steady shows.steady, (step.context shows.steady.sound).trans shows.paging, ?_, ?_, ?_⟩
  · intro ip running
    rw [step.file shows.steady ip (execIp.trans running), shows.file ip running]
  · apply step.keeps (shows.steady.at _) user other shows.keeps
    intro rereads bytes loaded
    -- A page that is reread is not pinned, so its bytes are those it started with.
    rcases shows.source with ⟨pte, pinned⟩ | fresh
    · exact absurd pinned rereads.not_pinned
    · apply fresh bytes
      rw [← Machine.fresh_congr_paging shows.paging shows.file, loaded]
  · rcases shows.source with ⟨pte, pinned⟩ | fresh
    · exact Or.inl ⟨pte, step.pinned shows.steady.sound below pinned⟩
    · exact Or.inr fresh

theorem Machine.Shows.run (shows : m₀.Shows m va byte) (run : Trace.Run Machine.UserStep m es m')
    (user : UserAddress va) (unstored : ∀ stored, .store va stored ∉ es) : m₀.Shows m' va byte := by
  induction run with
  | nil => exact shows
  | cons first rest ih =>
    simp only [List.mem_cons, not_or] at unstored
    apply ih
    · exact shows.step first user fun stored same => (unstored stored).1 same.symm
    · exact fun stored => (unstored stored).2

theorem Machine.Pinned.unread {pte : Pte} (pinned : m.Pinned (va / pgsize) pte)
    (hidden : pte.perm.u = false) (steady : m.Steady) (run : Trace.Run Machine.UserStep m es m')
    (user : UserAddress va) : userLoad m' va = none := by
  have below : va / pgsize * pgsize < maxva := by
    have floor := Nat.div_mul_le_self va pgsize
    have limit := user.below
    omega
  obtain ⟨-, still⟩ := run.invariant (fun m => m.Steady ∧ m.Pinned (va / pgsize) pte)
    (fun m e m' held step => ⟨step.steady held.1, step.pinned held.1.sound below held.2⟩)
    ⟨steady, pinned⟩
  have entry := still.mapped
  rw [lookup_page] at entry
  simp [userLoad, translate, entry, hidden]

end Shows

def SegmentLoad.byte (load : SegmentLoad) (fs : Fs) (ip : Nat) (page : Nat → UInt8) (va : Nat) :
    UInt8 :=
  if va / pgsize = load.top / pgsize + 1 then page (va % pgsize)
  else
    let here := pgrounddown va
    let bytes :=
      if load.segs.text.Has here then segmentBytes fs (some ip) load.segs.text here
      else if load.segs.data.Has here then segmentBytes fs (some ip) load.segs.data here
      else some fun _ => 0
    (bytes.getD fun _ => 0) (va % pgsize)

section Image

variable {m m' : Machine} {env : FsEnv} {path : List UInt8} {argv : List (List UInt8)}
  {ip f guard stack va : Nat} {load : SegmentLoad} {page : Nat → UInt8} {value : UInt8}

theorem Machine.Commits.file (commits : m.Commits env path argv m' ip load f guard stack page)
    (apart : m.fs.Apart (swapName m.proc.pid) none ip) : m'.fs.inodes ip = m.fs.inodes ip := by
  have step := openSwap_step m.fs env m.proc.cwd m.proc.pid fun _ => false
  rw [commits.files]
  exact (step.spares ip apart).2

theorem Machine.Commits.fresh (commits : m.Commits env path argv m' ip load f guard stack page)
    (apart : m.fs.Apart (swapName m.proc.pid) none ip) (here : Nat) : m'.fresh here =
      if load.segs.text.Has here then segmentBytes m.fs (some ip) load.segs.text here
      else if load.segs.data.Has here then segmentBytes m.fs (some ip) load.segs.data here
      else some fun _ => 0 := by
  have program : m'.proc.paging.execIp = some ip := by rw [commits.paging]; rfl
  have file : ∀ ip', some ip = some ip' → m'.fs.inodes ip' = m.fs.inodes ip' := by
    intro ip' same
    obtain rfl := Option.some.inj same
    exact commits.file apart
  simp only [Machine.fresh, commits.ranges.1, program, segmentBytes_congr file]

theorem Machine.Commits.mayRead (commits : m.Commits env path argv m' ip load f guard stack page)
    (sound : m.Sound) (apart : m.fs.Apart (swapName m.proc.pid) none ip) (unpaged : m.Unpaged)
    (reads : m'.MayRead va value) : value = load.byte m.fs ip page va := by
  obtain ⟨es, end', run, unstored, loaded⟩ := reads
  have unswapped : ∀ i, (m.proc.paging.pages i).state ≠ .swapped := by
    intro i
    rw [unpaged i]
    decide
  have steady := commits.steady sound (PagingInfo.slotsHeld_of_unswapped unswapped) apart
  obtain ⟨segs, heapStart, pages⟩ := commits.ranges
  have endSteady : end'.Steady :=
    run.invariant Machine.Steady (fun _ _ _ steady step => step.steady steady) steady
  obtain ⟨pa, found, -⟩ := Option.map_eq_some_iff.mp loaded
  obtain ⟨user, -⟩ := translate_some endSteady.sound found
  have kept : (m'.proc.paging.pages (va / pgsize)).state ≠ .resident := by
    rw [pages, unpaged]
    decide
  have span := lt_vaSpan user.below
  -- The guard page is never read, the stack page holds the arguments, the rest is fresh.
  by_cases inGuard : va / pgsize = load.top / pgsize
  · have mapped := commits.image.lookup va span
    rw [if_pos inGuard, ← lookup_page] at mapped
    have hidden := Machine.Pinned.unread ⟨mapped, kept⟩ rfl steady run user
    simp [hidden] at loaded
  have shows : m'.Shows m' va (load.byte m.fs ip page va) := by
    by_cases inStack : va / pgsize = load.top / pgsize + 1
    · have mapped := commits.image.lookup va span
      rw [if_neg inGuard, if_pos inStack] at mapped
      have pinned : m'.Pinned (va / pgsize) ⟨stack, ⟨true, true, false, true⟩⟩ :=
        ⟨by rw [lookup_page]; exact mapped, kept⟩
      refine ⟨steady, rfl, fun _ _ => rfl, ⟨?_, ?_, ?_⟩, Or.inl ⟨_, pinned⟩⟩
      · intro pte entry
        obtain rfl := Option.some.inj (mapped.symm.trans entry)
        rw [commits.filled, SegmentLoad.byte, if_pos inStack]
      · exact fun absent => by simp [mapped] at absent
      · exact fun absent => by simp [mapped] at absent
    · have absent := commits.vacant user inGuard inStack
      have here : ¬ m'.Swapped va := by
        intro swapped
        obtain ⟨-, state⟩ := Machine.swapped_iff.mp swapped
        rw [pages] at state
        exact unswapped _ state
      have image : load.byte m.fs ip page va = m'.image va := by
        rw [SegmentLoad.byte, if_neg inStack, Machine.image, commits.fresh apart]
      rw [image]
      refine ⟨steady, rfl, fun _ _ => rfl, Machine.keeps_image absent here, Or.inr ?_⟩
      intro bytes loaded
      simp [Machine.image, loaded]
  exact (shows.run run user unstored).keeps.load endSteady.sound loaded

end Image

structure Machine.Alike (m n : Machine) : Prop where
  pid : n.proc.pid = m.proc.pid
  cwd : n.proc.cwd = m.proc.cwd
  tf : n.proc.tf = m.proc.tf
  names : n.fs.dirlookup = m.fs.dirlookup
  types : ∀ e, (n.fs.inodes e).type = (m.fs.inodes e).type
  files : ∀ e, m.fs.Apart (swapName m.proc.pid) m.proc.paging.swapfile e →
    n.fs.inodes e = m.fs.inodes e

section Alike

variable {m n : Machine}

theorem namei_congr (names : fs'.dirlookup = fs.dirlookup)
    (types : ∀ e, (fs'.inodes e).type = (fs.inodes e).type) (cwd : Nat) (path : List UInt8) :
    namei fs' cwd path = namei fs cwd path := by
  have walk : ∀ elems ip, namexFrom fs' ip elems = namexFrom fs ip elems := by
    intro elems
    induction elems with
    | nil => exact fun _ => rfl
    | cons name rest ih =>
      intro ip
      simp only [namexFrom, names, types, ih]
  exact walk _ _

theorem readi_congr (file : fs'.inodes ip = fs.inodes ip) : readi fs' ip = readi fs ip := by
  funext dst off n
  simp only [readi, file]

theorem exec_congr (file : fs'.inodes ip = fs.inodes ip) :
    execHeader fs' ip = execHeader fs ip ∧ execLoad fs' ip = execLoad fs ip := by
  have reads := readi_congr file
  have segments : ∀ n off sz segs,
      loadSegments fs' ip n off sz segs = loadSegments fs ip n off sz segs := by
    intro n
    induction n with
    | zero => exact fun _ _ _ => rfl
    | succ n ih =>
      intro off sz segs
      simp only [loadSegments, reads, ih]
  refine ⟨by simp only [execHeader, reads], ?_⟩
  funext hdr
  exact segments _ _ _ _

end Alike

/-- A successful exec starts from a clean image exactly when the old paging table was empty. -/
theorem exec_clean_iff {m n m' n' : Machine} {env env' : FsEnv} {path : List UInt8}
    {argv : List (List UInt8)} {r r' : Int} {ip : Nat} (sound : m.Sound) (sound' : n.Sound)
    (short : ∀ arg ∈ argv, arg.length < pgsize) (alike : m.Alike n)
    (named : namei m.fs m.proc.cwd path = some ip)
    (apart : m.fs.Apart (swapName m.proc.pid) m.proc.paging.swapfile ip)
    (ran : kexec env path argv m = .ok (r, m')) (success : r ≠ -1)
    (ran' : kexec env' path argv n = .ok (r', n')) (success' : r' ≠ -1) :
    ((∀ va value value', m'.MayRead va value → n'.MayRead va value' → value = value') ∧
      m'.Unpaged ∧ n'.Unpaged) ↔ m.Unpaged ∧ n.Unpaged := by
  obtain ⟨ip₁, load, f, guard, stack, page, commits⟩ :=
    (execs_of_ok sound short ran).commits success
  obtain ⟨ip₂, load', f', guard', stack', page', commits'⟩ :=
    (execs_of_ok sound' short ran').commits success'
  -- Both start the same file, with the same segments and the same stack page.
  obtain rfl : ip = ip₁ := Option.some.inj (named.symm.trans commits.found)
  obtain rfl : ip = ip₂ := by
    have found := commits'.found
    rw [alike.cwd, namei_congr alike.names alike.types, named] at found
    exact Option.some.inj found
  have file : n.fs.inodes ip = m.fs.inodes ip := alike.files ip apart
  obtain rfl : load' = load := by
    obtain ⟨hdr, header, rfl⟩ := commits.loaded
    obtain ⟨hdr', header', rfl⟩ := commits'.loaded
    rw [(exec_congr file).1, header] at header'
    rw [(exec_congr file).2, Option.some.inj header']
  obtain rfl : page' = page := by
    obtain ⟨sp, argc, laid⟩ := commits.laid
    obtain ⟨sp', argc', laid'⟩ := commits'.laid
    rw [laid] at laid'
    simp only [Option.some.injEq, Prod.mk.injEq] at laid'
    exact laid'.2.2.symm
  have untouched : m'.Unpaged ↔ m.Unpaged := by rw [Machine.Unpaged, commits.ranges.2.2]; rfl
  have untouched' : n'.Unpaged ↔ n.Unpaged := by rw [Machine.Unpaged, commits'.ranges.2.2]; rfl
  rw [untouched, untouched']
  refine ⟨fun clean => clean.2, fun unpaged => ⟨?_, unpaged⟩⟩
  intro va value value' reads reads'
  have apart₁ : m.fs.Apart (swapName m.proc.pid) none ip :=
    ⟨apart.allocated, apart.unnamed, by simp⟩
  have apart₂ : n.fs.Apart (swapName n.proc.pid) none ip := by
    refine ⟨?_, ?_, by simp⟩
    · rw [alike.types]
      exact apart.allocated
    · rw [alike.names, alike.pid]
      exact apart.unnamed
  rw [commits.mayRead sound apart₁ unpaged.1 reads, commits'.mayRead sound' apart₂ unpaged.2 reads']
  have same : ∀ ip', some ip = some ip' → n.fs.inodes ip' = m.fs.inodes ip' := by
    intro ip' same
    obtain rfl := Option.some.inj same
    exact file
  simp only [SegmentLoad.byte, segmentBytes_congr same]

/-- The first process after the exec that starts it, with the memory it has. -/
theorem exec_clean_init : ∃ m' n', kexec someFiles initPath [initPath]
      (initMachine 12 (elfFile 5 pgsize)) = .ok (1, m') ∧
    kexec someFiles initPath [initPath] (initMachine 24 (elfFile 5 pgsize)) = .ok (1, n') ∧
    (∀ va value value', m'.MayRead va value → n'.MayRead va value' → value = value') ∧
    m'.Unpaged ∧ n'.Unpaged := by
  have ran := initRunning_ran
  have alike : (initMachine 12 (elfFile 5 pgsize)).Alike (initMachine 24 (elfFile 5 pgsize)) :=
    ⟨rfl, rfl, rfl, rfl, fun _ => rfl, fun _ _ => rfl⟩
  refine ⟨_, _, ran, roomyRunning_ran, ?_⟩
  apply (exec_clean_iff (initMachine_sound _) (initMachine_sound_of_le (by decide) _)
    (by decide) alike (by decide) (initFs_apart (by simp [elfFile]) _) ran (by decide)
    roomyRunning_ran (by decide)).mpr
  exact ⟨fun _ => rfl, fun _ => rfl⟩

structure Machine.SameTree (m n : Machine) : Prop where
  alike : m.Alike n
  swapfile : n.proc.paging.swapfile = m.proc.paging.swapfile

theorem Machine.SameTree.step {m₀ m' : Machine} {f : Nat}
    (isOpen : m₀.proc.paging.swapfile = some f) (same : m₀.SameTree m) (sound : m.Sound)
    (step : m.UserStep e m') : m₀.SameTree m' := by
  obtain ⟨alike, swapfile⟩ := same
  rcases e with ⟨va, value⟩ | ⟨va, value⟩ | (⟨env, op⟩ | n)
  · obtain ⟨-, rfl⟩ := step
    exact ⟨alike, swapfile⟩
  · obtain ⟨pa, -, rfl⟩ := userStore_true step
    exact ⟨⟨alike.pid, alike.cwd, alike.tf, alike.names, alike.types, alike.files⟩, swapfile⟩
  · obtain ⟨r, ran⟩ := step
    have context := (PagingOp.run_does ran).context
    obtain ⟨still, names, types, others⟩ :=
      (PagingOp.run_swaps ran).held (swapfile.trans isOpen)
    refine ⟨⟨?_, ?_, ?_, names.trans alike.names, fun e => (types e).trans (alike.types e), ?_⟩, ?_⟩
    · exact (congrArg ProcContext.pid context).trans alike.pid
    · exact (congrArg ProcContext.cwd context).trans alike.cwd
    · exact (congrArg ProcContext.tf context).trans alike.tf
    · intro e apart
      have other : e ≠ f := fun equal => apart.other (by rw [isOpen, equal])
      exact (others e other).trans (alike.files e apart)
    · rw [still, isOpen]
  · obtain ⟨positive, r, ran⟩ := step
    obtain ⟨sz, -, rfl⟩ := sysSbrk_grow sound positive ran
    exact ⟨⟨alike.pid, alike.cwd, alike.tf, alike.names, alike.types, alike.files⟩, swapfile⟩

def rerun (m : Machine) : Option (Machine × Machine) :=
  match kexec someFiles initPath [initPath] m with
  | .ok (1, m') =>
    (Trace.steps Machine.userStep m'
      [.other (.grow 4096), .other (.page someFiles (.fault 12296 13))]).map fun m'' => (m', m'')
  | _ => none

theorem mayRead_of_rerun {value : UInt8}
    (ran : (rerun m).any fun (_, m'') => userLoad m'' 12296 = some value) :
    ∃ m', kexec someFiles initPath [initPath] m = .ok (1, m') ∧ m'.MayRead 12296 value := by
  obtain ⟨⟨m', m''⟩, computed, read⟩ := (Option.any_eq_true _ _).mp ran
  unfold rerun at computed
  split at computed
  · rename_i m₁ started
    obtain ⟨m₂, steps, same⟩ := Option.map_eq_some_iff.mp computed
    obtain ⟨rfl, rfl⟩ := Prod.mk.inj same
    exact ⟨m₁, started, _, m₂, Trace.Run.of_steps Machine.userStep_sound steps, by simp,
      of_decide_eq_true read⟩
  · simp at computed

/-- A byte of the old image is read after an exec, because its page was in swap. -/
theorem exec_leaks_swapped : ∃ m m' n',
    Trace.Run Machine.UserStep roomyRunning growStoreEvict m ∧ roomyRunning.Alike m ∧
    kexec someFiles initPath [initPath] m = .ok (1, m') ∧
    kexec someFiles initPath [initPath] roomyRunning = .ok (1, n') ∧
    m'.MayRead 12296 42 ∧ n'.MayRead 12296 0 := by
  have ran : (Trace.steps (Machine.amongStep (.one 3 (by decide)) fun _ _ => true) roomyRunning
      growStoreEvict).any fun m =>
      (rerun m).any fun (_, m'') => userLoad m'' 12296 = some 42 := by decide +kernel
  obtain ⟨m, computed, dirty⟩ := (Option.any_eq_true _ _).mp ran
  have run := roomyRunning_steps computed
  have isOpen : roomyRunning.proc.paging.swapfile = some 3 := by decide +kernel
  obtain ⟨-, same⟩ := run.invariant (fun m => m.Steady ∧ roomyRunning.SameTree m)
    (fun m e m' held step => ⟨step.steady held.1, held.2.step isOpen held.1.sound step⟩)
    ⟨roomyRunning_steady, ⟨⟨rfl, rfl, rfl, rfl, fun _ => rfl, fun _ _ => rfl⟩, rfl⟩⟩
  obtain ⟨m', started, reads⟩ := mayRead_of_rerun dirty
  have clean : (rerun roomyRunning).any fun (_, m'') => userLoad m'' 12296 = some 0 := by
    decide +kernel
  obtain ⟨n', started', reads'⟩ := mayRead_of_rerun clean
  exact ⟨m, m', n', run, same.alike, started, started', reads, reads'⟩

end Xv6
