import Xv6.FaultLaws

/-! The file-system calls of a page fault, whatever the rest of the kernel does meanwhile. -/

namespace Xv6

/-- Calls of the file system that may wait, or that hold something until a later call. -/
inductive FsCall where
  | beginOp
  | endOp
  | ilock (ip : Nat)
  | iunlock (ip : Nat)
  /-- Read or write disk blocks for an inode that is locked. -/
  | transfer (ip : Nat)
  /-- Follow the null pointer of a swap file that is not open; the kernel stops. -/
  | crash
  deriving DecidableEq, Repr

/-- What a page fault finds outside its process, where other processes may run in between. -/
structure FaultChoice where
  /-- The file system at the time the swap file is created. -/
  fs : Fs
  env : FsEnv
  /-- A page is free at the first attempt. -/
  frame : Bool
  /-- A page is free after the eviction. -/
  again : Bool
  /-- The victim could be written in full. -/
  stored : Bool

/-- Look up the parent directory of a path, one locked directory at a time. -/
def nameiparentCalls (fs : Fs) : Nat → List (List UInt8) → List FsCall
  | _, [] => []
  | ip, name :: rest =>
    if (fs.inodes ip).type ≠ some .dir then [.ilock ip, .iunlock ip]
    else match rest with
      -- The last element is not looked up.
      | [] => [.ilock ip, .iunlock ip]
      | _ :: _ => [.ilock ip, .transfer ip, .iunlock ip] ++ match fs.dirlookup ip name with
        | none => []
        | some next => nameiparentCalls fs next rest

/-- Drop the last link of a locked inode and free it. -/
def freeCalls (ip : Nat) : List FsCall := [.iunlock ip, .ilock ip, .transfer ip, .iunlock ip]

/-- Open or create a regular file in a directory; the inode is returned locked. -/
def createIn (fs : Fs) (env : FsEnv) (dp : Nat) (name : List UInt8) : List FsCall × Option Nat :=
  let found : List FsCall := [.ilock dp, .transfer dp]
  match fs.dirlookup dp name with
  | some ip =>
    if (fs.inodes ip).type = some .file ∨ (fs.inodes ip).type = some .device then
      (found ++ [.iunlock dp, .ilock ip], some ip)
    else (found ++ [.iunlock dp, .ilock ip, .iunlock ip], none)
  | none =>
    match env.ialloc with
    | none => (found ++ [.iunlock dp], none)
    | some ip =>
      if (fs.inodes ip).type ≠ none then (found ++ [.iunlock dp], none)
      else
        let made := found ++ [.ilock ip, .transfer ip, .transfer dp]
        if env.dirlink then (made ++ [.iunlock dp], some ip)
        else (made ++ freeCalls ip ++ [.iunlock dp], none)

/-- Open or create a regular file; the inode is returned locked. -/
def createCalls (fs : Fs) (env : FsEnv) (cwd : Nat) (path : List UInt8) :
    List FsCall × Option Nat :=
  let walk := nameiparentCalls fs (pathStart cwd path) (pathElems (path.length + 1) path)
  match nameiparent fs cwd path with
  | none => (walk, none)
  | some (dp, name) => (walk ++ (createIn fs env dp name).1, (createIn fs env dp name).2)

/-- Open the swap file of a process, if it is not open yet. -/
def swapFileCalls (c : FaultChoice) (p : Proc) : List FsCall × Option Nat :=
  match p.paging.swapfile with
  | some f => ([], some f)
  | none =>
    match createCalls c.fs c.env p.cwd (swapName p.pid) with
    | (calls, none) => (.beginOp :: calls ++ [.endOp], none)
    | (calls, some ip) =>
      if c.env.filealloc then (.beginOp :: calls ++ [.iunlock ip, .endOp], some ip)
      else
        -- The inode is unlinked in a second transaction that begins inside the first.
        (.beginOp :: calls ++ [.iunlock ip, .beginOp, .ilock ip, .transfer ip] ++
          (if c.env.lastRef then freeCalls ip else [.iunlock ip]) ++ [.endOp, .endOp], none)

/-- Read or write one page of a file in a transaction of its own. -/
def pageCalls (ip : Nat) : List FsCall :=
  [.beginOp, .ilock ip, .transfer ip, .iunlock ip, .endOp]

/-- What an eviction did: its calls, whether it succeeded, and the swap file open by then. -/
structure Eviction where
  calls : List FsCall
  evicted : Bool
  swapfile : Option Nat

/-- Remove a resident page from memory, saving it when it must be preserved. -/
def swapoutCalls (c : FaultChoice) (p : Proc) (va : Nat) : Eviction :=
  let va := pgrounddown va
  match getPageInfo va with
  | none => ⟨[], false, p.paging.swapfile⟩
  | some i =>
    let pi := p.paging.pages i
    if pi.state ≠ .resident then ⟨[], false, p.paging.swapfile⟩
    else if !pi.dirty && pi.fromExec then ⟨[], true, p.paging.swapfile⟩
    else match swapFileCalls c p with
      | (calls, none) => ⟨calls, false, none⟩
      | (calls, some f) =>
        match (allocSwapSlot p.paging).1, p.pagetable.lookup va with
        | some _, some _ => ⟨calls ++ pageCalls f, c.stored, some f⟩
        | _, _ => ⟨calls, false, some f⟩

/-- The page that has been resident longest. -/
def Proc.victim (p : Proc) : Option Nat := (fifoScan p.paging.pages maxTrackedPages).1

/-- Evict the page that has been resident longest. -/
def evictCalls (c : FaultChoice) (p : Proc) : Eviction :=
  match p.victim with
  | none => ⟨[], false, p.paging.swapfile⟩
  | some victim => swapoutCalls c p (victim * pgsize)

/-- Get a frame, evicting a page when memory is full. -/
def obtainCalls (c : FaultChoice) (p : Proc) : Eviction :=
  if c.frame then ⟨[], true, p.paging.swapfile⟩
  else { evictCalls c p with evicted := (evictCalls c p).evicted && c.again }

/-- Read the file bytes of a segment page. -/
def loadCalls (p : Proc) (seg : Segment) (va : Nat) : List FsCall :=
  match p.paging.execIp with
  | none => []
  | some ip => if readSize seg (va - seg.start) = 0 then [] else pageCalls ip

/-- Get a frame and then fill it. -/
def fillCalls (c : FaultChoice) (p : Proc) (fill : Option Nat → List FsCall) : List FsCall :=
  let got := obtainCalls c p
  got.calls ++ if got.evicted then fill got.swapfile else []

/-- Bring a swapped page back into memory. -/
def swapinCalls (c : FaultChoice) (p : Proc) (va : Nat) : List FsCall :=
  match getPageInfo va with
  | none => []
  | some i =>
    let pi := p.paging.pages i
    if pi.state ≠ .swapped ∨ pi.swapSlot < 0 then []
    else fillCalls c p fun
      | some f => pageCalls f
      | none => [.beginOp, .crash]

/-- The page at an address was written to the swap file. -/
def Proc.Swapped (p : Proc) (va : Nat) : Prop :=
  (getPageInfo va).any fun i => (p.paging.pages i).state = .swapped

instance (p : Proc) (va : Nat) : Decidable (p.Swapped va) := inferInstanceAs (Decidable (_ = true))

/-- Handle a page fault of a process. -/
def faultCalls (c : FaultChoice) (p : Proc) (va cause : Nat) : List FsCall :=
  let va := pgrounddown va
  if maxva ≤ va then []
  else if p.paging.segs.text.Has va ∧ cause = 15 then []
  -- A swapped page is brought back whatever segment it lies in.
  else if p.Swapped va then swapinCalls c p va
  else if p.paging.segs.text.Has va then fillCalls c p fun _ => loadCalls p p.paging.segs.text va
  else if p.paging.segs.data.Has va then fillCalls c p fun _ => loadCalls p p.paging.segs.data va
  else if p.paging.heapStart ≤ va ∧ va < p.sz then fillCalls c p fun _ => []
  else []

/-- Handle a fault the kernel met while copying to or from user memory. -/
def kernelFaultCalls (c : FaultChoice) (p : Proc) (va : Nat) (isWrite : Bool) : List FsCall :=
  let va := pgrounddown va
  if trapframeVa ≤ va then []
  else if ¬ (p.paging.segs.text.Has va ∨ p.paging.segs.data.Has va ∨
      (p.paging.heapStart ≤ va ∧ va < p.sz)) then []
  else faultCalls c p va (if isWrite then 15 else 13)

/-- Reach one page of user memory from the kernel. -/
def accessCalls (c : FaultChoice) (p : Proc) (va : Nat) (isWrite : Bool) : List FsCall :=
  match walkaddr p.pagetable (pgrounddown va) with
  | some _ => []
  | none => kernelFaultCalls c p va isWrite

/-- Evicting a page writes to the swap file, or opens it for that. -/
def Proc.SavesVictim (p : Proc) : Prop :=
  ∃ v, p.victim = some v ∧ ¬ (p.paging.pages v).Droppable ∧
    (p.paging.swapfile = none ∨
      (allocSwapSlot p.paging).1 ≠ none ∧ p.pagetable.lookup (v * pgsize) ≠ none)

/-- A frame can be had without writing a page: it is free, or a clean program page makes room. -/
def FaultChoice.Spares (c : FaultChoice) (p : Proc) : Prop :=
  c.frame = true ∨ c.again = true ∧ ∃ v, p.victim = some v ∧ (p.paging.pages v).Droppable

/-- The contents of a page that is not in memory have to be read from a file. -/
def Proc.ReadsFile (p : Proc) (va : Nat) : Prop :=
  p.Swapped va ∨ p.paging.execIp ≠ none ∧
    if p.paging.segs.text.Has va then
      readSize p.paging.segs.text (va - p.paging.segs.text.start) ≠ 0
    else p.paging.segs.data.Has va ∧
      readSize p.paging.segs.data (va - p.paging.segs.data.start) ≠ 0

/-- The kernel refuses to bring in a page, before it looks for a frame. -/
def Proc.Refuses (p : Proc) (va : Nat) (isWrite : Bool) : Prop :=
  trapframeVa ≤ va ∨ (p.paging.segs.text.Has va ∧ isWrite = true) ∨
    ¬ (p.paging.segs.text.Has va ∨ p.paging.segs.data.Has va ∨
      (p.paging.heapStart ≤ va ∧ va < p.sz)) ∨
    p.Swapped va ∧ (getPageInfo va).any fun i => (p.paging.pages i).swapSlot < 0

/-- The kernel can reach or refuse a page of user memory without the file system. -/
def Proc.ReachesQuietly (c : FaultChoice) (p : Proc) (va : Nat) (isWrite : Bool) : Prop :=
  walkaddr p.pagetable (pgrounddown va) ≠ none ∨ p.Refuses (pgrounddown va) isWrite ∨
    ((c.frame = true ∨ ¬ p.SavesVictim) ∧ ¬ (p.ReadsFile (pgrounddown va) ∧ c.Spares p))

/-- The calls are none if a condition holds, and otherwise begin with a transaction. -/
structure QuietIff (calls : List FsCall) (quiet : Prop) : Prop where
  silent : quiet → calls = []
  begins : ¬ quiet → ∃ rest, calls = .beginOp :: rest

theorem QuietIff.congr {calls : List FsCall} {p q : Prop} (quiet : QuietIff calls p)
    (same : p ↔ q) : QuietIff calls q :=
  ⟨fun holds => quiet.silent (same.mpr holds), fun fails => quiet.begins (mt same.mp fails)⟩

section Emptiness

variable {c : FaultChoice} {p : Proc}

theorem swapFileCalls_cons (closed : p.paging.swapfile = none) :
    ∃ rest, (swapFileCalls c p).1 = .beginOp :: rest := by
  unfold swapFileCalls
  rw [closed]
  dsimp only
  split
  · exact ⟨_, rfl⟩
  · split
    · exact ⟨_, rfl⟩
    · exact ⟨_, rfl⟩

theorem evictCalls_some {v : Nat} (chosen : p.victim = some v) :
    evictCalls c p =
      if (p.paging.pages v).Droppable then ⟨[], true, p.paging.swapfile⟩
      else match swapFileCalls c p with
        | (calls, none) => ⟨calls, false, none⟩
        | (calls, some f) =>
          match (allocSwapSlot p.paging).1, p.pagetable.lookup (v * pgsize) with
          | some _, some _ => ⟨calls ++ pageCalls f, c.stored, some f⟩
          | _, _ => ⟨calls, false, some f⟩ := by
  -- The scan only chooses tracked pages that are resident.
  obtain ⟨tracked, resident⟩ := fifoScan_spec chosen
  have aligned : pgrounddown (v * pgsize) = v * pgsize := by
    rw [pgrounddown, Nat.mul_div_cancel _ pgsize_pos]
  have entry : getPageInfo (v * pgsize) = some v := by
    unfold getPageInfo
    rw [aligned, Nat.mul_div_cancel _ pgsize_pos, if_neg (by omega)]
  have clean : (!(p.paging.pages v).dirty && (p.paging.pages v).fromExec) = true ↔
      (p.paging.pages v).Droppable := by
    simp [PageInfo.Droppable]
  simp only [evictCalls, chosen, swapoutCalls, aligned, entry, resident, clean, ne_eq,
    not_true_eq_false, if_false]

theorem evictCalls_saves (saves : p.SavesVictim) :
    ∃ rest, (evictCalls c p).calls = .beginOp :: rest := by
  obtain ⟨v, chosen, kept, ready⟩ := saves
  rw [evictCalls_some chosen, if_neg kept]
  cases isOpen : p.paging.swapfile with
  | none =>
    -- The swap file is opened first, and whatever follows is added behind that.
    obtain ⟨rest, begins⟩ := swapFileCalls_cons (c := c) isOpen
    split
    · rename_i calls opened
      rw [opened] at begins
      exact ⟨rest, begins⟩
    · rename_i calls f opened
      rw [opened] at begins
      subst begins
      split
      · exact ⟨_, rfl⟩
      · exact ⟨_, rfl⟩
  | some f =>
    obtain ⟨slot, entry⟩ := ready.resolve_left (by simp [isOpen])
    obtain ⟨slot, free⟩ := Option.ne_none_iff_exists'.mp slot
    obtain ⟨pte, mapped⟩ := Option.ne_none_iff_exists'.mp entry
    have opened : swapFileCalls c p = ([], some f) := by simp [swapFileCalls, isOpen]
    rw [opened, free, mapped]
    exact ⟨_, rfl⟩

theorem evictCalls_spares (spared : ¬ p.SavesVictim) :
    (evictCalls c p).calls = [] ∧ ((evictCalls c p).evicted = true ↔
      ∃ v, p.victim = some v ∧ (p.paging.pages v).Droppable) := by
  cases chosen : p.victim with
  | none => simp [evictCalls, chosen]
  | some v =>
    rw [evictCalls_some chosen]
    by_cases clean : (p.paging.pages v).Droppable
    · rw [if_pos clean]
      exact ⟨rfl, fun _ => ⟨v, rfl, clean⟩, fun _ => rfl⟩
    · -- The swap file is open, and there is no slot in it or nothing to write to it.
      have stuck : ¬ (p.paging.swapfile = none ∨
          (allocSwapSlot p.paging).1 ≠ none ∧ p.pagetable.lookup (v * pgsize) ≠ none) :=
        fun ready => spared ⟨v, chosen, clean, ready⟩
      obtain ⟨isOpen, ready⟩ := not_or.mp stuck
      obtain ⟨f, isOpen⟩ := Option.ne_none_iff_exists'.mp isOpen
      have opened : swapFileCalls c p = ([], some f) := by simp [swapFileCalls, isOpen]
      rw [if_neg clean, opened]
      dsimp only
      split
      · rename_i slot pte free mapped
        exact absurd ⟨by simp [free], by simp [mapped]⟩ ready
      · simp [clean]

variable {fill : Option Nat → List FsCall} {cause va : Nat}

theorem fillCalls_quiet (reads : Prop) (filled : ∀ swap, QuietIff (fill swap) (¬ reads)) :
    QuietIff (fillCalls c p fill)
      ((c.frame = true ∨ ¬ p.SavesVictim) ∧ ¬ (reads ∧ c.Spares p)) := by
  unfold fillCalls obtainCalls FaultChoice.Spares
  cases frame : c.frame with
  | true => exact (filled _).congr (by simp)
  | false =>
    by_cases saves : p.SavesVictim
    · obtain ⟨rest, begins⟩ := evictCalls_saves (c := c) saves
      exact ⟨fun quiet => absurd saves (by simpa using quiet.1), fun _ => ⟨_, by simp [begins]; rfl⟩⟩
    · obtain ⟨silent, dropped⟩ := evictCalls_spares (c := c) saves
      simp only [silent, Bool.false_eq_true, if_false, List.nil_append, Bool.and_eq_true, dropped,
        saves, not_false_iff, true_and, false_or]
      split
      · rename_i evicted
        exact (filled _).congr (by simp [evicted])
      · rename_i stays
        exact ⟨fun _ => rfl, fun loud => absurd (fun both => stays both.2.symm) loud⟩

theorem loadCalls_quiet (seg : Segment) (va : Nat) : QuietIff (loadCalls p seg va)
    (¬ (p.paging.execIp ≠ none ∧ readSize seg (va - seg.start) ≠ 0)) := by
  unfold loadCalls
  cases p.paging.execIp with
  | none => exact ⟨fun _ => rfl, fun loud => absurd loud (by simp)⟩
  | some ip =>
    by_cases empty : readSize seg (va - seg.start) = 0
    · exact ⟨fun _ => if_pos empty, fun loud => absurd loud (by simp [empty])⟩
    · exact ⟨fun quiet => absurd quiet (by simp [empty]), fun _ => ⟨_, if_neg empty⟩⟩

theorem swapinCalls_quiet (swapped : p.Swapped va) : QuietIff (swapinCalls c p va)
    (((getPageInfo va).any fun i => (p.paging.pages i).swapSlot < 0) = true ∨
      (c.frame = true ∨ ¬ p.SavesVictim) ∧ ¬ c.Spares p) := by
  unfold swapinCalls
  obtain ⟨i, entry, saved⟩ := (Option.any_eq_true _ _).mp swapped
  have saved := of_decide_eq_true saved
  simp only [entry, saved, ne_eq, not_true_eq_false, false_or]
  split
  · rename_i lost
    exact ⟨fun _ => rfl, fun loud => absurd (Or.inl (by simpa using lost)) loud⟩
  · rename_i slot
    refine (fillCalls_quiet True fun swap => ⟨fun quiet => absurd trivial quiet, fun _ => ?_⟩).congr
      (by simp [slot])
    cases swap with
    | none => exact ⟨_, rfl⟩
    | some f => exact ⟨_, rfl⟩

theorem faultCalls_quiet (aligned : pgrounddown va = va) (low : va < maxva)
    (mine : p.paging.segs.text.Has va ∨ p.paging.segs.data.Has va ∨
      (p.paging.heapStart ≤ va ∧ va < p.sz)) :
    QuietIff (faultCalls c p va cause) (p.paging.segs.text.Has va ∧ cause = 15 ∨
      p.Swapped va ∧ ((getPageInfo va).any fun i => (p.paging.pages i).swapSlot < 0) = true ∨
      (c.frame = true ∨ ¬ p.SavesVictim) ∧ ¬ (p.ReadsFile va ∧ c.Spares p)) := by
  unfold faultCalls Proc.ReadsFile
  simp only [aligned, if_neg (Nat.not_le.mpr low)]
  by_cases text : p.paging.segs.text.Has va ∧ cause = 15
  · rw [if_pos text]
    exact ⟨fun _ => rfl, fun loud => absurd (Or.inl text) loud⟩
  rw [if_neg text]
  by_cases swapped : p.Swapped va
  · rw [if_pos swapped]
    exact (swapinCalls_quiet swapped).congr (by simp [text, swapped])
  rw [if_neg swapped]
  simp only [text, swapped, false_and, false_or]
  -- What is left is the segment the page lies in, or the heap.
  by_cases inText : p.paging.segs.text.Has va
  · simp only [inText]
    exact fillCalls_quiet _ fun _ => loadCalls_quiet _ _
  by_cases inData : p.paging.segs.data.Has va
  · simp only [inText, inData, true_and]
    exact fillCalls_quiet _ fun _ => loadCalls_quiet _ _
  · have heap := (mine.resolve_left inText).resolve_left inData
    rw [if_neg inText, if_neg inData, if_pos heap, if_neg inText]
    exact fillCalls_quiet _ fun _ => ⟨fun _ => rfl, fun loud => absurd loud (by simp [inData])⟩

theorem accessCalls_quiet (va : Nat) (isWrite : Bool) :
    QuietIff (accessCalls c p va isWrite) (p.ReachesQuietly c va isWrite) := by
  unfold accessCalls Proc.ReachesQuietly
  cases mapped : walkaddr p.pagetable (pgrounddown va) with
  | some pa => exact ⟨fun _ => rfl, fun loud => absurd (Or.inl (by simp)) loud⟩
  | none =>
    unfold kernelFaultCalls Proc.Refuses
    have aligned : pgrounddown (pgrounddown va) = pgrounddown va := by
      rw [pgrounddown, pgrounddown, Nat.mul_div_cancel _ pgsize_pos]
    by_cases high : trapframeVa ≤ pgrounddown va
    · rw [if_pos high]
      exact ⟨fun _ => rfl, fun loud => absurd (by simp [high]) loud⟩
    by_cases mine : p.paging.segs.text.Has (pgrounddown va) ∨
        p.paging.segs.data.Has (pgrounddown va) ∨
        (p.paging.heapStart ≤ pgrounddown va ∧ pgrounddown va < p.sz)
    · have low : pgrounddown va < maxva := by
        simp only [trapframeVa, trampolineVa] at high ⊢
        omega
      have cause : (if isWrite = true then 15 else 13) = 15 ↔ isWrite = true := by
        cases isWrite <;> simp
      rw [if_neg high, if_neg (not_not_intro mine)]
      refine (faultCalls_quiet aligned low mine).congr ?_
      simp only [cause, high, mine, not_true_eq_false, false_or, ne_eq, or_assoc]
    · rw [if_neg high, if_pos mine]
      exact ⟨fun _ => rfl, fun loud => absurd (by simp [mine]) loud⟩

end Emptiness

end Xv6
