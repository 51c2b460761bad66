import Xv6.FaultAccess
import Xv6.HeapRuns

/-! The segments that exec remembers, where they lie, and what a fault makes of their pages. -/

namespace Xv6

open Prog

def loadHeaders (fs : Fs) (ip : Nat) : Nat → Nat → List Proghdr
  | 0, _ => []
  | n + 1, off =>
    let ph := parseProghdr (readi fs ip (fun _ => 0) off proghdrSize).2
    let rest := loadHeaders fs ip n (u32 (off + proghdrSize))
    if ph.type = elfProgLoad then ph :: rest else rest

def execHeaders (fs : Fs) (ip : Nat) (hdr : Elfhdr) : List Proghdr :=
  loadHeaders fs ip hdr.phnum (u32 hdr.phoff)

def Proghdr.segment (ph : Proghdr) : Segment :=
  ⟨ph.vaddr, u64 (ph.vaddr + ph.memsz), ph.off, ph.filesz⟩

def Proghdr.Has (ph : Proghdr) (va : Nat) : Prop := ph.vaddr ≤ va ∧ va < ph.vaddr + ph.memsz

instance (ph : Proghdr) (va : Nat) : Decidable (ph.Has va) :=
  inferInstanceAs (Decidable (_ ∧ _))

def Proghdr.exec (ph : Proghdr) : Bool := (flags2perm ph.flags).1

def Proghdr.write (ph : Proghdr) : Bool := (flags2perm ph.flags).2

def Proghdr.perm (ph : Proghdr) : Perm := ⟨true, ph.write, ph.exec, true⟩

def textHeader (headers : List Proghdr) : Option Proghdr := (headers.filter Proghdr.exec).getLast?

def dataHeader (headers : List Proghdr) : Option Proghdr :=
  (headers.filter fun ph => !ph.exec && ph.write).getLast?

def lastEnd (headers : List Proghdr) : Nat :=
  headers.getLast?.elim 0 fun ph => ph.vaddr + ph.memsz

theorem readLe_lt (bytes : Nat → UInt8) (off width : Nat) :
    readLe bytes off width < 256 ^ width := by
  induction width generalizing off with
  | zero => simp [readLe]
  | succ width ih =>
    -- The low byte adds less than one unit of the rest.
    have byte := (bytes off).toNat_lt
    have rest := ih (off + 1)
    rw [readLe, Nat.pow_succ]
    omega

theorem parseProghdr_end {bytes : Nat → UInt8} (accepted : (parseProghdr bytes).Acceptable) :
    u64 ((parseProghdr bytes).vaddr + (parseProghdr bytes).memsz) =
      (parseProghdr bytes).vaddr + (parseProghdr bytes).memsz := by
  have size : (parseProghdr bytes).memsz < 256 ^ 8 := readLe_lt bytes 40 8
  have order := accepted.2.1
  simp only [u64] at *
  omega

structure Proghdr.Good (ph : Proghdr) : Prop where
  aligned : ph.vaddr % pgsize = 0
  unwrapped : u64 (ph.vaddr + ph.memsz) = ph.vaddr + ph.memsz

theorem loadSegments_headers (fs : Fs) (ip : Nat) : ∀ n off sz segs,
    (loadSegments fs ip n off sz segs).ok = true →
    (loadSegments fs ip n off sz segs).segs =
      (loadHeaders fs ip n off).foldl recordSegment segs ∧
    (loadSegments fs ip n off sz segs).sz =
      (loadHeaders fs ip n off).getLast?.elim sz (fun ph => ph.vaddr + ph.memsz) ∧
    ∀ ph ∈ loadHeaders fs ip n off, ph.Good := by
  intro n
  induction n with
  | zero => intro off sz segs _; simp [loadSegments, loadHeaders]
  | succ n ih =>
    intro off sz segs
    simp only [loadSegments, loadHeaders]
    generalize readi fs ip (fun _ => 0) off proghdrSize = read
    obtain ⟨got, bytes⟩ := read
    split
    · simp
    split
    · -- Other headers are passed by.
      exact ih _ _ _
    split
    · simp
    split
    · simp
    · rename_i _ loadable accepted _
      intro ok
      have good := not_not.mp accepted
      obtain ⟨recorded, size, rest⟩ := ih _ _ _ ok
      rw [if_pos (not_not.mp loadable)]
      refine ⟨recorded, ?_, ?_⟩
      · rw [size, List.getLast?_cons]
        cases (loadHeaders fs ip n (u32 (off + proghdrSize))).getLast? with
        | none => exact parseProghdr_end good
        | some ph => simp
      · intro ph member
        rcases List.mem_cons.mp member with rfl | later
        · exact ⟨good.2.2, parseProghdr_end good⟩
        · exact rest ph later

theorem foldl_recordSegment (headers : List Proghdr) (segs : Segments) :
    headers.foldl recordSegment segs =
      ⟨(textHeader headers).elim segs.text Proghdr.segment,
        (dataHeader headers).elim segs.data Proghdr.segment⟩ := by
  induction headers using List.reverseRecOn with
  | nil => rfl
  | append_singleton headers ph ih =>
    rw [List.foldl_append, ih]
    simp only [textHeader, dataHeader]
    -- The header recorded last replaces the one of its kind.
    cases exec : ph.exec with
    | true =>
      have executable : (flags2perm ph.flags).1 = true := exec
      simp [recordSegment, executable, exec, Proghdr.segment]
    | false =>
      have plain : (flags2perm ph.flags).1 = false := exec
      cases write : ph.write with
      | true =>
        have writable : (flags2perm ph.flags).2 = true := write
        simp [recordSegment, plain, writable, exec, write, Proghdr.segment]
      | false =>
        have fixed : (flags2perm ph.flags).2 = false := write
        simp [recordSegment, plain, fixed, exec, write]

structure Segment.Covers (seg : Segment) (ph : Proghdr) : Prop where
  start : seg.start ≤ ph.vaddr
  stop : ph.vaddr + ph.memsz ≤ seg.stop
  offset : seg.offset = ph.off
  filesz : seg.filesz = ph.filesz

structure Segments.FaultsIn (segs : Segments) (ph : Proghdr) : Prop where
  covered : segs.text.Covers ph ∨ segs.data.Covers ph
  perms : ∀ va, ph.Has va → ∀ (env : FsEnv) (m m' : Machine) (cause : Nat),
    m.proc.paging.segs = segs → ¬ m.Swapped (pgrounddown va) →
    handlePageFault env va cause m = .ok (0, m') → m'.proc.killed = false →
    ∃ pa, m'.proc.pagetable.lookup va = some ⟨pa, ph.perm⟩

def Faithful (headers : List Proghdr) : Prop := ∀ ph ∈ headers, 0 < ph.memsz →
  -- The last header of a kind covers it.
  (∃ last, (textHeader headers = some last ∨ dataHeader headers = some last) ∧
    last.segment.Covers ph) ∧
  -- Pages of the last executable header are exactly executable, and all others exactly writable.
  ∀ va, ph.Has va → va < maxva →
    if (textHeader headers).any fun text => text.segment.Has (pgrounddown va)
    then ph.exec = true ∧ ph.write = false else ph.exec = false ∧ ph.write = true

theorem fault_perm {env : FsEnv} {m m' : Machine} {segs : Segments} {va cause : Nat}
    (same : m.proc.paging.segs = segs) (here : ¬ m.Swapped (pgrounddown va))
    (handled : handlePageFault env va cause m = .ok (0, m')) (alive : m'.proc.killed = false)
    (recorded : segs.text.Has (pgrounddown va) ∨ segs.data.Has (pgrounddown va)) :
    va < maxva ∧ ∃ pa, m'.proc.pagetable.lookup va = some ⟨pa,
      if segs.text.Has (pgrounddown va) then ⟨true, false, true, true⟩
      else ⟨true, true, false, true⟩⟩ := by
  subst same
  have ran : (PagingOp.fault va cause).run env m = .ok (0, m') := handled
  cases PagingOp.run_does ran with
  | fault _ _ _ _ handles =>
    cases handles with
    | textWrite => exact absurd alive (by simp)
    | paged src _ _ serves pages =>
      obtain ⟨below, pa, entry⟩ := pages.entry
      refine ⟨below, pa, ?_⟩
      cases serves with
      | swap i page swapped => exact absurd ⟨i, page, swapped⟩ here
      | text _ inText => rw [entry, if_pos inText]; rfl
      | data _ notText => rw [entry, if_neg notText]; rfl
      | heap _ notText notData => exact absurd recorded (by simp [notText, notData])

def recordedMachine (segs : Segments) : Machine :=
  { heapMachine with proc := { heapMachine.proc with paging :=
    { heapMachine.proc.paging with segs := segs } } }

theorem recordedMachine_handled {segs : Segments} {va : Nat} (below : va < maxva)
    (recorded : segs.text.Has (pgrounddown va) ∨ segs.data.Has (pgrounddown va)) :
    ¬ (recordedMachine segs).Swapped (pgrounddown va) ∧
    ∃ m', handlePageFault noFiles va 13 (recordedMachine segs) = .ok (0, m') ∧
      m'.proc.killed = false := by
  have here : ¬ (recordedMachine segs).Swapped (pgrounddown va) := by
    rintro ⟨i, -, swapped⟩
    simp [recordedMachine, heapMachine, heapProc, initPagingInfo] at swapped
  refine ⟨here, ?_⟩
  obtain ⟨src, serves, filled⟩ : ∃ src,
      (recordedMachine segs).Serves (pgrounddown va) 13 src ∧
      src.fill (recordedMachine segs).fs (recordedMachine segs).proc.paging =
        some fun _ => 0 := by
    by_cases inText : segs.text.Has (pgrounddown va)
    · exact ⟨_, .text here inText (by decide), rfl⟩
    · exact ⟨_, .data here inText (recorded.resolve_left inText), rfl⟩
  have managed : (recordedMachine segs).Managed := heapMachine_managed
  have pageBelow : pgrounddown va < maxva := by
    exact Nat.lt_of_le_of_lt (Nat.div_mul_le_self va pgsize) below
  obtain ⟨m', ran, -, killed⟩ :=
    serves.handled noFiles managed (show 3 ≤ 4 by decide) pageBelow rfl filled
  exact ⟨m', ran, killed⟩

section Headers

variable {headers : List Proghdr} {segs : Segments} {ph : Proghdr} {va : Nat}

theorem text_has_iff (recorded : headers.foldl recordSegment Segments.zero = segs) :
    segs.text.Has va ↔ (textHeader headers).any (fun text => text.segment.Has va) = true := by
  rw [← recorded, foldl_recordSegment]
  cases textHeader headers with
  | none => simp [Segment.Has, Segments.zero]
  | some text => simp

theorem covers_iff (recorded : headers.foldl recordSegment Segments.zero = segs)
    (size : 0 < ph.memsz) : segs.text.Covers ph ∨ segs.data.Covers ph ↔
      ∃ last, (textHeader headers = some last ∨ dataHeader headers = some last) ∧
        last.segment.Covers ph := by
  -- The empty range that stands for no header covers nothing.
  have absent : ¬ (⟨0, 0, 0, 0⟩ : Segment).Covers ph := fun covers => by
    have stop := covers.stop
    simp only at stop
    omega
  rw [← recorded, foldl_recordSegment]
  cases textHeader headers <;> cases dataHeader headers <;>
    simp [Segments.zero, absent]

theorem Segment.Covers.has_page {seg : Segment} (covers : seg.Covers ph) (good : ph.Good)
    (inside : ph.Has va) : seg.Has (pgrounddown va) := by
  have start := covers.start
  have stop := covers.stop
  have aligned := good.aligned
  obtain ⟨first, last⟩ := inside
  simp only [Segment.Has, pgrounddown, pgsize] at *
  omega

theorem faultsIn_iff (recorded : headers.foldl recordSegment Segments.zero = segs)
    (good : ph.Good) (size : 0 < ph.memsz) : segs.FaultsIn ph ↔
      (∃ last, (textHeader headers = some last ∨ dataHeader headers = some last) ∧
        last.segment.Covers ph) ∧
      ∀ va, ph.Has va → va < maxva →
        if (textHeader headers).any fun text => text.segment.Has (pgrounddown va)
        then ph.exec = true ∧ ph.write = false else ph.exec = false ∧ ph.write = true := by
  rw [← covers_iff recorded size]
  -- A page that is covered is found in the text or in the data.
  have found : (segs.text.Covers ph ∨ segs.data.Covers ph) → ∀ va, ph.Has va →
      segs.text.Has (pgrounddown va) ∨ segs.data.Has (pgrounddown va) :=
    fun covered va inside => covered.imp (·.has_page good inside) (·.has_page good inside)
  constructor
  · rintro ⟨covered, perms⟩
    refine ⟨covered, fun va inside below => ?_⟩
    have here := found covered va inside
    obtain ⟨absent, m', ran, alive⟩ := recordedMachine_handled below here
    have same : (recordedMachine segs).proc.paging.segs = segs := rfl
    obtain ⟨pa, asked⟩ := perms va inside _ _ m' 13 same absent ran alive
    obtain ⟨-, pb, given⟩ := fault_perm same absent ran alive here
    have agree := congrArg (Option.map Pte.perm) (asked.symm.trans given)
    by_cases inText : segs.text.Has (pgrounddown va)
    · rw [if_pos ((text_has_iff recorded).mp inText)]
      simpa [inText, Proghdr.perm, and_comm] using agree
    · rw [if_neg (mt (text_has_iff recorded).mpr inText)]
      simpa [inText, Proghdr.perm, and_comm] using agree
  · rintro ⟨covered, kinds⟩
    refine ⟨covered, fun va inside env m m' cause same absent ran alive => ?_⟩
    obtain ⟨below, pa, given⟩ := fault_perm same absent ran alive (found covered va inside)
    have kind := kinds va inside below
    refine ⟨pa, ?_⟩
    by_cases inText : segs.text.Has (pgrounddown va)
    · rw [if_pos ((text_has_iff recorded).mp inText)] at kind
      rw [given, if_pos inText, Proghdr.perm, kind.1, kind.2]
    · rw [if_neg (mt (text_has_iff recorded).mpr inText)] at kind
      rw [given, if_neg inText, Proghdr.perm, kind.1, kind.2]

end Headers

section Exec

variable {env : FsEnv} {m m' : Machine} {path : List UInt8} {argv : List (List UInt8)} {r : Int}
  {ip : Nat} {hdr : Elfhdr}

theorem kexec_headers (sound : m.Sound) (short : ∀ arg ∈ argv, arg.length < pgsize)
    (ran : kexec env path argv m = .ok (r, m')) (success : r ≠ -1)
    (named : namei m.fs m.proc.cwd path = some ip) (header : execHeader m.fs ip = some hdr) :
    (execHeaders m.fs ip hdr).foldl recordSegment Segments.zero = m'.proc.paging.segs ∧
    (∀ ph ∈ execHeaders m.fs ip hdr, ph.Good) ∧
    m'.proc.paging.heapStart = pgroundup (lastEnd (execHeaders m.fs ip hdr)) + 2 * pgsize ∧
    m'.proc.sz = m'.proc.paging.heapStart ∧ m'.proc.sz ≤ trapframeVa := by
  cases execs_of_ok sound short ran with
  | commit ip' hdr' f k pt guard stack sp argc page reads ready =>
    obtain rfl : ip = ip' := Option.some.inj (named.symm.trans reads.found)
    obtain rfl : hdr = hdr' := Option.some.inj (header.symm.trans reads.header)
    obtain ⟨segs, size, good⟩ := loadSegments_headers m.fs ip hdr.phnum (u32 hdr.phoff) 0
      Segments.zero ready.ok
    have top : (execLoad m.fs ip hdr).top = pgroundup (lastEnd (execHeaders m.fs ip hdr)) := by
      rw [SegmentLoad.top, execLoad, size, lastEnd, execHeaders]
    refine ⟨segs.symm, good, ?_, rfl, ?_⟩
    · exact congrArg (· + 2 * pgsize) top
    · -- The end of the stack is a page boundary below the trapframe.
      have under := ready.under
      have aligned : (execLoad m.fs ip hdr).top % pgsize = 0 := pgroundup_mod _
      simp only [trapframeVa, trampolineVa, maxva, pgsize] at *
      omega
  | _ => exact absurd rfl success

/-- Every segment of a program that was started is faulted in as its header describes exactly if
the last headers of the two kinds stand for all of them. -/
theorem segments_faulted_iff (sound : m.Sound) (short : ∀ arg ∈ argv, arg.length < pgsize)
    (ran : kexec env path argv m = .ok (r, m')) (success : r ≠ -1)
    (named : namei m.fs m.proc.cwd path = some ip) (header : execHeader m.fs ip = some hdr) :
    (∀ ph ∈ execHeaders m.fs ip hdr, 0 < ph.memsz → m'.proc.paging.segs.FaultsIn ph) ↔
      Faithful (execHeaders m.fs ip hdr) := by
  obtain ⟨recorded, good, -⟩ := kexec_headers sound short ran success named header
  constructor
  · intro faulted ph member size
    exact (faultsIn_iff recorded (good ph member) size).mp (faulted ph member size)
  · intro faithful ph member size
    exact (faultsIn_iff recorded (good ph member) size).mpr (faithful ph member size)

end Exec

def pageHeader (flags : Nat) : Proghdr := ⟨elfProgLoad, flags, 0, 0, 0, pgsize⟩

def oneHeader : Elfhdr := ⟨elfMagic, 0, 64, 1⟩

theorem elfFile_header : execHeader (initFs (elfFile 5 pgsize)) 2 = some oneHeader := by
  decide

/-- The first program is recorded as its only header asks. -/
theorem segments_faulted_init : ∃ m', kexec someFiles initPath [initPath]
      (initMachine 12 (elfFile 5 pgsize)) = .ok (1, m') ∧
    execHeaders (initFs (elfFile 5 pgsize)) 2 oneHeader = [pageHeader 5] ∧
    m'.proc.paging.segs.FaultsIn (pageHeader 5) := by
  have ran := initRunning_ran
  have headers : execHeaders (initFs (elfFile 5 pgsize)) 2 oneHeader = [pageHeader 5] := by
    decide
  have faithful : Faithful (execHeaders (initFs (elfFile 5 pgsize)) 2 oneHeader) := by
    rw [headers]
    intro ph member _
    obtain rfl := List.mem_singleton.mp member
    refine ⟨⟨pageHeader 5, Or.inl rfl, by decide, by decide, rfl, rfl⟩, fun va inside _ => ?_⟩
    -- Every page of the segment is text.
    obtain ⟨_, last⟩ := inside
    have page : (pageHeader 5).segment.Has (pgrounddown va) := by
      simp only [pageHeader, Proghdr.segment, Segment.Has, pgrounddown, pgsize, u64] at *
      omega
    rw [if_pos (by simpa [textHeader, Proghdr.exec, pageHeader, flags2perm] using page)]
    exact ⟨rfl, rfl⟩
  have faulted := (segments_faulted_iff (initMachine_sound _) (by decide) ran (by decide)
    initPath_named elfFile_header).mpr faithful
  exact ⟨_, ran, headers, faulted _ (headers ▸ List.mem_singleton_self _) (by decide)⟩

/-- A program whose only segment is writable and executable is mapped without write access. -/
theorem writable_text_refused : ∃ m' m'' pa, kexec someFiles initPath [initPath]
      (initMachine 12 (elfFile 7 pgsize)) = .ok (1, m') ∧
    pageHeader 7 ∈ execHeaders (initFs (elfFile 7 pgsize)) 2 oneHeader ∧
    handlePageFault someFiles 8 13 m' = .ok (0, m'') ∧
    m''.proc.pagetable.lookup 8 = some ⟨pa, ⟨true, false, true, true⟩⟩ ∧
    ¬ m'.proc.paging.segs.FaultsIn (pageHeader 7) := by
  let m' := after (kexec someFiles initPath [initPath]) (initMachine 12 (elfFile 7 pgsize))
  let m'' := after (handlePageFault someFiles 8 13) m'
  have started : kexec someFiles initPath [initPath] (initMachine 12 (elfFile 7 pgsize)) =
      .ok (1, m') := eq_ok_of_valueOf (by decide +kernel)
  have handled : handlePageFault someFiles 8 13 m' = .ok (0, m'') :=
    eq_ok_of_valueOf (by decide +kernel)
  obtain ⟨pte, entry, perm⟩ : ∃ pte, m''.proc.pagetable.lookup 8 = some pte ∧
      pte.perm = ⟨true, false, true, true⟩ := by
    have found : (m''.proc.pagetable.lookup 8).any
        fun pte => decide (pte.perm = ⟨true, false, true, true⟩) := by decide +kernel
    obtain ⟨pte, entry, perm⟩ := (Option.any_eq_true _ _).mp found
    exact ⟨pte, entry, of_decide_eq_true perm⟩
  obtain ⟨pa, _⟩ := pte
  obtain rfl := perm
  refine ⟨m', m'', pa, started, by decide, handled, entry, fun faulted => ?_⟩
  have here : ¬ m'.Swapped (pgrounddown 8) := by
    rintro ⟨i, page, swapped⟩
    obtain rfl : 0 = i := by simpa [getPageInfo, pgrounddown, pgsize, maxTrackedPages] using page
    revert swapped
    decide +kernel
  -- The header asks for write access, which the page does not have.
  obtain ⟨pb, asked⟩ := faulted.perms 8 (by decide) _ _ m'' 13 rfl here handled (by decide +kernel)
  rw [entry] at asked
  have lacks : false = (pageHeader 7).perm.w := congrArg (·.perm.w) (Option.some.inj asked)
  exact absurd lacks (by decide)

section Exec

variable {env : FsEnv} {m m' : Machine} {path : List UInt8} {argv : List (List UInt8)} {r : Int}
  {ip : Nat} {hdr : Elfhdr}

/-- A program that was started ends below the trapframe, and its segments lie below the guard
page exactly if none of them ends above the page where the last one ends. -/
theorem segments_below_guard_iff (sound : m.Sound) (short : ∀ arg ∈ argv, arg.length < pgsize)
    (ran : kexec env path argv m = .ok (r, m')) (success : r ≠ -1)
    (named : namei m.fs m.proc.cwd path = some ip) (header : execHeader m.fs ip = some hdr) :
    m'.proc.sz ≤ trapframeVa ∧
    ((∀ ph ∈ execHeaders m.fs ip hdr, ∀ va, ph.Has va →
        va < m'.proc.paging.heapStart - (userstack + 1) * pgsize) ↔
      ∀ ph ∈ execHeaders m.fs ip hdr, 0 < ph.memsz →
        ph.vaddr + ph.memsz ≤ pgroundup (lastEnd (execHeaders m.fs ip hdr))) := by
  obtain ⟨-, -, heap, -, size⟩ := kexec_headers sound short ran success named header
  refine ⟨size, ?_⟩
  have guard : m'.proc.paging.heapStart - (userstack + 1) * pgsize =
      pgroundup (lastEnd (execHeaders m.fs ip hdr)) := by
    rw [heap, show (userstack + 1) * pgsize = 2 * pgsize from rfl, Nat.add_sub_cancel]
  refine forall₂_congr fun ph _ => ⟨fun inside size => ?_, fun ends va inside => ?_⟩
  · -- The last address of the range decides.
    have last := inside (ph.vaddr + ph.memsz - 1) ⟨by omega, by omega⟩
    omega
  · obtain ⟨first, last⟩ := inside
    omega

end Exec

/-- The only segment of the first program ends at its guard page. -/
theorem segments_below_guard_init : ∃ m', kexec someFiles initPath [initPath]
      (initMachine 12 (elfFile 5 pgsize)) = .ok (1, m') ∧ m'.proc.sz ≤ trapframeVa ∧
    ∀ ph ∈ execHeaders (initFs (elfFile 5 pgsize)) 2 oneHeader, ∀ va, ph.Has va →
      va < m'.proc.paging.heapStart - (userstack + 1) * pgsize := by
  have ran := initRunning_ran
  obtain ⟨size, below⟩ := segments_below_guard_iff (initMachine_sound _) (by decide) ran (by decide)
    initPath_named elfFile_header
  exact ⟨_, ran, size, below.mpr (by decide)⟩

/-- A program whose last segment is not its highest has a segment above its stack. -/
theorem segment_above_stack : kexec someFiles initPath [initPath] (initMachine 12 splitFile) =
      .ok (1, splitRunning) ∧
    splitRunning.proc.paging.heapStart = 0x3000 ∧
    ∃ ph ∈ execHeaders (initFs splitFile) 2 ⟨elfMagic, 0, 64, 2⟩, ph.Has 0x4000 ∧
      ¬ 0x4000 < splitRunning.proc.paging.heapStart - (userstack + 1) * pgsize := by
  have heap : splitRunning.proc.paging.heapStart = 0x3000 := by decide +kernel
  refine ⟨eq_ok_of_valueOf (by decide +kernel), heap, ⟨elfProgLoad, 6, 0, 0x4000, 4, pgsize⟩, ?_, ?_, ?_⟩
  · decide
  · decide
  · rw [heap]
    decide

def Segment.image (seg : Segment) (file : Nat → UInt8) (va k : Nat) : UInt8 :=
  if va - seg.start + k < seg.filesz then file (seg.offset + (va - seg.start) + k) else 0

theorem readSize_eq (seg : Segment) (pageOffset : Nat) :
    readSize seg pageOffset = min (seg.filesz - pageOffset) pgsize := by
  unfold readSize
  split
  · omega
  · split <;> omega

theorem segmentBytes_image {fs : Fs} {ip va : Nat} {seg : Segment} {bytes : Nat → UInt8}
    (small : seg.offset + seg.filesz < 2 ^ 32)
    (read : segmentBytes fs (some ip) seg va = some bytes) {k : Nat} (inside : k < pgsize) :
    bytes k = seg.image (fs.inodes ip).data va k := by
  simp only [segmentBytes, readSize_eq] at read
  unfold Segment.image
  generalize va - seg.start = start at *
  by_cases empty : min (seg.filesz - start) pgsize = 0
  · -- The file's part ends at or before the page.
    rw [if_pos empty] at read
    obtain rfl := Option.some.inj read
    rw [if_neg (by simp only [pgsize] at empty; omega)]
  rw [if_neg empty] at read
  by_cases whole : (readi fs ip (fun _ => 0) (u64 (seg.offset + start))
      (min (seg.filesz - start) pgsize)).1 = min (seg.filesz - start) pgsize
  · rw [if_pos whole] at read
    obtain rfl := Option.some.inj read
    have offset : u32 (u64 (seg.offset + start)) = seg.offset + start := by
      simp only [u32, u64]
      omega
    simp only [readi, offset] at whole ⊢
    by_cases stop : (fs.inodes ip).size < seg.offset + start ∨
        2 ^ 32 ≤ seg.offset + start + u32 (min (seg.filesz - start) pgsize)
    · -- Nothing was read, although something had to be.
      rw [if_pos stop] at whole
      exact absurd whole.symm empty
    · rw [if_neg stop] at whole ⊢
      simp only at whole ⊢
      rw [whole]
      -- Exactly the bytes of the page that lie in the file's part are read.
      have count : k < min (seg.filesz - start) pgsize ↔ start + k < seg.filesz := by omega
      simp only [count]
  · rw [if_neg whole] at read
    simp at read

def Segments.Loads (segs : Segments) (seg : Segment) (va : Nat) : Prop :=
  seg = segs.text ∧ segs.text.Has va ∨
    seg = segs.data ∧ segs.data.Has va ∧ ¬ segs.text.Has va

/-- A page that a fault loaded has the bytes of its segment. -/
theorem loaded_page_bytes {env : FsEnv} {m m' : Machine} {va cause ip : Nat} {seg : Segment}
    (sound : m.Sound) (aligned : va % pgsize = 0) (program : m.proc.paging.execIp = some ip)
    (recorded : m.proc.paging.segs.Loads seg va) (small : seg.offset + seg.filesz < 2 ^ 32)
    (unmapped : ∀ i, getPageInfo va = some i → (m.proc.paging.pages i).state = .unmapped)
    (handled : handlePageFault env va cause m = .ok (0, m'))
    (spared : m'.proc.killed = false ∨ ¬ (m.proc.paging.segs.text.Has va ∧ cause = 15)) :
    ∃ pte, m'.proc.pagetable.lookup va = some pte ∧ ∀ k, k < pgsize →
      m'.kmem.ram pte.pa k = seg.image (m'.fs.inodes ip).data va k := by
  have page : pgrounddown va = va := by
    simp only [pgrounddown, pgsize] at *
    omega
  have here : ¬ m.Swapped va := by
    rintro ⟨i, number, swapped⟩
    rw [unmapped i number] at swapped
    exact absurd swapped (by decide)
  have ran : (PagingOp.fault va cause).run env m = .ok (0, m') := handled
  cases PagingOp.run_does ran with
  | fault _ _ _ _ handles =>
    rw [page] at handles
    cases handles with
    | textWrite inText write =>
      -- The process was killed, which it was not.
      exact absurd spared (by simp [inText, write])
    | paged src _ _ serves pages =>
      cases pages with
      | mapped m₁ mem bytes t gets filled maps =>
        have entry : t.pt.lookup va = some ⟨mem, src.perm⟩ := by
          rw [maps.lookup va (lt_vaSpan maps.below), if_pos rfl]
        have held : t.kmem.ram mem = bytes := by
          rw [maps.draws.ram mem (gets.obtains.in_hand sound).1]
          simp
        have same : m₁.proc.paging.execIp = some ip :=
          (congrArg (fun c => c.paging.execIp) gets.obtains.context).trans program
        refine ⟨_, entry, fun k inside => ?_⟩
        rw [held]
        -- The source of the page is the range it is recorded in.
        have read : segmentBytes m₁.fs (some ip) seg va = some bytes := by
          rw [← same]
          cases serves with
          | swap i number swapped => exact absurd ⟨i, number, swapped⟩ here
          | text _ inText =>
            rcases recorded with ⟨rfl, -⟩ | ⟨-, -, notText⟩
            · exact filled
            · exact absurd inText notText
          | data _ notText =>
            rcases recorded with ⟨-, inText⟩ | ⟨rfl, -⟩
            · exact absurd inText notText
            · exact filled
          | heap _ notText notData =>
            rcases recorded with ⟨-, inText⟩ | ⟨-, inData, -⟩
            · exact absurd inText notText
            · exact absurd inData notData
        exact segmentBytes_image small read inside

def segmentMachine (segs : Segments) (file : Nat → UInt8) : Machine :=
  let m := initMachine 12 ⟨some .file, 4 * pgsize, file⟩
  { m with proc := { m.proc with paging := { m.proc.paging with segs := segs, execIp := some 2 } } }

theorem segmentMachine_sound (segs : Segments) (file : Nat → UInt8) :
    (segmentMachine segs file).Sound :=
  let sound := initMachine_sound ⟨some .file, 4 * pgsize, file⟩
  ⟨sound.nodup, sound.managed, sound.leaves, sound.kernel, sound.size⟩

def splitText : Segments := ⟨⟨0, 2 * pgsize, 100, 5000⟩, ⟨0, 0, 0, 0⟩⟩

/-- The second page of a text segment is loaded up to the end of the file's part. -/
theorem loaded_page_bytes_text : ∃ m' pte,
    handlePageFault someFiles 4096 13 (segmentMachine splitText fun _ => 7) = .ok (0, m') ∧
    m'.proc.pagetable.lookup 4096 = some pte ∧
    ∀ k, k < pgsize → m'.kmem.ram pte.pa k =
      (⟨0, 2 * pgsize, 100, 5000⟩ : Segment).image (m'.fs.inodes 2).data 4096 k := by
  have ran : handlePageFault someFiles 4096 13 (segmentMachine splitText fun _ => 7) =
      .ok (0, after (handlePageFault someFiles 4096 13) (segmentMachine splitText fun _ => 7)) :=
    eq_ok_of_valueOf (by decide)
  obtain ⟨pte, entry, bytes⟩ := loaded_page_bytes (segmentMachine_sound _ _) (by decide) rfl
    (Or.inl ⟨rfl, by decide⟩) (by decide) (fun i _ => rfl) ran (Or.inr (by decide))
  exact ⟨_, pte, ran, entry, bytes⟩

def overlaid : Segments := ⟨⟨0, pgsize, 0, pgsize⟩, ⟨0, pgsize, pgsize, pgsize⟩⟩

/-- A page of the data segment that is also text is loaded as text. -/
theorem data_under_text : ∃ m' pte,
    (segmentMachine overlaid fun i => if i < pgsize then 1 else 2).proc.paging.segs.data.Has 0 ∧
    handlePageFault someFiles 0 13
      (segmentMachine overlaid fun i => if i < pgsize then 1 else 2) = .ok (0, m') ∧
    m'.proc.killed = false ∧ m'.proc.pagetable.lookup 0 = some pte ∧
    m'.kmem.ram pte.pa 0 ≠ overlaid.data.image (m'.fs.inodes 2).data 0 0 := by
  have ran : ((handlePageFault someFiles 0 13
      (segmentMachine overlaid fun i => if i < pgsize then 1 else 2)).toOption).any
      fun (r, m') => r = 0 ∧ m'.proc.killed = false ∧ (m'.proc.pagetable.lookup 0).any
        fun pte => m'.kmem.ram pte.pa 0 ≠ overlaid.data.image (m'.fs.inodes 2).data 0 0 := by
    decide
  obtain ⟨r, m', handled, ended⟩ := exists_ok_of_any ran
  obtain ⟨rfl, alive, found⟩ := of_decide_eq_true ended
  obtain ⟨pte, entry, differs⟩ := (Option.any_eq_true _ _).mp found
  exact ⟨m', pte, by decide, handled, alive, entry, of_decide_eq_true differs⟩

end Xv6
