import Xv6.Fault

/-! Replacing the image of a process: header checks, lazy segments, stack and arguments. -/

namespace Xv6

/-- The fields of the ELF header that exec uses. -/
structure Elfhdr where
  magic : Nat
  entry : Nat
  phoff : Nat
  phnum : Nat
  deriving DecidableEq, Repr

/-- The fields of a program header that exec uses. -/
structure Proghdr where
  type : Nat
  flags : Nat
  off : Nat
  vaddr : Nat
  filesz : Nat
  memsz : Nat
  deriving DecidableEq, Repr

/-- Bytes in an ELF header. -/
def elfhdrSize : Nat := 64

/-- Bytes in a program header. -/
def proghdrSize : Nat := 56

/-- The number every ELF file starts with. -/
def elfMagic : Nat := 0x464C457F

/-- The program header type of a loadable segment. -/
def elfProgLoad : Nat := 1

/-- The ELF header laid out in a buffer. -/
def parseElfhdr (bytes : Nat → UInt8) : Elfhdr :=
  ⟨readLe bytes 0 4, readLe bytes 24 8, readLe bytes 32 8, readLe bytes 56 2⟩

/-- The program header laid out in a buffer. -/
def parseProghdr (bytes : Nat → UInt8) : Proghdr :=
  ⟨readLe bytes 0 4, readLe bytes 4 4, readLe bytes 8 8, readLe bytes 16 8,
    readLe bytes 32 8, readLe bytes 40 8⟩

/-- The execute and write permissions a segment asks for. -/
def flags2perm (flags : Nat) : Bool × Bool :=
  (flags.testBit 0, flags.testBit 1)

/-- Remember a segment for lazy loading: executable ones as text, other writable ones as data. -/
def recordSegment (segs : Segments) (ph : Proghdr) : Segments :=
  let seg : Segment := ⟨ph.vaddr, u64 (ph.vaddr + ph.memsz), ph.off, ph.filesz⟩
  if (flags2perm ph.flags).1 then { segs with text := seg }
  else if (flags2perm ph.flags).2 then { segs with data := seg }
  else segs

/-- Where the loop over the program headers stopped. -/
structure SegmentLoad where
  /-- Every header was read and accepted. -/
  ok : Bool
  /-- End of the last accepted segment. -/
  sz : Nat
  segs : Segments
  deriving DecidableEq, Repr

/-- The checks exec makes on a loadable program header. -/
def Proghdr.Acceptable (ph : Proghdr) : Prop :=
  ph.filesz ≤ ph.memsz ∧ ph.vaddr ≤ u64 (ph.vaddr + ph.memsz) ∧ ph.vaddr % pgsize = 0

instance (ph : Proghdr) : Decidable ph.Acceptable :=
  inferInstanceAs (Decidable (_ ∧ _ ∧ _))

/-- The loop over the program headers. -/
def loadSegments (fs : Fs) (ip : Nat) : Nat → Nat → Nat → Segments → SegmentLoad
  | 0, _, sz, segs => ⟨true, sz, segs⟩
  | n + 1, off, sz, segs =>
    let (got, bytes) := readi fs ip (fun _ => 0) off proghdrSize
    if got ≠ proghdrSize then ⟨false, sz, segs⟩
    else
      let ph := parseProghdr bytes
      if ph.type ≠ elfProgLoad then loadSegments fs ip n (u32 (off + proghdrSize)) sz segs
      else if ¬ ph.Acceptable then ⟨false, sz, segs⟩
      else
        -- Lazy allocation only reports the new size, and a size of zero counts as failure.
        let sz1 := u64 (ph.vaddr + ph.memsz)
        if sz1 = 0 then ⟨false, sz, recordSegment segs ph⟩
        else loadSegments fs ip n (u32 (off + proghdrSize)) sz1 (recordSegment segs ph)

/-- Subtraction that wraps at the register width. -/
def usub (a b : Nat) : Nat := u64 (a + 2 ^ 64 - u64 b)

/-- Move a stack pointer down by a number of bytes and to a multiple of sixteen. -/
def pushDown (sp bytes : Nat) : Nat := usub sp bytes - usub sp bytes % 16

/-- The bytes of one stack word. -/
def wordBytes (word : Nat) : List UInt8 :=
  (List.range 8).map fun i => UInt8.ofNat (word / 256 ^ i % 256)

/-- Push the argument strings, returning the stack pointer and the addresses pushed. -/
def pushArgs (env : FsEnv) (pt : PageTable) (stackbase : Nat) :
    List (List UInt8) → Nat → List Nat → KernOp (Option (Nat × List Nat))
  | [], sp, ustack => return some (sp, ustack)
  | arg :: rest, sp, ustack => do
    if maxarg ≤ ustack.length then return none
    let sp := pushDown sp (arg.length + 1)
    if sp < stackbase then return none
    if (← copyout env (some pt) sp (arg ++ [0])) < 0 then return none
    pushArgs env pt stackbase rest sp (ustack ++ [sp])

/-- The failure exit: free the new table and forget the program inode. -/
def execBad (table : Option (PageTable × Nat)) : KernOp Int := do
  match table with
  | none => pure ()
  | some (pt, sz) => withKmem (procFreepagetable pt sz)
  modifyPaging fun pg => { pg with execIp := none }
  return -1

/-- Commit to the new image. -/
def execCommit (entry : Nat) (pt : PageTable) (sz sp argc : Nat) : KernOp Int := do
  let old := (← get).proc
  modify fun m => { m with proc := { m.proc with
    pagetable := pt
    sz := sz
    tf := { m.proc.tf with a1 := sp, epc := entry, sp := sp } } }
  withKmem (procFreepagetable old.pagetable old.sz)
  return argc

/-- Push the arguments and their addresses, then commit. -/
def execArgs (env : FsEnv) (entry : Nat) (argv : List (List UInt8)) (pt : PageTable) (sz : Nat) :
    KernOp Int := do
  let stackbase := usub sz (userstack * pgsize)
  match ← pushArgs env pt stackbase argv sz [] with
  | none => execBad (some (pt, sz))
  | some (sp, ustack) =>
    let sp := pushDown sp ((ustack.length + 1) * 8)
    if sp < stackbase then execBad (some (pt, sz))
    else if (← copyout env (some pt) sp ((ustack ++ [0]).flatMap wordBytes)) < 0 then
      execBad (some (pt, sz))
    else execCommit entry pt sz sp ustack.length

/-- Set up the guard page, the heap start and a new swap file. -/
def execStack (env : FsEnv) (entry : Nat) (argv : List (List UInt8)) (pt : PageTable) (sz : Nat) :
    KernOp Int := do
  let (_, pt) ← withKmem (onTable pt (uvmclear (usub sz ((userstack + 1) * pgsize))))
  modifyPaging fun pg => { pg with heapStart := sz, stackTop := sz }
  -- The old swap file is closed before one of the same name is opened.
  modifyPaging fun pg => { pg with swapfile := none }
  if (← createSwapFile env) < 0 then execBad (some (pt, sz))
  else execArgs env entry argv pt sz

/-- Record the segments of the program and allocate its stack. -/
def execImage (env : FsEnv) (ip : Nat) (hdr : Elfhdr) (argv : List (List UInt8))
    (pt : PageTable) : KernOp Int := do
  modifyPaging fun pg => { pg with execIp := some ip }
  let m ← get
  let load := loadSegments m.fs ip hdr.phnum (u32 hdr.phoff) 0 m.proc.paging.segs
  modifyPaging fun pg => { pg with segs := load.segs }
  if !load.ok then execBad (some (pt, load.sz))
  else
    let sz := pgroundup load.sz
    let (sz1, pt) ← withKmem (onTable pt
      (uvmalloc sz (u64 (sz + (userstack + 1) * pgsize)) ⟨true, true, false, true⟩))
    if sz1 = 0 then execBad (some (pt, sz))
    else execStack env hdr.entry argv pt sz1

/-- Check the ELF header and create the new page table. -/
def execFile (env : FsEnv) (ip : Nat) (argv : List (List UInt8)) : KernOp Int := do
  let m ← get
  let (got, bytes) := readi m.fs ip (fun _ => 0) 0 elfhdrSize
  if got ≠ elfhdrSize then execBad none
  else if (parseElfhdr bytes).magic ≠ elfMagic then execBad none
  else match ← withKmem (procPagetable m.proc.trapframe) with
    | none => execBad none
    | some pt => execImage env ip (parseElfhdr bytes) argv pt

/-- Replace the image of the current process with the program at a path. -/
def kexec (env : FsEnv) (path : List UInt8) (argv : List (List UInt8)) : KernOp Int := do
  -- The recorded segments are cleared before anything is checked.
  modifyPaging fun pg => { pg with segs := Segments.zero }
  let m ← get
  match namei m.fs m.proc.cwd path with
  | none => return -1
  | some ip => execFile env ip argv

end Xv6
