import Xv6.Params

/-! Files as the paging code uses them: inodes with contents, directories, and path lookup. -/

namespace Xv6

/-- Kinds of inode. -/
inductive InodeType where
  | dir
  | file
  | device
  deriving DecidableEq, Repr

/-- An inode with its contents. -/
structure Inode where
  /-- Unallocated inodes have no type. -/
  type : Option InodeType
  size : Nat
  data : Nat → UInt8

/-- The file system below the system calls. -/
structure Fs where
  inodes : Nat → Inode
  /-- The inode a directory gives to a name. -/
  dirlookup : Nat → List UInt8 → Option Nat

/-- What the rest of the kernel decides about one file-system operation. -/
structure FsEnv where
  /-- The inode number `ialloc` would pick. -/
  ialloc : Option Nat
  /-- Whether the parent directory has room for one more entry. -/
  dirlink : Bool
  /-- Whether the file table has a free entry. -/
  filealloc : Bool
  /-- Whether the caller holds the only reference to the inode it drops. -/
  lastRef : Bool
  /-- Bytes `writei` can store before it runs out of disk blocks. -/
  room : Nat

/-- The root directory. -/
def rootino : Nat := 1

/-- The path separator. -/
def slash : UInt8 := 47

/-- Split off the next path element, cut to the length of a directory entry. -/
def skipelem (path : List UInt8) : Option (List UInt8 × List UInt8) :=
  match path.dropWhile (· == slash) with
  | [] => none
  | rest =>
    some (((rest.dropWhile (· != slash)).dropWhile (· == slash)),
      (rest.takeWhile (· != slash)).take dirsiz)

/-- The elements of a path, found by repeated splitting. -/
def pathElems : Nat → List UInt8 → List (List UInt8)
  | 0, _ => []
  | fuel + 1, path =>
    match skipelem path with
    | none => []
    | some (rest, name) => name :: pathElems fuel rest

/-- Where the lookup of a path begins. -/
def pathStart (cwd : Nat) (path : List UInt8) : Nat :=
  if path.head? = some slash then rootino else cwd

/-- Look up path elements one directory at a time. -/
def namexFrom (fs : Fs) : Nat → List (List UInt8) → Option Nat
  | ip, [] => some ip
  | ip, name :: rest =>
    if (fs.inodes ip).type ≠ some .dir then none
    else match fs.dirlookup ip name with
      | none => none
      | some next => namexFrom fs next rest

/-- Look up all path elements but the last, which is returned with its directory. -/
def nameiparentFrom (fs : Fs) : Nat → List (List UInt8) → Option (Nat × List UInt8)
  | _, [] => none
  | ip, name :: rest =>
    if (fs.inodes ip).type ≠ some .dir then none
    else match rest with
      | [] => some (ip, name)
      | _ :: _ => match fs.dirlookup ip name with
        | none => none
        | some next => nameiparentFrom fs next rest

/-- The inode a path names. -/
def namei (fs : Fs) (cwd : Nat) (path : List UInt8) : Option Nat :=
  namexFrom fs (pathStart cwd path) (pathElems (path.length + 1) path)

/-- The directory that holds, or would hold, the last element of a path. -/
def nameiparent (fs : Fs) (cwd : Nat) (path : List UInt8) : Option (Nat × List UInt8) :=
  nameiparentFrom fs (pathStart cwd path) (pathElems (path.length + 1) path)

/-- Read file bytes into a kernel buffer, returning how many were read. -/
def readi (fs : Fs) (ip : Nat) (dst : Nat → UInt8) (off n : Nat) : Nat × (Nat → UInt8) :=
  let ino := fs.inodes ip
  -- Offsets and lengths are thirty-two bits wide, and a wrapping range reads nothing.
  if ino.size < u32 off ∨ 2 ^ 32 ≤ u32 off + u32 n then (0, dst)
  else
    let n := if ino.size < u32 off + u32 n then ino.size - u32 off else u32 n
    (n, fun k => if k < n then ino.data (u32 off + k) else dst k)

/-- Write a kernel buffer into a file, returning how many bytes were written. -/
def writei (fs : Fs) (ip : Nat) (src : Nat → UInt8) (off n room : Nat) : Int × Fs :=
  let ino := fs.inodes ip
  if ino.size < u32 off ∨ 2 ^ 32 ≤ u32 off + u32 n then (-1, fs)
  else if maxfile * bsize < u32 off + u32 n then (-1, fs)
  else
    -- The loop stops early when no block can be allocated.
    let tot := min (u32 n) room
    let ino := { ino with
      size := max ino.size (u32 off + tot)
      data := fun i => if u32 off ≤ i ∧ i < u32 off + tot then src (i - u32 off) else ino.data i }
    (tot, { fs with inodes := Function.update fs.inodes ip ino })

/-- Open or create a regular file, returning its inode. -/
def create (fs : Fs) (env : FsEnv) (cwd : Nat) (path : List UInt8) : Option Nat × Fs :=
  match nameiparent fs cwd path with
  | none => (none, fs)
  | some (dp, name) =>
    match fs.dirlookup dp name with
    | some ip =>
      -- An existing file is reused with its contents.
      match (fs.inodes ip).type with
      | some .file | some .device => (some ip, fs)
      | _ => (none, fs)
    | none =>
      match env.ialloc with
      | none => (none, fs)
      | some ip =>
        if (fs.inodes ip).type ≠ none ∨ !env.dirlink then (none, fs)
        else
          let fresh : Inode := ⟨some .file, 0, fun _ => 0⟩
          (some ip,
            { inodes := Function.update fs.inodes ip fresh
              dirlookup := fun d n => if d = dp ∧ n = name then some ip else fs.dirlookup d n })

/-- Drop the last link of an inode, freeing it when nobody else refers to it. -/
def dropUnlinked (fs : Fs) (env : FsEnv) (ip : Nat) : Fs :=
  if env.lastRef then
    { fs with inodes := Function.update fs.inodes ip ⟨none, 0, fun _ => 0⟩ }
  else fs

end Xv6
