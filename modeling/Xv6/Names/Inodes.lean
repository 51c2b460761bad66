import Mathlib.Logic.Function.Basic
import Xv6.Fs
import Xv6.Lib.Prog

/-! Inodes with their directory entries and link counts, and the table of inodes in use. -/

namespace Xv6

namespace Names

open Prog

/-- Entries of the inode table. -/
def ninode : Nat := 50

/-- Entries of the file table. -/
def nfile : Nat := 100

/-- Open files of a process. -/
def nofile : Nat := 16

/-- Major device numbers. -/
def ndev : Nat := 10

/-- A directory entry; one with number 0 is free. -/
structure Dirent where
  inum : Nat
  name : List UInt8
  deriving DecidableEq, Repr

/-- An inode. Its copies in memory and on disk are one record: every change is written back. -/
structure Node where
  /-- Unallocated inodes have no type. -/
  type : Option InodeType
  major : Int
  nlink : Int
  /-- The entries of a directory in the order of its data. -/
  entries : List Dirent
  deriving DecidableEq, Repr

/-- An entry of the inode table. -/
structure Slot where
  inum : Nat
  ref : Nat
  valid : Bool
  deriving DecidableEq, Repr

/-- What a file is. -/
inductive FileKind where
  | none
  | pipe
  | inode
  | device
  deriving DecidableEq, Repr

/-- An entry of the file table; files are numbered by their entries, and so are inodes in use. -/
structure File where
  ref : Nat
  kind : FileKind
  ip : Nat
  deriving DecidableEq, Repr

/-- The pointers of a process to files and inodes. -/
structure Task where
  /-- The slot holds a process that has not exited. -/
  alive : Bool
  pid : Nat
  cwd : Option Nat
  ofile : Nat → Option Nat
  execIp : Option Nat
  swapfile : Option Nat

/-- The inodes, the two tables, and the processes. -/
structure State where
  ninodes : Nat
  node : Nat → Node
  itable : Nat → Slot
  ftable : Nat → File
  task : Nat → Task

/-- Why a call does not return. -/
inductive Stop where
  /-- `iget` found no entry. -/
  | iget
  /-- `ilock` was given an entry that is not in use, or an inode without a type. -/
  | ilock
  /-- `dirlookup` was given an inode that is no directory. -/
  | dirlookup
  /-- `sys_unlink` found an entry for an inode without links. -/
  | unlink
  | filedup
  | fileclose
  /-- The first process exits. -/
  | exit
  /-- A pointer that is used is null. -/
  | fault
  deriving DecidableEq, Repr

/-- Operations on inodes and files. -/
abbrev Op := Comp State Stop

/-- A value stored in sixteen bits. -/
def short (value : Int) : Int := Int.bmod value (2 ^ 16)

/-- Change an entry of the inode table. -/
def State.setSlot (s : State) (e : Nat) (slot : Slot) : State :=
  { s with itable := Function.update s.itable e slot }

/-- Change an inode. -/
def State.setNode (s : State) (i : Nat) (node : Node) : State :=
  { s with node := Function.update s.node i node }

/-- The inode of an entry of the table. -/
def State.nodeOf (s : State) (e : Nat) : Node := s.node (s.itable e).inum

/-- Change the inode of an entry of the table, and write it back. -/
def updateNode (e : Nat) (f : Node → Node) : Op Unit :=
  modify fun s => s.setNode (s.itable e).inum (f (s.nodeOf e))

/-- The entry for an inode, which is taken if there is none yet. -/
def iget (inum : Nat) : Op Nat := do
  let s ← get
  let here e := decide (0 < (s.itable e).ref) && decide ((s.itable e).inum = inum)
  let empty e := decide ((s.itable e).ref = 0)
  match (List.range ninode).find? here with
  | some e =>
    set (s.setSlot e { s.itable e with ref := (s.itable e).ref + 1 })
    return e
  | none =>
    match (List.range ninode).find? empty with
    | none => throw .iget
    | some e =>
      set (s.setSlot e ⟨inum, 1, false⟩)
      return e

/-- One more reference to an entry. -/
def idup (e : Nat) : Op Unit :=
  modify fun s => s.setSlot e { s.itable e with ref := (s.itable e).ref + 1 }

/-- Lock an entry and read the inode if necessary; the lock itself is left out. -/
def ilock (e : Nat) : Op Unit := do
  let s ← get
  if (s.itable e).ref < 1 then throw .ilock
  if !(s.itable e).valid then
    set (s.setSlot e { s.itable e with valid := true })
    if (s.nodeOf e).type = none then throw .ilock

/-- An inode after it was freed. -/
def Node.cleared (node : Node) : Node := { node with type := none, entries := [] }

/-- Drop a reference; an inode without links is freed with the last one. -/
def iput (e : Nat) : Op Unit := do
  let s ← get
  let slot := s.itable e
  if slot.ref = 1 ∧ slot.valid = true ∧ (s.nodeOf e).nlink = 0 then
    set ((s.setNode slot.inum (s.nodeOf e).cleared).setSlot e
      { slot with ref := slot.ref - 1, valid := false })
  else set (s.setSlot e { slot with ref := slot.ref - 1 })

/-- Allocate an inode; number 0 is not used. -/
def ialloc (type : InodeType) : Op (Option Nat) := do
  let s ← get
  match (List.range s.ninodes).find? fun i => decide (i ≠ 0) && decide ((s.node i).type = none) with
  | none => return none
  | some i =>
    set (s.setNode i ⟨some type, 0, 0, []⟩)
    return some (← iget i)

/-- Where a directory has an entry with a name. -/
def Node.find (node : Node) (name : List UInt8) : Option Nat :=
  node.entries.findIdx? fun entry => decide (entry.inum ≠ 0) && decide (entry.name = name)

/-- The number in an entry of a directory. -/
def Node.inumAt (node : Node) (k : Nat) : Nat := ((node.entries[k]?).map Dirent.inum).getD 0

/-- Look for a directory entry; where it is comes with the inode it names. -/
def dirlookup (e : Nat) (name : List UInt8) : Op (Option (Nat × Nat)) := do
  let node := (← get).nodeOf e
  if node.type ≠ some .dir then throw .dirlookup
  match node.find name with
  | none => return none
  | some k => return some (← iget (node.inumAt k), k)

/-- Write a directory entry into a free place, or behind the others if the directory can grow. -/
def Node.link (node : Node) (name : List UInt8) (inum : Nat) (grow : Bool) : Option Node :=
  match node.entries.findIdx? fun entry => decide (entry.inum = 0) with
  | some k => some { node with entries := node.entries.set k ⟨inum, name⟩ }
  | none =>
    if grow = true ∧ (node.entries.length + 1) * 16 ≤ maxfile * bsize then
      some { node with entries := node.entries ++ [⟨inum, name⟩] }
    else none

/-- Write a new directory entry; `grow` tells for which directories the disk has another block. -/
def dirlink (grow : Nat → Bool) (e : Nat) (name : List UInt8) (inum : Nat) : Op Bool := do
  match ← dirlookup e name with
  | some (ip, _) =>
    iput ip
    return false
  | none =>
    let s ← get
    match (s.nodeOf e).link name inum (grow (s.itable e).inum) with
    | none => return false
    | some node =>
      set (s.setNode (s.itable e).inum node)
      return true

/-- Follow path elements from a directory, all of them or all but the last. -/
def namexFrom (parent : Bool) : Nat → List (List UInt8) → Op (Option (Nat × List UInt8))
  | ip, [] => do
    if parent then
      iput ip
      return none
    return some (ip, [])
  | ip, name :: rest => do
    ilock ip
    if ((← get).nodeOf ip).type ≠ some .dir then
      iput ip
      return none
    -- Stop one level early.
    if parent && rest.isEmpty then return some (ip, name)
    match ← dirlookup ip name with
    | none =>
      iput ip
      return none
    | some (next, _) =>
      iput ip
      namexFrom parent next rest

/-- The entry a path starts from, with a reference to it. -/
def pathFirst (p : Nat) (path : List UInt8) : Op Nat := do
  if path.head? = some slash then iget rootino
  else
    match ((← get).task p).cwd with
    | none => throw .fault
    | some e =>
      idup e
      return e

/-- Look up a path for a process. -/
def namex (p : Nat) (path : List UInt8) (parent : Bool) : Op (Option (Nat × List UInt8)) := do
  let first ← pathFirst p path
  namexFrom parent first (pathElems (path.length + 1) path)

/-- The inode a path names. -/
def namei (p : Nat) (path : List UInt8) : Op (Option Nat) := do
  return (← namex p path false).map Prod.fst

/-- The directory of the last element of a path, with that element. -/
def nameiparent (p : Nat) (path : List UInt8) : Op (Option (Nat × List UInt8)) := namex p path true

/-- The name of a directory in itself. -/
def dot : List UInt8 := [46]

/-- The name of its parent in a directory. -/
def dotdot : List UInt8 := [46, 46]

/-- Write the entries of a new inode and the entry for it. -/
def linkNew (grow : Nat → Bool) (type : InodeType) (dp : Nat) (name : List UInt8) (ip : Nat) :
    Op Bool := do
  let s ← get
  let inum := (s.itable ip).inum
  if type = .dir then
    if !(← dirlink grow ip dot inum) then return false
    if !(← dirlink grow ip dotdot (s.itable dp).inum) then return false
  dirlink grow dp name inum

/-- Make a new inode in a directory, with no entry of this name. -/
def createIn (grow : Nat → Bool) (dp : Nat) (name : List UInt8) (type : InodeType) (major : Int) :
    Op (Option Nat) := do
  match ← ialloc type with
  | none =>
    iput dp
    return none
  | some ip =>
    ilock ip
    updateNode ip fun node => { node with major := major, nlink := 1 }
    if ← linkNew grow type dp name ip then
      -- For the entry of the parent in the new directory.
      if type = .dir then updateNode dp fun node => { node with nlink := short (node.nlink + 1) }
      iput dp
      return some ip
    else
      updateNode ip fun node => { node with nlink := 0 }
      iput ip
      iput dp
      return none

/-- The inode for a path, which is made if there is none; an existing file may be returned. -/
def create (grow : Nat → Bool) (p : Nat) (path : List UInt8) (type : InodeType) (major : Int) :
    Op (Option Nat) := do
  match ← nameiparent p path with
  | none => return none
  | some (dp, name) =>
    ilock dp
    match ← dirlookup dp name with
    | some (ip, _) =>
      iput dp
      ilock ip
      let found := ((← get).nodeOf ip).type
      if type = .file ∧ (found = some .file ∨ found = some .device) then return some ip
      iput ip
      return none
    | none => createIn grow dp name type major

end Names

end Xv6
