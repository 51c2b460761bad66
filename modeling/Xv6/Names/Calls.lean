import Xv6.Names.Inodes
import Xv6.Swap

/-! Files, the pointers of processes to them, a new process and its swap file. -/

namespace Xv6

namespace Names

open Prog

/-- Change an entry of the file table. -/
def State.setFile (s : State) (f : Nat) (file : File) : State :=
  { s with ftable := Function.update s.ftable f file }

/-- Change a process. -/
def State.setTask (s : State) (p : Nat) (task : Task) : State :=
  { s with task := Function.update s.task p task }

/-- Change the pointers of a process. -/
def updateTask (p : Nat) (f : Task → Task) : Op Unit :=
  modify fun s => s.setTask p (f (s.task p))

/-- Set a descriptor of a process. -/
def setFd (p fd : Nat) (file : Option Nat) : Op Unit :=
  updateTask p fun task => { task with ofile := Function.update task.ofile fd file }

/-- Allocate a file. -/
def filealloc : Op (Option Nat) := do
  let s ← get
  match (List.range nfile).find? fun f => decide ((s.ftable f).ref = 0) with
  | none => return none
  | some f =>
    set (s.setFile f { s.ftable f with ref := 1 })
    return some f

/-- One more reference to a file. -/
def filedup (f : Nat) : Op Unit := do
  let s ← get
  if (s.ftable f).ref < 1 then throw .filedup
  set (s.setFile f { s.ftable f with ref := (s.ftable f).ref + 1 })

/-- Copy descriptors to a new process. -/
def dupFds (p np : Nat) : List Nat → Op Unit
  | [] => return ()
  | fd :: rest => do
    match ((← get).task p).ofile fd with
    | none => dupFds p np rest
    | some f =>
      filedup f
      setFd np fd (some f)
      dupFds p np rest

/-- One more reference to an inode, if there is one. -/
def idupOption : Option Nat → Op Unit
  | none => return ()
  | some e => idup e

/-- `kfork` with a slot for the new process, when memory suffices. -/
def kfork (p np pid : Nat) : Op Int := do
  let task := (← get).task p
  -- `allocproc` clears the paging information; the rest was cleared by `kexit`.
  updateTask np fun child =>
    { child with alive := true, pid := pid, execIp := none, swapfile := none }
  idupOption task.execIp
  updateTask np fun child => { child with execIp := task.execIp }
  dupFds p np (List.range nofile)
  match task.cwd with
  | none => throw .fault
  | some cwd =>
    idup cwd
    updateTask np fun child => { child with cwd := some cwd }
    return pid

/-- `create_swap_file`. -/
def createSwap (grow : Nat → Bool) (p : Nat) : Op Int := do
  let task := (← get).task p
  if task.swapfile ≠ none then return 0
  match ← create grow p (swapName task.pid) .file 0 with
  | none => return -1
  | some ip =>
    match ← filealloc with
    | none =>
      ilock ip
      updateNode ip fun node => { node with nlink := 0 }
      iput ip
      return -1
    | some f =>
      modify fun s => s.setFile f { s.ftable f with kind := .inode, ip := ip }
      updateTask p fun task => { task with swapfile := some f }
      return 0

end Names

end Xv6
