import Xv6.Lib.Circular
import Xv6.LockedCopies

/-! A pipe shared by any number of processes: its code step by step, with sleeping and waking. -/

namespace Xv6

/-- The two addresses inside a pipe that processes sleep on. -/
inductive PipeChan where
  | nread
  | nwrite
  deriving DecidableEq, Repr

/-- Places in the code of a pipe, all with the lock of the pipe held. -/
inductive PipeCode where
  /-- Head of the loop of `pipewrite`, with what was stored since the lock was taken. -/
  | write (call i : Nat) (stored : Bool)
  /-- Before the call of `sleep` in `pipewrite`. -/
  | writeSleep (call i : Nat)
  /-- Head of the first loop of `piperead`. -/
  | readWait (n : Int)
  /-- Before the call of `sleep` in `piperead`. -/
  | readSleep (n : Int)
  /-- Head of the second loop of `piperead`. -/
  | readCopy (n : Int) (i : Nat)
  | close (writable : Bool)
  /-- The end of `pipeclose`. -/
  | closeEnd
  /-- Before the lock is released and a value returned. -/
  | ret (value : Int)

/-- Where a process is. -/
inductive PipePc where
  /-- Not in the code of the pipe. -/
  | idle
  /-- In `acquire`, before some code. -/
  | acquire (next : PipeCode)
  | locked (code : PipeCode)
  /-- In `wakeup`, with the slots of the process table below `k` done. -/
  | wake (chan : PipeChan) (k : Nat) (next : PipeCode)
  /-- In `sleep` with the lock of the process held and the lock of the pipe released. -/
  | doze (chan : PipeChan) (next : PipeCode)
  /-- In `sleep`, after giving up the processor. -/
  | wait (next : PipeCode)

/-- A process as far as the pipe can tell. -/
structure PipeTask where
  pc : PipePc
  /-- The channel of a process that is SLEEPING. -/
  asleep : Option PipeChan
  killed : Bool

/-- A pipe with the processes that may use it, and what went through it so far. -/
structure PipeSys where
  pipe : Pipe
  /-- The process that holds the lock of the pipe. -/
  lock : Option Nat
  /-- The memory of the pipe was given back. -/
  freed : Bool
  tasks : Nat → PipeTask
  /-- The user bytes and the length of each call of `pipewrite`. -/
  request : Nat → (Nat → UInt8) × Int
  ncalls : Nat
  /-- The bytes put into the ring, with the calls they came from. -/
  stored : List (Nat × UInt8)
  /-- The bytes copied out by `piperead`. -/
  delivered : List UInt8

/-- What can happen around a pipe. -/
inductive PipeEvent where
  | write (p : Nat) (src : Nat → UInt8) (n : Int)
  | read (p : Nat) (n : Int)
  | close (p : Nat) (writable : Bool)
  /-- A process takes its next step; a copy from or to user memory succeeds or fails. -/
  | run (p : Nat) (copied : Bool)
  | kill (p : Nat)
  /-- The slot of a process outside the pipe is taken by a new process. -/
  | renew (p : Nat)

/-- A byte goes into the ring. -/
def Pipe.put (pi : Pipe) (ch : UInt8) : Pipe :=
  { pi with
    data := Function.update pi.data (pi.nwrite % pipesize) ch
    nwrite := u32 (pi.nwrite + 1) }

/-- The ring is full. -/
def Pipe.Full (pi : Pipe) : Prop := pi.nwrite = u32 (pi.nread + pipesize)

/-- The ring is empty. -/
def Pipe.Empty (pi : Pipe) : Prop := pi.nread = pi.nwrite

instance (pi : Pipe) : Decidable pi.Full := inferInstanceAs (Decidable (_ = _))

instance (pi : Pipe) : Decidable pi.Empty := inferInstanceAs (Decidable (_ = _))

namespace PipeSys

/-- The system with one process changed. -/
def setTask (s : PipeSys) (p : Nat) (task : PipeTask) : PipeSys :=
  { s with tasks := Function.update s.tasks p task }

/-- A process goes on at another place. -/
def goto (s : PipeSys) (p : Nat) (pc : PipePc) : PipeSys := s.setTask p { s.tasks p with pc := pc }

/-- The lock of the pipe is released. -/
def unlock (s : PipeSys) : PipeSys := { s with lock := none }

/-- One turn of the loop of `pipewrite`. -/
def writeTurn (s : PipeSys) (p call i : Nat) (copied : Bool) : PipeSys :=
  if (s.request call).2 ≤ i then s.goto p (.wake .nread 0 (.ret i))
  else if !s.pipe.readopen || (s.tasks p).killed then s.goto p (.locked (.ret (-1)))
  else if s.pipe.Full then s.goto p (.wake .nread 0 (.writeSleep call i))
  -- A copy that fails ends the loop.
  else if !copied then s.goto p (.wake .nread 0 (.ret i))
  else
    let ch := (s.request call).1 i
    { s with pipe := s.pipe.put ch, stored := s.stored ++ [(call, ch)] }.goto p
      (.locked (.write call (i + 1) true))

/-- One turn of the second loop of `piperead`. -/
def readTurn (s : PipeSys) (p : Nat) (n : Int) (i : Nat) (copied : Bool) : PipeSys :=
  if n ≤ i ∨ s.pipe.Empty then s.goto p (.wake .nwrite 0 (.ret i))
  else if !copied then s.goto p (.wake .nwrite 0 (.ret (if i = 0 then -1 else i)))
  else
    let ch := s.pipe.data (s.pipe.nread % pipesize)
    { s with
      pipe := { s.pipe with nread := u32 (s.pipe.nread + 1) }
      delivered := s.delivered ++ [ch] }.goto p (.locked (.readCopy n (i + 1)))

/-- One step of the process that holds the lock. -/
def exec (s : PipeSys) (p : Nat) (copied : Bool) : PipeCode → PipeSys
  | .write call i _ => s.writeTurn p call i copied
  | .writeSleep call i => s.unlock.goto p (.doze .nwrite (.write call i false))
  | .readWait n =>
    if s.pipe.Empty ∧ s.pipe.writeopen = true then
      if (s.tasks p).killed then s.goto p (.locked (.ret (-1)))
      else s.goto p (.locked (.readSleep n))
    else s.goto p (.locked (.readCopy n 0))
  | .readSleep n => s.unlock.goto p (.doze .nread (.readWait n))
  | .readCopy n i => s.readTurn p n i copied
  | .close true =>
    { s with pipe := { s.pipe with writeopen := false } }.goto p (.wake .nread 0 .closeEnd)
  | .close false =>
    { s with pipe := { s.pipe with readopen := false } }.goto p (.wake .nwrite 0 .closeEnd)
  | .closeEnd =>
    { s.unlock with freed := !s.pipe.readopen && !s.pipe.writeopen }.goto p .idle
  | .ret _ => s.unlock.goto p .idle

/-- The lock of a process is held across steps only while it falls asleep. -/
def Dozes (s : PipeSys) (p : Nat) : Bool :=
  match (s.tasks p).pc with
  | .doze _ _ => true
  | _ => false

/-- Wake a process that sleeps on a channel. -/
def rouse (s : PipeSys) (chan : PipeChan) (k : Nat) : PipeSys :=
  if (s.tasks k).asleep = some chan then s.setTask k { s.tasks k with asleep := none } else s

/-- The next step of a process, if it has one. -/
def advance (s : PipeSys) (p : Nat) (copied : Bool) : Option PipeSys :=
  match (s.tasks p).pc with
  | .idle => none
  | .acquire c =>
    if s.lock = none then some ({ s with lock := some p }.goto p (.locked c)) else none
  | .locked c => some (s.exec p copied c)
  | .wake chan k c =>
    if nproc ≤ k then some (s.goto p (.locked c))
    else if k = p then some (s.goto p (.wake chan (k + 1) c))
    -- The lock of the process that is looked at must be free.
    else if s.Dozes k then none
    else some ((s.rouse chan k).goto p (.wake chan (k + 1) c))
  | .doze chan c => some (s.setTask p { s.tasks p with pc := .wait c, asleep := some chan })
  | .wait c => if (s.tasks p).asleep = none then some (s.goto p (.acquire c)) else none

/-- A process that is not in the code of the pipe enters it. -/
def enter (s : PipeSys) (p : Nat) (c : PipeCode) : Option PipeSys :=
  match (s.tasks p).pc with
  | .idle => some (s.goto p (.acquire c))
  | _ => none

/-- The process an event is about. -/
def target : PipeEvent → Nat
  | .write p _ _ | .read p _ | .close p _ | .run p _ | .kill p | .renew p => p

/-- One step of the system; nothing more happens to a pipe that was given back. -/
def step (s : PipeSys) (e : PipeEvent) : Option PipeSys :=
  if s.freed || decide (nproc ≤ target e) then none
  else match e with
    | .write p src n =>
      { s with
        request := Function.update s.request s.ncalls (src, n)
        ncalls := s.ncalls + 1 }.enter p (.write s.ncalls 0 false)
    | .read p n => s.enter p (.readWait n)
    | .close p writable => s.enter p (.close writable)
    | .run p copied => s.advance p copied
    | .kill p =>
      if s.Dozes p then none
      else some (s.setTask p { s.tasks p with asleep := none, killed := true })
    | .renew p =>
      match (s.tasks p).pc with
      | .idle => some (s.setTask p { s.tasks p with killed := false })
      | _ => none

/-- The steps of the system. -/
def Steps (s : PipeSys) (e : PipeEvent) (t : PipeSys) : Prop := s.step e = some t

/-- A pipe that was just made, before anyone used it. -/
structure Start (s : PipeSys) : Prop where
  nread : s.pipe.nread = 0
  nwrite : s.pipe.nwrite = 0
  readopen : s.pipe.readopen = true
  writeopen : s.pipe.writeopen = true
  lock : s.lock = none
  idle : ∀ p, (s.tasks p).pc = .idle
  awake : ∀ p, (s.tasks p).asleep = none
  ncalls : s.ncalls = 0
  stored : s.stored = []
  delivered : s.delivered = []

end PipeSys

end Xv6
