import Mathlib.Data.List.Basic
import Mathlib.Logic.Function.Basic
import Xv6.Lib.Run
import Xv6.Params

/-! The process table: how processes are made, leave, are waited for and killed. -/

namespace Xv6

namespace Tree

/-- The states of a slot of the process table. -/
inductive Phase where
  | unused
  | used
  | sleeping
  | runnable
  | running
  | zombie
  deriving DecidableEq, Repr

/-- A process that has been started and has not exited. -/
def Phase.alive : Phase → Bool
  | .sleeping | .runnable | .running => true
  | _ => false

/-- A slot of the process table, as far as these calls use it. -/
structure Slot where
  phase : Phase
  pid : Int
  parent : Option Nat
  killed : Bool
  xstate : Int
  deriving DecidableEq, Repr

/-- A slot after `freeproc`. -/
def Slot.free : Slot := ⟨.unused, 0, none, false, 0⟩

/-- Where a process is. -/
inductive Pc where
  /-- In none of these calls. -/
  | out
  /-- In `allocproc`, before it looks at a slot. -/
  | alloc (k : Nat)
  /-- In `kfork`, with a new slot whose lock is held. -/
  | copy (np : Nat)
  /-- In `kfork`, before `wait_lock` is taken. -/
  | adopt (np : Nat)
  /-- In `kfork`, before the new process is RUNNABLE. -/
  | publish (np : Nat)
  /-- In `kexit`, before `wait_lock` is taken. -/
  | exit (status : Int)
  /-- In `reparent`, before it looks at a slot. -/
  | reparent (status : Int) (k : Nat)
  /-- In `kexit`, after `reparent`. -/
  | bury (status : Int)
  /-- In `kwait`, before `wait_lock` is taken or taken again. -/
  | wait (addr : Nat)
  /-- In the loop of `kwait`, before it looks at a slot. -/
  | scan (addr k : Nat) (havekids : Bool)
  /-- In `kkill`, before it looks at a slot. -/
  | kill (pid : Int) (k : Nat)
  deriving DecidableEq, Repr

/-- A child that `kwait` has returned. -/
structure Reaped where
  /-- The process that waited. -/
  waiter : Nat
  /-- The parent of the child at that time. -/
  parent : Option Nat
  pid : Int
  xstate : Int
  deriving DecidableEq, Repr

/-- The process table with what the processes are doing. -/
structure Table where
  proc : Nat → Slot
  pcs : Nat → Pc
  /-- The holder of `wait_lock`. -/
  lock : Option Nat
  nextpid : Int
  /-- How often `kfork` has taken a slot. -/
  forks : Nat
  /-- Number and status of each process that exited. -/
  exits : List (Int × Int)
  /-- What the calls of `kwait` that succeeded have returned. -/
  reaped : List Reaped

/-- What can happen to processes. -/
inductive Event where
  | fork (p : Nat)
  | exit (p : Nat) (status : Int)
  | wait (p addr : Nat)
  | kill (p : Nat) (pid : Int)
  /-- A process takes its next step; what it tries there succeeds or fails. -/
  | run (p : Nat) (ok : Bool)
  /-- The scheduler picks a process. -/
  | dispatch (p : Nat)
  /-- A process gives up the processor. -/
  | yield (p : Nat)
  /-- A process sleeps in some other call. -/
  | sleep (p : Nat)
  | wakeup (p : Nat)
  deriving DecidableEq, Repr

/-- The first process; `userinit` takes the first slot for it. -/
def initproc : Nat := 0

namespace Table

/-- Change a slot. -/
def set (t : Table) (x : Nat) (slot : Slot) : Table :=
  { t with proc := Function.update t.proc x slot }

/-- Change the state of a slot. -/
def setPhase (t : Table) (x : Nat) (phase : Phase) : Table :=
  t.set x { t.proc x with phase := phase }

/-- A process goes on at another place. -/
def goto (t : Table) (p : Nat) (pc : Pc) : Table := { t with pcs := Function.update t.pcs p pc }

/-- A process takes `wait_lock` and goes on. -/
def acquire (t : Table) (p : Nat) (pc : Pc) : Option Table :=
  if t.lock = none then some ({ t with lock := some p }.goto p pc) else none

/-- A process releases `wait_lock` and goes on. -/
def release (t : Table) (p : Nat) (pc : Pc) : Table := { t with lock := none }.goto p pc

/-- `allocproc` takes a slot, with the number that `allocpid` gives it. -/
def take (t : Table) (k : Nat) : Table :=
  { t.set k { t.proc k with phase := .used, pid := t.nextpid } with
    nextpid := Int.bmod (t.nextpid + 1) (2 ^ 32)
    forks := t.forks + 1 }

/-- The end of `kexit`. -/
def bury (t : Table) (p : Nat) (status : Int) : Table :=
  { t.set p { t.proc p with phase := .zombie, xstate := status } with
    exits := t.exits ++ [((t.proc p).pid, status)] }

/-- `kwait` frees a child and returns it. -/
def reap (t : Table) (p k : Nat) : Table :=
  { t.set k .free with
    reaped := t.reaped ++ [⟨p, (t.proc k).parent, (t.proc k).pid, (t.proc k).xstate⟩] }

/-- `kwait` looks at a slot, or ends its loop over them. -/
def scan (t : Table) (p addr k : Nat) (havekids ok : Bool) : Table :=
  if nproc ≤ k then
    if !havekids || (t.proc p).killed then t.release p .out
    else (t.setPhase p .sleeping).release p (.wait addr)
  else if (t.proc k).parent = some p then
    if (t.proc k).phase = .zombie then
      -- A status that cannot be copied out leaves the child as it is.
      if addr ≠ 0 ∧ ok = false then t.release p .out
      else (t.reap p k).release p .out
    else t.goto p (.scan addr (k + 1) true)
  else t.goto p (.scan addr (k + 1) havekids)

/-- `kkill` looks at a slot. -/
def kill (t : Table) (p : Nat) (pid : Int) (k : Nat) : Table :=
  if nproc ≤ k then t.goto p .out
  else if (t.proc k).pid = pid then
    let phase := if (t.proc k).phase = .sleeping then .runnable else (t.proc k).phase
    (t.set k { t.proc k with killed := true, phase := phase }).goto p .out
  else t.goto p (.kill pid (k + 1))

/-- The next step of a process, if it has one. -/
def advance (t : Table) (p : Nat) (ok : Bool) : Option Table :=
  match t.pcs p with
  | .out => none
  | .alloc k =>
    if nproc ≤ k then some (t.goto p .out)
    else if (t.proc k).phase = .unused then some ((t.take k).goto p (.copy k))
    else some (t.goto p (.alloc (k + 1)))
  -- Memory may be short, in `allocproc` or for the copy.
  | .copy np => if ok then some (t.goto p (.adopt np)) else some ((t.set np .free).goto p .out)
  | .adopt np =>
    if t.lock = none then
      some ((t.set np { t.proc np with parent := some p }).goto p (.publish np))
    else none
  | .publish np => some ((t.setPhase np .runnable).goto p .out)
  | .exit status => t.acquire p (.reparent status 0)
  | .reparent status k =>
    if nproc ≤ k then some (t.goto p (.bury status))
    else if (t.proc k).parent = some p then
      some ((t.set k { t.proc k with parent := some initproc }).goto p (.reparent status (k + 1)))
    else some (t.goto p (.reparent status (k + 1)))
  | .bury status => some ((t.bury p status).release p .out)
  | .wait addr => t.acquire p (.scan addr 0 false)
  | .scan addr k havekids => some (t.scan p addr k havekids ok)
  | .kill pid k => some (t.kill p pid k)

/-- A running process begins a call. -/
def enter (t : Table) (p : Nat) (pc : Pc) : Option Table :=
  if (t.proc p).phase = .running ∧ t.pcs p = .out then some (t.goto p pc) else none

/-- A slot goes from one state to another. -/
def switch (t : Table) (p : Nat) (before after : Phase) : Option Table :=
  if (t.proc p).phase = before then some (t.setPhase p after) else none

/-- One step of the system; the first process never exits. -/
def step (t : Table) : Event → Option Table
  | .fork p => t.enter p (.alloc 0)
  | .exit p status => if p = initproc then none else t.enter p (.exit status)
  | .wait p addr => t.enter p (.wait addr)
  | .kill p pid => t.enter p (.kill pid 0)
  | .run p ok => if (t.proc p).phase = .running then t.advance p ok else none
  | .dispatch p => t.switch p .runnable .running
  | .yield p => t.switch p .running .runnable
  | .sleep p => if t.pcs p = .out then t.switch p .running .sleeping else none
  | .wakeup p => t.switch p .sleeping .runnable

/-- The steps of the system. -/
def Steps (s : Table) (e : Event) (t : Table) : Prop := s.step e = some t

/-- The table after `userinit`. -/
structure Boot (t : Table) : Prop where
  init : (t.proc initproc).phase = .runnable ∧ (t.proc initproc).pid = 1 ∧
    (t.proc initproc).parent = none
  rest : ∀ x, x ≠ initproc → t.proc x = .free
  out : ∀ p, t.pcs p = .out
  lock : t.lock = none
  nextpid : t.nextpid = 2
  forks : t.forks = 0
  exits : t.exits = []
  reaped : t.reaped = []

end Table

end Tree

end Xv6
