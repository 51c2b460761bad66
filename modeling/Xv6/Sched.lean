import Xv6.ProcTree

/-! Spinlocks, processors and the scheduler: the kernel threads, one access to shared data at a
time. -/

namespace Xv6.Sched

open Xv6.Tree (Phase)

/-- A spinlock: the one of a slot of the process table, or another. -/
inductive Lock where
  | proc (p : Nat)
  | other (l : Nat)
  deriving DecidableEq

structure Spinlock where
  locked : Bool
  /-- The processor that is recorded to hold the lock. -/
  cpu : Option Nat

/-- What a kernel thread does next. -/
inductive Op where
  | pushOff
  | popOff
  /-- The check at the start of `acquire`. -/
  | unheld (lk : Lock)
  /-- The atomic swap that `acquire` repeats. -/
  | swap (lk : Lock)
  | own (lk : Lock)
  /-- The check at the start of `release`. -/
  | held (lk : Lock)
  | disown (lk : Lock)
  | unlock (lk : Lock)
  /-- A process sets its own state. -/
  | become (p : Nat) (phase : Phase)
  /-- A process sets its channel and is SLEEPING. -/
  | doze (p chan : Nat)
  /-- `sched`, up to the switch. -/
  | sched (p : Nat)
  /-- `sched`, after the switch. -/
  | intena (enabled : Bool)
  | undoze (p : Nat)
  /-- The head of the loop of `wakeup`. -/
  | wakeup (chan q : Nat)
  | rouse (q chan : Nat)
  /-- What `kkill` does to the process it has found. -/
  | kill (q : Nat)
  /-- What `allocproc` does with a slot whose lock it has. -/
  | alloc (q : Nat)
  /-- The end of `kexit`. -/
  | zombieExit
  /-- The head of the loop of `scheduler`. -/
  | scan (q : Nat)
  /-- What `scheduler` does with a slot whose lock it has. -/
  | pick (q : Nat)
  /-- `scheduler`, after the switch. -/
  | unproc
  | intrOn
  | intrOff
  deriving DecidableEq

/-- A processor. -/
structure Cpu where
  proc : Option Nat
  noff : Nat
  intena : Bool
  /-- Interrupts are enabled. -/
  sie : Bool
  /-- What the thread that it runs is going to do. -/
  todo : List Op
  /-- What its scheduler is going to do, saved while a process runs. -/
  context : List Op

/-- A slot of the process table, as far as the scheduler uses it. -/
structure Task where
  phase : Phase
  chan : Option Nat
  /-- What its kernel thread is going to do, saved while it does not run. -/
  context : List Op

structure System where
  lock : Lock → Spinlock
  cpu : Nat → Cpu
  task : Nat → Task

/-- What the rest of the kernel fixes. -/
structure Config where
  nproc : Nat
  /-- The lock that is passed to `sleep` with a channel. -/
  guard : Nat → Nat
  waitLock : Nat

/-- Messages of `panic`. -/
inductive Panic where
  | acquire
  | release
  | interruptible
  | popOff
  | schedLock
  | schedLocks
  | schedRunning
  | schedInterruptible
  | zombieExit
  deriving DecidableEq

def acquire (lk : Lock) : List Op := [.pushOff, .unheld lk, .swap lk, .own lk]

def release (lk : Lock) : List Op := [.held lk, .disown lk, .unlock lk, .popOff]

def yield (p : Nat) : List Op :=
  acquire (.proc p) ++ .become p .runnable :: .sched p :: release (.proc p)

def sleep (p chan : Nat) (lk : Lock) : List Op :=
  acquire (.proc p) ++ (release lk ++
    .doze p chan :: .sched p :: .undoze p :: (release (.proc p) ++ acquire lk))

def kkill (q : Nat) : List Op := acquire (.proc q) ++ .kill q :: release (.proc q)

/-- The end of `kexit`, from where the lock of the process is taken. -/
def kexit (p : Nat) (waitLock : Lock) : List Op :=
  acquire (.proc p) ++ .become p .zombie :: (release waitLock ++ [.sched p, .zombieExit])

/-- The scheduler enables interrupts for a moment before it looks at the table. -/
def scheduler : List Op := [.intrOn, .intrOff, .scan 0]

/-- What a device does in its interrupt: it takes its lock, wakes whoever waits on some channels and
lets the lock go. -/
structure Device where
  lock : Nat
  chans : List Nat

def Device.code (dev : Device) : List Op :=
  acquire (.other dev.lock) ++
    (dev.chans.map (fun chan => .wakeup chan 0) ++ release (.other dev.lock))

/-- An interrupt in the kernel: devices wake processes up, and the timer makes a process yield. -/
def kerneltrap (devices : List Device) (yielding : Option Nat) : List Op :=
  devices.flatMap Device.code ++ (yielding.elim [] yield ++ [.intrOn])

namespace System

def setCpu (s : System) (c : Nat) (k : Cpu) : System := { s with cpu := Function.update s.cpu c k }

def setLock (s : System) (lk : Lock) (l : Spinlock) : System :=
  { s with lock := Function.update s.lock lk l }

def setTask (s : System) (q : Nat) (t : Task) : System :=
  { s with task := Function.update s.task q t }

/-- A lock is held by a processor, as `holding` sees it. -/
def holding (s : System) (c : Nat) (lk : Lock) : Bool :=
  (s.lock lk).locked && (s.lock lk).cpu == some c

def setPhase (s : System) (q : Nat) (phase : Phase) : System :=
  s.setTask q { s.task q with phase := phase }

/-- The next thing a processor does; `rest` is what its thread does after it. -/
def exec (cfg : Config) (s : System) (c : Nat) (rest : List Op) (op : Op) : Except Panic System :=
  let k := { s.cpu c with todo := rest }
  let t := s.setCpu c k
  match op with
  | .pushOff => .ok (s.setCpu c { k with
      intena := if k.noff = 0 then k.sie else k.intena
      noff := k.noff + 1
      sie := false })
  | .popOff =>
    if k.sie then .error .interruptible
    else if k.noff < 1 then .error .popOff
    else .ok (s.setCpu c { k with noff := k.noff - 1, sie := k.noff - 1 == 0 && k.intena })
  | .unheld lk => if s.holding c lk then .error .acquire else .ok t
  | .swap lk =>
    -- The swap of a lock that is taken changes nothing and is tried again.
    if (s.lock lk).locked then .ok s else .ok (t.setLock lk { s.lock lk with locked := true })
  | .own lk => .ok (t.setLock lk { s.lock lk with cpu := some c })
  | .held lk => if s.holding c lk then .ok t else .error .release
  | .disown lk => .ok (t.setLock lk { s.lock lk with cpu := none })
  | .unlock lk => .ok (t.setLock lk { s.lock lk with locked := false })
  | .become p phase => .ok (t.setPhase p phase)
  | .doze p chan => .ok (t.setTask p { s.task p with phase := .sleeping, chan := some chan })
  | .sched p =>
    if !s.holding c (.proc p) then .error .schedLock
    else if k.noff ≠ 1 then .error .schedLocks
    else if (s.task p).phase = .running then .error .schedRunning
    else if k.sie then .error .schedInterruptible
    else
      -- The switch saves one thread and loads the other.
      let saved := { s.task p with context := .intena k.intena :: rest }
      .ok ((s.setCpu c { k with todo := k.context }).setTask p saved)
  | .intena enabled => .ok (s.setCpu c { k with intena := enabled })
  | .undoze p => .ok (t.setTask p { s.task p with chan := none })
  | .wakeup chan q =>
    if cfg.nproc ≤ q then .ok t
    else if k.proc = some q then .ok (s.setCpu c { k with todo := .wakeup chan (q + 1) :: rest })
    else .ok (s.setCpu c { k with
      todo := acquire (.proc q) ++
        .rouse q chan :: (release (.proc q) ++ .wakeup chan (q + 1) :: rest) })
  | .rouse q chan =>
    if (s.task q).phase = .sleeping ∧ (s.task q).chan = some chan then .ok (t.setPhase q .runnable)
    else .ok t
  | .kill q => if (s.task q).phase = .sleeping then .ok (t.setPhase q .runnable) else .ok t
  | .alloc q =>
    -- A new process starts in `forkret`, which releases its lock.
    if (s.task q).phase = .unused then
      .ok (t.setTask q { s.task q with phase := .used, context := release (.proc q) })
    else .ok (s.setCpu c { k with todo := release (.proc q) ++ rest })
  | .zombieExit => .error .zombieExit
  | .scan q =>
    if cfg.nproc ≤ q then .ok (s.setCpu c { k with todo := scheduler })
    else .ok (s.setCpu c { k with
      todo := acquire (.proc q) ++ .pick q :: (release (.proc q) ++ [.scan (q + 1)]) })
  | .pick q =>
    if (s.task q).phase = .runnable then
      .ok ((s.setCpu c { k with
        proc := some q
        context := .unproc :: rest
        todo := (s.task q).context }).setPhase q .running)
    else .ok t
  | .unproc => .ok (s.setCpu c { k with proc := none })
  | .intrOn => .ok (s.setCpu c { k with sie := true })
  | .intrOff => .ok (s.setCpu c { k with sie := false })

end System

/-- What the rest of the kernel may ask for on behalf of the process that runs. -/
inductive Call where
  | acquire (lk : Lock)
  | release (lk : Lock)
  | yield
  | sleep (chan : Nat)
  | wakeup (chan : Nat)
  | kill (q : Nat)
  | alloc (q : Nat)
  /-- The end of `kfork` and of `userinit`. -/
  | ready (q : Nat)
  /-- The end of `freeproc`. -/
  | free (q : Nat)
  | exit
  | intrOn
  | intrOff

/-- What can happen next. -/
inductive Event where
  /-- A processor goes on. -/
  | run (c : Nat)
  | call (c : Nat) (call : Call)
  | interrupt (c : Nat) (devices : List Device) (timer : Bool)

/-- The code of a call. -/
def Call.code (cfg : Config) (p : Nat) : Call → List Op
  | .acquire lk => Sched.acquire lk
  | .release lk => Sched.release lk
  | .yield => Sched.yield p
  | .sleep chan => Sched.sleep p chan (.other (cfg.guard chan))
  | .wakeup chan => [.wakeup chan 0]
  | .kill q => kkill q
  | .alloc q => Sched.acquire (.proc q) ++ [.alloc q]
  | .exit => kexit p (.other cfg.waitLock)
  | .intrOn => [.intrOn]
  | .intrOff => [.intrOff]
  | .ready _ | .free _ => []

namespace System

/-- One step. -/
def step (cfg : Config) (s : System) : Event → Except Panic System
  | .run c =>
    let todo := (s.cpu c).todo
    todo.head?.elim (.ok s) (s.exec cfg c todo.tail)
  | .call _ (.ready q) => .ok (s.setPhase q .runnable)
  | .call _ (.free q) => .ok (s.setTask q { s.task q with phase := .unused, chan := none })
  | .call c call =>
    .ok (s.setCpu c { s.cpu c with todo := (s.cpu c).proc.elim [] (call.code cfg) })
  | .interrupt c devices timer =>
    if (s.cpu c).sie then
      .ok (s.setCpu c { s.cpu c with
        sie := false
        todo := kerneltrap devices (if timer then (s.cpu c).proc else none) ++ (s.cpu c).todo })
    else .ok s

/-- What the callers of these functions have to see to. -/
def Fits (cfg : Config) (s : System) (c p : Nat) : Call → Prop
  | .acquire lk => ¬s.holding c lk
  | .release lk => s.holding c lk
  | .yield => (s.cpu c).noff = 0
  | .sleep chan => (s.cpu c).noff = 1 ∧ s.holding c (.other (cfg.guard chan))
  | .wakeup chan => s.holding c (.other (cfg.guard chan)) ∧ ∀ q, q ≠ p → ¬s.holding c (.proc q)
  | .kill q => ¬s.holding c (.proc q)
  | .alloc q => ¬s.holding c (.proc q)
  | .ready q => s.holding c (.proc q) ∧ (s.task q).phase = .used
  | .free q => s.holding c (.proc q) ∧ ((s.task q).phase = .used ∨ (s.task q).phase = .zombie)
  | .exit => (s.cpu c).noff = 1 ∧ s.holding c (.other cfg.waitLock)
  | .intrOn => (s.cpu c).noff = 0
  | .intrOff => True

/-- An event that is possible: a call is made by a process that is in none of these functions, and a
device wakes up those who sleep with its lock. -/
def Allowed (cfg : Config) (s : System) : Event → Prop
  | .call c call => ∃ p, (s.cpu c).proc = some p ∧ (s.cpu c).todo = [] ∧ s.Fits cfg c p call
  | .interrupt _ devices _ => ∀ dev ∈ devices, ∀ chan ∈ dev.chans, cfg.guard chan = dev.lock
  | .run _ => True

/-- A step that is allowed and does not panic. -/
def Step (cfg : Config) (s : System) (e : Event) (t : System) : Prop :=
  s.Allowed cfg e ∧ s.step cfg e = .ok t

end System

/-- The first process is ready and the processors are in their schedulers. -/
def boot : System where
  lock _ := ⟨false, none⟩
  cpu _ := ⟨none, 0, false, false, scheduler, []⟩
  task p := if p = Tree.initproc then ⟨.runnable, none, release (.proc p)⟩ else ⟨.unused, none, []⟩

end Xv6.Sched
