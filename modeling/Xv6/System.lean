import Xv6.Fork
import Xv6.FaultLaws
import Xv6.User

/-! The kernel with its process table, and every event that moves memory between processes. -/

namespace Xv6

/-- The kernel, its processes and the pages it holds for itself. -/
structure Sys where
  kmem : Kmem
  fs : Fs
  /-- The process table; unused slots are empty. -/
  procs : Nat → Option Proc
  nextpid : Nat
  /-- Pages the kernel uses as buffers, stacks and tables of its own. -/
  held : List Nat

/-- The events that change the memory of the system. -/
inductive SysEvent where
  /-- The first process is set up. -/
  | userinit (slot : Nat)
  | store (slot va : Nat) (value : UInt8)
  | page (slot : Nat) (env : FsEnv) (op : PagingOp)
  | kill (slot : Nat)
  | fork (slot child : Nat)
  | exec (slot : Nat) (env : FsEnv) (path : List UInt8) (argv : List (List UInt8))
  | sbrk (slot : Nat) (n : Int)
  | exit (slot : Nat)
  /-- A parent collects a child that has exited. -/
  | reap (slot : Nat)
  | kalloc
  | kfree (pa : Nat)

/-- The machine as a process sees it, while the process has not exited. -/
def Sys.enter (s : Sys) (slot : Nat) : Option Machine :=
  match s.procs slot with
  | none => none
  | some p => if p.state = .zombie then none else some ⟨s.kmem, s.fs, p⟩

/-- Put back what a process changed. -/
def Sys.leave (s : Sys) (slot : Nat) (m : Machine) : Sys :=
  { s with kmem := m.kmem, fs := m.fs, procs := Function.update s.procs slot (some m.proc) }

/-- Run a computation on behalf of a process; nothing follows a panic. -/
def Sys.act {α : Type} (s : Sys) (slot : Nat) (op : KernOp α) : Option (α × Sys) :=
  match s.enter slot with
  | none => none
  | some m =>
    match op m with
    | .ok (a, m') => some (a, s.leave slot m')
    | .error _ => none

/-- Run a computation on memory alone. -/
def Sys.actKmem {α : Type} (s : Sys) (op : MemOp α) : Option (α × Sys) :=
  match op s.kmem with
  | .ok (a, k) => some (a, { s with kmem := k })
  | .error _ => none

/-- Put a new process into an unused slot. -/
def Sys.place (s : Sys) (slot : Nat) (p : Option Proc) : Sys :=
  -- A process number is used up even when the process cannot be made.
  { s with
    nextpid := s.nextpid + 1
    procs := match p with
      | none => s.procs
      | some p => Function.update s.procs slot (some p) }

/-- A slot of the process table that is not in use. -/
def Sys.Unused (s : Sys) (slot : Nat) : Prop := slot < nproc ∧ s.procs slot = none

instance (s : Sys) (slot : Nat) : Decidable (s.Unused slot) :=
  inferInstanceAs (Decidable (_ ∧ _))

/-- The arguments that the system call can hand to exec: each fits in a page with its end. -/
def ShortArgs (argv : List (List UInt8)) : Prop :=
  argv.length < maxarg ∧ ∀ arg ∈ argv, arg.length < pgsize

instance (argv : List (List UInt8)) : Decidable (ShortArgs argv) :=
  inferInstanceAs (Decidable (_ ∧ _))

/-- One step of the system, when the event is possible and does not panic. -/
def Sys.step (s : Sys) : SysEvent → Option Sys
  | .userinit slot =>
    if s.Unused slot then
      (s.actKmem (allocproc s.nextpid)).map fun (p, t) =>
        t.place slot (p.map fun p => { p with state := .runnable, cwd := rootino })
    else none
  | .store slot va value => (s.act slot (userStore va value)).map Prod.snd
  | .page slot env op => (s.act slot (op.run env)).map Prod.snd
  | .kill slot => (s.act slot setkilled).map Prod.snd
  | .fork slot child =>
    if s.Unused child then
      (s.act slot (kfork s.nextpid)).map fun (np, t) => t.place child np
    else none
  | .exec slot env path argv =>
    if ShortArgs argv then (s.act slot (kexec env path argv)).map Prod.snd else none
  | .sbrk slot n => (s.act slot (sysSbrk n)).map Prod.snd
  | .exit slot => (s.act slot kexit).map Prod.snd
  | .reap slot =>
    match s.procs slot with
    | none => none
    | some p =>
      if p.state = .zombie then
        (s.actKmem (freeproc p)).map fun (_, t) =>
          { t with procs := Function.update t.procs slot none }
      else none
  | .kalloc =>
    (s.actKmem kalloc).map fun (pa, t) => { t with held := pa.toList ++ t.held }
  | .kfree pa =>
    -- The kernel frees only what it holds.
    if pa ∈ s.held then
      (s.actKmem (kfree pa)).map fun (_, t) => { t with held := t.held.erase pa }
    else none

end Xv6
