import Xv6.Lib.Circular
import Xv6.Lib.Prog
import Xv6.Lib.Run
import Xv6.Params

/-! The disk driver with the device behind it, step by step. -/

namespace Xv6

namespace Virtio

open Prog Circular
open Function (update)

/-- How many descriptors there are. -/
def num : Nat := 8

/-- The indices of the rings are 16 bits wide. -/
def wrap : Nat := 2 ^ 16

/-- What the address in a descriptor points at. -/
inductive Addr where
  | null
  /-- The command at an index of `ops`. -/
  | op (i : Nat)
  /-- The data of a buffer. -/
  | data (buf : Nat)
  /-- The status at an index of `info`. -/
  | status (i : Nat)
  deriving DecidableEq, Repr

/-- A descriptor, with its two flags apart. -/
structure Desc where
  addr : Addr
  len : Nat
  /-- `VRING_DESC_F_NEXT`: the chain goes on. -/
  chained : Bool
  /-- `VRING_DESC_F_WRITE`: the device writes. -/
  writes : Bool
  next : Nat
  deriving DecidableEq, Repr

/-- The command of a request. -/
structure Command where
  /-- The type is `VIRTIO_BLK_T_OUT`. -/
  out : Bool
  sector : Nat
  deriving DecidableEq, Repr

/-- What the driver remembers of a chain, at the index of its first descriptor. -/
structure Info where
  b : Option Nat
  status : Nat
  deriving DecidableEq, Repr

/-- A call of `virtio_disk_rw` that has its descriptors. -/
structure Request where
  buf : Nat
  write : Bool
  i0 : Nat
  i1 : Nat
  i2 : Nat
  deriving DecidableEq, Repr

/-- The descriptors of a request. -/
def Request.chain (c : Request) : List Nat := [c.i0, c.i1, c.i2]

/-- The driver's memory, the buffers' flags, and what the device has under way. -/
structure Driver where
  desc : Nat → Desc
  /-- The avail ring; the device counts what it has read of it. -/
  avail : Buffer Nat
  /-- The used ring; `used_idx` is what the driver has read of it. -/
  used : Buffer Nat
  free : Nat → Bool
  info : Nat → Info
  ops : Nat → Command
  /-- The flag `disk` of each buffer: the device owns the buffer. -/
  disk : Nat → Bool
  blockno : Nat → Nat
  /-- Chains the device has taken and not completed. -/
  pending : List Nat
  /-- The device has completed the chain last published with this first descriptor. -/
  served : Nat → Bool
  /-- How many chains the device has completed. -/
  completions : Nat
  /-- How many times the handler has cleared the flag of a buffer. -/
  clears : Nat

/-- Why the driver stops. -/
inductive Stop where
  | freeDesc1
  | freeDesc2
  | intrStatus
  /-- The handler follows a null pointer to a buffer. -/
  | fault
  deriving DecidableEq, Repr

/-- Operations of the driver. -/
abbrev DriverM := Comp Driver Stop

/-- Find a free descriptor and mark it non-free. -/
def allocDesc : DriverM (Option Nat) := do
  match (List.range num).find? (← get).free with
  | some i =>
    modify fun d => { d with free := update d.free i false }
    return some i
  | none => return none

/-- A descriptor after it was freed. -/
def Desc.zero : Desc := ⟨.null, 0, false, false, 0⟩

/-- Mark a descriptor as free. Whoever sleeps until one is free may wake at any time. -/
def freeDesc (i : Nat) : DriverM Unit := do
  if num ≤ i then throw .freeDesc1
  if (← get).free i then throw .freeDesc2
  modify fun d =>
    { d with desc := update d.desc i .zero, free := update d.free i true }

/-- Free a chain of descriptors; one more than there are would be freed twice. -/
def freeChain : Nat → Nat → DriverM Unit
  | 0, _ => return ()
  | fuel + 1, i => do
    let desc := (← get).desc i
    freeDesc i
    if desc.chained then freeChain fuel desc.next

/-- Allocate descriptors one by one; where one is missing, those before it are freed. -/
def allocDescs (idx : List Nat) : Nat → DriverM (Option (List Nat))
  | 0 => return some idx
  | n + 1 => do
    match ← allocDesc with
    | some i => allocDescs (idx ++ [i]) n
    | none =>
      idx.forM freeDesc
      return none

/-- Allocate three descriptors. -/
def alloc3Desc : DriverM (Option (List Nat)) := allocDescs [] 3

/-- The sector a buffer's block starts at. -/
def Driver.sector (d : Driver) (buf : Nat) : Nat := u32 (d.blockno buf * (bsize / 512))

/-- Format the three descriptors of a request and give its buffer to the device. -/
def Driver.format (d : Driver) (c : Request) : Driver :=
  let head : Desc := ⟨.op c.i0, 16, true, false, c.i1⟩
  let data : Desc := ⟨.data c.buf, bsize, true, !c.write, c.i2⟩
  let status : Desc := ⟨.status c.i0, 1, false, true, 0⟩
  { d with
    ops := update d.ops c.i0 ⟨c.write, d.sector c.buf⟩
    desc := update (update (update d.desc c.i0 head) c.i1 data) c.i2
      status
    info := update d.info c.i0 ⟨some c.buf, 0xff⟩
    disk := update d.disk c.buf true }

/-- Tell the device about a chain. -/
def Driver.publish (d : Driver) (head : Nat) : Driver :=
  { d with avail := d.avail.push num wrap head, served := update d.served head false }

/-- The end of `virtio_disk_rw`: forget the buffer and free the chain. -/
def retire (c : Request) : DriverM Unit := do
  modify fun d => { d with info := update d.info c.i0 { d.info c.i0 with b := none } }
  freeChain (num + 1) c.i0

/-- The device is done with a buffer, and the entry of the used ring has been seen. -/
def Driver.clear (d : Driver) (buf : Nat) : Driver :=
  { d with
    disk := update d.disk buf false
    used := d.used.pop wrap
    clears := d.clears + 1 }

/-- One turn of the loop of `virtio_disk_intr`, with an entry in the used ring. -/
def consume : DriverM Unit := do
  let d ← get
  let id := d.used.data (d.used.read % num)
  if (d.info id).status ≠ 0 then throw .intrStatus
  match (d.info id).b with
  | none => throw .fault
  | some b => set (d.clear b)

/-- The device takes the next chain of the avail ring. -/
def Driver.fetch (d : Driver) : Driver :=
  { d with
    avail := d.avail.pop wrap
    pending := d.pending ++ [d.avail.data (d.avail.read % num)] }

/-- The status byte that the third descriptor of a chain points at is set to 0. -/
def Driver.writeStatus (d : Driver) (head : Nat) : Nat → Info :=
  match (d.desc (d.desc (d.desc head).next).next).addr with
  | .status i => update d.info i { d.info i with status := 0 }
  | _ => d.info

/-- The device completes a chain. -/
def Driver.complete (d : Driver) (head : Nat) : Driver :=
  { d with
    info := d.writeStatus head
    used := d.used.push num wrap head
    pending := d.pending.erase head
    served := update d.served head true
    completions := d.completions + 1 }

/-- Where a process is in `virtio_disk_rw`. -/
inductive Pc where
  | idle
  /-- In `acquire` at the start, or asleep until a descriptor is freed. -/
  | enter (buf : Nat) (write : Bool)
  /-- Before `alloc3_desc`. -/
  | alloc (buf : Nat) (write : Bool)
  | format (c : Request)
  /-- Before the entry in the avail ring. -/
  | publish (c : Request)
  /-- Head of the loop that waits for the device. -/
  | wait (c : Request)
  /-- Asleep in that loop, or in `acquire` after it. -/
  | asleep (c : Request)
  /-- After that loop. -/
  | retire (c : Request)
  | release
  deriving DecidableEq, Repr

/-- Who can hold the lock of the disk. -/
inductive Holder where
  | proc (p : Nat)
  | handler
  deriving DecidableEq, Repr

/-- The disk with the processes that use it. -/
structure State where
  driver : Driver
  /-- The holder of `vdisk_lock`. -/
  lock : Option Holder
  pcs : Nat → Pc
  /-- The holder of the sleep lock of each buffer. -/
  holder : Nat → Option Nat

/-- What can happen around the disk. -/
inductive Event where
  /-- A process gets the sleep lock of a buffer. -/
  | lockBuf (p b : Nat)
  | unlockBuf (p b : Nat)
  /-- A process calls `virtio_disk_rw` with a buffer that it has locked. -/
  | rw (p b : Nat) (write : Bool)
  /-- A process takes its next step; one that sleeps may be woken at any time. -/
  | run (p : Nat)
  /-- `virtio_disk_intr` gets the lock. -/
  | interrupt
  /-- Head of the loop of `virtio_disk_intr`. -/
  | handle
  /-- The device takes a chain. -/
  | fetch
  /-- The device completes a chain. -/
  | complete (head : Nat)
  deriving DecidableEq, Repr

namespace State

/-- A process goes on at another place. -/
def goto (s : State) (p : Nat) (pc : Pc) : State := { s with pcs := update s.pcs p pc }

/-- A process gets the lock of the disk. -/
def acquire (s : State) (p : Nat) (pc : Pc) : Option (Except Stop State) :=
  if s.lock = none then some (.ok ({ s with lock := some (.proc p) }.goto p pc)) else none

/-- A process goes on and releases the lock of the disk. -/
def release (s : State) (p : Nat) (pc : Pc) : State := { s with lock := none }.goto p pc

/-- Run an operation of the driver, then go on. -/
def drive {α : Type} (s : State) (op : DriverM α) (next : State → α → State) : Except Stop State :=
  match op s.driver with
  | .ok (a, d) => .ok (next { s with driver := d } a)
  | .error stop => .error stop

/-- What the caller does with the result of `alloc3_desc`. -/
def allocated (p buf : Nat) (write : Bool) (s : State) : Option (List Nat) → State
  | some [i0, i1, i2] => s.goto p (.format ⟨buf, write, i0, i1, i2⟩)
  -- It sleeps until a descriptor is freed.
  | _ => s.release p (.enter buf write)

/-- The next step of a process, if it has one. -/
def advance (s : State) (p : Nat) : Option (Except Stop State) :=
  match s.pcs p with
  | .idle => none
  | .enter buf write => s.acquire p (.alloc buf write)
  | .alloc buf write => some (s.drive alloc3Desc (allocated p buf write))
  | .format c => some (.ok ({ s with driver := s.driver.format c }.goto p (.publish c)))
  | .publish c => some (.ok ({ s with driver := s.driver.publish c.i0 }.goto p (.wait c)))
  | .wait c =>
    if s.driver.disk c.buf then some (.ok (s.release p (.asleep c)))
    else some (.ok (s.goto p (.retire c)))
  | .asleep c => s.acquire p (.wait c)
  | .retire c => some (s.drive (Virtio.retire c) fun t _ => t.goto p .release)
  | .release => some (.ok (s.release p .idle))

/-- The head of the loop of the handler. -/
def handle (s : State) : Except Stop State :=
  if s.driver.used.read = s.driver.used.write then .ok { s with lock := none }
  else s.drive consume fun t _ => t

/-- One step of the system, if it is possible, and whether it stops the driver. -/
def step (s : State) : Event → Option (Except Stop State)
  | .lockBuf p b =>
    if s.holder b = none then
      some (.ok { s with holder := update s.holder b (some p) })
    else none
  | .unlockBuf p b =>
    if s.holder b = some p ∧ s.pcs p = .idle then
      some (.ok { s with holder := update s.holder b none })
    else none
  | .rw p b write =>
    if s.holder b = some p ∧ s.pcs p = .idle then some (.ok (s.goto p (.enter b write))) else none
  | .run p => s.advance p
  | .interrupt => if s.lock = none then some (.ok { s with lock := some .handler }) else none
  | .handle => if s.lock = some .handler then some s.handle else none
  | .fetch =>
    if s.driver.avail.read ≠ s.driver.avail.write then
      some (.ok { s with driver := s.driver.fetch })
    else none
  | .complete head =>
    if head ∈ s.driver.pending then some (.ok { s with driver := s.driver.complete head }) else none

/-- The steps of the system. -/
def Steps (s : State) (e : Event) (t : State) : Prop := s.step e = some (.ok t)

/-- The disk after `virtio_disk_init`, before anyone used it. -/
structure Start (s : State) : Prop where
  avail : s.driver.avail.read = 0 ∧ s.driver.avail.write = 0
  used : s.driver.used.read = 0 ∧ s.driver.used.write = 0
  free : ∀ i < num, s.driver.free i = true
  pending : s.driver.pending = []
  lock : s.lock = none
  idle : ∀ p, s.pcs p = .idle
  counts : s.driver.completions = 0 ∧ s.driver.clears = 0

end State

end Virtio

end Xv6
