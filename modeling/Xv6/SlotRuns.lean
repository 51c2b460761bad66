import Xv6.Ages
import Xv6.ExecOutcome
import Xv6.Ownership
import Xv6.Slots

/-! Swap slots of every process are accounted for exactly along runs of the system. -/

namespace Xv6

open Prog
open Function (update update_eq_self)

/-- What an event does on behalf of the process that runs. -/
inductive Machine.Turns (m : Machine) : SysEvent → Machine → Prop where
  | store (slot va : Nat) (value : UInt8) (m' : Machine) (same : m'.proc = m.proc)
      (fs : m'.fs = m.fs) : Turns m (.store slot va value) m'
  | page (slot : Nat) (env : FsEnv) (op : PagingOp) (r : Int) (m' : Machine)
      (does : m.Does op r m') : Turns m (.page slot env op) m'
  | kill (slot : Nat) :
      Turns m (.kill slot) { m with proc := { m.proc with killed := true } }
  | exec (slot : Nat) (env : FsEnv) (path : List UInt8) (argv : List (List UInt8)) (r : Int)
      (m' : Machine) (ends : m.Execs env path argv r m') :
      Turns m (.exec slot env path argv) m'
  /-- A change of size leaves the paging state alone. -/
  | sbrk (slot : Nat) (n : Int) (m' : Machine) (same : m'.proc.paging = m.proc.paging)
      (pid : m'.proc.pid = m.proc.pid) (cwd : m'.proc.cwd = m.proc.cwd) (fs : m'.fs = m.fs) :
      Turns m (.sbrk slot n) m'
  | exit (slot : Nat) : Turns m (.exit slot) { m with
      proc := { m.proc with
        state := .zombie
        cwd := 0
        paging := { m.proc.paging with swapfile := none, execIp := none } } }

variable {m m' : Machine} {e : SysEvent} {slot v : Nat} {s t : Sys} {c : Candidates}

theorem Machine.Turns.ages (turns : m.Turns e m') (quiet : ∀ slot env op, e ≠ .page slot env op) :
    m.proc.paging.Ages m'.proc.paging none := by
  cases turns with
  | store slot va value _ same => exact same ▸ PagingInfo.Ages.of_eq rfl rfl
  | page slot env op => exact absurd rfl (quiet slot env op)
  | kill => exact PagingInfo.Ages.of_eq rfl rfl
  | exec slot env path argv r _ ends => cases ends <;> exact PagingInfo.Ages.of_eq rfl rfl
  | sbrk slot n _ same => exact same ▸ PagingInfo.Ages.of_eq rfl rfl
  | exit => exact PagingInfo.Ages.of_eq rfl rfl

def SysEvent.runner : SysEvent → Option Nat
  | .store slot _ _ | .page slot _ _ | .kill slot | .exec slot _ _ _ | .sbrk slot _ | .exit slot =>
    some slot
  | _ => none

/-- Everything an event can do to the processes and the files. -/
inductive Sys.Moves (s : Sys) (e : SysEvent) (t : Sys) : Prop where
  /-- A process has its turn. -/
  | turned (i : Nat) (m m' : Machine) (mine : e.runner = some i) (entered : s.enter i = some m)
      (turns : m.Turns e m')
      (ran : ∀ env op, e = .page i env op → ∃ r, op.run env m = .ok (r, m'))
      (left : t = s.leave i m')
  /-- The first process starts afresh. -/
  | born (i : Nat) (p : Proc) (event : e = .userinit i) (vacant : s.procs i = none)
      (fresh : p.paging = initPagingInfo) (fs : t.fs = s.fs)
      (procs : t.procs = update s.procs i (some p))
  /-- A child starts with a copy of its parent's table. -/
  | forked (slot i : Nat) (m : Machine) (p : Proc) (event : e = .fork slot i)
      (vacant : s.procs i = none) (entered : s.enter slot = some m)
      (copied : p.paging = forkPaging m.proc.paging initPagingInfo) (fs : t.fs = s.fs)
      (procs : t.procs = update s.procs i (some p))
  /-- A process that has exited is gone. -/
  | reaped (i : Nat) (event : e = .reap i) (fs : t.fs = s.fs)
      (procs : t.procs = update s.procs i none)
  | still (quiet : e.runner = none) (fs : t.fs = s.fs) (procs : t.procs = s.procs)

section Steps

variable {s t : Sys} {e : SysEvent} {i : Nat} {p : Proc}

theorem Sys.enter_files (entered : s.enter i = some m) : m.fs = s.fs := by
  unfold Sys.enter at entered
  split at entered
  · simp at entered
  split at entered
  · simp at entered
  · obtain rfl := Option.some.inj entered
    rfl

theorem Sys.moves_act {α : Type} {op : KernOp α} {a : α} (accounts : s.Accounts 0)
    (ran : s.act slot op = some (a, t)) (mine : e.runner = some slot)
    (turns : ∀ m m', m.Sound → op m = .ok (a, m') → m.Turns e m' ∧
      ∀ env op, e = .page slot env op → ∃ r, op.run env m = .ok (r, m')) : s.Moves e t := by
  obtain ⟨m, m', entered, done, rfl⟩ := Sys.act_eq_some ran
  obtain ⟨turned, ran⟩ := turns m m' (accounts.sound entered).1 done
  exact .turned slot m m' mine entered turned ran rfl

/-- Each event does one of the things listed. -/
theorem Sys.moves (accounts : s.Accounts 0) (stepped : s.step e = some t) : s.Moves e t := by
  cases e with
  | userinit slot =>
    simp only [Sys.step] at stepped
    split at stepped
    · rename_i unused
      obtain ⟨⟨q, t'⟩, ran, rfl⟩ := Option.map_eq_some_iff.mp stepped
      obtain ⟨k, done, rfl⟩ := Sys.actKmem_eq_some ran
      have managed : ∀ f, f ∈ s.kmem.freelist → s.kmem.Manages f := fun f member =>
        accounts.managed f (Multiset.mem_add.mpr (Or.inl (Multiset.mem_add.mpr (Or.inl member))))
      have judged : wp (allocproc s.nextpid) (fun q _ => ∀ q', q = some q' →
          q'.paging = initPagingInfo) (fun _ => True) s.kmem := by
        apply wp_allocproc managed
        · simp
        · rintro frame root mid low l _ _ _ q ⟨⟩
          rfl
      have born := wp_ok judged done
      cases q with
      | none => exact .still rfl rfl rfl
      | some q =>
        exact .born slot { q with state := .runnable, cwd := rootino } rfl unused.2 (born q rfl)
          rfl rfl
    · simp at stepped
  | store slot va value =>
    obtain ⟨⟨r, t'⟩, ran, rfl⟩ := Option.map_eq_some_iff.mp stepped
    refine Sys.moves_act accounts ran rfl fun m m' _ done => ⟨?_, by simp⟩
    obtain ⟨proc, fs, -⟩ := userStore_ok done
    exact .store slot va value m' proc fs
  | page slot env op =>
    obtain ⟨⟨r, t'⟩, ran, rfl⟩ := Option.map_eq_some_iff.mp stepped
    refine Sys.moves_act accounts ran rfl fun m m' _ done => ⟨?_, ?_⟩
    · exact .page slot env op r m' (PagingOp.run_does done)
    · rintro env' op' ⟨⟩
      exact ⟨r, done⟩
  | kill slot =>
    obtain ⟨⟨r, t'⟩, ran, rfl⟩ := Option.map_eq_some_iff.mp stepped
    refine Sys.moves_act accounts ran rfl fun m m' _ done => ⟨?_, by simp⟩
    obtain ⟨-, rfl⟩ := Prod.mk.inj (Except.ok.inj done)
    exact .kill slot
  | fork slot child =>
    simp only [Sys.step] at stepped
    split at stepped
    · rename_i unused
      obtain ⟨⟨np, t'⟩, ran, rfl⟩ := Option.map_eq_some_iff.mp stepped
      obtain ⟨m, m', entered, done, rfl⟩ := Sys.act_eq_some ran
      obtain ⟨sound, found, -⟩ := accounts.sound entered
      have judged : wp (kfork s.nextpid) (fun np m' => m'.proc = m.proc ∧ m'.fs = m.fs ∧
          ∀ p, np = some p → p.paging = forkPaging m.proc.paging initPagingInfo)
          (fun _ => True) m := by
        apply wp_kfork sound
        · simp
        · rintro p k forks
          refine ⟨rfl, rfl, ?_⟩
          rintro q ⟨⟩
          rw [forks.record]
      obtain ⟨same, fs, copied⟩ := wp_ok judged done
      -- The parent goes back unchanged.
      have parent : update s.procs slot (some m'.proc) = s.procs := by
        rw [same, ← found, update_eq_self]
      have kept : m'.fs = s.fs := fs.trans (Sys.enter_files entered)
      cases np with
      | none => exact .still rfl kept parent
      | some p =>
        refine .forked slot child m p rfl unused.2 entered (copied p rfl) kept ?_
        change update (update s.procs slot (some m'.proc)) child (some p) = _
        rw [parent]
    · simp at stepped
  | exec slot env path argv =>
    simp only [Sys.step] at stepped
    split at stepped
    · rename_i short
      obtain ⟨⟨r, t'⟩, ran, rfl⟩ := Option.map_eq_some_iff.mp stepped
      refine Sys.moves_act accounts ran rfl fun m m' sound done => ⟨?_, by simp⟩
      exact .exec slot env path argv r m' (execs_of_ok sound short.2 done)
    · simp at stepped
  | sbrk slot n =>
    obtain ⟨⟨r, t'⟩, ran, rfl⟩ := Option.map_eq_some_iff.mp stepped
    refine Sys.moves_act accounts ran rfl fun m m' sound done => ⟨?_, by simp⟩
    have judged : wp (sysSbrk n) (fun _ m' => m'.proc.paging = m.proc.paging ∧
        m'.proc.pid = m.proc.pid ∧ m'.proc.cwd = m.proc.cwd ∧ m'.fs = m.fs) (fun _ => True) m := by
      apply wp_sysSbrk sound fun _ => ⟨rfl, rfl, rfl, rfl⟩
      · intros
        exact ⟨rfl, rfl, rfl, rfl⟩
      · intro m' _ _ resizes
        rw [resizes.same]
        exact ⟨rfl, rfl, rfl, rfl⟩
    obtain ⟨paging, pid, cwd, fs⟩ := wp_ok judged done
    exact .sbrk slot n m' paging pid cwd fs
  | exit slot =>
    obtain ⟨⟨r, t'⟩, ran, rfl⟩ := Option.map_eq_some_iff.mp stepped
    refine Sys.moves_act accounts ran rfl fun m m' _ done => ⟨?_, by simp⟩
    obtain ⟨-, rfl⟩ := Prod.mk.inj (Except.ok.inj done)
    exact .exit slot
  | reap slot =>
    simp only [Sys.step] at stepped
    split at stepped
    · simp at stepped
    split at stepped
    · obtain ⟨⟨r, t'⟩, ran, rfl⟩ := Option.map_eq_some_iff.mp stepped
      obtain ⟨k, -, rfl⟩ := Sys.actKmem_eq_some ran
      exact .reaped slot rfl rfl rfl
    · simp at stepped
  | kalloc =>
    obtain ⟨⟨pa, t'⟩, ran, rfl⟩ := Option.map_eq_some_iff.mp stepped
    obtain ⟨k, -, rfl⟩ := Sys.actKmem_eq_some ran
    exact .still rfl rfl rfl
  | kfree pa =>
    simp only [Sys.step] at stepped
    split at stepped
    · obtain ⟨⟨r, t'⟩, ran, rfl⟩ := Option.map_eq_some_iff.mp stepped
      obtain ⟨k, -, rfl⟩ := Sys.actKmem_eq_some ran
      exact .still rfl rfl rfl
    · simp at stepped

/-- Where the paging state of a process comes from when an event has happened. -/
inductive Sys.Evolves (s : Sys) (e : SysEvent) (i : Nat) : PagingInfo → Prop where
  /-- The event is about another process. -/
  | stays (p : Proc) (here : s.procs i = some p) (quiet : e.runner ≠ some i) :
      Evolves s e i p.paging
  /-- The first process starts afresh. -/
  | born (event : e = .userinit i) (vacant : s.procs i = none) : Evolves s e i initPagingInfo
  /-- A child starts with a copy of its parent's table. -/
  | forked (slot : Nat) (m : Machine) (event : e = .fork slot i) (vacant : s.procs i = none)
      (entered : s.enter slot = some m) :
      Evolves s e i (forkPaging m.proc.paging initPagingInfo)
  /-- The process had its turn. -/
  | turned (m m' : Machine) (mine : e.runner = some i) (entered : s.enter i = some m)
      (turns : m.Turns e m')
      (ran : ∀ env op, e = .page i env op → ∃ r, op.run env m = .ok (r, m')) :
      Evolves s e i m'.proc.paging

theorem Sys.evolves (accounts : s.Accounts 0) (stepped : s.step e = some t)
    (here : t.procs i = some p) : s.Evolves e i p.paging := by
  cases Sys.moves accounts stepped with
  | turned j m m' mine entered turns ran left =>
    subst left
    rcases eq_or_ne i j with rfl | other
    · obtain rfl : m'.proc = p := by simpa [Sys.leave] using here
      exact .turned m m' mine entered turns ran
    · refine .stays p (by simpa [Sys.leave, other] using here) ?_
      rw [mine]
      simpa using other.symm
  | born j q event vacant fresh fs procs =>
    rw [procs] at here
    rcases eq_or_ne i j with rfl | other
    · obtain rfl : q = p := by simpa using here
      exact fresh ▸ .born event vacant
    · exact .stays p (by simpa [other] using here) (by simp [event, SysEvent.runner])
  | forked slot j m q event vacant entered copied fs procs =>
    rw [procs] at here
    rcases eq_or_ne i j with rfl | other
    · obtain rfl : q = p := by simpa using here
      exact copied ▸ .forked slot m event vacant entered
    · exact .stays p (by simpa [other] using here) (by simp [event, SysEvent.runner])
  | reaped j event fs procs =>
    rw [procs] at here
    have other : i ≠ j := by
      rintro rfl
      simp at here
    exact .stays p (by simpa [other] using here) (by simp [event, SysEvent.runner])
  | still quiet fs procs => exact .stays p (procs ▸ here) (by simp [quiet])

def Sys.Pagings (s : Sys) (good : PagingInfo → Prop) : Prop :=
  ∀ i p, s.procs i = some p → good p.paging

theorem Sys.Pagings.step {good : PagingInfo → Prop} (pagings : s.Pagings good)
    (accounts : s.Accounts 0) (stepped : s.step e = some t) (fresh : good initPagingInfo)
    (copied : ∀ pg, good pg → good (forkPaging pg initPagingInfo))
    (keeps : ∀ i m m', e.runner = some i → s.enter i = some m → m.Turns e m' →
      good m.proc.paging → good m'.proc.paging) : t.Pagings good := by
  intro i p here
  have evolved := Sys.evolves accounts stepped here
  generalize p.paging = pg at evolved ⊢
  cases evolved with
  | stays q found quiet => exact pagings i q found
  | born event vacant => exact fresh
  | forked slot m event vacant entered =>
    obtain ⟨-, found, -⟩ := accounts.sound entered
    exact copied _ (pagings slot _ found)
  | turned m m' mine entered turns ran =>
    obtain ⟨-, found, -⟩ := accounts.sound entered
    exact keeps i m m' mine entered turns (pagings i _ found)

end Steps

theorem copyPages_claim (parent : PagingInfo) {child : PagingInfo}
    (free : ∀ i, child.claim i = none) (n : Nat) :
    (copyPages parent n child).swapBitmap = child.swapBitmap ∧
      (copyPages parent n child).swapUsed = child.swapUsed ∧
      ∀ i, (copyPages parent n child).claim i = none := by
  induction n with
  | zero => exact ⟨rfl, rfl, free⟩
  | succ n ih =>
    obtain ⟨bitmap, used, claims⟩ := ih
    -- The entry copied last is resident or unmapped; the earlier ones claim nothing by induction.
    unfold copyPages
    split
    · refine ⟨bitmap, used, fun i => ?_⟩
      by_cases here : i = n <;> simp_all [PagingInfo.claim]
    · refine ⟨bitmap, used, fun i => ?_⟩
      by_cases here : i = n <;> simp_all [PagingInfo.claim, PagingInfo.setPage]

theorem copyPages_rest (parent child : PagingInfo) (n : Nat) :
    ∃ pages seq, copyPages parent n child =
      { child with pages := pages, nextFifoSeq := seq } := by
  induction n with
  | zero => exact ⟨child.pages, child.nextFifoSeq, rfl⟩
  | succ n ih =>
    obtain ⟨pages, seq, copied⟩ := ih
    unfold copyPages
    rw [copied]
    split
    · exact ⟨_, _, rfl⟩
    · exact ⟨_, _, rfl⟩

theorem forkPaging_rest (parent : PagingInfo) :
    ∃ pages seq, forkPaging parent initPagingInfo = { initPagingInfo with
      segs := parent.segs
      heapStart := parent.heapStart
      stackTop := parent.stackTop
      execIp := parent.execIp
      pages := pages
      nextFifoSeq := seq } :=
  copyPages_rest parent _ 16384

theorem forkPaging_claim (parent : PagingInfo) :
    (forkPaging parent initPagingInfo).swapBitmap = initPagingInfo.swapBitmap ∧
      (forkPaging parent initPagingInfo).swapUsed = initPagingInfo.swapUsed ∧
      ∀ i, (forkPaging parent initPagingInfo).claim i = none := by
  let child : PagingInfo :=
    { initPagingInfo with
      segs := parent.segs
      heapStart := parent.heapStart
      stackTop := parent.stackTop
      execIp := parent.execIp }
  have empty : ∀ i, child.claim i = none := fun _ => rfl
  exact copyPages_claim parent empty 16384

theorem forkPaging_slotsExact (parent : PagingInfo) :
    (forkPaging parent initPagingInfo).SlotsExact := by
  obtain ⟨bitmap, used, claims⟩ := forkPaging_claim parent
  refine initPagingInfo_slotsExact.congr bitmap used fun i _ slot _ => ?_
  rw [claims i]
  simp [PagingInfo.claim, initPagingInfo]

theorem Machine.Execs.slots {env : FsEnv} {path : List UInt8} {argv : List (List UInt8)} {r : Int}
    (ends : m.Execs env path argv r m') : m'.proc.paging.pages = m.proc.paging.pages ∧
      m'.proc.paging.swapBitmap = m.proc.paging.swapBitmap ∧
      m'.proc.paging.swapUsed = m.proc.paging.swapUsed := by
  cases ends <;> exact ⟨rfl, rfl, rfl⟩

theorem Machine.Turns.slotsExact (turns : m.Turns e m')
    (other : ∀ slot env op, e = .page slot env op → ¬ m.LosesSlot op)
    (exact : m.proc.paging.SlotsExact) : m'.proc.paging.SlotsExact := by
  cases turns with
  | store slot va value _ same => exact same ▸ exact
  | page slot env op r _ does => exact does.slotsExact (other slot env op rfl) exact
  | kill => exact exact
  | exec slot env path argv r _ ends =>
    obtain ⟨pages, bitmap, used⟩ := ends.slots
    refine exact.congr bitmap used fun i _ slot _ => ?_
    rw [PagingInfo.claim, PagingInfo.claim, pages]
  | sbrk slot n _ same => exact same ▸ exact
  | exit => exact exact.congr rfl rfl fun _ _ _ _ => Iff.rfl

def Sys.KeepsSlots (s : Sys) : SysEvent → Prop
  | .page slot _ op => ∀ m, s.enter slot = some m → ¬ m.LosesSlot op
  | _ => True

structure Sys.SlotsExact (s : Sys) : Prop where
  accounts : s.Accounts 0
  pagings : s.Pagings PagingInfo.SlotsExact

theorem Sys.SlotsExact.step (exact : s.SlotsExact) (allowed : s.KeepsSlots e)
    (stepped : s.step e = some t) : t.SlotsExact := by
  refine ⟨exact.accounts.step stepped, exact.pagings.step exact.accounts stepped
    initPagingInfo_slotsExact (fun pg _ => forkPaging_slotsExact pg) ?_⟩
  intro i m m' mine entered turns before
  apply turns.slotsExact _ before
  rintro slot env op rfl
  obtain rfl : slot = i := Option.some.inj mine
  exact allowed m entered

theorem Sys.Boot.slotsExact (boot : s.Boot) : s.SlotsExact :=
  ⟨boot.accounts, fun i p here => by simp [boot.procs] at here⟩

/-- In every state of a run, the slots of every process are exact as long as no fault evicts its own page. -/
theorem slots_exact_of_run {s₀ s : Sys} {es : List SysEvent} (boot : s₀.Boot)
    (run : Trace.Run (Trace.Guarded Sys.KeepsSlots Sys.Steps) s₀ es s) {i : Nat} {p : Proc}
    (here : s.procs i = some p) : p.paging.SlotsExact :=
  have exact : s.SlotsExact := run.invariant Sys.SlotsExact
    (fun _ _ _ before guarded => before.step guarded.1 guarded.2) boot.slotsExact
  exact.pagings i p here

theorem Sys.keepsSlots_of_free (e : SysEvent) (free : s.kmem.freelist ≠ []) : s.KeepsSlots e := by
  cases e with
  | page slot env op =>
    intro m entered loses
    -- The process sees the memory of the system.
    have memory : m.kmem = s.kmem := by
      unfold Sys.enter at entered
      split at entered
      · simp at entered
      · split at entered
        · simp at entered
        · rw [← Option.some.inj entered]
    cases op with
    | fault va cause => exact free (memory ▸ loses.1.1)
    | _ => exact loses
  | _ => exact trivial

def initSys : Sys where
  kmem := ⟨0x80020000, 0x80007000, (List.range 12).map fun i => 0x80100000 + i * pgsize,
    fun _ _ => 0⟩
  fs := initFs (elfFile 5 pgsize)
  procs := fun _ => none
  nextpid := 1
  held := []

def someRoom : FsEnv := ⟨some 3, true, true, false, pgsize⟩

def Sys.amongStep (c : Candidates) (s : Sys) (e : SysEvent) : Option Sys :=
  match e with
  | .page slot env op => ((s.enter slot).bind fun m => op.among c m).bind fun op =>
    s.step (.page slot env op)
  -- No child is needed.
  | .fork _ _ => none
  | e => s.step e

structure Sys.Among (s : Sys) (c : Candidates) : Prop where
  accounts : s.Accounts 0
  pages : ∀ i p, s.procs i = some p → p.paging.Among c

theorem Sys.Among.step (among : s.Among c) (computed : s.amongStep c e = some t) :
    s.step e = some t ∧ t.Among c := by
  unfold Sys.amongStep at computed
  split at computed
  · rename_i slot env op
    obtain ⟨op', found, stepped⟩ := Option.bind_eq_some_iff.mp computed
    obtain ⟨m, entered, aimed⟩ := Option.bind_eq_some_iff.mp found
    obtain ⟨-, here, -⟩ := among.accounts.sound entered
    have mine := among.pages slot _ here
    -- Both operations do the same here.
    have same : s.step (.page slot env op) = some t := by
      rw [← stepped]
      simp only [Sys.step, Sys.act, entered, PagingOp.run_among mine env aimed]
    refine ⟨same, among.accounts.step same, fun i p there => ?_⟩
    have evolved := Sys.evolves among.accounts same there
    generalize p.paging = pg at evolved ⊢
    cases evolved with
    | stays q before quiet => exact among.pages i q before
    | born event => simp at event
    | forked slot m event => simp at event
    | turned m₁ m' runner entered' turns ran =>
      obtain rfl : slot = i := Option.some.inj runner
      obtain rfl := Option.some.inj (entered.symm.trans entered')
      obtain ⟨r, done⟩ := ran env op rfl
      exact (PagingOp.run_does done).among mine aimed
  · simp at computed
  · rename_i noPage noFork
    refine ⟨computed, among.accounts.step computed, fun i p there => ?_⟩
    have evolved := Sys.evolves among.accounts computed there
    generalize p.paging = pg at evolved ⊢
    cases evolved with
    | stays q before quiet => exact among.pages i q before
    | born event => exact initPagingInfo_among c
    | forked slot m event => exact absurd event (noFork slot i)
    | turned m m' mine entered turns ran =>
      obtain ⟨-, here, -⟩ := among.accounts.sound entered
      exact (among.pages i _ here).ages (turns.ages noPage) (by simp)

theorem Sys.Boot.among (boot : s.Boot) : s.Among c :=
  ⟨boot.accounts, fun i p here => by simp [boot.procs i] at here⟩

theorem Sys.Boot.run_of_among {es : List SysEvent} (boot : s.Boot)
    (computed : Trace.steps (Sys.amongStep c) s es = some t) :
    Trace.Run Sys.Steps s es t ∧ t.Among c :=
  Trace.Run.of_steps_inv (fun s => s.Among c) (fun _ _ _ held stepped => held.step stepped)
    boot.among computed

/-- A computed run in which only the candidates are used, and the process in a slot at its end. -/
theorem Sys.Boot.exists_among (boot : s.Boot) (c : Candidates) (es : List SysEvent) (i : Nat)
    (good : Machine → Prop) [DecidablePred good]
    (computed : ((Trace.steps (Sys.amongStep c) s es).bind (·.enter i)).any fun m => good m) :
    ∃ t m, Trace.Run Sys.Steps s es t ∧ m.proc.paging.Among c ∧ t.enter i = some m ∧ good m := by
  obtain ⟨m, found, holds⟩ := (Option.any_eq_true _ _).mp computed
  obtain ⟨t, reached, entered⟩ := Option.bind_eq_some_iff.mp found
  obtain ⟨run, among⟩ := boot.run_of_among reached
  obtain ⟨-, here, -⟩ := among.accounts.sound entered
  exact ⟨t, m, run, among.pages i _ here, entered, of_decide_eq_true holds⟩

def Sys.amongFree (c : Candidates) (s : Sys) (e : SysEvent) : Option Sys :=
  if s.kmem.freelist = [] then none else s.amongStep c e

theorem Sys.Boot.run_of_amongFree {es : List SysEvent} (boot : s.Boot)
    (computed : Trace.steps (Sys.amongFree c) s es = some t) :
    Trace.Run (Trace.Guarded Sys.KeepsSlots Sys.Steps) s es t ∧ t.Among c := by
  refine Trace.Run.of_steps_inv (fun s => s.Among c) (fun s e t held stepped => ?_) boot.among
    computed
  obtain ⟨free, stepped⟩ := Option.ite_none_left_eq_some.mp stepped
  obtain ⟨moved, kept⟩ := held.step stepped
  exact ⟨⟨s.keepsSlots_of_free e free, moved⟩, kept⟩

def readHeap : List SysEvent :=
  [.userinit 0, .exec 0 someRoom initPath [initPath], .sbrk 0 4096,
    .page 0 someRoom (.fault 12296 (Access.cause .load))]

theorem initSys_boot : initSys.Boot := ⟨by decide, by decide, fun _ => rfl⟩

/-- Reading from the heap of the first program and evicting the page keeps the slots exact. -/
theorem slots_exact_readHeap : initSys.Boot ∧ ∃ s p,
    Trace.Run (Trace.Guarded Sys.KeepsSlots Sys.Steps) initSys
      (readHeap ++ [.page 0 someRoom .evict]) s ∧
    s.procs 0 = some p ∧ p.paging.claim 3 = some 0 ∧ p.paging.SlotsExact := by
  have ran : ((Trace.steps (Sys.amongFree (.one 3 (by decide))) initSys
      (readHeap ++ [.page 0 someRoom .evict])).bind (·.procs 0)).any fun p =>
        p.paging.claim 3 = some 0 := by decide +kernel
  obtain ⟨p, found, claimed⟩ := (Option.any_eq_true _ _).mp ran
  obtain ⟨s, computed, here⟩ := Option.bind_eq_some_iff.mp found
  have run := (initSys_boot.run_of_amongFree computed).1
  exact ⟨initSys_boot, s, p, run, here, of_decide_eq_true claimed,
    slots_exact_of_run initSys_boot run here⟩

def fillMemory : List SysEvent := readHeap ++ [.kalloc, .kalloc, .kalloc]

def evictsAndServes (c : Candidates) (v va : Nat) (m : Machine) : Bool :=
  let m₁ := after (swapoutPage someRoom (v * pgsize)) m
  decide (m.kmem.freelist = []) && decide ((fifoAmong m.proc.paging.pages c.list).1 = some v) &&
    decide (valueOf (swapoutPage someRoom (v * pgsize) m) = some 0) &&
    decide (m₁.kmem.freelist ≠ []) && decide (pgrounddown va < maxva) &&
    decide (m.proc.paging.heapStart ≤ pgrounddown va ∧ pgrounddown va < m.proc.sz) &&
    !decide (m.proc.paging.segs.text.Has (pgrounddown va)) &&
    !decide (m.proc.paging.segs.data.Has (pgrounddown va)) &&
    !((getPageInfo (pgrounddown va)).any fun i => (m.proc.paging.pages i).state = .swapped) &&
    decide (valueOf (faultHeap someRoom (pgrounddown va) m₁) = some 0)

theorem handled_of_evictsAndServes {va : Nat} (cause : Nat) (among : m.proc.paging.Among c)
    (computed : evictsAndServes c v va m = true) :
    ∃ m', handlePageFault someRoom va cause m = .ok (0, m') := by
  simp only [evictsAndServes, Bool.and_eq_true, decide_eq_true_eq, Bool.not_eq_true',
    decide_eq_false_iff_not] at computed
  obtain ⟨⟨⟨⟨⟨⟨⟨⟨⟨full, chosen⟩, written⟩, room⟩, below⟩, heap⟩, notText⟩, notData⟩, unswapped⟩, served⟩ :=
    computed
  have evicted : evictPageFifo someRoom m = .ok (0, after (swapoutPage someRoom (v * pgsize)) m) :=
    (evictPageFifo_eq (among.victim.trans chosen)).trans (eq_ok_of_valueOf written)
  rw [handlePageFault_heap heap below notText notData (by simpa using unswapped),
    faultHeap_congr (obtainFrame_evicted full evicted room)]
  exact ⟨_, eq_ok_of_valueOf served⟩

/-- Jumping into a heap page that is there, with memory full, leaks the slot it was saved in. -/
theorem fetch_leaks_slot : initSys.Boot ∧ ∃ s t m p, Trace.Run Sys.Steps initSys fillMemory s ∧
    s.enter 0 = some m ∧ translate m.proc.pagetable .fetch 12296 = none ∧
    s.step (.page 0 someRoom (.fault 12296 (Access.cause .fetch))) = some t ∧
    t.procs 0 = some p ∧ ¬ p.paging.SlotsExact := by
  have ran : ((Trace.steps (Sys.amongFree (.one 3 (by decide))) initSys fillMemory).bind (·.enter 0)).any
      fun m => decide (translate m.proc.pagetable .fetch 12296 = none) &&
        (m.proc.pagetable.lookup 12288).isSome && !decide (m.proc.paging.pages 3).Droppable &&
        evictsAndServes (.one 3 (by decide)) 3 12296 m := by
    decide +kernel
  obtain ⟨m, found, facts⟩ := (Option.any_eq_true _ _).mp ran
  obtain ⟨s, computed, entered⟩ := Option.bind_eq_some_iff.mp found
  simp only [Bool.and_eq_true, decide_eq_true_eq, Bool.not_eq_true',
    decide_eq_false_iff_not] at facts
  obtain ⟨⟨⟨faults, present⟩, kept⟩, served⟩ := facts
  obtain ⟨run, among⟩ := initSys_boot.run_of_amongFree computed
  obtain ⟨-, here, -⟩ := among.accounts.sound entered
  obtain ⟨m', handled⟩ := handled_of_evictsAndServes (Access.cause .fetch)
    (among.pages 0 _ here) served
  have exact : s.SlotsExact := run.invariant Sys.SlotsExact
    (fun _ _ _ before guarded => before.step guarded.1 guarded.2) initSys_boot.slotsExact
  have done : (PagingOp.fault 12296 (Access.cause .fetch)).run someRoom m = .ok (0, m') := handled
  have stepped : s.step (.page 0 someRoom (.fault 12296 (Access.cause .fetch))) =
      some (s.leave 0 m') := by
    simp only [Sys.step, Sys.act, entered, done, Option.map_some]
  refine ⟨initSys_boot, s, s.leave 0 m', m, m'.proc, ?_, entered, faults, stepped, ?_, ?_⟩
  · exact run.unguarded
  · simp [Sys.leave]
  · have before := exact.pagings 0 _ (exact.accounts.sound entered).2.1
    cases PagingOp.run_does done with
    | fault va cause _ _ handles =>
      exact handles.leaks present (by decide) (by decide) (by decide) kept before

end Xv6
