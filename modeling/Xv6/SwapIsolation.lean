import Xv6.SlotRuns
import Xv6.SwapFiles

/-! Swap files of different processes are different files, as long as their names are. -/

namespace Xv6

open Prog
open Function (update update_self update_of_ne update_eq_self)

def Sys.Live (s : Sys) (i : Nat) (p : Proc) : Prop :=
  i < nproc ∧ s.procs i = some p ∧ p.state ≠ .zombie

theorem ofNat_digit_inj {a b : Nat} (aDigit : a < 10) (bDigit : b < 10)
    (same : UInt8.ofNat (48 + a) = UInt8.ofNat (48 + b)) : a = b := by
  have inj : ∀ a < 10, ∀ b < 10, UInt8.ofNat (48 + a) = UInt8.ofNat (48 + b) → a = b := by decide
  exact inj a aDigit b bDigit same

theorem swapName_eq_iff {p q : Nat} : swapName p = swapName q ↔ p % 100000 = q % 100000 := by
  constructor
  · intro same
    simp only [swapName, List.map_cons, List.map_nil, List.cons_append, List.nil_append,
      List.cons.injEq, true_and, and_true] at same
    obtain ⟨d4, d3, d2, d1, d0⟩ := same
    have e4 := ofNat_digit_inj (Nat.mod_lt _ (by decide)) (Nat.mod_lt _ (by decide)) d4
    have e3 := ofNat_digit_inj (Nat.mod_lt _ (by decide)) (Nat.mod_lt _ (by decide)) d3
    have e2 := ofNat_digit_inj (Nat.mod_lt _ (by decide)) (Nat.mod_lt _ (by decide)) d2
    have e1 := ofNat_digit_inj (Nat.mod_lt _ (by decide)) (Nat.mod_lt _ (by decide)) d1
    have e0 := ofNat_digit_inj (Nat.mod_lt _ (by decide)) (Nat.mod_lt _ (by decide)) d0
    omega
  · intro same
    have d4 : p / 10000 % 10 = q / 10000 % 10 := by omega
    have d3 : p / 1000 % 10 = q / 1000 % 10 := by omega
    have d2 : p / 100 % 10 = q / 100 % 10 := by omega
    have d1 : p / 10 % 10 = q / 10 % 10 := by omega
    have d0 : p / 1 % 10 = q / 1 % 10 := by omega
    simp only [swapName, List.map_cons, List.map_nil, d4, d3, d2, d1, d0]

structure Fs.SwapNamed (fs : Fs) : Prop where
  there : ∀ d n e, fs.dirlookup d n = some e → (fs.inodes e).type ≠ none
  single : ∀ d d' p q e, fs.dirlookup d (swapName p) = some e →
    fs.dirlookup d' (swapName q) = some e → swapName p = swapName q

def Sys.NameFree (s : Sys) (i : Nat) (p : Proc) : Prop :=
  ∀ j q, j ≠ i → s.Live j q → q.paging.swapfile ≠ none → q.pid % 100000 ≠ p.pid % 100000

def Sys.OpensApart (s : Sys) : SysEvent → Prop
  | .page slot env _ => ∀ p, s.Live slot p → p.paging.swapfile = none →
    env.filealloc = true ∧ s.NameFree slot p
  | .exec slot env _ _ => ∀ p, s.Live slot p → env.filealloc = true ∧ s.NameFree slot p
  | _ => True

/-- What an event does to the files and to the swap files that are open. -/
inductive Sys.Files (s t : Sys) (e : SysEvent) : Prop where
  /-- A process may open its swap file and write to it. -/
  | turn (i : Nat) (p p' : Proc) (runner : e.runner = some i) (live : s.Live i p)
      (pid : p'.pid = p.pid) (free : p.paging.swapfile ≠ none ∨ s.NameFree i p)
      (opens : s.fs.Opens t.fs (swapName p.pid) p.paging.swapfile p'.paging.swapfile)
      (procs : t.procs = update s.procs i (some p'))
  /-- The files stay, and a swap file that is open after the event was open before. -/
  | quiet (fs : t.fs = s.fs) (before : ∀ j q, t.Live j q → q.paging.swapfile ≠ none →
      ∃ q', s.Live j q' ∧ q'.pid = q.pid ∧ q'.paging.swapfile = q.paging.swapfile)

variable {m : Machine} {c i j : Nat} {p q : Proc}

section Steps

variable {s t : Sys} {e : SysEvent} {i : Nat}

theorem Sys.Accounts.live (accounts : s.Accounts 0) (entered : s.enter i = some m) :
    s.Live i m.proc ∧ m.fs = s.fs := by
  obtain ⟨-, here, -⟩ := accounts.sound entered
  refine ⟨⟨?_, here, fun zombie => ?_⟩, Sys.enter_files entered⟩
  · by_contra beyond
    simp [accounts.slots i (by omega)] at here
  · simp [Sys.enter, here, zombie] at entered

theorem Sys.Live.of_update (live : t.Live j q) (other : j ≠ i)
    (procs : t.procs = update s.procs i (some p)) : s.Live j q := by
  obtain ⟨low, here, running⟩ := live
  rw [procs, update_of_ne other] at here
  exact ⟨low, here, running⟩

theorem Sys.Live.of_self (live : t.Live i q)
    (procs : t.procs = update s.procs i (some p)) : q = p := by
  have here := live.2.1
  rw [procs, update_self] at here
  exact (Option.some.inj here).symm

theorem Machine.Execs.opens {m' : Machine} {env : FsEnv} {path : List UInt8}
    {argv : List (List UInt8)} {r : Int} (ends : m.Execs env path argv r m')
    (keeps : env.KeepsFile) : m'.proc.pid = m.proc.pid ∧
      m.fs.Opens m'.fs (swapName m.proc.pid) m.proc.paging.swapfile m'.proc.paging.swapfile := by
  have opens : m.fs.Opens (m.openSwap env).2 (swapName m.proc.pid) m.proc.paging.swapfile
      (m.openSwap env).1 := (openSwap_opens keeps _ _ _).close
  cases ends with
  | noFile => exact ⟨rfl, .refl _ _ _⟩
  | badFile => exact ⟨rfl, .refl _ _ _⟩
  | badImage => exact ⟨rfl, .refl _ _ _⟩
  | noSwap _ _ _ _ _ closed => exact ⟨rfl, closed ▸ opens⟩
  | badArgs _ _ _ _ _ _ opened => exact ⟨rfl, opened ▸ opens⟩
  | commit _ _ _ _ _ _ _ _ _ _ _ _ opened => exact ⟨rfl, opened ▸ opens⟩

theorem Machine.Turns.idle {m' : Machine} (turns : m.Turns e m')
    (quiet : ∀ slot env op, e ≠ .page slot env op)
    (kept : ∀ slot env path argv, e ≠ .exec slot env path argv) :
    m'.fs = m.fs ∧ m'.proc.pid = m.proc.pid ∧
      (m'.proc.paging.swapfile = m.proc.paging.swapfile ∨ m'.proc.paging.swapfile = none) := by
  cases turns with
  | store _ _ _ _ same fs => exact ⟨fs, by rw [same], Or.inl (by rw [same])⟩
  | page slot env op => exact absurd rfl (quiet slot env op)
  | kill => exact ⟨rfl, rfl, Or.inl rfl⟩
  | exec slot env path argv => exact absurd rfl (kept slot env path argv)
  | sbrk _ _ _ same pid _ fs => exact ⟨fs, pid, Or.inl (by rw [same])⟩
  | exit => exact ⟨rfl, rfl, Or.inr rfl⟩

theorem Sys.Files.born (fs : t.fs = s.fs) (closed : p.paging.swapfile = none)
    (procs : t.procs = update s.procs i (some p)) : s.Files t e := by
  refine .quiet fs fun j q live isOpen => ?_
  by_cases same : j = i
  · subst same
    obtain rfl := live.of_self procs
    exact absurd closed isOpen
  · exact ⟨q, live.of_update same procs, rfl, rfl⟩

theorem Sys.step_files (accounts : s.Accounts 0) (allowed : s.OpensApart e)
    (stepped : s.step e = some t) : s.Files t e := by
  cases Sys.moves accounts stepped with
  | turned i m m' mine entered turns ran left =>
    subst left
    obtain ⟨live, fs⟩ := accounts.live entered
    cases e with
    | page slot env op =>
      obtain rfl := Option.some.inj mine
      obtain ⟨r, done⟩ := ran env op rfl
      have free := allowed m.proc live
      have opens := (PagingOp.run_swaps done).addsOwn fun closed => Or.inl (free closed).1
      rw [fs] at opens
      refine .turn slot m.proc m'.proc rfl live ?_ ?_ opens rfl
      · exact congrArg ProcContext.pid (PagingOp.run_does done).context
      · by_cases closed : m.proc.paging.swapfile = none
        · exact Or.inr (free closed).2
        · exact Or.inl closed
    | exec slot env path argv =>
      obtain rfl := Option.some.inj mine
      obtain ⟨filealloc, free⟩ := allowed m.proc live
      cases turns with
      | exec _ _ _ _ r _ ends =>
        obtain ⟨pid, opens⟩ := ends.opens (Or.inl filealloc)
        rw [fs] at opens
        exact .turn slot m.proc m'.proc rfl live pid (Or.inr free) opens rfl
    | _ =>
      -- What a process does without touching the files leaves at most its swap file closed.
      obtain ⟨files, pid, swap⟩ := turns.idle (by simp) (by simp)
      refine .quiet (files.trans fs) fun j q live' isOpen => ?_
      by_cases same : j = i
      · subst same
        obtain rfl := live'.of_self rfl
        rcases swap with kept | closed
        · exact ⟨m.proc, live, pid.symm, kept.symm⟩
        · exact absurd closed isOpen
      · exact ⟨q, live'.of_update same rfl, rfl, rfl⟩
  | born i p _ _ fresh fs procs => exact .born fs (by rw [fresh]; rfl) procs
  | forked slot i m p _ _ _ copied fs procs =>
    obtain ⟨pages, seq, rest⟩ := forkPaging_rest m.proc.paging
    exact .born fs (by rw [copied, rest]; rfl) procs
  | reaped i _ fs procs =>
    refine .quiet fs fun j q live _ => ⟨q, ⟨live.1, ?_, live.2.2⟩, rfl, rfl⟩
    have here := live.2.1
    rw [procs] at here
    have other : j ≠ i := by
      rintro rfl
      simp at here
    simpa [other] using here
  | still _ fs procs =>
    exact .quiet fs fun j q live _ => ⟨q, ⟨live.1, procs ▸ live.2.1, live.2.2⟩, rfl, rfl⟩

end Steps

structure Sys.SwapsApart (s : Sys) : Prop where
  accounts : s.Accounts 0
  tree : s.fs.SwapNamed
  named : ∀ i p f, s.Live i p → p.paging.swapfile = some f →
    ∃ d, s.fs.dirlookup d (swapName p.pid) = some f
  apart : ∀ i j p q, i ≠ j → s.Live i p → s.Live j q → p.paging.swapfile ≠ none →
    q.paging.swapfile ≠ none → swapName p.pid ≠ swapName q.pid

section Apart

variable {s t : Sys} {e : SysEvent}

theorem Fs.SwapNamed.opens {fs fs' : Fs} {pid : Nat} {swap swap' : Option Nat}
    (tree : fs.SwapNamed) (opens : fs.Opens fs' (swapName pid) swap swap') : fs'.SwapNamed := by
  constructor
  · intro d n e found
    rcases opens.added d n e found with before | ⟨-, -, there⟩
    · exact opens.allocated e (tree.there d n e before)
    · exact there
  · -- A file that is new has no other name, since every name leads to a file that is there.
    intro d d' p q e first second
    rcases opens.added d _ e first with before | ⟨own, free, -⟩
    · rcases opens.added d' _ e second with before' | ⟨-, free, -⟩
      · exact tree.single d d' p q e before before'
      · exact absurd free (tree.there d _ e before)
    · rcases opens.added d' _ e second with before' | ⟨own', -, -⟩
      · exact absurd free (tree.there d' _ e before')
      · rw [own, own']

theorem Sys.SwapsApart.name_ne (swaps : s.SwapsApart) (other : j ≠ i) (live : s.Live i p)
    (live' : s.Live j q) (isOpen : q.paging.swapfile ≠ none)
    (free : p.paging.swapfile ≠ none ∨ s.NameFree i p) : swapName p.pid ≠ swapName q.pid := by
  rcases free with mine | free
  · exact swaps.apart i j p q other.symm live live' mine isOpen
  · exact fun same => free j q other live' isOpen (swapName_eq_iff.mp same).symm

theorem Sys.SwapsApart.step (swaps : s.SwapsApart) (allowed : s.OpensApart e)
    (stepped : s.step e = some t) : t.SwapsApart := by
  have accounts := swaps.accounts.step stepped
  cases Sys.step_files swaps.accounts allowed stepped with
  | turn i p p' runner live pid free opens procs =>
    refine ⟨accounts, swaps.tree.opens opens, ?_, ?_⟩
    · intro j q f live' isOpen
      by_cases same : j = i
      · subst same
        obtain rfl := live'.of_self procs
        rw [pid]
        rcases opens.opened f isOpen with before | found
        · obtain ⟨d, found⟩ := swaps.named j p f live before
          exact ⟨d, opens.names d _ f found⟩
        · exact found
      · obtain ⟨d, found⟩ := swaps.named j q f (live'.of_update same procs) isOpen
        exact ⟨d, opens.names d _ f found⟩
    · -- The process that moved uses a name that no other live process uses.
      intro j k q r differ live₁ live₂ open₁ open₂
      by_cases first : j = i
      · subst first
        obtain rfl := live₁.of_self procs
        rw [pid]
        exact swaps.name_ne differ.symm live (live₂.of_update differ.symm procs) open₂ free
      by_cases second : k = i
      · subst second
        obtain rfl := live₂.of_self procs
        rw [pid]
        exact (swaps.name_ne differ live (live₁.of_update differ procs) open₁ free).symm
      exact swaps.apart j k q r differ (live₁.of_update first procs) (live₂.of_update second procs)
        open₁ open₂
  | quiet fs before =>
    refine ⟨accounts, fs ▸ swaps.tree, fun j q f live isOpen => ?_,
      fun j k q r differ live₁ live₂ open₁ open₂ => ?_⟩
    · obtain ⟨q', live', same, isOpen'⟩ := before j q live (by simp [isOpen])
      rw [fs, ← same]
      exact swaps.named j q' f live' (isOpen'.trans isOpen)
    · obtain ⟨q', live₁', same₁, open₁'⟩ := before j q live₁ open₁
      obtain ⟨r', live₂', same₂, open₂'⟩ := before k r live₂ open₂
      rw [← same₁, ← same₂]
      exact swaps.apart j k q' r' differ live₁' live₂' (open₁' ▸ open₁) (open₂' ▸ open₂)

theorem Sys.SwapsApart.spares {g : Nat} (swaps : s.SwapsApart) (allowed : s.OpensApart e)
    (stepped : s.step e = some t) (other : e.runner ≠ some j) (live : s.Live j q)
    (isOpen : q.paging.swapfile = some g) : t.fs.inodes g = s.fs.inodes g := by
  cases Sys.step_files swaps.accounts allowed stepped with
  | turn i p p' runner live' pid free opens procs =>
    have differ : j ≠ i := fun same => other (by rw [runner, same])
    have names := swaps.name_ne differ live' live (by simp [isOpen]) free
    obtain ⟨d, found⟩ := swaps.named j q g live isOpen
    -- The file has the name of its own process and no other.
    have unnamed : ∀ d', s.fs.dirlookup d' (swapName p.pid) ≠ some g :=
      fun d' found' => names (swaps.tree.single d' d p.pid q.pid g found' found)
    refine opens.spares g ⟨swaps.tree.there d _ g found, unnamed, fun same => ?_⟩
    obtain ⟨d', found'⟩ := swaps.named i p g live' same
    exact unnamed d' found'
  | quiet fs => rw [fs]

theorem Sys.Boot.swapsApart (boot : s.Boot) (tree : s.fs.SwapNamed) : s.SwapsApart := by
  have empty : ∀ i p, ¬ s.Live i p := by
    rintro i p ⟨-, here, -⟩
    simp [boot.procs i] at here
  exact ⟨boot.accounts, tree, fun i p f live => absurd live (empty i p),
    fun i j p q _ live => absurd live (empty i p)⟩

end Apart

/-- Live processes never share a swap file, and never write to each other's. -/
theorem swap_files_isolated {s₀ s : Sys} {es : List SysEvent} (boot : s₀.Boot)
    (tree : s₀.fs.SwapNamed)
    (run : Trace.Run (Trace.Guarded Sys.OpensApart Sys.Steps) s₀ es s) :
    (∀ i j p q f g, s.Live i p → s.Live j q → p.pid ≠ q.pid → p.paging.swapfile = some f →
      q.paging.swapfile = some g → f ≠ g) ∧
    ∀ e t j q g, s.OpensApart e → s.step e = some t → e.runner ≠ some j → s.Live j q →
      q.paging.swapfile = some g → t.fs.inodes g = s.fs.inodes g := by
  have swaps : s.SwapsApart := run.invariant Sys.SwapsApart
    (fun _ _ _ swaps guarded => swaps.step guarded.1 guarded.2) (boot.swapsApart tree)
  refine ⟨?_, fun e t j q g allowed stepped other live isOpen =>
    swaps.spares allowed stepped other live isOpen⟩
  intro i j p q f g live live' pids isOpen isOpen' same
  subst same
  have differ : i ≠ j := by
    rintro rfl
    exact pids (congrArg Proc.pid (Option.some.inj (live.2.1.symm.trans live'.2.1)))
  obtain ⟨d, found⟩ := swaps.named i p f live isOpen
  obtain ⟨d', found'⟩ := swaps.named j q f live' isOpen'
  exact swaps.apart i j p q differ live live' (by simp [isOpen]) (by simp [isOpen'])
    (swaps.tree.single d d' p.pid q.pid f found found')

/-- No other process has a number with the same last digits. -/
def Sys.nameFree (s : Sys) (slot : Nat) : Bool :=
  (List.range nproc).all fun j => j == slot || match s.procs j, s.procs slot with
    | some q, some p => q.pid % 100000 != p.pid % 100000
    | _, _ => true

def Sys.opensApart (s : Sys) : SysEvent → Bool
  | .page slot env _ | .exec slot env _ _ => env.filealloc && s.nameFree slot
  | _ => true

def Sys.stepApart (s : Sys) (e : SysEvent) : Option Sys :=
  if s.opensApart e then s.step e else none

theorem Sys.guarded_of_stepApart (s : Sys) (e : SysEvent) (t : Sys)
    (stepped : s.stepApart e = some t) : Trace.Guarded Sys.OpensApart Sys.Steps s e t := by
  unfold Sys.stepApart at stepped
  split at stepped
  · rename_i checked
    refine ⟨?_, stepped⟩
    have free : ∀ {slot : Nat} {env : FsEnv} {p : Proc},
        (env.filealloc && s.nameFree slot) = true → s.Live slot p →
        env.filealloc = true ∧ s.NameFree slot p := by
      intro slot env p checked live
      obtain ⟨filealloc, all⟩ := Bool.and_eq_true_iff.mp checked
      refine ⟨filealloc, fun j q other live' _ => ?_⟩
      have here := List.all_eq_true.mp all j (List.mem_range.mpr live'.1)
      simpa [other, live.2.1, live'.2.1] using here
    cases e with
    | page slot env op => exact fun p live _ => free checked live
    | exec slot env path argv => exact fun p live => free checked live
    | _ => exact trivial
  · simp at stepped

def wideSys : Sys :=
  { initSys with kmem := { initSys.kmem with
    freelist := (List.range 32).map fun i => 0x80100000 + i * pgsize } }

theorem wideSys_boot : wideSys.Boot := ⟨by decide, by decide, fun _ => rfl⟩

theorem wideSys_named : wideSys.fs.SwapNamed := by
  have only : ∀ d n e, wideSys.fs.dirlookup d n = some e → n = [105, 110, 105, 116] ∧ e = 2 := by
    intro d n e found
    simp only [wideSys, initSys, initFs, Option.ite_none_right_eq_some, Option.some.injEq] at found
    exact ⟨found.1.2, found.2.symm⟩
  constructor
  · intro d n e found
    rw [(only d n e found).2]
    simp [wideSys, initSys, initFs, elfFile, rootino]
  · intro d d' p q e found
    exact absurd (only d _ e found).1 (by simp [swapName])

def startInit : List SysEvent := [.userinit 0, .exec 0 someRoom initPath [initPath]]

/-- The process in a slot is alive, with the given number and swap file. -/
def Sys.swaps (s : Sys) (i pid f : Nat) : Bool :=
  (s.procs i).any fun p => p.state ≠ .zombie ∧ p.pid = pid ∧ p.paging.swapfile = some f

theorem Sys.live_of_swaps {s : Sys} {pid f : Nat} (low : i < nproc) (checked : s.swaps i pid f) :
    ∃ p, s.Live i p ∧ p.pid = pid ∧ p.paging.swapfile = some f := by
  obtain ⟨p, here, facts⟩ := (Option.any_eq_true _ _).mp checked
  obtain ⟨running, facts⟩ := of_decide_eq_true facts
  exact ⟨p, ⟨low, here, running⟩, facts⟩

def startTwo : List SysEvent :=
  startInit ++ [.fork 0 1, .exec 1 ⟨some 4, true, true, false, pgsize⟩ initPath [initPath]]

/-- Two processes that start one after the other have swap files of their own. -/
theorem swap_files_isolated_two : wideSys.Boot ∧ wideSys.fs.SwapNamed ∧ ∃ s p q,
    Trace.Run (Trace.Guarded Sys.OpensApart Sys.Steps) wideSys startTwo s ∧
    s.Live 0 p ∧ s.Live 1 q ∧ p.pid = 1 ∧ q.pid = 2 ∧ p.paging.swapfile = some 3 ∧
    q.paging.swapfile = some 4 ∧ (3 : Nat) ≠ 4 := by
  refine ⟨wideSys_boot, wideSys_named, ?_⟩
  have ran : (Trace.steps Sys.stepApart wideSys startTwo).any
      fun s => s.swaps 0 1 3 && s.swaps 1 2 4 := by
    decide +kernel
  obtain ⟨s, computed, both⟩ := (Option.any_eq_true _ _).mp ran
  obtain ⟨first, second⟩ := Bool.and_eq_true_iff.mp both
  obtain ⟨p, live, pid, isOpen⟩ := Sys.live_of_swaps (by decide) first
  obtain ⟨q, live', pid', isOpen'⟩ := Sys.live_of_swaps (by decide) second
  have run := Trace.Run.of_steps Sys.guarded_of_stepApart computed
  exact ⟨s, p, q, run, live, live', pid, pid', isOpen, isOpen',
    (swap_files_isolated wideSys_boot wideSys_named run).1 0 1 p q 3 4 live live'
      (by rw [pid, pid']; decide) isOpen isOpen'⟩

theorem Sys.step_fork_full {s : Sys} (full : s.kmem.freelist = []) (live : s.Live i p)
    (unused : s.Unused c) : s.step (.fork i c) = some { s with nextpid := s.nextpid + 1 } := by
  have entered : s.enter i = some ⟨s.kmem, s.fs, p⟩ := by
    simp [Sys.enter, live.2.1, live.2.2]
  have none : kfork s.nextpid ⟨s.kmem, s.fs, p⟩ = .ok (none, ⟨s.kmem, s.fs, p⟩) := by
    simp only [kfork, allocproc, withKmem, focus, kalloc_nil full, bind, StateT.bind, Except.bind,
      get, getThe, MonadStateOf.get, pure]
    rfl
  have left : s.leave i ⟨s.kmem, s.fs, p⟩ = s := by
    have same : update s.procs i (some p) = s.procs := by
      rw [← live.2.1, update_eq_self]
    simp only [Sys.leave, same]
  simp only [Sys.step, unused, if_true, Sys.act, entered, none, left, Option.map_some, Sys.place]

theorem Sys.run_fork_full (n : Nat) : ∀ {s : Sys},
    s.kmem.freelist = [] → s.Live i p → s.Unused c →
    Trace.Run Sys.Steps s (List.replicate n (.fork i c)) { s with nextpid := s.nextpid + n } := by
  induction n with
  | zero => exact fun _ _ _ => .nil _
  | succ n ih =>
    intro s full live unused
    have next : Sys.Live { s with nextpid := s.nextpid + 1 } i p := live
    have rest := ih (s := { s with nextpid := s.nextpid + 1 }) full next unused
    rw [show s.nextpid + (n + 1) = s.nextpid + 1 + n by omega]
    exact .cons (Sys.step_fork_full full live unused) rest

def crowd : List SysEvent := startInit ++ List.replicate 24 .kalloc

def clear : List SysEvent :=
  (List.range 18).map (fun i => .kfree (0x8010E000 + i * pgsize)) ++
    [.fork 0 1, .exec 1 someRoom initPath [initPath]]

def crowded : Sys := (Trace.steps Sys.step wideSys crowd).getD wideSys

/-- After a hundred thousand forks a child shares the swap file of the first process. -/
theorem swap_file_shared : wideSys.Boot ∧ wideSys.fs.SwapNamed ∧ ∃ s p q,
    Trace.Run Sys.Steps wideSys (crowd ++ List.replicate 99999 (.fork 0 1) ++ clear) s ∧
    s.Live 0 p ∧ s.Live 1 q ∧ p.pid = 1 ∧ q.pid = 100001 ∧
    p.paging.swapfile = some 3 ∧ q.paging.swapfile = some 3 := by
  refine ⟨wideSys_boot, wideSys_named, ?_⟩
  have reached : Trace.steps Sys.step wideSys crowd = some crowded := by
    obtain ⟨s, computed⟩ := Option.isSome_iff_exists.mp
      (by decide +kernel : (Trace.steps Sys.step wideSys crowd).isSome)
    rw [crowded, computed]
    rfl
  obtain ⟨p, live, -⟩ := Sys.live_of_swaps (by decide)
    (by decide +kernel : crowded.swaps 0 1 3)
  -- Every fork fails while memory is full, and uses up one process number.
  have forks := Sys.run_fork_full (i := 0) (c := 1) (p := p) 99999 (s := crowded)
    (by decide +kernel) live (by decide +kernel)
  have number : crowded.nextpid = 2 := by decide +kernel
  rw [number] at forks
  have last : (Trace.steps Sys.step { crowded with nextpid := 2 + 99999 } clear).any
      fun s => s.swaps 0 1 3 && s.swaps 1 100001 3 := by
    decide +kernel
  obtain ⟨s, computed, both⟩ := (Option.any_eq_true _ _).mp last
  obtain ⟨first, second⟩ := Bool.and_eq_true_iff.mp both
  obtain ⟨p', live, pid, isOpen⟩ := Sys.live_of_swaps (by decide) first
  obtain ⟨q, live', pid', isOpen'⟩ := Sys.live_of_swaps (by decide) second
  have step_sound : ∀ s e t, Sys.step s e = some t → Sys.Steps s e t := fun _ _ _ stepped => stepped
  exact ⟨s, p', q, ((Trace.Run.of_steps step_sound reached).append forks).append
    (Trace.Run.of_steps step_sound computed), live, live', pid, pid', isOpen, isOpen'⟩

end Xv6
