import Xv6.Eviction
import Xv6.SwapIsolation

/-! How much the swap file of a process really holds. -/

namespace Xv6

open Prog
open Function (update)

variable {e : SysEvent} {env : FsEnv} {fs fs' : Fs} {i : Nat} {m m' : Machine} {p : Proc} {r : Int}

/-- What a paging operation does to the slots: it takes one, with a page in it, and frees one. -/
inductive Machine.Slotted (m : Machine) : Machine → Prop where
  | keeps (m' : Machine) (bitmap : m'.proc.paging.swapBitmap = m.proc.paging.swapBitmap)
      (used : m'.proc.paging.swapUsed = m.proc.paging.swapUsed) : Slotted m m'
  | takes (m' : Machine) (slot f : Nat)
      (chosen : firstClear m.proc.paging.swapBitmap maxSwapPages 0 = some slot)
      (bitmap : m'.proc.paging.swapBitmap = update m.proc.paging.swapBitmap slot true)
      (used : m'.proc.paging.swapUsed = m.proc.paging.swapUsed + 1)
      (isOpen : m'.proc.paging.swapfile = some f)
      (inside : slot * pgsize + pgsize ≤ (m'.fs.inodes f).size) : Slotted m m'
  | frees (m₁ m' : Machine) (slot : Int) (before : Slotted m m₁)
      (bitmap : m'.proc.paging.swapBitmap = (freeSwapSlot m₁.proc.paging slot).swapBitmap)
      (used : m'.proc.paging.swapUsed = (freeSwapSlot m₁.proc.paging slot).swapUsed)
      (isOpen : m'.proc.paging.swapfile = m₁.proc.paging.swapfile) (files : m'.fs = m₁.fs) :
      Slotted m m'

theorem Machine.Evicts.slotted (evicts : m.Evicts i m') : m.Slotted m' := by
  cases evicts with
  | discard | forget => exact .keeps _ rfl rfl
  | save pte slot f fs _ _ _ _ chosen _ stored =>
    exact .takes _ slot f chosen rfl rfl rfl stored.1

theorem Machine.Obtains.slotted {frame : Option Nat} (obtains : m.Obtains frame m') :
    m.Slotted m' := by
  cases obtains with
  | free => exact .keeps _ rfl rfl
  | starved _ _ idle =>
    rw [idle.same]
    exact .keeps _ rfl rfl
  | evicted _ m₁ _ _ _ _ evicts => exact .frees m₁ _ (-1) evicts.slotted rfl rfl rfl rfl
  | wasted _ _ _ _ evicts => exact evicts.slotted

def Source.FreesSlot (src : Source) (slot : Int) : Prop := ∀ pg,
  (src.prepare pg).swapBitmap = (freeSwapSlot pg slot).swapBitmap ∧
  (src.prepare pg).swapUsed = (freeSwapSlot pg slot).swapUsed ∧
  (src.prepare pg).swapfile = pg.swapfile

theorem swapSource_freesSlot (i : Nat) (slot : Int) : (swapSource i slot).FreesSlot slot :=
  fun pg => ⟨rfl, rfl, freeSwapSlot_swapfile pg slot⟩

/-- Only a page in swap has a slot to give back. -/
theorem Machine.Serves.freesSlot {va cause : Nat} {src : Source} (serves : m.Serves va cause src) :
    ∃ slot, src.FreesSlot slot := by
  cases serves with
  | swap i => exact ⟨_, swapSource_freesSlot i _⟩
  | text | data | heap => exact ⟨-1, fun pg => ⟨rfl, rfl, rfl⟩⟩

theorem Machine.Brings.slotted {va : Nat} {src : Source} {slot : Int}
    (pages : m.Brings env va src r m') (frees : src.FreesSlot slot) : m.Slotted m' := by
  cases pages with
  | starved _ gets => exact gets.obtains.slotted
  | unread m₁ mem gets => exact .frees m₁ _ (-1) gets.obtains.slotted rfl rfl rfl rfl
  | refused m₁ mem bytes t gets =>
    obtain ⟨bitmap, used, isOpen⟩ := frees m₁.proc.paging
    exact .frees m₁ _ slot gets.obtains.slotted bitmap used isOpen rfl
  | mapped m₁ mem bytes t gets =>
    obtain ⟨bitmap, used, isOpen⟩ := frees m₁.proc.paging
    obtain ⟨bitmap', used'⟩ := (src.prepare m₁.proc.paging).settle_slots va src.mark
    refine .frees m₁ _ slot gets.obtains.slotted (bitmap'.trans bitmap) (used'.trans used) ?_ rfl
    refine Eq.trans ?_ isOpen
    unfold PagingInfo.settle
    cases getPageInfo va <;> rfl

theorem Machine.Does.slotted {op : PagingOp} (does : m.Does op r m') : m.Slotted m' := by
  cases does with
  | fault va cause r m' handles =>
    cases handles with
    | paged src r m' serves pages =>
      obtain ⟨slot, frees⟩ := serves.freesSlot
      exact pages.slotted frees
    | _ => exact .keeps _ rfl rfl
  | refused va => exact .keeps _ rfl rfl
  | swapin va i r m' page swapped held pages => exact pages.slotted (swapSource_freesSlot i _)
  | idle op m' idle =>
    rw [idle.same]
    exact .keeps _ rfl rfl
  | swapout va m' tracked evicts => exact evicts.slotted
  | evict i m' chosen evicts => exact evicts.slotted

theorem Machine.Slotted.counted (slotted : m.Slotted m') (counted : m.proc.paging.Counted) :
    m'.proc.paging.Counted := by
  induction slotted with
  | keeps m' bitmap used =>
    unfold PagingInfo.Counted at counted ⊢
    rw [bitmap, used, counted]
  | takes m' slot f chosen bitmap used =>
    obtain ⟨-, inside, clear⟩ := firstClear_spec chosen
    exact counted.take (by omega) clear bitmap used
  | frees m₁ m' slot before bitmap used _ _ ih =>
    have freed := ih.free slot
    unfold PagingInfo.Counted at freed ⊢
    rw [bitmap, used, freed]

/-- A slot that is marked was marked before, or lies inside the file that is open now. -/
theorem Machine.Slotted.marks (slotted : m.Slotted m') {s : Nat}
    (marked : m'.proc.paging.swapBitmap s = true) : m.proc.paging.swapBitmap s = true ∨
      ∃ f, m'.proc.paging.swapfile = some f ∧ s * pgsize + pgsize ≤ (m'.fs.inodes f).size := by
  induction slotted with
  | keeps m' bitmap => exact Or.inl (bitmap ▸ marked)
  | takes m' slot f _ bitmap _ isOpen inside =>
    rw [bitmap] at marked
    by_cases same : s = slot
    · exact Or.inr ⟨f, isOpen, same ▸ inside⟩
    · exact Or.inl (by simpa [same] using marked)
  | frees m₁ m' slot before bitmap _ isOpen files ih =>
    rw [isOpen, files]
    refine ih ?_
    -- Freeing a slot marks none.
    rw [bitmap, freeSwapSlot] at marked
    split at marked
    · exact marked
    split at marked
    · by_cases same : s = slot.toNat
      · simp [same] at marked
      · simpa [same] using marked
    · exact marked

structure Proc.Backed (p : Proc) (fs : Fs) : Prop where
  isOpen : ∀ f, p.paging.swapfile = some f →
    fs.dirlookup p.cwd (swapName p.pid) = some f ∧ (fs.inodes f).type ≠ none
  slots : ∀ s, p.paging.swapBitmap s = true → ∃ f,
    fs.dirlookup p.cwd (swapName p.pid) = some f ∧ (fs.inodes f).type ≠ none ∧
    s * pgsize + pgsize ≤ (fs.inodes f).size

theorem Proc.Backed.of_fresh (swapfile : p.paging.swapfile = none)
    (bitmap : p.paging.swapBitmap = fun _ => false) (fs : Fs) : p.Backed fs :=
  ⟨by simp [swapfile], by simp [bitmap]⟩

section Files

variable {name : List UInt8} {swap swap' : Option Nat}

theorem Proc.Backed.opens (backed : p.Backed fs) (opens : fs.Opens fs' name swap swap') :
    p.Backed fs' := by
  refine ⟨fun f isOpen => ?_, fun s marked => ?_⟩
  · obtain ⟨named, there⟩ := backed.isOpen f isOpen
    exact ⟨opens.names _ _ f named, opens.allocated f there⟩
  · obtain ⟨f, named, there, inside⟩ := backed.slots s marked
    exact ⟨f, opens.names _ _ f named, opens.allocated f there,
      inside.trans (opens.sizes f there)⟩

/-- The process has its swap file open under its name, and slots as it had or inside that file. -/
theorem Proc.Backed.turn {q : Proc} (backed : p.Backed fs)
    (opens : fs.Opens fs' name swap swap') (pid : q.pid = p.pid) (cwd : q.cwd = p.cwd)
    (isOpen : ∀ f, q.paging.swapfile = some f →
      fs'.dirlookup p.cwd (swapName p.pid) = some f ∧ (fs'.inodes f).type ≠ none)
    (marks : ∀ s, q.paging.swapBitmap s = true → p.paging.swapBitmap s = true ∨
      ∃ f, q.paging.swapfile = some f ∧ s * pgsize + pgsize ≤ (fs'.inodes f).size) :
    q.Backed fs' := by
  refine ⟨fun f => by rw [pid, cwd]; exact isOpen f, fun s marked => ?_⟩
  rw [pid, cwd]
  rcases marks s marked with before | ⟨f, swapfile, inside⟩
  · exact (backed.opens opens).slots s before
  · obtain ⟨named, there⟩ := isOpen f swapfile
    exact ⟨f, named, there, inside⟩

theorem Fs.entry_found {dp ip : Nat} (found : fs.entry env dp name = some (ip, fs')) :
    fs'.dirlookup dp name = some ip ∧ (fs'.inodes ip).type ≠ none := by
  rcases Fs.entry_cases found with ⟨named, there, rfl⟩ | ⟨-, -, rfl⟩
  · exact ⟨named, there⟩
  · exact ⟨by simp [Fs.made], by simp [Fs.made]⟩

theorem Machine.swapTarget_named {f : Nat} (backed : m.proc.Backed m.fs)
    (target : m.swapTarget env = some (f, fs)) :
    fs.dirlookup m.proc.cwd (swapName m.proc.pid) = some f ∧ (fs.inodes f).type ≠ none := by
  cases swap : m.proc.paging.swapfile with
  | some g =>
    rw [Machine.swapTarget, swap] at target
    obtain ⟨rfl, rfl⟩ := Prod.mk.inj (Option.some.inj target)
    exact backed.isOpen g swap
  | none =>
    simp only [Machine.swapTarget, swap] at target
    split at target
    · exact Fs.entry_found target
    · simp at target

theorem Machine.Swaps.named (swaps : m.Swaps env fs swap') (backed : m.proc.Backed m.fs) (f : Nat)
    (isOpen : swap' = some f) :
    fs.dirlookup m.proc.cwd (swapName m.proc.pid) = some f ∧ (fs.inodes f).type ≠ none := by
  cases swaps with
  | still => exact backed.isOpen f isOpen
  | unopened => simp at isOpen
  | opened g _ target =>
    obtain rfl := Option.some.inj isOpen
    exact m.swapTarget_named backed target
  | written g fs₁ target page off n =>
    obtain rfl := Option.some.inj isOpen
    obtain ⟨names, types, -⟩ := writei_tree fs₁ g page off n env.room
    rw [names, types]
    exact m.swapTarget_named backed target

theorem openSwap_named {cwd pid f : Nat} (opened : (openSwap fs env cwd pid).1 = some f) :
    (openSwap fs env cwd pid).2.dirlookup cwd (swapName pid) = some f ∧
      ((openSwap fs env cwd pid).2.inodes f).type ≠ none := by
  rw [openSwap_eq] at opened ⊢
  cases found : fs.entry env cwd (swapName pid) with
  | none => simp [found] at opened
  | some result =>
    cases entry : env.filealloc with
    | false => simp [found, entry] at opened
    | true =>
      obtain rfl : result.1 = f := by simpa [found, entry] using opened
      simpa using Fs.entry_found found

end Files

theorem Machine.Execs.backed {path : List UInt8} {argv : List (List UInt8)}
    (ends : m.Execs env path argv r m') (keeps : env.KeepsFile) (backed : m.proc.Backed m.fs) :
    m'.proc.Backed m'.fs := by
  have opens := (openSwap_opens keeps m.fs m.proc.cwd m.proc.pid)
  cases ends with
  | noFile | badFile | badImage => exact ⟨backed.isOpen, backed.slots⟩
  | noSwap =>
    refine backed.turn opens rfl rfl (fun g isOpen => ?_) fun s marked => Or.inl marked
    simp [Machine.exec, PagingInfo.restack] at isOpen
  | badArgs _ _ f _ _ _ opened =>
    refine backed.turn opens rfl rfl (fun g isOpen => ?_) fun s marked => Or.inl marked
    obtain rfl := Option.some.inj isOpen
    exact openSwap_named opened
  | commit _ _ f _ _ _ _ _ _ _ _ _ opened =>
    refine backed.turn opens rfl rfl (fun g isOpen => ?_) fun s marked => Or.inl marked
    obtain rfl := Option.some.inj isOpen
    exact openSwap_named opened

def SysEvent.KeepsFile : SysEvent → Prop
  | .page _ env _ | .exec _ env _ _ => env.KeepsFile
  | _ => True

theorem Machine.Turns.backed (turns : m.Turns e m') (keeps : e.KeepsFile)
    (ran : ∀ slot env op, e = .page slot env op → ∃ r, op.run env m = .ok (r, m'))
    (backed : m.proc.Backed m.fs) : (∃ name swap swap', m.fs.Opens m'.fs name swap swap') ∧
      (m'.proc.state ≠ .zombie → m'.proc.Backed m'.fs) := by
  have same : ∃ name swap swap', m.fs.Opens m.fs name swap swap' := ⟨[], none, none, .refl _ _ _⟩
  cases turns with
  | store _ _ _ _ proc files => exact ⟨files ▸ same, fun _ => by rw [proc, files]; exact backed⟩
  | page slot env op r _ does =>
    obtain ⟨r, done⟩ := ran slot env op rfl
    have swaps := PagingOp.run_swaps done
    have opens := swaps.addsOwn fun _ => keeps
    refine ⟨⟨_, _, _, opens⟩, fun _ => backed.turn opens (congrArg ProcContext.pid does.context)
      (congrArg ProcContext.cwd does.context) (swaps.named backed) fun s marked => ?_⟩
    exact does.slotted.marks marked
  | kill => exact ⟨same, fun _ => ⟨backed.isOpen, backed.slots⟩⟩
  | exec slot env path argv r _ ends =>
    exact ⟨⟨_, _, _, (ends.opens keeps).2⟩, fun _ => ends.backed keeps backed⟩
  | sbrk slot n _ paging pid cwd files =>
    refine ⟨files ▸ same, fun _ => ⟨?_, ?_⟩⟩ <;> rw [paging, pid, cwd, files]
    · exact backed.isOpen
    · exact backed.slots
  | exit => exact ⟨same, fun running => absurd rfl running⟩

section Runs

variable {s t : Sys} {es : List SysEvent}

structure Sys.Backed (s : Sys) : Prop where
  accounts : s.Accounts 0
  counted : s.Pagings PagingInfo.Counted
  procs : ∀ i p, s.procs i = some p → p.state ≠ .zombie → p.Backed s.fs

theorem Machine.Turns.counted (turns : m.Turns e m') (counted : m.proc.paging.Counted) :
    m'.proc.paging.Counted := by
  cases turns with
  | store slot va value _ same => exact same ▸ counted
  | page slot env op r _ does => exact does.slotted.counted counted
  | kill => exact counted
  | exec slot env path argv r _ ends =>
    obtain ⟨-, bitmap, used⟩ := ends.slots
    unfold PagingInfo.Counted at counted ⊢
    rw [bitmap, used, counted]
  | sbrk slot n _ same => exact same ▸ counted
  | exit => exact counted

theorem Sys.Backed.step (backed : s.Backed) (keeps : e.KeepsFile) (stepped : s.step e = some t) :
    t.Backed := by
  refine ⟨backed.accounts.step stepped, ?_, fun j q here running => ?_⟩
  · exact backed.counted.step backed.accounts stepped initPagingInfo_slotsExact.used
      (fun pg _ => (forkPaging_slotsExact pg).used) fun i m m' _ _ turns => turns.counted
  -- A new process has nothing in swap.
  have fresh : ∀ i p, t.fs = s.fs → t.procs = update s.procs i (some p) →
      p.paging.swapfile = none → (p.paging.swapBitmap = fun _ => false) → q.Backed t.fs := by
    intro i p files procs swapfile bitmap
    rw [procs] at here
    rcases eq_or_ne j i with rfl | other
    · obtain rfl : p = q := by simpa using here
      exact .of_fresh swapfile bitmap _
    · rw [files]
      exact backed.procs j q (by simpa [other] using here) running
  cases Sys.moves backed.accounts stepped with
  | turned i m m' mine entered turns ran left =>
    subst left
    obtain ⟨live, files⟩ := backed.accounts.live entered
    have ran' : ∀ slot env op, e = .page slot env op → ∃ r, op.run env m = .ok (r, m') := by
      rintro slot env op rfl
      obtain rfl := Option.some.inj mine
      exact ran env op rfl
    obtain ⟨⟨name, swap, swap', opens⟩, kept⟩ := turns.backed keeps ran'
      (files ▸ backed.procs i _ live.2.1 live.2.2)
    rcases eq_or_ne j i with rfl | other
    · obtain rfl : m'.proc = q := by simpa [Sys.leave] using here
      exact kept running
    · rw [files] at opens
      exact (backed.procs j q (by simpa [Sys.leave, other] using here) running).opens opens
  | born i p _ _ paging files procs => exact fresh i p files procs (by rw [paging]; rfl) (by rw [paging]; rfl)
  | forked slot i m p _ _ _ copied files procs =>
    obtain ⟨pages, seq, rest⟩ := forkPaging_rest m.proc.paging
    exact fresh i p files procs (by rw [copied, rest]; rfl) (by rw [copied, rest]; rfl)
  | reaped i _ files procs =>
    rw [procs] at here
    have other : j ≠ i := by
      rintro rfl
      simp at here
    exact files ▸ backed.procs j q (by simpa [other] using here) running
  | still _ files procs => exact files ▸ backed.procs j q (procs ▸ here) running

end Runs

theorem firstClear_before {bitmap : Nat → Bool} {n i j : Nat} {found : Option Nat}
    (first : firstClear bitmap n i = found) (low : i ≤ j) (high : j < found.getD (i + n)) :
    bitmap j = true := by
  induction n generalizing i with
  | zero =>
    subst first
    simp only [firstClear, Option.getD_none] at high
    omega
  | succ n ih =>
    unfold firstClear at first
    split at first
    · subst first
      simp only [Option.getD_some] at high
      omega
    · rename_i set
      rcases eq_or_ne i j with rfl | other
      · simpa using set
      · refine ih first (by omega) ?_
        rwa [show i + 1 + n = i + (n + 1) by omega]

theorem PagingInfo.Counted.clear {pg : PagingInfo} (counted : pg.Counted)
    (room : pg.swapUsed < maxSwapPages) :
    ∃ slot, firstClear pg.swapBitmap maxSwapPages 0 = some slot := by
  cases found : firstClear pg.swapBitmap maxSwapPages 0 with
  | some slot => exact ⟨slot, rfl⟩
  | none =>
    -- With all bits set the counter would be at its limit.
    have all : setBits pg.swapBitmap = Finset.range maxSwapPages := by
      rw [setBits, Finset.filter_eq_self]
      intro slot inside
      exact firstClear_before found (Nat.zero_le _) (by simpa using inside)
    rw [counted, all, Finset.card_range] at room
    exact absurd room (lt_irrefl _)

instance (env : FsEnv) : Decidable env.KeepsFile := inferInstanceAs (Decidable (_ ∨ _))

instance (e : SysEvent) : Decidable e.KeepsFile := by
  unfold SysEvent.KeepsFile
  cases e <;> infer_instance

end Xv6
