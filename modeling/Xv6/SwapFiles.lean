import Xv6.ExecEnds

/-! What paging does to the file system: it opens swap files and writes to them. -/

namespace Xv6

open Prog

variable {env : FsEnv} {cwd f i pid : Nat} {fs : Fs} {m m' : Machine} {r : Int}

/-- The files and the open swap file after a paging operation. -/
inductive Machine.Swaps (m : Machine) (env : FsEnv) : Fs → Option Nat → Prop where
  | still : Swaps m env m.fs m.proc.paging.swapfile
  /-- No swap file is open, and none could be opened. -/
  | unopened (target : m.swapTarget env = none) : Swaps m env (m.openSwap env).2 none
  /-- The swap file is open. -/
  | opened (f : Nat) (fs : Fs) (target : m.swapTarget env = some (f, fs)) : Swaps m env fs (some f)
  /-- A page was written to the swap file, in full or in part. -/
  | written (f : Nat) (fs : Fs) (target : m.swapTarget env = some (f, fs)) (page : Nat → UInt8)
      (off n : Nat) : Swaps m env (writei fs f page off n env.room).2 (some f)

theorem Machine.Saves.swaps (saves : m.Saves env i r m') :
    m.Swaps env m'.fs m'.proc.paging.swapfile := by
  cases saves with
  | unopened target => exact .unopened target
  | full f fs target => exact .opened f fs target
  | unmapped f fs slot target => exact .opened f fs target
  | refused f fs slot pte target => exact .written f fs target _ _ _
  | saved f fs slot pte target => exact .written f fs target _ _ _

theorem Machine.Gets.swaps {frame : Option Nat} (gets : m.Gets env frame m') :
    m.Swaps env m'.fs m'.proc.paging.swapfile := by
  cases gets with
  | free | bare | forgot | dropped => exact .still
  | stuck j _ _ _ _ saves => exact saves.swaps
  | saved j f fs slot pte _ _ _ target => exact .written f fs target _ _ _

theorem freeSwapSlot_swapfile (pg : PagingInfo) (slot : Int) :
    (freeSwapSlot pg slot).swapfile = pg.swapfile := by
  unfold freeSwapSlot
  split
  · rfl
  · split <;> rfl

theorem Machine.Brings.swaps {va : Nat} {src : Source} (brings : m.Brings env va src r m')
    (prepared : ∀ pg, (src.prepare pg).swapfile = pg.swapfile) :
    m.Swaps env m'.fs m'.proc.paging.swapfile := by
  cases brings with
  | starved _ gets => exact gets.swaps
  | unread _ _ gets => exact gets.swaps
  | refused _ _ _ _ gets =>
    dsimp only
    rw [prepared]
    exact gets.swaps
  | mapped m₁ _ _ _ gets =>
    -- Recording the page leaves the swap file alone.
    have kept : ((src.prepare m₁.proc.paging).settle va src.mark).swapfile =
        m₁.proc.paging.swapfile := by
      refine Eq.trans ?_ (prepared _)
      unfold PagingInfo.settle
      cases getPageInfo va <;> rfl
    dsimp only
    rw [kept]
    exact gets.swaps

theorem Machine.Serves.prepared {va cause : Nat} {src : Source} (serves : m.Serves va cause src)
    (pg : PagingInfo) : (src.prepare pg).swapfile = pg.swapfile := by
  cases serves with
  | swap => exact freeSwapSlot_swapfile pg _
  | text | data | heap => rfl

/-- A paging operation opens the swap file and writes one page to it, at most. -/
theorem PagingOp.run_swaps {op : PagingOp} (ran : op.run env m = .ok (r, m')) :
    m.Swaps env m'.fs m'.proc.paging.swapfile := by
  have swapout : ∀ {va r m'}, swapoutPage env va m = .ok (r, m') →
      m.Swaps env m'.fs m'.proc.paging.swapfile := by
    intro va r m' ran
    refine of_ran r m' ran ?_
    refine wp_swapoutPage_saves (fun _ _ _ _ => trivial) (fun _ => .still)
      (fun m' _ clean evicts => ?_) fun _ m' _ _ _ saves => saves.swaps
    cases evicts with
    | discard | forget => exact .still
    | save _ _ _ _ _ kept => exact absurd clean kept
  cases op with
  | fault va cause =>
    refine of_ran r m' ran ?_
    refine wp_handlePageFault (fun _ _ _ _ _ _ => trivial) (fun _ _ _ _ _ _ _ => trivial)
      (fun _ _ _ _ _ _ _ _ => trivial) (fun r m' handles none => ?_)
      fun src r m' _ serves brings => brings.swaps serves.prepared
    cases handles with
    | high | textWrite | lost | outside => exact .still
    | paged src _ _ serves _ below => exact absurd serves (none below src)
  | swapin va =>
    refine of_ran r m' ran ?_
    refine wp_swapinPage (fun _ => .still) (fun _ _ _ _ _ _ _ => trivial)
      (fun _ _ _ _ _ _ _ _ => trivial) (fun _ _ _ _ _ _ _ _ _ => trivial) fun i r m' _ _ _ brings => ?_
    exact brings.swaps fun pg => freeSwapSlot_swapfile pg _
  | swapout va => exact swapout ran
  | evict =>
    cases chosen : m.victim with
    | none =>
      have failed := (evictPageFifo_none env chosen).symm.trans ran
      obtain ⟨-, rfl⟩ := Prod.mk.inj (Except.ok.inj failed)
      exact .still
    | some i => exact swapout ((evictPageFifo_eq chosen).symm.trans ran)

theorem writei_tree (fs : Fs) (f : Nat) (src : Nat → UInt8) (off n room : Nat) :
    (writei fs f src off n room).2.dirlookup = fs.dirlookup ∧
      (∀ e, ((writei fs f src off n room).2.inodes e).type = (fs.inodes e).type) ∧
      (∀ e, (fs.inodes e).size ≤ ((writei fs f src off n room).2.inodes e).size) ∧
      ∀ e, e ≠ f → (writei fs f src off n room).2.inodes e = fs.inodes e := by
  unfold writei
  dsimp only
  split
  · exact ⟨rfl, fun _ => rfl, fun _ => le_refl _, fun _ _ => rfl⟩
  split
  · exact ⟨rfl, fun _ => rfl, fun _ => le_refl _, fun _ _ => rfl⟩
  refine ⟨rfl, fun e => ?_, fun e => ?_, fun e other => by simp [other]⟩ <;>
    by_cases same : e = f <;> simp [same]

/-- A process with a swap file open keeps it, and changes no other file. -/
theorem Machine.Swaps.held {swap' : Option Nat} (swaps : m.Swaps env fs swap')
    (isOpen : m.proc.paging.swapfile = some f) : swap' = some f ∧
      fs.dirlookup = m.fs.dirlookup ∧ (∀ e, (fs.inodes e).type = (m.fs.inodes e).type) ∧
      ∀ e, e ≠ f → fs.inodes e = m.fs.inodes e := by
  have target : m.swapTarget env = some (f, m.fs) := by simp [Machine.swapTarget, isOpen]
  cases swaps with
  | still => exact ⟨isOpen, rfl, fun _ => rfl, fun _ _ => rfl⟩
  | unopened missing => simp [missing] at target
  | opened g _ target' =>
    obtain ⟨rfl, rfl⟩ := Prod.mk.inj (Option.some.inj (target.symm.trans target'))
    exact ⟨rfl, rfl, fun _ => rfl, fun _ _ => rfl⟩
  | written g _ target' page off n =>
    obtain ⟨rfl, rfl⟩ := Prod.mk.inj (Option.some.inj (target.symm.trans target'))
    obtain ⟨names, types, -, others⟩ := writei_tree m.fs f page off n env.room
    exact ⟨rfl, names, types, others⟩

/-- Files that were there stay there, and the only new name is one for a new file. -/
structure Fs.Opens (fs fs' : Fs) (name : List UInt8) (swap swap' : Option Nat) : Prop where
  allocated : ∀ e, (fs.inodes e).type ≠ none → (fs'.inodes e).type ≠ none
  sizes : ∀ e, (fs.inodes e).type ≠ none → (fs.inodes e).size ≤ (fs'.inodes e).size
  names : ∀ d n e, fs.dirlookup d n = some e → fs'.dirlookup d n = some e
  added : ∀ d n e, fs'.dirlookup d n = some e → fs.dirlookup d n = some e ∨
    n = name ∧ (fs.inodes e).type = none ∧ (fs'.inodes e).type ≠ none
  opened : ∀ f, swap' = some f → swap = some f ∨ ∃ d, fs'.dirlookup d name = some f
  spares : ∀ e, fs.Apart name swap e → fs'.inodes e = fs.inodes e

section Opens

variable {fs fs' fs'' : Fs} {name : List UInt8} {swap swap' swap'' : Option Nat} {m : Machine}

theorem Fs.Opens.refl (fs : Fs) (name : List UInt8) (swap : Option Nat) :
    fs.Opens fs name swap swap :=
  ⟨fun _ there => there, fun _ _ => le_refl _, fun _ _ _ found => found, fun _ _ _ found => Or.inl found,
    fun _ same => Or.inl same, fun _ _ => rfl⟩

theorem Fs.Opens.apart (opens : fs.Opens fs' name swap swap') {e : Nat}
    (apart : fs.Apart name swap e) : fs'.Apart name swap' e := by
  have unnamed : ∀ d, fs'.dirlookup d name ≠ some e := by
    intro d found
    rcases opens.added d name e found with before | ⟨-, free, -⟩
    · exact apart.unnamed d before
    · exact apart.allocated free
  refine ⟨opens.allocated e apart.allocated, unnamed, fun same => ?_⟩
  rcases opens.opened e same with before | ⟨d, found⟩
  · exact apart.other before
  · exact unnamed d found

theorem Fs.Opens.trans (first : fs.Opens fs' name swap swap')
    (second : fs'.Opens fs'' name swap' swap'') : fs.Opens fs'' name swap swap'' where
  allocated e there := second.allocated e (first.allocated e there)
  sizes e there := (first.sizes e there).trans (second.sizes e (first.allocated e there))
  names d n e found := second.names d n e (first.names d n e found)
  added d n e found := by
    rcases second.added d n e found with before | ⟨named, free, there⟩
    · rcases first.added d n e before with start | ⟨named, free, there⟩
      · exact Or.inl start
      · exact Or.inr ⟨named, free, second.allocated e there⟩
    · refine Or.inr ⟨named, ?_, there⟩
      by_contra taken
      exact first.allocated e taken free
  opened f same := by
    rcases second.opened f same with before | found
    · rcases first.opened f before with start | ⟨d, found⟩
      · exact Or.inl start
      · exact Or.inr ⟨d, second.names d name f found⟩
    · exact Or.inr found
  spares e apart := (second.spares e (first.apart apart)).trans (first.spares e apart)

theorem Fs.Opens.close (opens : fs.Opens fs' name none swap') : fs.Opens fs' name swap swap' where
  allocated := opens.allocated
  sizes := opens.sizes
  names := opens.names
  added := opens.added
  opened f same := by
    rcases opens.opened f same with before | found
    · simp at before
    · exact Or.inr found
  spares e apart := opens.spares e ⟨apart.allocated, apart.unnamed, by simp⟩

theorem Fs.entry_opens {ip : Nat} (found : fs.entry env cwd (swapName pid) = some (ip, fs')) :
    fs.Opens fs' (swapName pid) none (some ip) := by
  have spares := (Fs.entry_step (fun _ => false) found).spares
  have same := Fs.Opens.refl fs (swapName pid) none
  rcases Fs.entry_cases found with ⟨named, -, rfl⟩ | ⟨unnamed, free, rfl⟩
  · refine ⟨same.allocated, same.sizes, same.names, same.added, fun f opened => ?_, same.spares⟩
    exact Or.inr ⟨cwd, named.trans opened⟩
  · -- The new file gets the swap name in the current directory and nothing else.
    refine ⟨fun e there => ?_, fun e there => ?_, fun d n e before => ?_, fun d n e after => ?_,
      fun f opened => ?_, fun e apart => (spares e apart).2⟩
    · by_cases same : e = ip
      · simp [Fs.made, same]
      · simpa [Fs.made, same] using there
    · have other : e ≠ ip := fun same => there (same ▸ free)
      simp [Fs.made, other]
    · have other : ¬ (d = cwd ∧ n = swapName pid) := by
        rintro ⟨rfl, rfl⟩
        simp [unnamed] at before
      simpa [Fs.made, other] using before
    · by_cases own : d = cwd ∧ n = swapName pid
      · obtain rfl : ip = e := by simpa [Fs.made, own] using after
        exact Or.inr ⟨own.2, free, by simp [Fs.made]⟩
      · exact Or.inl (by simpa [Fs.made, own] using after)
    · exact Or.inr ⟨cwd, by simpa [Fs.made] using opened⟩

/-- Opening a swap file frees none, unless the file table is full and the file not in use. -/
def FsEnv.KeepsFile (env : FsEnv) : Prop := env.filealloc = true ∨ env.lastRef = false

theorem openSwap_opens (keeps : env.KeepsFile) (fs : Fs) (cwd pid : Nat) :
    fs.Opens (openSwap fs env cwd pid).2 (swapName pid) none (openSwap fs env cwd pid).1 := by
  rw [openSwap_eq]
  cases found : fs.entry env cwd (swapName pid) with
  | none => exact .refl _ _ _
  | some result =>
    have opens := Fs.entry_opens found
    cases entry : env.filealloc with
    | true => simpa using opens
    | false =>
      have shared : env.lastRef = false := keeps.resolve_left (by simp [entry])
      simp only [Bool.false_eq_true, if_false, dropUnlinked, shared]
      exact ⟨opens.allocated, opens.sizes, opens.names, opens.added, by simp, opens.spares⟩

theorem Machine.swapTarget_opens (target : m.swapTarget env = some (f, fs)) :
    m.fs.Opens fs (swapName m.proc.pid) m.proc.paging.swapfile (some f) := by
  cases swap : m.proc.paging.swapfile with
  | some g =>
    rw [Machine.swapTarget, swap] at target
    obtain ⟨rfl, rfl⟩ := Prod.mk.inj (Option.some.inj target)
    exact .refl _ _ _
  | none =>
    simp only [Machine.swapTarget, swap] at target
    split at target
    · exact Fs.entry_opens target
    · simp at target

theorem Machine.Swaps.addsOwn (swaps : m.Swaps env fs swap')
    (keeps : m.proc.paging.swapfile = none → env.KeepsFile) :
    m.fs.Opens fs (swapName m.proc.pid) m.proc.paging.swapfile swap' := by
  cases swaps with
  | still => exact .refl _ _ _
  | unopened target =>
    have shut : m.proc.paging.swapfile = none := m.shut_of_target target
    have opens := openSwap_opens (keeps shut) m.fs m.proc.cwd m.proc.pid
    rw [(m.swapTarget_none env shut).1, target] at opens
    rw [shut]
    exact opens
  | opened f _ target => exact m.swapTarget_opens target
  | written f fs' target page off n =>
    obtain ⟨names, types, sizes, others⟩ := writei_tree fs' f page off n env.room
    refine (m.swapTarget_opens target).trans ⟨fun e there => ?_, fun e _ => sizes e,
      fun d n e found => ?_, fun d n e found => ?_, fun g same => Or.inl same, fun e apart => ?_⟩
    · rwa [types e]
    · rwa [names]
    · rw [names] at found
      exact Or.inl found
    · exact others e fun same => apart.other (by rw [same])

end Opens

end Xv6
