import Xv6.FaultLaws

/-! When a frame can be had, and what can be read once it is at hand, told by the state before. -/

namespace Xv6

open Prog

variable {cause f mem n va : Nat} {env : FsEnv} {fs : Fs} {m m' : Machine} {src : Source}

/-- A frame can be had that the allocator would take back. -/
def Machine.Obtainable (m : Machine) (env : FsEnv) : Prop :=
  ∃ pa, m.Yields env pa ∧ m.kmem.Manages pa

/-- Memory is full, and the page to evict has to be saved first. -/
def Machine.Saving (m : Machine) : Prop :=
  m.kmem.freelist = [] ∧ ∃ i, m.victim = some i ∧ ¬ (m.proc.paging.pages i).Droppable

instance (m : Machine) : Decidable m.Saving :=
  decidable_of_iff (m.kmem.freelist = [] ∧
    m.victim.any fun i => !decide (m.proc.paging.pages i).Droppable) (by
      simp [Machine.Saving, Option.any_eq_true])

/-- A file at least so long. -/
def Fs.stretch (fs : Fs) (f size : Nat) : Fs :=
  let file := fs.inodes f
  { fs with inodes := Function.update fs.inodes f { file with size := max file.size size } }

/-- The machine with the files it has open, and their sizes, once a frame is at hand. -/
def Machine.ready (m : Machine) (env : FsEnv) : Machine :=
  if m.Saving then
    match m.swapTarget env, firstClear m.proc.paging.swapBitmap maxSwapPages 0 with
    | some (f, fs), some slot =>
      m.quiet (fs.stretch f (slot * pgsize + pgsize)) (some f) m.proc.killed
    | _, _ => m
  else m

/-- What a page read in depends on: which files are open, and how long they are. -/
structure Machine.Sized (m m' : Machine) : Prop where
  swapfile : m'.proc.paging.swapfile = m.proc.paging.swapfile
  execIp : m'.proc.paging.execIp = m.proc.paging.execIp
  sizes : ∀ ip, (m'.fs.inodes ip).size = (m.fs.inodes ip).size

theorem writei_sizes {slot : Nat} {page : Nat → UInt8} {room : Nat} (inside : slot < maxSwapPages)
    (accepted : fs.Accepts f slot ∧ pgsize ≤ room) (ip : Nat) :
    ((writei fs f page (slot * pgsize) pgsize room).2.inodes ip).size =
      ((fs.stretch f (slot * pgsize + pgsize)).inodes ip).size := by
  obtain ⟨offset, length⟩ := u32_slot inside
  have narrow : ¬ 2 ^ 32 ≤ slot * pgsize + pgsize := by
    simp only [pgsize, maxSwapPages] at *
    omega
  obtain ⟨⟨low, high⟩, room⟩ := accepted
  simp only [writei, offset, length, Nat.not_lt.mpr low, Nat.not_lt.mpr high, narrow, or_false,
    if_false, Nat.min_eq_left room, Fs.stretch]
  by_cases same : ip = f
  · subst same
    simp
  · simp [same]

/-- With a frame at hand the files are as long as the state before says. -/
theorem Machine.Gets.sized (gets : m.Gets env (some mem) m') : (m.ready env).Sized m' := by
  cases gets with
  | free pa rest front =>
    have idle : ¬ m.Saving := fun saving => by simp [saving.1] at front
    rw [Machine.ready, if_neg idle]
    exact ⟨rfl, rfl, fun _ => rfl⟩
  | dropped i pte _ chosen clean =>
    have idle : ¬ m.Saving := by
      rintro ⟨-, j, chosen', kept⟩
      obtain rfl : i = j := by simpa [chosen] using chosen'
      exact kept clean
    rw [Machine.ready, if_neg idle]
    exact ⟨rfl, rfl, fun _ => rfl⟩
  | saved i f fs slot pte full chosen kept target free entry accepted =>
    have saving : m.Saving := ⟨full, i, chosen, kept⟩
    have inside : slot < maxSwapPages := by
      have bound := (firstClear_spec free).2.1
      omega
    rw [Machine.ready, if_pos saving, target, free]
    exact ⟨rfl, rfl, writei_sizes inside accepted⟩

theorem readi_length {fs' : Fs} {ip : Nat} (same : (fs'.inodes ip).size = (fs.inodes ip).size)
    (dst : Nat → UInt8) (off : Nat) : (readi fs' ip dst off n).1 = (readi fs ip dst off n).1 := by
  simp only [readi, same]
  split <;> rfl

theorem slotBytes_none {fs' : Fs} (same : (fs'.inodes f).size = (fs.inodes f).size) (slot : Int) :
    slotBytes fs' (some f) slot = none ↔ slotBytes fs (some f) slot = none := by
  simp only [slotBytes, readi_length same]
  split <;> simp

/-- A frame that can be had is handed out. -/
theorem Machine.Gets.not_yields (gets : m.Gets env none m') (pa : Nat) : ¬ m.Yields env pa := by
  rintro (⟨rest, front⟩ | ⟨full, i, pte, chosen, entry, -, room⟩)
  · exact absurd (gets.of_free front).1 (by simp)
  cases gets with
  | bare _ alone => simp [alone] at chosen
  | forgot j _ chosen' _ absent =>
    obtain rfl : i = j := by simpa [chosen] using chosen'
    simp [absent] at entry
  | stuck j _ _ chosen' kept saves =>
    obtain rfl : i = j := by simpa [chosen] using chosen'
    exact absurd (saves.zero_iff.mpr ⟨room.resolve_left kept, by simp [entry]⟩) (by decide)

theorem Machine.Yields.unique {pa pb : Nat} (yields : m.Yields env pa)
    (yields' : m.Yields env pb) : pa = pb := by
  rcases yields with ⟨rest, front⟩ | ⟨full, i, pte, chosen, entry, rfl, -⟩ <;>
    rcases yields' with ⟨rest', front'⟩ | ⟨full', j, pte', chosen', entry', rfl, -⟩
  · exact (List.cons.inj (front.symm.trans front')).1
  · simp [full'] at front
  · simp [full] at front'
  · obtain rfl : i = j := by simpa [chosen] using chosen'
    rw [Option.some.inj (entry.symm.trans entry')]

/-- The pages left for the table once a frame is at hand. -/
theorem Machine.Gets.left (gets : m.Gets env (some mem) m') (va : Nat) :
    m'.kmem.freelist.length = m.kmem.freelist.length - 1 ∧
    m'.proc.pagetable.missing va = m.proc.pagetable.missing va := by
  cases gets with
  | free pa rest front => exact ⟨by simp [front, Kmem.take], rfl⟩
  | dropped i pte full => exact ⟨by simp [full, Machine.reuse, Kmem.take], missing_setPte _ _ _ _⟩
  | saved i f fs slot pte full =>
    exact ⟨by simp [full, Machine.reuse, Kmem.take], missing_setPte _ _ _ _⟩

/-- The only mapping lost on the way to a frame is that of the page evicted. -/
theorem Machine.Gets.lookup (gets : m.Gets env (some mem) m') (below : va < maxva) :
    m'.proc.pagetable.lookup va = if m.kmem.freelist = [] ∧ m.victim = some (va / pgsize) then none
      else m.proc.pagetable.lookup va := by
  have cleared : ∀ {i pte}, m.kmem.freelist = [] → m.victim = some i →
      m.proc.pagetable.lookup (i * pgsize) = some pte →
      (m.proc.pagetable.setPte (i * pgsize) none).lookup va =
        if m.kmem.freelist = [] ∧ m.victim = some (va / pgsize) then none
        else m.proc.pagetable.lookup va := by
    intro i pte full chosen entry
    have tracked := (fifoScan_spec chosen).1
    rw [lookup_setPte (lowDir_isSome_of_lookup entry) none (lt_vaSpan (tracked_lt_maxva tracked))
      (lt_vaSpan below), Nat.mul_div_cancel _ pgsize_pos]
    simp [full, chosen, eq_comm]
  cases gets with
  | free pa rest front => simp [front]
  | dropped i pte full chosen _ entry => exact cleared full chosen entry
  | saved i f fs slot pte full chosen _ _ _ entry => exact cleared full chosen entry

end Xv6
