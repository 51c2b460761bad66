import Xv6.Lib.Flat
import Xv6.Ages
import Xv6.Contents
import Xv6.Ownership

/-! Runs of one user program over its paged memory, compared with a flat memory. -/

namespace Xv6

open Prog

/-- What happens to a process between its own accesses. -/
inductive UserOp where
  | page (env : FsEnv) (op : PagingOp)
  /-- The process grows with sbrk. -/
  | grow (n : Int)

/-- Completed accesses of a process and what happens between them. -/
abbrev UserEvent := Flat.Event Nat UInt8 UserOp

def Machine.UserStep (m : Machine) : UserEvent → Machine → Prop
  | .load va value, m' => userLoad m va = some value ∧ m' = m
  | .store va value, m' => userStore va value m = .ok (true, m')
  | .other (.page env op), m' => ∃ r, op.run env m = .ok (r, m')
  | .other (.grow n), m' => 0 ≤ n ∧ ∃ r, sysSbrk n m = .ok (r, m')

def Machine.userStep (m : Machine) : UserEvent → Option Machine
  | .load va value => if userLoad m va = some value then some m else none
  | .store va value =>
    match userStore va value m with
    | .ok (true, m') => some m'
    | _ => none
  | .other (.page env op) =>
    match op.run env m with
    | .ok (_, m') => some m'
    | .error _ => none
  | .other (.grow n) =>
    if 0 ≤ n then
      match sysSbrk n m with
      | .ok (_, m') => some m'
      | .error _ => none
    else none

theorem Machine.userStep_sound (m : Machine) (e : UserEvent) (m' : Machine)
    (computed : m.userStep e = some m') : m.UserStep e m' := by
  rcases e with ⟨va, value⟩ | ⟨va, value⟩ | (⟨env, op⟩ | n)
  · simp only [Machine.userStep] at computed
    split at computed
    · exact ⟨‹_›, (Option.some.inj computed).symm⟩
    · simp at computed
  · simp only [Machine.userStep] at computed
    split at computed
    · rename_i stored
      obtain rfl := Option.some.inj computed
      exact stored
    · simp at computed
  · simp only [Machine.userStep] at computed
    split at computed
    · rename_i r _ ran
      obtain rfl := Option.some.inj computed
      exact ⟨r, ran⟩
    · simp at computed
  · simp only [Machine.userStep] at computed
    split at computed
    · rename_i positive
      split at computed
      · rename_i r _ ran
        obtain rfl := Option.some.inj computed
        exact ⟨positive, r, ran⟩
      · simp at computed
    · simp at computed

variable {pa sz v vb : Nat} {bytes : Nat → UInt8}

section Access

variable {m m' : Machine} {va : Nat} {byte value : UInt8}

theorem translate_some {access : Access} (sound : m.Sound)
    (found : translate m.proc.pagetable access va = some pa) :
    UserAddress va ∧ ∃ pte, m.proc.pagetable.lookup va = some pte ∧ pte.pa = pa := by
  unfold translate at found
  split at found
  · simp at found
  cases entry : m.proc.pagetable.lookup va with
  | none => simp [entry] at found
  | some pte =>
    simp only [entry] at found
    split at found
    · rename_i permitted
      refine ⟨⟨by omega, ?_⟩, pte, rfl, Option.some.inj found⟩
      -- The kernel pages are not mapped for the user.
      by_contra kernel
      obtain ⟨pte', entry', hidden⟩ := sound.kernel va (lt_vaSpan (by omega)) (by simpa using kernel)
      obtain rfl : pte = pte' := Option.some.inj (entry.symm.trans entry')
      simp [hidden] at permitted
    · simp at found

theorem Machine.Keeps.load (keeps : m.Keeps va byte) (sound : m.Sound)
    (loaded : userLoad m va = some value) : value = byte := by
  obtain ⟨pa, found, rfl⟩ := Option.map_eq_some_iff.mp loaded
  obtain ⟨-, pte, entry, rfl⟩ := translate_some sound found
  exact keeps.mapped pte entry

theorem userStore_true (stored : userStore vb value m = .ok (true, m')) :
    ∃ pa, translate m.proc.pagetable .store vb = some pa ∧ m' = { m with
      kmem := m.kmem.put pa (Function.update (m.kmem.ram pa) (vb % pgsize) value) } := by
  obtain ⟨proc, fs, ⟨wrong, -⟩ | ⟨pa, -, found, memory⟩⟩ := userStore_ok stored
  · simp at wrong
  · refine ⟨pa, found, ?_⟩
    cases m'
    simp_all

theorem Machine.Sound.put (sound : m.Sound) :
    Machine.Sound { m with kmem := m.kmem.put pa bytes } :=
  ⟨sound.nodup, sound.managed, sound.leaves, sound.kernel, sound.size⟩

theorem Machine.Steady.put (steady : m.Steady) :
    Machine.Steady { m with kmem := m.kmem.put pa bytes } :=
  ⟨steady.sound.put, steady.slots, steady.apart⟩

theorem Machine.Keeps.store_other (keeps : m.Keeps va byte) (steady : m.SteadyAt (pgrounddown va))
    (user : UserAddress va) (other : vb ≠ va) (stored : userStore vb value m = .ok (true, m')) :
    m'.Keeps va byte := by
  obtain ⟨pa, found, rfl⟩ := userStore_true stored
  obtain ⟨user', pte', entry', rfl⟩ := translate_some steady.sound found
  refine keeps.carry steady ⟨rfl, fun pte entry => ?_, rfl, rfl⟩ (Fs.SwapStep.refl _ _ _ _)
  by_cases same : va / pgsize = vb / pgsize
  · -- In one page the two addresses differ in their offsets.
    have offsets : va % pgsize ≠ vb % pgsize := by
      simp only [pgsize] at *
      omega
    have one : pte = pte' := by
      rw [lookup_congr _ same] at entry
      exact Option.some.inj (entry.symm.trans entry')
    simp [one, Function.update_of_ne offsets]
  · have frames := steady.sound.frames_ne user user' same entry entry'
    simp [Kmem.put, Function.update_of_ne frames]

theorem Machine.Keeps.store_self (sound : m.Sound)
    (stored : userStore va value m = .ok (true, m')) : m'.Keeps va value := by
  obtain ⟨pa, found, rfl⟩ := userStore_true stored
  obtain ⟨-, pte, entry, rfl⟩ := translate_some sound found
  refine ⟨fun pte' entry' => ?_, fun absent => ?_, fun absent => ?_⟩
  · obtain rfl : pte = pte' := Option.some.inj (entry.symm.trans entry')
    simp
  · simp [entry] at absent
  · simp [entry] at absent

theorem sysSbrk_grow {n r : Int} (sound : m.Sound) (positive : 0 ≤ n)
    (ran : sysSbrk n m = .ok (r, m')) : ∃ sz, sz ≤ trapframeVa ∧
      m' = { m with proc := { m.proc with sz := sz } } := by
  refine of_ran r m' ran ?_
  apply wp_sysSbrk sound
  · exact fun _ => ⟨m.proc.sz, sound.size, rfl⟩
  · exact fun sz _ _ small => ⟨sz, small, rfl⟩
  · intro m' negative
    omega

theorem Machine.Sound.grow (sound : m.Sound) (small : sz ≤ trapframeVa) :
    Machine.Sound { m with proc := { m.proc with sz := sz } } :=
  ⟨sound.nodup, sound.managed, sound.leaves, sound.kernel, small⟩

theorem Machine.Steady.grow (steady : m.Steady) (small : sz ≤ trapframeVa) :
    Machine.Steady { m with proc := { m.proc with sz := sz } } :=
  ⟨steady.sound.grow small, steady.slots, steady.apart⟩

end Access

section Steps

variable {m m' : Machine} {e : UserEvent} {va : Nat} {byte : UInt8}

theorem Machine.UserStep.steady (step : m.UserStep e m') (steady : m.Steady) : m'.Steady := by
  rcases e with ⟨va, value⟩ | ⟨va, value⟩ | (⟨env, op⟩ | n)
  · obtain ⟨-, rfl⟩ := step
    exact steady
  · obtain ⟨pa, -, rfl⟩ := userStore_true step
    exact steady.put
  · obtain ⟨r, ran⟩ := step
    exact (PagingOp.run_does ran).steady steady
  · obtain ⟨positive, r, ran⟩ := step
    obtain ⟨sz, small, rfl⟩ := sysSbrk_grow steady.sound positive ran
    exact steady.grow small

theorem Machine.UserStep.steadyAt {page : Nat} (step : m.UserStep e m')
    (steady : m.SteadyAt page) : m'.SteadyAt page := by
  rcases e with ⟨va, value⟩ | ⟨va, value⟩ | (⟨env, op⟩ | n)
  · obtain ⟨-, rfl⟩ := step
    exact steady
  · obtain ⟨pa, -, rfl⟩ := userStore_true step
    exact ⟨steady.sound.put, steady.slots, steady.file⟩
  · obtain ⟨r, ran⟩ := step
    exact (PagingOp.run_does ran).steadyAt steady
  · obtain ⟨positive, r, ran⟩ := step
    obtain ⟨sz, small, rfl⟩ := sysSbrk_grow steady.sound positive ran
    exact ⟨steady.sound.grow small, steady.slots, steady.file⟩

theorem Machine.UserStep.context (step : m.UserStep e m') (sound : m.Sound) :
    m'.proc.paging.context = m.proc.paging.context := by
  rcases e with ⟨va, value⟩ | ⟨va, value⟩ | (⟨env, op⟩ | n)
  · obtain ⟨-, rfl⟩ := step
    rfl
  · obtain ⟨pa, -, rfl⟩ := userStore_true step
    rfl
  · obtain ⟨r, ran⟩ := step
    exact congrArg ProcContext.paging (PagingOp.run_does ran).context
  · obtain ⟨positive, r, ran⟩ := step
    obtain ⟨sz, -, rfl⟩ := sysSbrk_grow sound positive ran
    rfl

theorem Machine.UserStep.file (step : m.UserStep e m') (steady : m.Steady) :
    ∀ ip, m.proc.paging.execIp = some ip → m'.fs.inodes ip = m.fs.inodes ip := by
  rcases e with ⟨va, value⟩ | ⟨va, value⟩ | (⟨env, op⟩ | n)
  · obtain ⟨-, rfl⟩ := step
    exact fun _ _ => rfl
  · obtain ⟨pa, -, rfl⟩ := userStore_true step
    exact fun _ _ => rfl
  · obtain ⟨r, ran⟩ := step
    exact steady.file (PagingOp.run_does ran).files
  · obtain ⟨positive, r, ran⟩ := step
    obtain ⟨sz, -, rfl⟩ := sysSbrk_grow steady.sound positive ran
    exact fun _ _ => rfl

def Machine.RereadsAt (m : Machine) (va : Nat) : UserEvent → Prop
  | .other (.page _ op) => m.Rereads op va
  | _ => False

def Machine.amongStep (c : Candidates) (check : Machine → UserEvent → Bool) (m : Machine)
    (e : UserEvent) : Option Machine :=
  if check m e then
    match e with
    | .other (.page env op) => (op.among c m).bind fun op => m.userStep (.other (.page env op))
    | e => m.userStep e
  else none

theorem Machine.UserStep.paging (step : m.UserStep e m') (sound : m.Sound)
    (quiet : ∀ env op, e ≠ .other (.page env op)) : m'.proc.paging = m.proc.paging := by
  rcases e with ⟨vb, value⟩ | ⟨vb, value⟩ | (⟨env, op⟩ | n)
  · obtain ⟨-, rfl⟩ := step
    rfl
  · obtain ⟨pa, -, rfl⟩ := userStore_true step
    rfl
  · exact absurd rfl (quiet env op)
  · obtain ⟨positive, r, ran⟩ := step
    obtain ⟨sz, -, rfl⟩ := sysSbrk_grow sound positive ran
    rfl

theorem Machine.run_of_among {c : Candidates} {check : Machine → UserEvent → Bool}
    {allowed : Machine → UserEvent → Prop} {es : List UserEvent}
    (passed : ∀ m e, check m e = true → allowed m e) (steady : m.Steady)
    (among : m.proc.paging.Among c)
    (computed : Trace.steps (Machine.amongStep c check) m es = some m') :
    Trace.Run (Trace.Guarded allowed Machine.UserStep) m es m' := by
  refine (Trace.Run.of_steps_inv (fun m => m.Steady ∧ m.proc.paging.Among c)
    (fun m e m' held taken => ?_) ⟨steady, among⟩ computed).1
  obtain ⟨steady, among⟩ := held
  obtain ⟨checked, stepped⟩ := Option.ite_none_right_eq_some.mp taken
  clear taken
  split at stepped
  · rename_i env op
    obtain ⟨op', aimed, stepped⟩ := Option.bind_eq_some_iff.mp stepped
    -- Both operations do the same here.
    have step : m.UserStep (.other (.page env op)) m' := by
      refine m.userStep_sound _ _ (Eq.trans ?_ stepped)
      simp only [Machine.userStep, PagingOp.run_among among env aimed]
    have ⟨r, ran⟩ := step
    exact ⟨⟨passed _ _ checked, step⟩, step.steady steady,
      (PagingOp.run_does ran).among among aimed⟩
  · rename_i quiet
    have step := m.userStep_sound _ _ stepped
    refine ⟨⟨passed _ _ checked, step⟩, step.steady steady, ?_⟩
    rw [step.paging steady.sound fun env op same => quiet env op same]
    exact among

theorem Machine.UserStep.keeps (step : m.UserStep e m')
    (steady : m.SteadyAt (pgrounddown va)) (user : UserAddress va) (other : ∀ value, e ≠ .store va value) (keeps : m.Keeps va byte)
    (reread : m.RereadsAt va e → ∀ bytes, m.fresh (pgrounddown va) = some bytes →
      bytes (va % pgsize) = byte) : m'.Keeps va byte := by
  rcases e with ⟨vb, value⟩ | ⟨vb, value⟩ | (⟨env, op⟩ | n)
  · obtain ⟨-, rfl⟩ := step
    exact keeps
  · have different : vb ≠ va := fun same => other value (same ▸ rfl)
    exact keeps.store_other steady user different step
  · obtain ⟨r, ran⟩ := step
    exact (PagingOp.run_does ran).keeps steady user keeps reread
  · obtain ⟨positive, r, ran⟩ := step
    obtain ⟨sz, -, rfl⟩ := sysSbrk_grow steady.sound positive ran
    exact ⟨keeps.mapped, keeps.swapped, keeps.fresh⟩

end Steps

structure Machine.Mirrors (m : Machine) (watched : Nat → Prop) (mem : Nat → UInt8) : Prop where
  steady : m.Steady
  keeps : ∀ va, watched va → UserAddress va → m.Keeps va (mem va)

theorem Machine.Mirrors.step {m m' : Machine} {watched : Nat → Prop} {mem : Nat → UInt8}
    {e : UserEvent} (mirrors : m.Mirrors watched mem) (step : m.UserStep e m')
    (reread : ∀ va, watched va → UserAddress va → m.RereadsAt va e → ∀ bytes,
      m.fresh (pgrounddown va) = some bytes → bytes (va % pgsize) = mem va) :
    ∃ mem', Flat.Step watched mem e mem' ∧ m'.Mirrors watched mem' := by
  have steady := mirrors.steady
  -- An event that is no store leaves the flat memory alone.
  have still : (∀ va value, e ≠ .store va value) → m'.Mirrors watched mem := fun quiet =>
    ⟨step.steady steady, fun va here user =>
      step.keeps (steady.at _) user (quiet va) (mirrors.keeps va here user) (reread va here user)⟩
  cases e with
  | load va value =>
    refine ⟨mem, ⟨fun here => ?_, rfl⟩, still fun _ _ => by simp⟩
    obtain ⟨pa, found, -⟩ := Option.map_eq_some_iff.mp step.1
    have user := (translate_some steady.sound found).1
    exact (mirrors.keeps va here user).load steady.sound step.1
  | store va value =>
    refine ⟨Function.update mem va value, rfl, step.steady steady, fun vb here user => ?_⟩
    by_cases same : vb = va
    · subst same
      rw [Function.update_self]
      exact Machine.Keeps.store_self steady.sound step
    · rw [Function.update_of_ne same]
      exact step.keeps (steady.at _) user (fun v equal => same (by cases equal; rfl))
        (mirrors.keeps vb here user) (reread vb here user)
  | other op => exact ⟨mem, rfl, still fun _ _ => by simp⟩

end Xv6
