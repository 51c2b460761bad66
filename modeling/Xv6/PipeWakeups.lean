import Xv6.PipeFifo

/-! Processes that sleep on a pipe are woken, unless a killed writer leaves without telling. -/

namespace Xv6

open Function (update update_self update_of_ne)

def PipePc.holds : PipePc → Bool
  | .locked _ | .wake _ _ _ => true
  | _ => false

def PipeCode.Entry : PipeCode → Prop
  | .write _ _ stored => stored = false
  | .readWait _ | .close _ => True
  | _ => False

def PipePc.Claims (pi : Pipe) : PipePc → Prop
  | .locked (.write _ _ stored) => stored = true → pi.readopen = true
  | .locked (.writeSleep _ _) => pi.Full ∧ pi.readopen = true
  | .locked (.readSleep _) => pi.Empty ∧ pi.writeopen = true
  | .wake _ _ (.writeSleep _ _) => pi.Full ∧ pi.readopen = true
  | .wake _ _ (.ret _) | .wake _ _ .closeEnd => True
  | .wake _ _ _ => False
  | .acquire c | .doze _ c | .wait c => c.Entry
  | .idle | .locked _ => True

def PipePc.Owes (chan : PipeChan) (q : Nat) : PipePc → Prop
  | .wake chan' k _ => chan' = chan ∧ k ≤ q
  | .locked (.write _ _ stored) => chan = .nread ∧ stored = true
  | .locked (.readCopy _ _) => chan = .nwrite
  | _ => False

def Pipe.Right (pi : Pipe) : PipeChan → Prop
  | .nread => pi.Empty ∧ pi.writeopen = true
  | .nwrite => pi.Full ∧ pi.readopen = true

variable {pc : PipePc} {chan : PipeChan} {c : PipeCode} {i k : Nat}

theorem PipePc.Claims.free {pi pi' : Pipe} (claims : pc.Claims pi) (without : pc.holds = false) :
    pc.Claims pi' := by
  cases pc with
  | locked c => simp [PipePc.holds] at without
  | wake chan k c => simp [PipePc.holds] at without
  | idle => trivial
  | acquire c => exact claims
  | doze chan c => exact claims
  | wait c => exact claims

theorem PipePc.Owes.holds {q : Nat} (owes : pc.Owes chan q) : pc.holds = true := by
  cases pc with
  | locked c => rfl
  | wake chan k c => rfl
  | idle => exact owes.elim
  | acquire c => exact owes.elim
  | doze chan c => exact owes.elim
  | wait c => exact owes.elim

namespace PipeTask

def Drowsy (task : PipeTask) (chan : PipeChan) : Prop :=
  task.asleep = some chan ∨ ∃ c, task.pc = .doze chan c

end PipeTask

namespace PipeSys

structure Wakes (s : PipeSys) : Prop where
  lock : ∀ p, (s.tasks p).pc.holds = true ↔ s.lock = some p
  /-- A process is asleep only inside `sleep`. -/
  awake : ∀ p, (s.tasks p).asleep ≠ none → ∃ c, (s.tasks p).pc = .wait c
  inTable : ∀ p, nproc ≤ p → (s.tasks p).pc = .idle
  claims : ∀ p, (s.tasks p).pc.Claims s.pipe
  due : ∀ q chan, (s.tasks q).Drowsy chan →
    s.pipe.Right chan ∨ ∃ h, s.lock = some h ∧ (s.tasks h).pc.Owes chan q

section Frames

variable {s t : PipeSys} {p : Nat} {task : PipeTask}

theorem Wakes.calm (wakes : s.Wakes) (pc : task.pc = (s.tasks p).pc)
    (asleep : task.asleep = (s.tasks p).asleep ∨ task.asleep = none) :
    (s.setTask p task).Wakes := by
  -- Every place is as before.
  have places : ∀ q, ((s.setTask p task).tasks q).pc = (s.tasks q).pc := by
    intro q
    by_cases same : q = p
    · subst same
      simpa [setTask] using pc
    · simp [setTask, same]
  have sleeps : ∀ q chan, ((s.setTask p task).tasks q).asleep = some chan →
      (s.tasks q).asleep = some chan := by
    intro q chan here
    by_cases same : q = p
    · subst same
      rcases asleep with old | none
      · simpa [setTask, old] using here
      · simp [setTask, none] at here
    · simpa [setTask, same] using here
  refine ⟨fun q => ?_, fun q deep => ?_, fun q outside => ?_, fun q => ?_, fun q chan drowsy => ?_⟩
  · rw [places]
    exact wakes.lock q
  · obtain ⟨chan, here⟩ := Option.ne_none_iff_exists'.mp deep
    rw [places]
    exact wakes.awake q (by simp [sleeps q chan here])
  · rw [places]
    exact wakes.inTable q outside
  · rw [places]
    exact wakes.claims q
  · have before : (s.tasks q).Drowsy chan := by
      rcases drowsy with deep | ⟨c, dozes⟩
      · exact Or.inl (sleeps q chan deep)
      · exact Or.inr ⟨c, by rw [← places, dozes]⟩
    rcases wakes.due q chan before with right | ⟨h, held, owes⟩
    · exact Or.inl right
    · exact Or.inr ⟨h, held, by rw [places]; exact owes⟩

theorem Wakes.aside (wakes : s.Wakes) (inTable : p < nproc)
    (without : (s.tasks p).pc.holds = false) (without' : task.pc.holds = false)
    (awake : task.asleep ≠ none → ∃ c, task.pc = .wait c) (claims : task.pc.Claims s.pipe)
    (drowsy : ∀ chan, task.Drowsy chan → (s.tasks p).Drowsy chan) : (s.setTask p task).Wakes := by
  have free : s.lock ≠ some p := fun held => by simp [(wakes.lock p).mpr held] at without
  refine ⟨fun q => ?_, fun q => ?_, fun q outside => ?_, fun q => ?_, fun q chan => ?_⟩
  · by_cases same : q = p
    · subst same
      simp [setTask, without', free]
    · simpa [setTask, same] using wakes.lock q
  · by_cases same : q = p
    · subst same
      simpa [setTask] using awake
    · simpa [setTask, same] using wakes.awake q
  · have other : q ≠ p := by omega
    simpa [setTask, other] using wakes.inTable q outside
  · by_cases same : q = p
    · subst same
      simpa [setTask] using claims
    · simpa [setTask, same] using wakes.claims q
  · intro here
    have before : (s.tasks q).Drowsy chan := by
      by_cases same : q = p
      · subst same
        exact drowsy chan (by simpa [setTask] using here)
      · simpa [setTask, same] using here
    rcases wakes.due q chan before with right | ⟨h, held, owes⟩
    · exact Or.inl right
    · -- The holder of the lock is another process.
      have other : h ≠ p := fun same => free (same ▸ held)
      exact Or.inr ⟨h, held, by simpa [setTask, other] using owes⟩

theorem Wakes.turn (wakes : s.Wakes) (held : s.lock = some p)
    (tasks : t.tasks = update s.tasks p { s.tasks p with pc := pc })
    (holds : if pc.holds then t.lock = some p else t.lock = none) (claims : pc.Claims t.pipe)
    (falls : ∀ chan c, pc = .doze chan c → t.pipe.Right chan)
    (due : ∀ q chan, (s.tasks q).Drowsy chan →
      s.pipe.Right chan ∨ (s.tasks p).pc.Owes chan q → t.pipe.Right chan ∨ pc.Owes chan q) :
    t.Wakes := by
  have mine := (wakes.lock p).mpr held
  -- The holder is not inside `sleep`, so it is awake.
  have awake : (s.tasks p).asleep = none := by
    by_contra deep
    obtain ⟨c, place⟩ := wakes.awake p deep
    simp [place, PipePc.holds] at mine
  have others : ∀ q, q ≠ p → (s.tasks q).pc.holds = false := by
    intro q other
    by_contra holds
    have also := (wakes.lock q).mp (by simpa using holds)
    exact other (Option.some.inj (also.symm.trans held))
  have inTable : p < nproc := by
    by_contra outside
    simp [wakes.inTable p (by omega), PipePc.holds] at mine
  refine ⟨fun q => ?_, fun q => ?_, fun q outside => ?_, fun q => ?_, fun q chan drowsy => ?_⟩
  · rw [tasks]
    by_cases same : q = p
    · subst same
      split at holds <;> simp_all
    · rw [update_of_ne same]
      have differ : p ≠ q := fun equal => same equal.symm
      split at holds <;> simp [others q same, holds, differ]
  · rw [tasks]
    by_cases same : q = p
    · simp [same, awake]
    · rw [update_of_ne same]
      exact wakes.awake q
  · rw [tasks, update_of_ne (by omega)]
    exact wakes.inTable q outside
  · rw [tasks]
    by_cases same : q = p
    · rw [same, update_self]
      exact claims
    · rw [update_of_ne same]
      exact (wakes.claims q).free (others q same)
  · rw [tasks] at drowsy
    by_cases same : q = p
    · -- The holder itself sleeps only after it gave the lock up.
      rw [same, update_self] at drowsy
      rcases drowsy with deep | ⟨c, dozes⟩
      · simp [awake] at deep
      · exact Or.inl (falls chan c dozes)
    · rw [update_of_ne same] at drowsy
      have before : s.pipe.Right chan ∨ (s.tasks p).pc.Owes chan q := by
        rcases wakes.due q chan drowsy with right | ⟨h, also, owes⟩
        · exact Or.inl right
        · obtain rfl := Option.some.inj (held.symm.trans also)
          exact Or.inr owes
      rcases due q chan drowsy before with right | owes
      · exact Or.inl right
      · rw [if_pos owes.holds] at holds
        exact Or.inr ⟨p, holds, by rw [tasks, update_self]; exact owes⟩

theorem Wakes.begin (wakes : s.Wakes) (held : s.lock = some p)
    (tasks : t.tasks = update s.tasks p { s.tasks p with pc := .wake chan 0 c })
    (lock : t.lock = some p) (claims : PipePc.Claims t.pipe (.wake chan 0 c))
    (others : ∀ q chan', chan' ≠ chan → (s.tasks q).Drowsy chan' →
      s.pipe.Right chan' ∨ (s.tasks p).pc.Owes chan' q → t.pipe.Right chan') : t.Wakes := by
  refine wakes.turn held tasks lock claims (by simp) fun q chan' drowsy reason => ?_
  by_cases same : chan = chan'
  · exact Or.inr ⟨same, Nat.zero_le q⟩
  · exact Or.inl (others q chan' (Ne.symm same) drowsy reason)

end Frames

def Tells (s : PipeSys) : PipeEvent → Prop
  | .run p _ => ∀ call i, (s.tasks p).pc = .locked (.write call i true) →
    (i : Int) < (s.request call).2 → (s.tasks p).killed = true →
    ∀ q, ¬ (s.tasks q).Drowsy .nread
  | _ => True

section Steps

variable {s t : PipeSys} {p : Nat} {copied : Bool}

theorem Wakes.writeTurn {call : Nat} {stored : Bool} (wakes : s.Wakes)
    (here : (s.tasks p).pc = .locked (.write call i stored)) (tells : s.Tells (.run p copied)) :
    (s.writeTurn p call i copied).Wakes := by
  have held : s.lock = some p := (wakes.lock p).mp (by rw [here]; rfl)
  have open' : stored = true → s.pipe.readopen = true := by
    have claims := wakes.claims p
    rw [here] at claims
    exact claims
  -- Only readers may wait for the writer.
  have writers : ∀ q chan, chan ≠ .nread →
      s.pipe.Right chan ∨ (s.tasks p).pc.Owes chan q → s.pipe.Right chan := by
    intro q chan other reason
    rcases reason with right | owes
    · exact right
    · rw [here] at owes
      exact absurd owes.1 other
  unfold PipeSys.writeTurn
  split
  · exact wakes.begin held rfl held trivial fun q chan other _ => writers q chan other
  split
  · rename_i leaves
    refine wakes.turn held rfl held trivial (by simp) fun q chan drowsy reason => Or.inl ?_
    rcases reason with right | owes
    · exact right
    · -- What it stored was told, or it was not killed.
      rw [here] at owes
      obtain ⟨rfl, rfl⟩ := owes
      have killed : (s.tasks p).killed = true := by simpa [open' rfl] using leaves
      exact absurd drowsy (tells call i here (by omega) killed q)
  rename_i stays
  have readopen : s.pipe.readopen = true := by
    by_contra closed
    simp [closed] at stays
  split
  · rename_i full
    exact wakes.begin held rfl held ⟨full, readopen⟩ fun q chan other _ => writers q chan other
  rename_i room
  split
  · exact wakes.begin held rfl held trivial fun q chan other _ => writers q chan other
  · -- A byte is stored: readers are owed a wakeup, and no writer sleeps.
    refine wakes.turn held rfl held (fun _ => readopen) (by simp) fun q chan _ reason => ?_
    cases chan with
    | nread => exact Or.inr ⟨rfl, rfl⟩
    | nwrite => exact absurd (writers q .nwrite (by simp) reason).1 room

theorem Wakes.readTurn {n : Int} (wakes : s.Wakes)
    (here : (s.tasks p).pc = .locked (.readCopy n i)) : (s.readTurn p n i copied).Wakes := by
  have held : s.lock = some p := (wakes.lock p).mp (by rw [here]; rfl)
  -- Only writers may wait for the reader.
  have readers : ∀ q chan, chan ≠ .nwrite →
      s.pipe.Right chan ∨ (s.tasks p).pc.Owes chan q → s.pipe.Right chan := by
    intro q chan other reason
    rcases reason with right | owes
    · exact right
    · rw [here] at owes
      exact absurd owes other
  unfold PipeSys.readTurn
  split
  · exact wakes.begin held rfl held trivial fun q chan other _ => readers q chan other
  rename_i more
  split
  · exact wakes.begin held rfl held trivial fun q chan other _ => readers q chan other
  · refine wakes.turn held rfl held trivial (by simp) fun q chan _ reason => ?_
    cases chan with
    | nwrite => exact Or.inr rfl
    | nread =>
      have empty := (readers q .nread (by simp) reason).1
      exact absurd (Or.inr empty) more

theorem Wakes.exec (wakes : s.Wakes) (here : (s.tasks p).pc = .locked c)
    (tells : s.Tells (.run p copied)) : (s.exec p copied c).Wakes := by
  have held : s.lock = some p := (wakes.lock p).mp (by rw [here]; rfl)
  have claims := wakes.claims p
  rw [here] at claims
  -- At most places nobody waits for the holder, so sleepers have their reasons.
  have settled : (∀ chan q, ¬ PipePc.Owes chan q (.locked c)) → ∀ q chan,
      s.pipe.Right chan ∨ (s.tasks p).pc.Owes chan q → s.pipe.Right chan := by
    intro nothing q chan reason
    rcases reason with right | owes
    · exact right
    · exact absurd (here ▸ owes) (nothing chan q)
  cases c with
  | write call i stored => exact wakes.writeTurn here tells
  | writeSleep call i =>
    refine wakes.turn held rfl rfl rfl (fun chan c dozes => ?_) fun q chan _ reason =>
      Or.inl (settled (fun _ _ owes => owes) q chan reason)
    obtain ⟨rfl, -⟩ := PipePc.doze.inj dozes
    exact claims
  | readWait n =>
    have reasons := settled fun _ _ owes => owes
    simp only [PipeSys.exec]
    split
    · rename_i empty
      split
      · exact wakes.turn held rfl held trivial (by simp) fun q chan _ reason =>
          Or.inl (reasons q chan reason)
      · exact wakes.turn held rfl held empty (by simp) fun q chan _ reason =>
          Or.inl (reasons q chan reason)
    · exact wakes.turn held rfl held trivial (by simp) fun q chan _ reason =>
        Or.inl (reasons q chan reason)
  | readSleep n =>
    refine wakes.turn held rfl rfl trivial (fun chan c dozes => ?_) fun q chan _ reason =>
      Or.inl (settled (fun _ _ owes => owes) q chan reason)
    obtain ⟨rfl, -⟩ := PipePc.doze.inj dozes
    exact claims
  | readCopy n i => exact wakes.readTurn here
  | close writable =>
    have reasons := settled fun _ _ owes => owes
    -- Closing one end leaves the sleepers of the other end alone.
    cases writable with
    | true =>
      refine wakes.begin held rfl held trivial fun q chan other _ reason => ?_
      cases chan with
      | nread => exact absurd rfl other
      | nwrite => exact reasons q .nwrite reason
    | false =>
      refine wakes.begin held rfl held trivial fun q chan other _ reason => ?_
      cases chan with
      | nread => exact reasons q .nread reason
      | nwrite => exact absurd rfl other
  | closeEnd =>
    exact wakes.turn held rfl rfl trivial (by simp) fun q chan _ reason =>
      Or.inl (settled (fun _ _ owes => owes) q chan reason)
  | ret value =>
    exact wakes.turn held rfl rfl trivial (by simp) fun q chan _ reason =>
      Or.inl (settled (fun _ _ owes => owes) q chan reason)

theorem Wakes.wakeStep (wakes : s.Wakes) (here : (s.tasks p).pc = .wake chan k c)
    (passed : ∀ q, (s.tasks q).Drowsy chan → k ≤ q → k + 1 ≤ q) :
    (s.goto p (.wake chan (k + 1) c)).Wakes := by
  have held : s.lock = some p := (wakes.lock p).mp (by rw [here]; rfl)
  have claims := wakes.claims p
  rw [here] at claims
  refine wakes.turn held rfl held ?_ (by simp) fun q chan' drowsy reason => ?_
  · cases c <;> exact claims
  · rcases reason with right | owes
    · exact Or.inl right
    · rw [here] at owes
      obtain ⟨rfl, later⟩ := owes
      exact Or.inr ⟨rfl, passed q drowsy later⟩

theorem Wakes.acquire (wakes : s.Wakes) (inTable : p < nproc) (here : (s.tasks p).pc = .acquire c)
    (free : s.lock = none) : ({ s with lock := some p }.goto p (.locked c)).Wakes := by
  have nobody : ∀ q, (s.tasks q).pc.holds = false := by
    intro q
    by_contra holds
    have held := (wakes.lock q).mp (by simpa using holds)
    simp [free] at held
  have awake : (s.tasks p).asleep = none := by
    by_contra deep
    obtain ⟨c, place⟩ := wakes.awake p deep
    simp [here] at place
  refine ⟨fun q => ?_, fun q => ?_, fun q outside => ?_, fun q => ?_, fun q chan drowsy => ?_⟩
  · by_cases same : q = p
    · subst same
      simp [goto, setTask, PipePc.holds]
    · simpa [goto, setTask, same, nobody q] using Ne.symm same
  · by_cases same : q = p
    · subst same
      simp [goto, setTask, awake]
    · simpa [goto, setTask, same] using wakes.awake q
  · have other : q ≠ p := by omega
    simpa [goto, setTask, other] using wakes.inTable q outside
  · by_cases same : q = p
    · subst same
      have entry := wakes.claims q
      rw [here] at entry
      simp only [goto, setTask, update_self]
      -- Code that is entered claims nothing about the pipe.
      cases c with
      | write call i stored => exact fun wrote => absurd (wrote.symm.trans entry) (by simp)
      | readWait n => trivial
      | close writable => trivial
      | _ => exact entry.elim
    · simpa [goto, setTask, same] using wakes.claims q
  · have before : (s.tasks q).Drowsy chan := by
      by_cases same : q = p
      · subst same
        rcases drowsy with deep | ⟨c', dozes⟩
        · exact Or.inl (by simpa [goto, setTask] using deep)
        · simp [goto, setTask] at dozes
      · simpa [goto, setTask, same] using drowsy
    rcases wakes.due q chan before with right | ⟨h, held, -⟩
    · exact Or.inl right
    · simp [free] at held

theorem Wakes.wakeEnd (wakes : s.Wakes) (here : (s.tasks p).pc = .wake chan k c)
    (done : nproc ≤ k) : (s.goto p (.locked c)).Wakes := by
  have held : s.lock = some p := (wakes.lock p).mp (by rw [here]; rfl)
  have claims := wakes.claims p
  rw [here] at claims
  refine wakes.turn held rfl held ?_ (by simp) fun q chan' drowsy reason => ?_
  · cases c with
    | writeSleep call i => exact claims
    | ret value => trivial
    | closeEnd => trivial
    | _ => exact claims.elim
  · rcases reason with right | owes
    · exact Or.inl right
    · -- Nobody outside the table sleeps.
      rw [here] at owes
      have idle := wakes.inTable q (done.trans owes.2)
      rcases drowsy with deep | ⟨c', dozes⟩
      · obtain ⟨c', waits⟩ := wakes.awake q (by simp [deep])
        simp [idle] at waits
      · simp [idle] at dozes

theorem Wakes.not_drowsy (wakes : s.Wakes) (holds : (s.tasks p).pc.holds = true) :
    ¬ (s.tasks p).Drowsy chan := by
  rintro (deep | ⟨c, dozes⟩)
  · obtain ⟨c, waits⟩ := wakes.awake p (by simp [deep])
    simp [waits, PipePc.holds] at holds
  · simp [dozes, PipePc.holds] at holds

theorem rouse_not_drowsy (sound : s.Dozes k = false) :
    ¬ ((s.rouse chan k).tasks k).Drowsy chan := by
  have place : ∀ c, (s.tasks k).pc ≠ .doze chan c := by
    intro c dozes
    simp [Dozes, dozes] at sound
  unfold rouse
  split
  · rintro (deep | ⟨c, dozes⟩)
    · simp [setTask] at deep
    · exact place c (by simpa [setTask] using dozes)
  · rename_i other
    rintro (deep | ⟨c, dozes⟩)
    · exact other deep
    · exact place c dozes

theorem Wakes.advance (wakes : s.Wakes) (inTable : p < nproc) (tells : s.Tells (.run p copied))
    (ran : s.advance p copied = some t) : t.Wakes := by
  unfold PipeSys.advance at ran
  split at ran
  · simp at ran
  · rename_i c here
    split at ran
    · rename_i free
      obtain rfl := Option.some.inj ran
      exact wakes.acquire inTable here free
    · simp at ran
  · rename_i c here
    obtain rfl := Option.some.inj ran
    exact wakes.exec here tells
  · rename_i chan k c here
    split at ran
    · rename_i done
      obtain rfl := Option.some.inj ran
      exact wakes.wakeEnd here done
    split at ran
    · rename_i self
      obtain rfl := Option.some.inj ran
      refine wakes.wakeStep here fun q drowsy later => ?_
      have other : q ≠ k := by
        rintro rfl
        exact wakes.not_drowsy (by rw [self, here]; rfl) drowsy
      omega
    split at ran
    · simp at ran
    · rename_i other sound
      obtain rfl := Option.some.inj ran
      have calm : (s.rouse chan k).Wakes := by
        unfold rouse
        split
        · exact wakes.calm rfl (Or.inr rfl)
        · exact wakes
      have same : ((s.rouse chan k).tasks p).pc = .wake chan k c := by
        obtain ⟨asleep, roused⟩ := s.rouse_eq chan k
        rw [roused, ← here]
        simp [setTask, Ne.symm other]
      refine calm.wakeStep same fun q drowsy later => ?_
      have apart : q ≠ k := by
        rintro rfl
        exact rouse_not_drowsy (by simpa using sound) drowsy
      omega
  · rename_i chan c here
    obtain rfl := Option.some.inj ran
    have entry := wakes.claims p
    rw [here] at entry
    refine wakes.aside inTable (by rw [here]; rfl) rfl (fun _ => ⟨c, rfl⟩) entry ?_
    rintro chan' (deep | ⟨c', dozes⟩)
    · obtain rfl : chan = chan' := Option.some.inj deep
      exact Or.inr ⟨c, here⟩
    · simp at dozes
  · rename_i c here
    split at ran
    · rename_i awake
      obtain rfl := Option.some.inj ran
      have entry := wakes.claims p
      rw [here] at entry
      refine wakes.aside inTable (by rw [here]; rfl) rfl (by simp [awake]) entry ?_
      rintro chan' (deep | ⟨c', dozes⟩)
      · simp [awake] at deep
      · simp at dozes
    · simp at ran

theorem Wakes.enter (wakes : s.Wakes) (inTable : p < nproc) (entry : c.Entry)
    (ran : s.enter p c = some t) : t.Wakes := by
  unfold PipeSys.enter at ran
  split at ran
  · rename_i here
    obtain rfl := Option.some.inj ran
    have awake : (s.tasks p).asleep = none := by
      by_contra deep
      obtain ⟨c, waits⟩ := wakes.awake p deep
      simp [here] at waits
    refine wakes.aside inTable (by rw [here]; rfl) rfl (by simp [awake]) entry ?_
    rintro chan (deep | ⟨c', dozes⟩)
    · simp [awake] at deep
    · simp at dozes
  · simp at ran

theorem Wakes.step {e : PipeEvent} (wakes : s.Wakes) (tells : s.Tells e)
    (stepped : s.step e = some t) : t.Wakes := by
  unfold PipeSys.step at stepped
  split at stepped
  · simp at stepped
  rename_i usable
  have inTable : target e < nproc := by
    by_contra outside
    exact usable (by simp [Nat.not_lt.mp outside])
  cases e with
  | write p src n =>
    -- The request is noted without touching anything else.
    have noted : ∀ request ncalls, Wakes { s with request := request, ncalls := ncalls } :=
      fun _ _ => ⟨wakes.lock, wakes.awake, wakes.inTable, wakes.claims, wakes.due⟩
    exact (noted _ _).enter (c := .write s.ncalls 0 false) inTable rfl stepped
  | read p n => exact wakes.enter (c := .readWait n) inTable trivial stepped
  | close p writable => exact wakes.enter (c := .close writable) inTable trivial stepped
  | run p copied => exact wakes.advance inTable tells stepped
  | kill p =>
    simp only at stepped
    split at stepped
    · simp at stepped
    · obtain rfl := Option.some.inj stepped
      exact wakes.calm rfl (Or.inr rfl)
  | renew p =>
    simp only at stepped
    split at stepped
    · obtain rfl := Option.some.inj stepped
      exact wakes.calm rfl (Or.inl rfl)
    · simp at stepped

theorem Start.wakes (start : s.Start) : s.Wakes := by
  refine ⟨fun p => ?_, fun p deep => absurd (start.awake p) deep, fun p _ => start.idle p,
    fun p => ?_, fun q chan drowsy => ?_⟩
  · simp [start.idle p, start.lock, PipePc.holds]
  · rw [start.idle p]
    trivial
  · rcases drowsy with deep | ⟨c, dozes⟩
    · simp [start.awake q] at deep
    · simp [start.idle q] at dozes

end Steps

/-- While the lock is free, whoever sleeps on a pipe has reason to. -/
theorem sleepers_right {s₀ s : PipeSys} {es : List PipeEvent} (start : s₀.Start)
    (run : Trace.Run (Trace.Guarded Tells Steps) s₀ es s) (free : s.lock = none) (p : Nat) :
    ((s.tasks p).asleep = some .nread → s.pipe.Empty ∧ s.pipe.writeopen = true) ∧
      ((s.tasks p).asleep = some .nwrite → s.pipe.Full ∧ s.pipe.readopen = true) := by
  have wakes : s.Wakes := run.invariant Wakes
    (fun s e t before guarded => before.step guarded.1 guarded.2) start.wakes
  -- Nobody holds the lock, so nobody owes a wakeup.
  have right : ∀ chan, (s.tasks p).asleep = some chan → s.pipe.Right chan := by
    intro chan deep
    rcases wakes.due p chan (Or.inl deep) with right | ⟨h, held, -⟩
    · exact right
    · simp [free] at held
  exact ⟨right .nread, right .nwrite⟩

def stepAlive (s : PipeSys) (e : PipeEvent) : Option PipeSys :=
  if (s.tasks (target e)).killed then none else s.step e

theorem tells_of_alive (s : PipeSys) (e : PipeEvent) (t : PipeSys)
    (stepped : s.stepAlive e = some t) : Trace.Guarded Tells Steps s e t := by
  unfold stepAlive at stepped
  split at stepped
  · simp at stepped
  rename_i alive
  refine ⟨?_, stepped⟩
  cases e with
  | run p copied => exact fun _ _ _ _ killed => absurd killed alive
  | _ => trivial

def sleepOnEmpty : List PipeEvent := .read 1 1 :: List.replicate 4 (.run 1 true)

/-- A reader that sleeps on an empty pipe has reason to. -/
theorem sleepers_right_empty : new.Start ∧ ∃ s,
    Trace.Run (Trace.Guarded Tells Steps) new sleepOnEmpty s ∧ s.lock = none ∧
    (s.tasks 1).asleep = some .nread ∧ s.pipe.Empty ∧ s.pipe.writeopen = true := by
  have ran : (Trace.steps stepAlive new sleepOnEmpty).any fun s =>
      decide (s.lock = none) && decide ((s.tasks 1).asleep = some .nread) := by decide
  obtain ⟨s, computed, facts⟩ := (Option.any_eq_true _ _).mp ran
  rw [Bool.and_eq_true, decide_eq_true_eq, decide_eq_true_eq] at facts
  have run := Trace.Run.of_steps tells_of_alive computed
  exact ⟨new_start, s, run, facts.1, facts.2, (sleepers_right new_start run facts.1 1).1 facts.2⟩

def killWriter : List PipeEvent :=
  sleepOnEmpty ++ [.write 0 (fun _ => 97) 2, .run 0 true, .run 0 true, .kill 0, .run 0 true,
    .run 0 true]

/-- The killed writer leaves the reader asleep in front of a byte. -/
theorem killed_writer_leaves_sleeper : new.Start ∧ ∃ s, Trace.Run Steps new killWriter s ∧
    s.lock = none ∧ (s.tasks 1).asleep = some .nread ∧ ¬ s.pipe.Empty := by
  have ran : (Trace.steps step new killWriter).any fun s =>
      decide (s.lock = none) && decide ((s.tasks 1).asleep = some .nread) &&
        !decide s.pipe.Empty := by decide
  obtain ⟨s, computed, facts⟩ := (Option.any_eq_true _ _).mp ran
  simp only [Bool.and_eq_true, decide_eq_true_eq, Bool.not_eq_true',
    decide_eq_false_iff_not] at facts
  obtain ⟨⟨free, asleep⟩, some⟩ := facts
  exact ⟨new_start, s, Trace.Run.of_steps (fun _ _ _ stepped => stepped) computed, free, asleep,
    some⟩

end PipeSys

end Xv6
