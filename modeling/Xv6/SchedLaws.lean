import Xv6.Sched

/-! What holds of spinlocks, processors and processes whichever way the threads interleave. -/

namespace Xv6.Sched

open Function (update update_self update_of_ne update_eq_self)
open Xv6.Tree (Phase)

structure Stage where
  /-- The process whose thread it is; none for a scheduler. -/
  self : Option Nat
  held : List Lock
  /-- A lock that is taken, but not recorded to be. -/
  mark : Option Lock
  depth : Nat
  /-- The state the process has set itself to before it calls `sched`. -/
  parked : Option Phase

def Stage.Settled (g : Stage) : Prop :=
  g.mark = none ∧ g.depth = g.held.length ∧ g.parked = none

def Awake (ops : List Op) : Prop := ∀ p chan, .doze p chan ∉ ops

variable {cfg : Config}

def passed (cfg : Config) (chan q : Nat) : List Op → Bool
  | [] => false
  | .wakeup ch k :: rest => if ch = chan then decide (q < k) else passed cfg chan q rest
  | .rouse r ch :: rest => !(r == q && ch == chan) && passed cfg chan q rest
  | .unlock lk :: rest => lk != .other (cfg.guard chan) && passed cfg chan q rest
  | _ :: rest => passed cfg chan q rest

def Op.Ok (cfg : Config) (g : Stage) (rest : List Op) : Op → Prop
  | .pushOff | .intena _ | .intrOff => True
  | .popOff => g.held.length < g.depth
  | .unheld lk => lk ∉ g.held
  | .swap lk => lk ∉ g.held ∧ g.mark = none ∧ g.held.length < g.depth ∧
      ∀ chan q, lk = .other (cfg.guard chan) → passed cfg chan q rest = false
  | .own lk => g.mark = some lk ∧ lk ∈ g.held
  | .held lk | .disown lk => lk ∈ g.held ∧ g.mark = none
  | .unlock lk => g.mark = some lk ∧
      (∀ q chan, .doze q chan ∈ rest → lk ≠ .proc q ∧ .proc q ∈ g.held) ∧
      (g.parked.isSome → ∀ p, g.self = some p → lk ≠ .proc p)
  | .become p phase => g.self = some p ∧ .proc p ∈ g.held ∧ g.parked = none ∧
      (phase = .runnable ∨ phase = .zombie)
  | .doze p _ => g.self = some p ∧ .proc p ∈ g.held ∧ g.parked = none
  | .sched p => g.self = some p ∧ g.held = [.proc p] ∧ g.mark = none ∧ g.depth = 1 ∧
      g.parked.isSome ∧ g.parked ≠ some .running ∧ Awake rest
  | .undoze p => g.self = some p ∧ .proc p ∈ g.held ∧ g.parked = none
  | .wakeup chan q => q ≤ cfg.nproc ∧ .other (cfg.guard chan) ∈ g.held ∧ g.Settled ∧
      (∀ r, some r ≠ g.self → .proc r ∉ g.held) ∧ Awake rest ∧
      ∀ r, passed cfg chan r rest = false
  | .rouse q chan => some q ≠ g.self ∧ .proc q ∈ g.held ∧ .other (cfg.guard chan) ∈ g.held
  | .kill q => .proc q ∈ g.held ∧ g.parked = none
  | .alloc q => .proc q ∈ g.held ∧ g.Settled ∧ rest = []
  | .zombieExit => False
  | .scan _ => g.self = none ∧ g.held = [] ∧ g.Settled ∧ rest = []
  | .pick q => g.self = none ∧ g.held = [.proc q] ∧ g.Settled ∧ Awake rest
  | .unproc => g.self = none
  | .intrOn => g.depth = 0

def Op.next (g : Stage) : Op → Stage
  | .pushOff => { g with depth := g.depth + 1 }
  | .popOff => { g with depth := g.depth - 1 }
  | .swap lk => { g with held := lk :: g.held, mark := some lk }
  | .own _ => { g with mark := none }
  | .disown lk => { g with mark := some lk }
  | .unlock lk => { g with held := g.held.erase lk, mark := none }
  | .become _ phase => { g with parked := some phase }
  | .doze _ _ => { g with parked := some .sleeping }
  | .sched _ => { g with parked := none }
  | _ => g

def Op.Final (g : Stage) : Op → Prop
  | .sched _ => g.parked = some .zombie
  | _ => False

def Plays (cfg : Config) : Stage → List Op → Prop
  | g, [] => g.Settled
  | g, op :: rest => op.Ok cfg g rest ∧ (op.Final g ∨ Plays cfg (op.next g) rest)

def resumed (self : Option Nat) (p : Nat) : Stage := ⟨self, [.proc p], none, 1, none⟩

section Code

variable {g : Stage}

variable {lk : Lock} {rest : List Op} {lock : Lock → Spinlock} {q : Nat} {t : Task}

theorem plays_acquire (free : lk ∉ g.held) (settled : g.Settled)
    (fresh : ∀ chan q, lk = .other (cfg.guard chan) → passed cfg chan q rest = false)
    (plays : Plays cfg { g with held := lk :: g.held, depth := g.depth + 1 } rest) :
    Plays cfg g (acquire lk ++ rest) := by
  obtain ⟨mark, depth, parked⟩ := settled
  simp only [acquire, List.cons_append, List.nil_append, Plays, Op.Ok, Op.next, Op.Final, false_or]
  refine ⟨trivial, free, ⟨free, mark, by omega, ?_⟩, ⟨trivial, List.mem_cons_self⟩, ?_⟩
  · simpa only [passed] using fresh
  · rwa [mark] at plays

theorem plays_release (held : lk ∈ g.held) (mark : g.mark = none) (few : g.held.length ≤ g.depth)
    (dozes : ∀ q chan, .doze q chan ∈ rest → lk ≠ .proc q ∧ .proc q ∈ g.held)
    (keeps : g.parked.isSome → ∀ p, g.self = some p → lk ≠ .proc p)
    (plays : Plays cfg { g with held := g.held.erase lk, depth := g.depth - 1 } rest) :
    Plays cfg g (release lk ++ rest) := by
  have length := List.length_erase_of_mem held
  have positive := List.length_pos_of_mem held
  simp only [release, List.cons_append, Plays, Op.Ok, Op.next, Op.Final, false_or]
  refine ⟨⟨held, mark⟩, ⟨held, mark⟩, ⟨trivial, fun q chan later => ?_, keeps⟩, by omega, ?_⟩
  · exact dozes q chan (by simpa using later)
  · rwa [mark] at plays

end Code

structure Locks (lock : Lock → Spinlock) (g : Nat → Stage) : Prop where
  nodup : ∀ c, (g c).held.Nodup
  once : ∀ {c d lk}, lk ∈ (g c).held → lk ∈ (g d).held → c = d
  locked : ∀ lk, (lock lk).locked = true ↔ ∃ c, lk ∈ (g c).held
  cpu : ∀ lk c, (lock lk).cpu = some c ↔ lk ∈ (g c).held ∧ (g c).mark ≠ some lk

def System.Roused (s : System) (chan q : Nat) : Prop :=
  ((s.task q).phase = .sleeping → (s.task q).chan ≠ some chan) ∧
    ∀ d, .doze q chan ∉ (s.cpu d).todo

structure OnCpu (cfg : Config) (task : Nat → Task) (k : Cpu) (g : Stage) : Prop where
  noff : k.noff = g.depth
  few : g.held.length ≤ g.depth
  off : k.sie = true → g.depth = 0
  plays : Plays cfg g k.todo
  mark : ∀ {lk}, g.mark = some lk → lk ∈ g.held
  parked : g.parked.isSome → ∃ p, g.self = some p ∧ .proc p ∈ g.held
  /-- A process that runs, with the scheduler under it. -/
  proc : ∀ {p}, g.self = some p → k.proc = some p ∧ (task p).phase = g.parked.getD .running ∧
    ∃ rest, k.context = .unproc :: rest ∧ Plays cfg (resumed none p) rest
  /-- A scheduler that is just back from a process. -/
  left : ∀ {p}, g.self = none → k.proc = some p →
    (∃ rest, k.todo = .unproc :: rest) ∧ .proc p ∈ g.held ∧ (task p).phase ≠ .running
  /-- A process that is about to sleep has a lock that keeps others from waking it too early. -/
  dozes : ∀ {q chan}, .doze q chan ∈ k.todo →
    g.self = some q ∧ (.other (cfg.guard chan) ∈ g.held ∨ .proc q ∈ g.held)

def Away (cfg : Config) (p : Nat) (t : Task) : Prop :=
  t.phase ≠ .running ∧ (t.phase ≠ .unused → t.phase ≠ .zombie →
    Plays cfg (resumed (some p) p) t.context)

structure Holds (cfg : Config) (s : System) (g : Nat → Stage) : Prop where
  locks : Locks s.lock g
  cpus : ∀ c, OnCpu cfg s.task (s.cpu c) (g c)
  once : ∀ {c d p}, (g c).self = some p → (g d).self = some p → c = d
  away : ∀ {p}, (∀ c, (g c).self ≠ some p) → Away cfg p (s.task p)
  wakes : ∀ {c chan q}, .other (cfg.guard chan) ∈ (g c).held →
    passed cfg chan q (s.cpu c).todo → (g c).self ≠ some q → s.Roused chan q
  /-- A thread that was switched away from is not about to sleep. -/
  saved : (∀ c, Awake (s.cpu c).context) ∧ ∀ p, Awake (s.task p).context

section Locks

variable {lock : Lock → Spinlock} {g : Nat → Stage} {c : Nat} {st : Stage}

theorem Locks.keep (l : Locks lock g) (held : st.held = (g c).held) (mark : st.mark = (g c).mark) :
    Locks lock (update g c st) := by
  have same : ∀ d, (update g c st d).held = (g d).held ∧
      (update g c st d).mark = (g d).mark := by
    intro d
    by_cases here : d = c
    · subst here
      simp [held, mark]
    · simp [here]
  constructor <;> simp only [same]
  · exact l.nodup
  · exact l.once
  · exact l.locked
  · exact l.cpu

/-- One lock changes hands, or is recorded. -/
theorem Locks.change (l : Locks lock g) {v : Spinlock} (nodup : st.held.Nodup)
    (others : ∀ lk', lk' ≠ lk → (lk' ∈ st.held ↔ lk' ∈ (g c).held))
    (marks : ∀ lk', lk' ≠ lk → (g c).mark ≠ some lk' ∧ st.mark ≠ some lk')
    (only : ∀ d, d ≠ c → lk ∉ (g d).held) (locked : v.locked = true ↔ lk ∈ st.held)
    (cpu : ∀ d, v.cpu = some d ↔ d = c ∧ lk ∈ st.held ∧ st.mark ≠ some lk) :
    Locks (update lock lk v) (update g c st) := by
  obtain ⟨nodups, once, lockeds, cpus⟩ := l
  have held : ∀ d lk', lk' ∈ (update g c st d).held ↔
      if lk' = lk then d = c ∧ lk ∈ st.held else lk' ∈ (g d).held := by
    intro d lk'
    by_cases here : d = c <;> by_cases same : lk' = lk
    · simp [here, same]
    · simp [here, same, others lk' same]
    · simp [here, same, only d here]
    · simp [here, same]
  constructor
  · intro d
    by_cases here : d = c
    · subst here
      simpa using nodup
    · simpa [here] using nodups d
  · intro d e lk' first second
    rw [held] at first second
    split at first <;> simp_all
    exact once first second
  · intro lk'
    simp only [held]
    by_cases same : lk' = lk
    · subst same
      simp [locked]
    · simp [same, lockeds]
  · intro lk' d
    rw [held]
    by_cases same : lk' = lk
    · subst same
      simp only [update_self, cpu]
      by_cases here : d = c
      · simp [here]
      · simp [here]
    · simp only [update_of_ne same, cpus, if_neg same]
      by_cases here : d = c
      · simp [here, marks lk' same]
      · simp [here]

end Locks

section Steps

variable {s : System} {g : Nat → Stage} {c : Nat} {k : Cpu} {st : Stage}

/-- One processor goes on, with the locks and one process changed. -/
theorem Holds.replace (h : Holds cfg s g) (locks : Locks lock (update g c st))
    (here : OnCpu cfg (update s.task q t) k st)
    (others : ∀ d, d ≠ c → (g d).self = some q → t = s.task q)
    (still : t.phase = .running → (s.task q).phase = .running ∨ .proc q ∈ (g c).held)
    (before : ∀ p, (g c).self = some p → st.self = some p ∨ p = q)
    (after : ∀ p, st.self = some p → (g c).self = some p ∨ ∀ d, (g d).self ≠ some p)
    (away : (∀ d, (update g c st d).self ≠ some q) → Away cfg q t)
    (dozes : ∀ p chan, .doze p chan ∈ k.todo →
      .doze p chan ∈ (s.cpu c).todo ∨ .other (cfg.guard chan) ∈ (g c).held)
    (sleeps : ∀ chan, t.phase = .sleeping → t.chan = some chan →
      (s.task q).phase = .sleeping ∧ (s.task q).chan = some chan ∨ .doze q chan ∈ (s.cpu c).todo)
    (wakes : ∀ chan p, .other (cfg.guard chan) ∈ st.held → passed cfg chan p k.todo →
      st.self ≠ some p → s.Roused chan p) (saved : Awake k.context ∧ Awake t.context) :
    Holds cfg ⟨lock, update s.cpu c k, update s.task q t⟩ (update g c st) := by
  constructor
  case saved =>
    refine ⟨fun d => ?_, fun p => ?_⟩
    · by_cases same : d = c
      · simpa [same] using saved.1
      · simpa [same] using h.saved.1 d
    · by_cases same : p = q
      · simpa [same] using saved.2
      · simpa [same] using h.saved.2 p
  case locks => exact locks
  case cpus =>
    -- Other processors are as before, and what they know of the changed process still holds.
    intro d
    by_cases same : d = c
    · subst same
      simpa using here
    have on := h.cpus d
    simp only [update_of_ne same]
    refine { on with
      proc := fun {p} self => ?_
      left := fun {p} self proc => ?_ }
    · by_cases eq : p = q
      · subst eq
        rw [update_self, others d same self]
        exact on.proc self
      · rw [update_of_ne eq]
        exact on.proc self
    · obtain ⟨todo, lock, phase⟩ := on.left self proc
      refine ⟨todo, lock, ?_⟩
      by_cases eq : p = q
      · subst eq
        rw [update_self]
        exact fun runs => (still runs).elim phase fun held => same (h.locks.once lock held)
      · rwa [update_of_ne eq]
  case once =>
    -- A process that comes to this processor was on none.
    have new : ∀ d p, d ≠ c → (g d).self = some p → st.self ≠ some p := fun d p ne theirs mine =>
      (after p mine).elim (fun had => ne (h.once theirs had)) fun nowhere => nowhere d theirs
    intro d e p
    by_cases first : d = c <;> by_cases second : e = c
    · exact fun _ _ => first.trans second.symm
    · subst first
      simp only [update_self, update_of_ne second]
      exact fun mine theirs => absurd mine (new e p second theirs)
    · subst second
      simp only [update_self, update_of_ne first]
      exact fun theirs mine => absurd mine (new d p first theirs)
    · simp only [update_of_ne first, update_of_ne second]
      exact h.once
  case away =>
    intro p nowhere
    by_cases same : p = q
    · subst same
      simpa using away nowhere
    simp only [update_of_ne same]
    refine h.away fun d self => ?_
    by_cases first : d = c
    · subst first
      exact (before p self).elim (by simpa using nowhere d) same
    · exact nowhere d (by simpa [first] using self)
  case wakes =>
    intro d chan p guard done other
    have clear : s.Roused chan p := by
      by_cases same : d = c
      · subst same
        simp only [update_self] at guard done other
        exact wakes chan p guard done other
      · simp only [update_of_ne same] at guard done other
        exact h.wakes guard done other
    constructor
    · by_cases same : p = q
      · subst same
        simp only [update_self]
        exact fun asleep there => (sleeps chan asleep there).elim (fun old => clear.1 old.1 old.2)
          (clear.2 c)
      · simpa only [update_of_ne same] using clear.1
    · intro e dozing
      by_cases there : e = c
      · subst there
        simp only [update_self] at dozing
        -- A process falls asleep only with the lock that the waker would have.
        rcases dozes p chan dozing with old | had
        · exact clear.2 e old
        · by_cases same : d = e
          · subst same
            exact other (by simpa using (here.dozes dozing).1)
          · simp only [update_of_ne same] at guard
            exact same (h.locks.once guard had)
      · simp only [update_of_ne there] at dozing
        exact clear.2 e dozing

/-- One processor goes on, with the locks changed but not the processes. -/
theorem Holds.advance (h : Holds cfg s g) (locks : Locks lock (update g c st))
    (here : OnCpu cfg s.task k st) (self : st.self = (g c).self)
    (context : k.context = (s.cpu c).context)
    (dozes : ∀ q chan, .doze q chan ∈ k.todo →
      .doze q chan ∈ (s.cpu c).todo ∨ .other (cfg.guard chan) ∈ (g c).held)
    (wakes : ∀ chan q, .other (cfg.guard chan) ∈ st.held → passed cfg chan q k.todo →
      st.self ≠ some q → s.Roused chan q) :
    Holds cfg ⟨lock, update s.cpu c k, s.task⟩ (update g c st) := by
  have same := update_eq_self 0 s.task
  rw [← same] at here ⊢
  refine h.replace locks here (fun _ _ _ => rfl) .inl (fun p eq => .inl (self.trans eq))
    (fun p eq => .inl (self ▸ eq)) (fun nowhere => h.away fun d eq => nowhere d ?_) dozes
    (fun chan asleep there => .inl ⟨asleep, there⟩) wakes
    ⟨context ▸ h.saved.1 c, h.saved.2 0⟩
  by_cases here : d = c
  · subst here
    simpa [self] using eq
  · simpa [here] using eq

/-- A process that does not run is changed, but not put to sleep. -/
theorem Holds.change (h : Holds cfg s g) (off : ∀ c, (g c).self ≠ some q) (away : Away cfg q t)
    (woken : t.phase ≠ .sleeping) (awake : Awake t.context) : Holds cfg (s.setTask q t) g := by
  have on := h.cpus 0
  have same : update g 0 (g 0) = g := update_eq_self 0 g
  have cpus : update s.cpu 0 (s.cpu 0) = s.cpu := update_eq_self 0 s.cpu
  have here : OnCpu cfg (update s.task q t) (s.cpu 0) (g 0) := by
    refine { on with
      proc := fun {p} self => ?_
      left := fun {p} self proc => ?_ }
    · rw [update_of_ne (fun eq : p = q => off 0 (eq ▸ self))]
      exact on.proc self
    · obtain ⟨todo, held, phase⟩ := on.left self proc
      refine ⟨todo, held, ?_⟩
      by_cases eq : p = q
      · subst eq
        simpa using away.1
      · rwa [update_of_ne eq]
  have changed : Holds cfg ⟨s.lock, update s.cpu 0 (s.cpu 0), update s.task q t⟩
      (update g 0 (g 0)) :=
    h.replace (by rw [same]; exact h.locks) here (fun d _ self => absurd self (off d))
      (fun runs => absurd runs away.1) (fun _ => .inl) (fun _ => .inl) (fun _ => away)
      (fun _ _ => .inl) (fun _ asleep => absurd asleep woken) (fun _ _ => h.wakes)
      ⟨h.saved.1 0, awake⟩
  rwa [same, cpus] at changed

end Steps

end Xv6.Sched
