import Xv6.ProcTreeLinks

/-! The numbers of processes, and the process tree over whole runs. -/

namespace Xv6

namespace Tree

structure Slot.Keeps (a b : Slot) : Prop where
  used : b.phase ≠ .unused → a.phase ≠ .unused ∧ b.pid = a.pid
  zombie : b.phase = .zombie → a.phase = .zombie ∧ b.xstate = a.xstate
  live : b.phase ≠ .unused → b.phase ≠ .zombie → a.phase ≠ .zombie

theorem Slot.Keeps.refl (a : Slot) : Slot.Keeps a a :=
  ⟨fun used => ⟨used, rfl⟩, fun zombie => ⟨zombie, rfl⟩, fun _ live => live⟩

theorem Slot.Keeps.of_similar {a b : Slot} (similar : a.Similar b) : Slot.Keeps a b where
  used := fun used => ⟨fun unused => used ((similar.phase_eq rfl).mpr unused), similar.pid⟩
  zombie := fun zombie => ⟨(similar.phase_eq rfl).mp zombie, similar.xstate⟩
  live := fun _ live zombie => live ((similar.phase_eq rfl).mpr zombie)

namespace Table

section Keeping

variable {s t : Table}

structure Numbered (t : Table) : Prop where
  next : t.nextpid = Int.bmod (t.forks + 2) (2 ^ 32)
  range : ∀ {x}, (t.proc x).phase ≠ .unused → (t.proc x).pid ≤ t.forks + 1
  distinct : ∀ {x y}, (t.proc x).phase ≠ .unused → (t.proc y).phase ≠ .unused →
    (t.proc x).pid = (t.proc y).pid → x = y
  /-- An exited process is recorded with its status. -/
  zombie : ∀ {x}, (t.proc x).phase = .zombie → ((t.proc x).pid, (t.proc x).xstate) ∈ t.exits
  exited : ∀ {e x}, e ∈ t.exits → (t.proc x).phase ≠ .unused → (t.proc x).phase ≠ .zombie →
    (t.proc x).pid ≠ e.1
  exitRange : ∀ {e}, e ∈ t.exits → e.1 ≤ t.forks + 1
  exitOnce : (t.exits.map Prod.fst).Nodup
  /-- A child that was returned is gone. -/
  gone : ∀ {r x}, r ∈ t.reaped → (t.proc x).phase ≠ .unused → (t.proc x).pid ≠ r.pid
  status : ∀ {r}, r ∈ t.reaped → (r.pid, r.xstate) ∈ t.exits
  once : (t.reaped.map Reaped.pid).Nodup
  parent : ∀ {r}, r ∈ t.reaped → r.parent = some r.waiter

theorem keeps_set {x : Nat} {slot : Slot} (keeps : Slot.Keeps (s.proc x) slot) (y : Nat) :
    Slot.Keeps (s.proc y) ((s.set x slot).proc y) := by
  rcases eq_or_ne y x with rfl | ne
  · simpa using keeps
  · simpa [ne] using Slot.Keeps.refl (s.proc y)

theorem Numbered.frame (numbered : s.Numbered) (proc : ∀ x, Slot.Keeps (s.proc x) (t.proc x))
    (records : s.SameRecords t) : t.Numbered := by
  obtain ⟨nextpid, forks, exits, reaped⟩ := records
  constructor
  · rw [nextpid, forks]
    exact numbered.next
  · intro x used
    obtain ⟨before, pid⟩ := (proc x).used used
    rw [pid, forks]
    exact numbered.range before
  · intro x y here there same
    obtain ⟨before, pid⟩ := (proc x).used here
    obtain ⟨before', pid'⟩ := (proc y).used there
    rw [pid, pid'] at same
    exact numbered.distinct before before' same
  · intro x zombie
    obtain ⟨before, xstate⟩ := (proc x).zombie zombie
    have pid := ((proc x).used (by rw [zombie]; decide)).2
    rw [exits, pid, xstate]
    exact numbered.zombie before
  · intro e x mem used live
    obtain ⟨before, pid⟩ := (proc x).used used
    rw [pid]
    exact numbered.exited (exits ▸ mem) before ((proc x).live used live)
  · intro e mem
    rw [forks]
    exact numbered.exitRange (exits ▸ mem)
  · rw [exits]
    exact numbered.exitOnce
  · intro r x mem used
    obtain ⟨before, pid⟩ := (proc x).used used
    rw [pid]
    exact numbered.gone (reaped ▸ mem) before
  · intro r mem
    rw [exits]
    exact numbered.status (reaped ▸ mem)
  · rw [reaped]
    exact numbered.once
  · exact fun mem => numbered.parent (reaped ▸ mem)

theorem Numbered.takes (numbered : s.Numbered) (few : s.forks + 1 < 2 ^ 31 - 1) (k : Nat) (p : Nat)
    (pc : Pc) : ((s.take k).goto p pc).Numbered := by
  have fresh : s.nextpid = s.forks + 2 := by
    rw [numbered.next]
    apply Int.bmod_eq_of_le <;> omega
  have forks : ((s.take k).goto p pc).forks = s.forks + 1 := rfl
  have self : ((s.take k).goto p pc).proc k =
      { s.proc k with phase := .used, pid := s.nextpid } := by simp
  have other : ∀ {x}, x ≠ k → ((s.take k).goto p pc).proc x = s.proc x := by
    intro x ne
    simp [ne]
  constructor
  · show Int.bmod (s.nextpid + 1) (2 ^ 32) = _
    rw [fresh, forks]
    congr 1
  · intro x used
    rcases eq_or_ne x k with rfl | ne
    · rw [self]
      push_cast
      omega
    · rw [other ne] at used ⊢
      have := numbered.range used
      omega
  · intro x y here there same
    rcases eq_or_ne x k with rfl | first
    · rcases eq_or_ne y x with rfl | second
      · rfl
      · rw [self, other second] at same
        rw [other second] at there
        have := numbered.range there
        simp only at same
        omega
    · rcases eq_or_ne y k with rfl | second
      · rw [self, other first] at same
        rw [other first] at here
        have := numbered.range here
        simp only at same
        omega
      · rw [other first] at here same
        rw [other second] at there same
        exact numbered.distinct here there same
  · intro x zombie
    rcases eq_or_ne x k with rfl | ne
    · rw [self] at zombie
      exact absurd zombie (by simp)
    · rw [other ne] at zombie ⊢
      exact numbered.zombie zombie
  · intro e x mem used live
    rcases eq_or_ne x k with rfl | ne
    · have := numbered.exitRange mem
      rw [self]
      simp only
      omega
    · rw [other ne] at used live ⊢
      exact numbered.exited mem used live
  · intro e mem
    have := numbered.exitRange mem
    omega
  · exact numbered.exitOnce
  · intro r x mem used
    rcases eq_or_ne x k with rfl | ne
    · have := numbered.exitRange (numbered.status mem)
      rw [self]
      simp only at this ⊢
      omega
    · rw [other ne] at used ⊢
      exact numbered.gone mem used
  · exact numbered.status
  · exact numbered.once
  · exact numbered.parent

theorem Numbered.buries (numbered : s.Numbered) {p : Nat} (status : Int)
    (running : (s.proc p).phase = .running) (pc : Pc) :
    ((s.bury p status).release p pc).Numbered := by
  have used : (s.proc p).phase ≠ .unused := by rw [running]; decide
  have live : (s.proc p).phase ≠ .zombie := by rw [running]; decide
  have self : ((s.bury p status).release p pc).proc p =
      { s.proc p with phase := .zombie, xstate := status } := by simp
  have other : ∀ {x}, x ≠ p → ((s.bury p status).release p pc).proc x = s.proc x := by
    intro x ne
    simp [ne]
  have exits : ((s.bury p status).release p pc).exits = s.exits ++ [((s.proc p).pid, status)] := rfl
  have pid : ∀ x, (((s.bury p status).release p pc).proc x).pid = (s.proc x).pid := by
    intro x
    rcases eq_or_ne x p with rfl | ne
    · rw [self]
    · rw [other ne]
  have before : ∀ {x}, (((s.bury p status).release p pc).proc x).phase ≠ .unused →
      (s.proc x).phase ≠ .unused := by
    intro x here
    rcases eq_or_ne x p with rfl | ne
    · exact used
    · rwa [other ne] at here
  constructor
  · exact numbered.next
  · intro x here
    rw [pid]
    exact numbered.range (before here)
  · intro x y here there same
    rw [pid, pid] at same
    exact numbered.distinct (before here) (before there) same
  · intro x zombie
    rcases eq_or_ne x p with rfl | ne
    · rw [self]
      exact List.mem_append_right _ (List.mem_singleton_self _)
    · rw [other ne] at zombie ⊢
      exact List.mem_append_left _ (numbered.zombie zombie)
  · intro e x mem here alive
    have ne : x ≠ p := by
      rintro rfl
      rw [self] at alive
      exact alive rfl
    rw [other ne] at here alive ⊢
    rcases List.mem_append.mp mem with old | new
    · exact numbered.exited old here alive
    · obtain rfl := List.mem_singleton.mp new
      exact fun same => ne (numbered.distinct here used same)
  · intro e mem
    rcases List.mem_append.mp mem with old | new
    · exact numbered.exitRange old
    · obtain rfl := List.mem_singleton.mp new
      exact numbered.range used
  · rw [exits, List.map_append, List.nodup_append]
    refine ⟨numbered.exitOnce, by simp, ?_⟩
    rintro a mem b single rfl
    obtain ⟨e, recorded, rfl⟩ := List.mem_map.mp mem
    have eq : e.1 = (s.proc p).pid := by simpa using single
    exact numbered.exited recorded used live eq.symm
  · intro r x mem here
    rw [pid]
    exact numbered.gone mem (before here)
  · exact fun mem => exits ▸ List.mem_append_left _ (numbered.status mem)
  · exact numbered.once
  · exact numbered.parent

theorem Numbered.reaps (numbered : s.Numbered) {p k : Nat} (child : (s.proc k).parent = some p)
    (zombie : (s.proc k).phase = .zombie) (pc : Pc) : ((s.reap p k).release p pc).Numbered := by
  have used : (s.proc k).phase ≠ .unused := by rw [zombie]; decide
  -- Whoever is left is another process.
  have other : ∀ {x}, (((s.reap p k).release p pc).proc x).phase ≠ .unused →
      x ≠ k ∧ ((s.reap p k).release p pc).proc x = s.proc x := by
    intro x here
    rcases eq_or_ne x k with rfl | ne
    · simp [Slot.free] at here
    · exact ⟨ne, by simp [ne]⟩
  have reaped : ((s.reap p k).release p pc).reaped =
      s.reaped ++ [⟨p, (s.proc k).parent, (s.proc k).pid, (s.proc k).xstate⟩] := rfl
  constructor
  · exact numbered.next
  · intro x here
    obtain ⟨-, same⟩ := other here
    rw [same] at here ⊢
    exact numbered.range here
  · intro x y here there eq
    obtain ⟨-, same⟩ := other here
    obtain ⟨-, same'⟩ := other there
    rw [same] at here eq
    rw [same'] at there eq
    exact numbered.distinct here there eq
  · intro x here
    obtain ⟨-, same⟩ := other (by rw [here]; decide)
    rw [same] at here ⊢
    exact numbered.zombie here
  · intro e x mem here live
    obtain ⟨-, same⟩ := other here
    rw [same] at here live ⊢
    exact numbered.exited mem here live
  · exact numbered.exitRange
  · exact numbered.exitOnce
  · intro r x mem here
    obtain ⟨ne, same⟩ := other here
    rw [same] at here ⊢
    rcases List.mem_append.mp mem with old | new
    · exact numbered.gone old here
    · obtain rfl := List.mem_singleton.mp new
      exact fun eq => ne (numbered.distinct here used eq)
  · intro r mem
    rcases List.mem_append.mp mem with old | new
    · exact numbered.status old
    · obtain rfl := List.mem_singleton.mp new
      exact numbered.zombie zombie
  · rw [reaped, List.map_append, List.nodup_append]
    refine ⟨numbered.once, by simp, ?_⟩
    rintro a mem b single rfl
    obtain ⟨r, recorded, rfl⟩ := List.mem_map.mp mem
    have eq : r.pid = (s.proc k).pid := by simpa using single
    exact numbered.gone recorded used eq.symm
  · intro r mem
    rcases List.mem_append.mp mem with old | new
    · exact numbered.parent old
    · obtain rfl := List.mem_singleton.mp new
      exact child

theorem Moves.forks_le (moves : s.Moves t) : s.forks ≤ t.forks := by
  cases moves with
  | calm p pc proc pcs records => exact Nat.le_of_eq records.forks.symm
  | takes p k inside unused same =>
    subst same
    exact Nat.le_succ _
  | drops p np here same => subst same; exact Nat.le_refl _
  | adopts p np here running same => subst same; exact Nat.le_refl _
  | publishes p np here same => subst same; exact Nat.le_refl _
  | reparents p k status here inside child same => subst same; exact Nat.le_refl _
  | buries p status here running same => subst same; exact Nat.le_refl _
  | reaps p k child zombie running quiet same => subst same; exact Nat.le_refl _

theorem Numbered.step (numbered : s.Numbered) (rooted : s.Rooted) (moves : s.Moves t)
    (few : t.forks < 2 ^ 31 - 1) : t.Numbered := by
  cases moves with
  | calm p pc proc pcs records =>
    exact numbered.frame (fun x => .of_similar (proc x)) records
  | takes p k inside unused same =>
    subst same
    exact numbered.takes few k p _
  | drops p np here same =>
    subst same
    refine numbered.frame (keeps_set ⟨?_, ?_, ?_⟩) ⟨rfl, rfl, rfl, rfl⟩
    · exact fun used => absurd rfl used
    · exact fun zombie => absurd zombie (by simp [Slot.free])
    · exact fun used => absurd rfl used
  | adopts p np here running same =>
    subst same
    exact numbered.frame (keeps_set ⟨fun used => ⟨used, rfl⟩, fun zombie => ⟨zombie, rfl⟩,
      fun _ live => live⟩) ⟨rfl, rfl, rfl, rfl⟩
  | publishes p np here same =>
    subst same
    have used := rooted.making (show (s.pcs p).making = some np by rw [here]; rfl)
    refine numbered.frame (keeps_set ⟨fun _ => ⟨?_, rfl⟩, ?_, fun _ _ => ?_⟩) ⟨rfl, rfl, rfl, rfl⟩
    · rw [used]
      decide
    · exact fun zombie => absurd zombie (by simp)
    · rw [used]
      decide
  | reparents p k status here inside child same =>
    subst same
    exact numbered.frame (keeps_set ⟨fun used => ⟨used, rfl⟩, fun zombie => ⟨zombie, rfl⟩,
      fun _ live => live⟩) ⟨rfl, rfl, rfl, rfl⟩
  | buries p status here running same =>
    subst same
    exact numbered.buries status running _
  | reaps p k child zombie running quiet same =>
    subst same
    exact numbered.reaps child zombie _

theorem Boot.numbered (boot : t.Boot) : t.Numbered := by
  have first : ∀ {x}, (t.proc x).phase ≠ .unused → x = initproc := by
    intro x used
    by_contra other
    rw [boot.rest x other] at used
    exact used rfl
  constructor
  · rw [boot.nextpid, boot.forks]
    decide
  · intro x used
    rw [first used, boot.init.2.1, boot.forks]
    decide
  · exact fun here there _ => (first here).trans (first there).symm
  · intro x zombie
    have same := first (by rw [zombie]; decide)
    rw [same, boot.init.1] at zombie
    exact absurd zombie (by decide)
  · intro e x mem
    rw [boot.exits] at mem
    exact absurd mem (by simp)
  · intro e mem
    rw [boot.exits] at mem
    exact absurd mem (by simp)
  · rw [boot.exits]
    simp
  · intro r x mem
    rw [boot.reaped] at mem
    exact absurd mem (by simp)
  · intro r mem
    rw [boot.reaped] at mem
    exact absurd mem (by simp)
  · rw [boot.reaped]
    simp
  · intro r mem
    rw [boot.reaped] at mem
    exact absurd mem (by simp)

theorem Boot.run (boot : s.Boot) {es : List Event} (ran : Trace.Run Steps s es t) :
    t.Rooted ∧ (t.forks < 2 ^ 31 - 1 → t.Numbered) := by
  refine ran.invariant (fun t => t.Rooted ∧ (t.forks < 2 ^ 31 - 1 → t.Numbered)) ?_
    ⟨boot.rooted, fun _ => boot.numbered⟩
  rintro t e u ⟨rooted, numbered⟩ stepped
  have moves := moves_step stepped
  have le := moves.forks_le
  exact ⟨rooted.step moves, fun few => (numbered (by omega)).step rooted moves few⟩

end Keeping

/-- The process tree is well formed in every run: links, numbers, and what `kwait` returns. -/
theorem process_tree {s t : Table} {es : List Event} (boot : s.Boot)
    (run : Trace.Run Steps s es t) :
    (∀ x, x ≠ initproc → (t.proc x).phase.alive = true ∨ (t.proc x).phase = .zombie →
      ∃ q, (t.proc x).parent = some q ∧ (t.proc q).phase ≠ .unused ∧
        (t.proc q).phase ≠ .zombie) ∧
    (t.forks < 2 ^ 31 - 1 →
      (∀ x y, (t.proc x).phase ≠ .unused → (t.proc y).phase ≠ .unused →
        (t.proc x).pid = (t.proc y).pid → x = y) ∧
      (t.reaped.map Reaped.pid).Nodup ∧ (t.exits.map Prod.fst).Nodup ∧
      ∀ r ∈ t.reaped, r.parent = some r.waiter ∧ (r.pid, r.xstate) ∈ t.exits) := by
  obtain ⟨rooted, numbered⟩ := boot.run run
  refine ⟨fun x other live => ?_, fun few => ?_⟩
  · obtain ⟨q, up⟩ := Option.ne_none_iff_exists'.mp (rooted.child other live)
    have alive := rooted.parents up
    refine ⟨q, up, ?_, ?_⟩
    · intro unused
      rw [unused] at alive
      exact absurd alive (by decide)
    · intro zombie
      rw [zombie] at alive
      exact absurd alive (by decide)
  · have numbers := numbered few
    exact ⟨fun x y => numbers.distinct, numbers.once, numbers.exitOnce,
      fun r mem => ⟨numbers.parent mem, numbers.status mem⟩⟩

def first : Table where
  proc x := if x = initproc then ⟨.runnable, 1, none, false, 0⟩ else .free
  pcs _ := .out
  lock := none
  nextpid := 2
  forks := 0
  exits := []
  reaped := []

theorem first_boot : first.Boot :=
  ⟨⟨rfl, rfl, rfl⟩, fun _ other => if_neg other, fun _ => rfl, rfl, rfl, rfl, rfl, rfl⟩

def childExits : List Event :=
  [.dispatch 0, .fork 0] ++ List.replicate 5 (.run 0 true) ++
    -- The child looks at every slot for children of its own.
    [.dispatch 1, .exit 1 7] ++ List.replicate 67 (.run 1 true) ++
    [.wait 0 0] ++ List.replicate 3 (.run 0 true)

/-- The child is returned to its parent with its status. -/
theorem process_tree_child : first.Boot ∧ ∃ t, Trace.Run Steps first childExits t ∧
    t.reaped = [⟨0, some 0, 2, 7⟩] ∧ t.forks = 1 ∧ (t.reaped.map Reaped.pid).Nodup := by
  have ran : (Trace.steps step first childExits).any fun t =>
      decide (t.reaped = [⟨0, some 0, 2, 7⟩] ∧ t.forks = 1) := by decide +kernel
  obtain ⟨t, computed, facts⟩ := (Option.any_eq_true _ _).mp ran
  obtain ⟨reaped, forks⟩ := of_decide_eq_true facts
  have run : Trace.Run Steps first childExits t :=
    Trace.Run.of_steps (fun _ _ _ stepped => stepped) computed
  have few : t.forks < 2 ^ 31 - 1 := by
    rw [forks]
    decide
  exact ⟨first_boot, t, run, reaped, forks, ((process_tree first_boot run).2 few).2.1⟩

end Table

end Tree

end Xv6
