import Xv6.SchedLaws

/-! One step of a processor: it does not panic, and the system stays as its threads have it. -/

namespace Xv6.Sched

open Function (update update_self update_of_ne update_eq_self)
open Xv6.Tree (Phase)

variable {cfg : Config} {s : System} {g : Nat → Stage} {c : Nat} {k k' : Cpu} {st : Stage}
  {op : Op} {rest : List Op}

variable {chan n noff p q : Nat} {task : Nat → Task} {intena sie : Bool} {lk : Lock} {t : Task}

theorem Stage.eq_resumed {g : Stage} {self : Option Nat} (same : g.self = self)
    (held : g.held = [.proc p]) (mark : g.mark = none) (depth : g.depth = 1)
    (parked : g.parked = none) : g = resumed self p := by
  cases g
  simp_all [resumed]

/-- A scheduler has no process, unless it is just back from one. -/
theorem OnCpu.alone {g : Stage} (on : OnCpu cfg task k g) (busy : ∀ rest, k.todo ≠ .unproc :: rest)
    (self : g.self = none) : k.proc = none := by
  by_contra there
  obtain ⟨p, proc⟩ := Option.ne_none_iff_exists'.mp there
  obtain ⟨⟨rest, todo⟩, -⟩ := on.left self proc
  exact busy rest todo

theorem OnCpu.self_eq {g : Stage} (on : OnCpu cfg task k g) (alone : g.self = none → k.proc = none)
    (proc : k.proc = some p) : g.self = some p := by
  cases self : g.self with
  | none => simp [alone self] at proc
  | some q => rw [← proc, (on.proc self).1]

theorem Holds.now (h : Holds cfg s g) (todo : (s.cpu c).todo = op :: rest) :
    op.Ok cfg (g c) rest ∧ (op.Final (g c) ∨ Plays cfg (op.next (g c)) rest) := by
  have plays := (h.cpus c).plays
  rwa [todo] at plays

theorem OnCpu.go {g : Stage} (on : OnCpu cfg task k g) (busy : g.self = none → k.proc = none)
    (proc : k'.proc = k.proc) (context : k'.context = k.context) (self : st.self = g.self)
    (parked : st.parked = g.parked) (noff : k'.noff = st.depth) (few : st.held.length ≤ st.depth)
    (off : k'.sie = true → st.depth = 0) (plays : Plays cfg st k'.todo)
    (mark : ∀ {lk}, st.mark = some lk → lk ∈ st.held)
    (keeps : g.parked.isSome → ∀ p, g.self = some p → .proc p ∈ g.held → .proc p ∈ st.held)
    (dozes : ∀ {q chan}, .doze q chan ∈ k'.todo →
      g.self = some q ∧ (.other (cfg.guard chan) ∈ st.held ∨ .proc q ∈ st.held)) :
    OnCpu cfg task k' st := by
  refine ⟨noff, few, off, plays, mark, fun waits => ?_, ?_, fun {p} alone at_ => ?_,
    fun later => ?_⟩
  · rw [parked] at waits
    obtain ⟨p, mine, lock⟩ := on.parked waits
    exact ⟨p, self.trans mine, keeps waits p mine lock⟩
  · rw [self, parked, proc, context]
    exact on.proc
  · rw [proc, busy (self ▸ alone)] at at_
    simp at at_
  · rw [self]
    exact dozes later

theorem Holds.move (h : Holds cfg s g) {ops : List Op}
    (busy : (g c).self = none → (s.cpu c).proc = none) (depth : noff = n)
    (few : (g c).held.length ≤ n) (off : sie = true → n = 0)
    (plays : Plays cfg { g c with depth := n } ops)
    (dozes : ∀ q chan, .doze q chan ∈ ops → .doze q chan ∈ (s.cpu c).todo ∨
      (g c).self = some q ∧ .other (cfg.guard chan) ∈ (g c).held)
    (wakes : ∀ chan q, .other (cfg.guard chan) ∈ (g c).held → passed cfg chan q ops →
      (g c).self ≠ some q → s.Roused chan q) :
    Holds cfg (s.setCpu c ⟨(s.cpu c).proc, noff, intena, sie, ops, (s.cpu c).context⟩)
      (update g c { g c with depth := n }) := by
  have on := h.cpus c
  have here : OnCpu cfg s.task ⟨(s.cpu c).proc, noff, intena, sie, ops, (s.cpu c).context⟩
      { g c with depth := n } := by
    refine on.go busy rfl rfl rfl rfl depth few off plays on.mark (fun _ _ _ => id) ?_
    intro q chan later
    rcases dozes q chan later with old | ⟨self, guard⟩
    · exact on.dozes old
    · exact ⟨self, .inl guard⟩
  exact h.advance (h.locks.keep rfl rfl) here rfl rfl
    (fun q chan later => (dozes q chan later).imp_right And.right) wakes

theorem Holds.pass (h : Holds cfg s g) (todo : (s.cpu c).todo = op :: rest) (busy : op ≠ .unproc)
    (next : op.next (g c) = { g c with depth := n }) (depth : noff = n)
    (few : (g c).held.length ≤ n) (off : sie = true → n = 0) (goes : ¬op.Final (g c))
    (silent : ∀ chan q, passed cfg chan q rest → passed cfg chan q (op :: rest)) :
    Holds cfg (s.setCpu c ⟨(s.cpu c).proc, noff, intena, sie, rest, (s.cpu c).context⟩)
      (update g c { g c with depth := n }) := by
  have on := h.cpus c
  have plays := next ▸ (h.now todo).2.resolve_left goes
  exact h.move (on.alone (by simp [todo, busy])) depth few off plays
    (fun q chan later => .inl (todo ▸ List.mem_cons_of_mem op later))
    fun chan q guard done => h.wakes guard (todo ▸ silent chan q done)

theorem Holds.holding_iff (h : Holds cfg s g) :
    s.holding c lk = true ↔ lk ∈ (g c).held ∧ (g c).mark ≠ some lk := by
  have locked := h.locks.locked lk
  have cpu := h.locks.cpu lk c
  simp only [System.holding, Bool.and_eq_true, beq_iff_eq, locked, cpu]
  exact ⟨And.right, fun both => ⟨⟨c, both.1⟩, both⟩⟩

/-- A process whose lock a processor has, and which is not RUNNING, runs nowhere. -/
theorem Holds.off_of_held (h : Holds cfg s g) (held : .proc q ∈ (g c).held)
    (mine : (g c).self = some q → (g c).parked = none) (phase : (s.task q).phase ≠ .running)
    (d : Nat) : (g d).self ≠ some q := by
  intro self
  obtain ⟨-, runs, -⟩ := (h.cpus d).proc self
  cases parked : (g d).parked with
  | none => exact phase (by simpa [parked] using runs)
  | some phase' =>
    obtain ⟨p, same, lock⟩ := (h.cpus d).parked (by simp [parked])
    obtain rfl : p = q := Option.some.inj (same.symm.trans self)
    obtain rfl := h.locks.once lock held
    simp [mine self] at parked

theorem Holds.relock (h : Holds cfg s g) (todo : (s.cpu c).todo = op :: rest) (busy : op ≠ .unproc)
    (goes : ¬op.Final (g c)) (st : Stage) (next : op.next (g c) = st)
    (same : st.self = (g c).self ∧ st.parked = (g c).parked ∧ st.depth = (g c).depth) {v : Spinlock}
    (locks : Locks (update s.lock lk v) (update g c st)) (few : st.held.length ≤ st.depth)
    (mark : ∀ {lk}, st.mark = some lk → lk ∈ st.held)
    (keeps : (g c).parked.isSome → ∀ p, (g c).self = some p → .proc p ∈ (g c).held →
      .proc p ∈ st.held)
    (dozes : ∀ q chan, .doze q chan ∈ rest → .other (cfg.guard chan) ∈ (g c).held ∨
      .proc q ∈ (g c).held → .other (cfg.guard chan) ∈ st.held ∨ .proc q ∈ st.held)
    (wakes : ∀ chan q, .other (cfg.guard chan) ∈ st.held → passed cfg chan q rest →
      .other (cfg.guard chan) ∈ (g c).held ∧ passed cfg chan q (op :: rest)) :
    Holds cfg ((s.setCpu c { s.cpu c with todo := rest }).setLock lk v) (update g c st) := by
  have on := h.cpus c
  have plays := next ▸ (h.now todo).2.resolve_left goes
  have old : ∀ {q chan}, .doze q chan ∈ rest → .doze q chan ∈ (s.cpu c).todo := fun later =>
    todo ▸ List.mem_cons_of_mem op later
  have here : OnCpu cfg s.task { s.cpu c with todo := rest } st := by
    refine on.go (on.alone (by simp [todo, busy])) rfl rfl same.1 same.2.1
      (on.noff.trans same.2.2.symm) few (fun enabled => same.2.2.trans (on.off enabled))
      plays mark keeps ?_
    intro q chan later
    have before := on.dozes (old later)
    exact ⟨before.1, dozes q chan later before.2⟩
  refine h.advance locks here same.1 rfl (fun q chan later => .inl (old later)) ?_
  intro chan q guard done other
  obtain ⟨had, before⟩ := wakes chan q guard done
  exact h.wakes had (todo ▸ before) (same.1 ▸ other)

/-- The steps of `acquire` and `release` that touch the lock. -/
theorem Holds.lockStep (h : Holds cfg s g) (lk : Lock) (op : Op)
    (todo : (s.cpu c).todo = op :: rest)
    (touches : op = .swap lk ∨ op = .own lk ∨ op = .disown lk ∨ op = .unlock lk) :
    ∃ t g', s.exec cfg c rest op = .ok t ∧ Holds cfg t g' := by
  have on := h.cpus c
  have nodup := h.locks.nodup c
  have recorded := h.locks.cpu lk
  have locked := h.locks.locked lk
  have only : lk ∈ (g c).held → ∀ d, d ≠ c → lk ∉ (g d).held := fun held d other there =>
    other (h.locks.once there held)
  have ok := (h.now todo).1
  rcases touches with rfl | rfl | rfl | rfl
  · -- The test-and-set spins while the lock is taken, and else nobody has it.
    obtain ⟨unheld, mark, room, fresh⟩ := ok
    by_cases taken : (s.lock lk).locked = true
    · exact ⟨s, g, if_pos taken, h⟩
    have nobody : ∀ d, lk ∉ (g d).held := fun d there => taken (locked.mpr ⟨d, there⟩)
    refine ⟨_, _, if_neg taken, h.relock todo (by simp) (by simp [Op.Final]) _
      rfl ⟨rfl, rfl, rfl⟩ (h.locks.change ?_ ?_ ?_ (fun d _ => nobody d) ?_ ?_) ?_ ?_ ?_ ?_ ?_⟩
    · exact List.nodup_cons.mpr ⟨unheld, nodup⟩
    · simp +contextual [Op.next]
    · simp +contextual [Op.next, mark, eq_comm]
    · simp [Op.next]
    · simp [Op.next, recorded, nobody]
    · exact room
    · simp [Op.next]
    · simp +contextual [Op.next]
    · exact fun q chan _ => Or.imp (List.mem_cons_of_mem _) (List.mem_cons_of_mem _)
    · intro chan q guard done
      rcases List.mem_cons.mp guard with same | old
      · simp [fresh chan q same.symm] at done
      · exact ⟨old, done⟩
  · obtain ⟨mark, held⟩ := ok
    refine ⟨_, _, rfl, h.relock todo (by simp) (by simp [Op.Final]) _ rfl ⟨rfl, rfl, rfl⟩
      (h.locks.change nodup (fun _ _ => .rfl) ?_ (only held) ?_ ?_) on.few ?_ (fun _ _ _ => id)
      (fun _ _ _ => id) (fun _ _ => .intro)⟩
    · simp +contextual [Op.next, mark, eq_comm]
    · simpa [Op.next, held] using locked.mpr ⟨c, held⟩
    · simp [Op.next, held, eq_comm]
    · simp [Op.next]
  · obtain ⟨held, mark⟩ := ok
    refine ⟨_, _, rfl, h.relock todo (by simp) (by simp [Op.Final]) _ rfl ⟨rfl, rfl, rfl⟩
      (h.locks.change nodup (fun _ _ => .rfl) ?_ (only held) ?_ ?_) on.few ?_ (fun _ _ _ => id)
      (fun _ _ _ => id) (fun _ _ => .intro)⟩
    · simp +contextual [Op.next, mark, eq_comm]
    · simpa [Op.next, held] using locked.mpr ⟨c, held⟩
    · simp [Op.next]
    · simpa [Op.next] using held
  · -- Who is about to sleep keeps its own lock when it lets go the one of the channel.
    obtain ⟨mark, dozes, keeps⟩ := ok
    have held := on.mark mark
    have gone : lk ∉ (g c).held.erase lk := nodup.not_mem_erase
    refine ⟨_, _, rfl, h.relock todo (by simp) (by simp [Op.Final]) _ rfl ⟨rfl, rfl, rfl⟩
      (h.locks.change (nodup.erase lk) ?_ ?_ (only held) ?_ ?_) ?_ ?_ ?_ ?_ ?_⟩
    · exact fun other ne => List.mem_erase_of_ne ne
    · simp +contextual [Op.next, mark, eq_comm]
    · simp [Op.next, gone]
    · simp only [Op.next, gone, recorded, false_and, and_false, iff_false, not_and, not_not]
      intro d there
      rw [h.locks.once there held, mark]
    · exact Nat.le_trans List.length_erase_le on.few
    · simp [Op.next]
    · exact fun waits p self there => (List.mem_erase_of_ne (keeps waits p self).symm).mpr there
    · intro q chan later _
      obtain ⟨other, there⟩ := dozes q chan later
      exact .inr ((List.mem_erase_of_ne other.symm).mpr there)
    · intro chan q guard done
      have other : lk ≠ .other (cfg.guard chan) := fun same => gone (by rwa [same] at guard ⊢)
      exact ⟨List.mem_of_mem_erase guard, by simp [passed, other, done]⟩

/-- A process changes its own state or channel. -/
theorem Holds.own (h : Holds cfg s g) {x : Option Phase} (todo : (s.cpu c).todo = op :: rest)
    (self : (g c).self = some p) (held : .proc p ∈ (g c).held) (goes : ¬op.Final (g c)) (st : Stage)
    (next : op.next (g c) = st) (same : st = { g c with parked := x })
    (phase : t.phase = x.getD .running)
    (silent : ∀ chan q, passed cfg chan q rest → passed cfg chan q (op :: rest))
    (sleeps : ∀ chan, t.phase = .sleeping → t.chan = some chan → op = .doze p chan)
    (context : t.context = (s.task p).context) :
    Holds cfg ((s.setCpu c { s.cpu c with todo := rest }).setTask p t) (update g c st) := by
  have on := h.cpus c
  have plays := next ▸ (h.now todo).2.resolve_left goes
  have mine : ∀ q, (g c).self = some q → q = p := fun q eq => Option.some.inj (eq.symm.trans self)
  have later : ∀ q chan, .doze q chan ∈ rest → .doze q chan ∈ (s.cpu c).todo := fun q chan m =>
    todo ▸ List.mem_cons_of_mem op m
  have here : OnCpu cfg (update s.task p t) { s.cpu c with todo := rest } st := by
    subst same
    refine ⟨on.noff, on.few, on.off, plays, on.mark, fun _ => ⟨p, self, held⟩,
      fun {q} eq => ?_, fun none => ?_, fun m => on.dozes (later _ _ m)⟩
    · obtain ⟨proc, -, back⟩ := on.proc eq
      rw [mine q eq] at *
      simp only [update_self]
      exact ⟨proc, phase, back⟩
    · exact absurd (self.symm.trans none) (by simp)
  have selves : st.self = (g c).self := by rw [same]
  refine h.replace (h.locks.keep (by rw [same]) (by rw [same])) here
    (fun d ne eq => absurd (h.once eq self) ne) (fun _ => .inr held) (fun q => .inr ∘ mine q)
    (fun q eq => .inl (selves ▸ eq)) (fun nowhere => absurd (selves.trans self) ?_)
    (fun q chan m => .inl (later q chan m)) (fun chan asleep at_ => ?_) ?_
    ⟨h.saved.1 c, context ▸ h.saved.2 p⟩
  · simpa using nowhere c
  · rw [todo, sleeps chan asleep at_]
    exact .inr List.mem_cons_self
  · intro chan q guard done other
    rw [same] at guard other
    exact h.wakes guard (todo ▸ silent chan q done) other

/-- A process gives up its processor to the scheduler under it. -/
theorem Holds.schedStep (h : Holds cfg s g) (todo : (s.cpu c).todo = .sched p :: rest) :
    ∃ t g', s.exec cfg c rest (.sched p) = .ok t ∧ Holds cfg t g' := by
  have on := h.cpus c
  obtain ⟨⟨self, held, mark, depth, waits, resting, awake⟩, after⟩ := h.now todo
  obtain ⟨proc, phase, under, context, back⟩ := on.proc self
  have calm := h.saved.1 c
  have lock : .proc p ∈ (g c).held := by simp [held]
  obtain ⟨x, parked⟩ := Option.isSome_iff_exists.mp waits
  rw [parked] at phase resting
  have still : (s.task p).phase ≠ .running := fun eq =>
    resting (congrArg some (phase.symm.trans eq))
  -- None of the checks fails.
  have holds : s.holding c (.proc p) = true := h.holding_iff.mpr ⟨lock, by simp [mark]⟩
  have one : (s.cpu c).noff = 1 := on.noff.trans depth
  have disabled : (s.cpu c).sie = false := by
    by_contra enabled
    have := on.off (by simpa using enabled)
    omega
  refine ⟨_, update g c (resumed none p), (if_neg (by simp [holds])).trans
    ((if_neg (not_not_intro one)).trans ((if_neg still).trans (if_neg (by simp [disabled])))), ?_⟩
  have mine : ∀ q, (g c).self = some q → q = p := fun q eq => Option.some.inj (eq.symm.trans self)
  refine h.replace (h.locks.keep held.symm mark.symm) ?_ (fun d ne eq => absurd (h.once eq self) ne)
    (fun runs => absurd runs still) (fun q => .inr ∘ mine q) (by simp [resumed])
    (fun _ => ⟨still, fun _ alive => ?_⟩) (fun q chan later => absurd later (calm q chan))
    (fun chan asleep at_ => .inl ⟨asleep, at_⟩) (by simp [resumed])
    ⟨calm, fun q chan later => awake q chan (by simpa using later)⟩
  · -- The scheduler goes on with the lock of the process.
    refine ⟨one, Nat.le_refl 1, fun enabled => ?_, ?_, by simp [resumed], by simp [resumed],
      by simp [resumed], fun {q} _ at_ => ?_, fun {q chan} later => absurd later (calm q chan)⟩
    · simp [disabled] at enabled
    · simp only [context]
      exact ⟨rfl, .inr back⟩
    · obtain rfl : q = p := Option.some.inj (at_.symm.trans proc)
      simpa [context, resumed] using still
  · -- The process will go on where it is.
    have goes := after.resolve_left fun final =>
      alive (phase.trans (Option.some.inj (parked.symm.trans final)))
    refine ⟨trivial, .inr ?_⟩
    have same : Op.next (g c) (.sched p) = resumed (some p) p :=
      Stage.eq_resumed self held mark depth rfl
    exact same ▸ goes

/-- The scheduler gives its processor to a process. -/
theorem Holds.pickStep (h : Holds cfg s g) (todo : (s.cpu c).todo = .pick q :: rest) :
    ∃ t g', s.exec cfg c rest (.pick q) = .ok t ∧ Holds cfg t g' := by
  have on := h.cpus c
  obtain ⟨⟨self, held, ⟨mark, depth, parked⟩, awake⟩, after⟩ := h.now todo
  have lock : .proc q ∈ (g c).held := by simp [held]
  rw [held] at depth
  by_cases ready : (s.task q).phase = .runnable
  swap
  · exact ⟨_, _, if_neg ready, h.pass todo (by simp) rfl on.noff on.few on.off
      (by simp [Op.Final]) fun _ _ => id⟩
  have still : (s.task q).phase ≠ .running := by simp [ready]
  have off := h.off_of_held lock (fun _ => parked) still
  have goes := (h.away off).2 (by simp [ready]) (by simp [ready])
  have calm := h.saved.2 q
  refine ⟨_, update g c (resumed (some q) q), if_pos ready, ?_⟩
  refine h.replace (h.locks.keep held.symm mark.symm) ?_ (fun d _ eq => absurd eq (off d))
    (fun _ => .inr lock) (by simp [self]) (fun p eq => .inr (Option.some.inj eq ▸ off))
    (fun nowhere => absurd (nowhere c) (by simp [resumed]))
    (fun p chan later => absurd later (calm p chan)) (by simp) (by simp [resumed])
    ⟨fun p chan later => awake p chan (by simpa using later), calm⟩
  -- The process goes on with its lock, and the scheduler waits under it.
  refine ⟨on.noff.trans depth, Nat.le_refl 1, fun enabled => ?_, goes, by simp [resumed],
    by simp [resumed], fun {p} eq => ?_, by simp [resumed], fun {p chan} later => ?_⟩
  · have := on.off enabled
    simp [depth] at this
  · obtain rfl : q = p := Option.some.inj eq
    refine ⟨rfl, by simp [resumed], rest, rfl, ?_⟩
    rw [← Stage.eq_resumed self held mark depth parked]
    exact after.resolve_left id
  · exact absurd later (calm p chan)

/-- A slot that `wakeup` comes to is looked at with its lock held. -/
theorem plays_visit {g : Stage} (few : q + 1 ≤ cfg.nproc) (other : some q ≠ g.self)
    (ok : Op.Ok cfg g rest (.wakeup chan q)) (plays : Plays cfg g rest) :
    Plays cfg g (acquire (.proc q) ++
      .rouse q chan :: (release (.proc q) ++ .wakeup chan (q + 1) :: rest)) := by
  obtain ⟨-, guard, settled, alone, awake, fresh⟩ := ok
  have free : .proc q ∉ g.held := alone q other
  refine plays_acquire free settled (by simp) ⟨⟨other, List.mem_cons_self,
    List.mem_cons_of_mem _ guard⟩, .inr ?_⟩
  refine plays_release List.mem_cons_self settled.1 (by simp [Op.next, settled.2.1])
    (fun r ch later => ?_) (by simp [Op.next, settled.2.2]) ?_
  · simp only [List.mem_cons, reduceCtorEq, false_or] at later
    exact absurd later (awake r ch)
  · simp only [Op.next, List.erase_cons_head]
    exact ⟨⟨few, guard, settled, alone, awake, fresh⟩, .inr plays⟩

theorem Holds.wakeupStep (h : Holds cfg s g) (todo : (s.cpu c).todo = .wakeup chan q :: rest) :
    ∃ t g', s.exec cfg c rest (.wakeup chan q) = .ok t ∧ Holds cfg t g' := by
  have on := h.cpus c
  obtain ⟨ok, after⟩ := h.now todo
  have plays : Plays cfg (g c) rest := after.resolve_left id
  have busy := on.alone (by simp [todo])
  obtain ⟨below, guard, settled, alone, awake, fresh⟩ := id ok
  have elsewhere : ∀ {ch r}, ch ≠ chan → passed cfg ch r (s.cpu c).todo = passed cfg ch r rest :=
    fun ne => by simp [todo, passed, ne.symm]
  by_cases done : cfg.nproc ≤ q
  · refine ⟨_, _, if_pos done, h.move busy on.noff on.few on.off plays
      (fun r ch later => absurd later (awake r ch)) fun ch r lock past => ?_⟩
    by_cases same : ch = chan
    · simp [same, fresh] at past
    · exact h.wakes lock ((elsewhere same).trans past)
  by_cases mine : (s.cpu c).proc = some q
  · -- The process that wakes others is passed over.
    have self := on.self_eq busy mine
    refine ⟨_, _, (if_neg done).trans (if_pos mine), h.move busy on.noff on.few on.off
      ⟨⟨by omega, guard, settled, alone, awake, fresh⟩, .inr plays⟩ (fun r ch later => ?_)
      fun ch r lock past other => ?_⟩
    · simp only [List.mem_cons, reduceCtorEq, false_or] at later
      exact absurd later (awake r ch)
    · refine h.wakes lock ?_ other
      have ne : r ≠ q := fun eq => other (eq ▸ self)
      simp only [todo, passed] at past ⊢
      split at past
      · rename_i same
        rw [if_pos same]
        simp only [decide_eq_true_eq] at past ⊢
        omega
      · rename_i same
        rwa [if_neg same]
  · have other : some q ≠ (g c).self := fun eq => mine (on.proc eq.symm).1
    refine ⟨_, _, (if_neg done).trans (if_neg mine), h.move busy on.noff on.few on.off
      (plays_visit (by omega) other ok plays) (fun r ch later => ?_) fun ch r lock past => ?_⟩
    · simp [acquire, release] at later
      exact absurd later (awake r ch)
    · refine h.wakes lock ?_
      simp only [todo, passed, acquire, release, List.cons_append, List.nil_append] at past ⊢
      by_cases same : chan = ch
      · simp [same] at past ⊢
        omega
      · simpa [same] using past

theorem Holds.roused (h : Holds cfg s g) (todo : (s.cpu c).todo = .rouse q chan :: rest)
    (quiet : (s.task q).phase = .sleeping → (s.task q).chan ≠ some chan) :
    ∃ g', Holds cfg (s.setCpu c { s.cpu c with todo := rest }) g' := by
  have on := h.cpus c
  obtain ⟨⟨other, held, guard⟩, after⟩ := h.now todo
  refine ⟨_, h.move (on.alone (by simp [todo])) on.noff on.few on.off (after.resolve_left id)
    (fun r ch later => .inl (todo ▸ List.mem_cons_of_mem _ later)) fun ch r lock past ne => ?_⟩
  by_cases same : q = r ∧ chan = ch
  · -- Nobody else can put the process to sleep: its lock and the one of the channel are here.
    obtain ⟨rfl, rfl⟩ := same
    refine ⟨quiet, fun d dozing => ?_⟩
    obtain ⟨self, has⟩ := (h.cpus d).dozes dozing
    obtain rfl : d = c := has.elim (h.locks.once · guard) (h.locks.once · held)
    exact other self.symm
  · refine h.wakes lock ?_ ne
    simp only [todo, passed, past, Bool.and_true, Bool.not_eq_true', Bool.and_eq_false_iff,
      beq_eq_false_iff_ne]
    tauto

theorem Away.runnable (away : Away cfg q t) (asleep : t.phase = .sleeping) :
    Away cfg q { t with phase := .runnable } :=
  ⟨by simp, fun _ _ => away.2 (by simp [asleep]) (by simp [asleep])⟩

/-- A new process starts in `forkret` with its lock held. -/
theorem away_fresh (phase : t.phase ≠ .running) (context : t.context = release (.proc q)) :
    Away cfg q t := by
  refine ⟨phase, fun _ _ => ?_⟩
  rw [context]
  exact plays_release (by simp [resumed]) rfl (by simp [resumed]) (by simp) (by simp [resumed])
    (by simp [Plays, Stage.Settled, resumed])

/-- Whatever a thread does next, it does not panic and the system stays as the threads have it. -/
theorem Holds.exec (h : Holds cfg s g) (op : Op) (todo : (s.cpu c).todo = op :: rest) :
    ∃ t g', s.exec cfg c rest op = .ok t ∧ Holds cfg t g' := by
  have on := h.cpus c
  have few := on.few
  have noff := on.noff
  obtain ⟨ok, after⟩ := h.now todo
  cases op with
  | swap lk => exact h.lockStep lk _ todo (by simp)
  | own lk => exact h.lockStep lk _ todo (by simp)
  | disown lk => exact h.lockStep lk _ todo (by simp)
  | unlock lk => exact h.lockStep lk _ todo (by simp)
  | sched p => exact h.schedStep todo
  | pick q => exact h.pickStep todo
  | wakeup chan q => exact h.wakeupStep todo
  | zombieExit => exact ok.elim
  | pushOff =>
    exact ⟨_, _, rfl, h.pass todo (by simp) rfl (congrArg (· + 1) noff)
      (Nat.le_succ_of_le few) (by simp) id fun _ _ => id⟩
  | popOff =>
    have deep : (g c).held.length < (g c).depth := ok
    have disabled : ¬(s.cpu c).sie = true := fun enabled => by
      have := on.off enabled
      omega
    refine ⟨_, _, (if_neg disabled).trans (if_neg (by simp only [noff]; omega)),
      h.pass todo (by simp) rfl (congrArg (· - 1) noff) (by omega) ?_ id fun _ _ => id⟩
    simp +contextual [noff]
  | unheld lk =>
    exact ⟨_, _, if_neg (fun held => ok (h.holding_iff.mp held).1),
      h.pass todo (by simp) rfl noff few on.off id fun _ _ => id⟩
  | held lk =>
    exact ⟨_, _, if_pos (h.holding_iff.mpr ⟨ok.1, by simp [ok.2]⟩),
      h.pass todo (by simp) rfl noff few on.off id fun _ _ => id⟩
  | intena enabled =>
    exact ⟨_, _, rfl, h.pass todo (by simp) rfl noff few on.off id
      fun _ _ => id⟩
  | intrOff =>
    exact ⟨_, _, rfl, h.pass todo (by simp) rfl noff few (by simp) id
      fun _ _ => id⟩
  | intrOn =>
    exact ⟨_, _, rfl, h.pass todo (by simp) rfl noff few (fun _ => ok) id
      fun _ _ => id⟩
  | become p phase =>
    obtain ⟨self, held, -, states⟩ := ok
    exact ⟨_, _, rfl, h.own (x := some phase) todo self held id _ rfl rfl rfl (fun _ _ => id)
      (fun chan asleep => by rcases states with rfl | rfl <;> simp at asleep) rfl⟩
  | doze p chan =>
    obtain ⟨self, held, -⟩ := ok
    exact ⟨_, _, rfl, h.own (x := some .sleeping) todo self held id _ rfl rfl rfl (fun _ _ => id)
      (fun ch _ at_ => by rw [Option.some.inj at_]) rfl⟩
  | undoze p =>
    obtain ⟨self, held, parked⟩ := ok
    refine ⟨_, _, rfl, h.own (x := none) todo self held id _ rfl (by rw [← parked]; rfl) ?_
      (fun _ _ => id) (by simp) rfl⟩
    have runs := (on.proc self).2.1
    rwa [parked] at runs
  | rouse q chan =>
    by_cases asleep : (s.task q).phase = .sleeping ∧ (s.task q).chan = some chan
    · have off := h.off_of_held ok.2.1 (fun eq => absurd eq.symm ok.1) (by simp [asleep.1])
      have woken := h.change off ((h.away off).runnable asleep.1) (by simp) (h.saved.2 q)
      obtain ⟨g', holds⟩ := woken.roused todo (by simp [System.setTask])
      exact ⟨_, g', if_pos asleep, holds⟩
    · obtain ⟨g', holds⟩ := h.roused todo fun phase at_ => asleep ⟨phase, at_⟩
      exact ⟨_, g', if_neg asleep, holds⟩
  | kill q =>
    by_cases asleep : (s.task q).phase = .sleeping
    · have off := h.off_of_held ok.1 (fun _ => ok.2) (by simp [asleep])
      have woken := h.change off ((h.away off).runnable asleep) (by simp) (h.saved.2 q)
      exact ⟨_, _, if_pos asleep, woken.pass todo (by simp) rfl noff few on.off id
        fun _ _ => id⟩
    · exact ⟨_, _, if_neg asleep, h.pass todo (by simp) rfl noff few on.off id
        fun _ _ => id⟩
  | alloc q =>
    -- A slot that is in use is let go and the caller looks at the next one.
    obtain ⟨held, settled, rfl⟩ := ok
    by_cases free : (s.task q).phase = .unused
    · have off := h.off_of_held held (fun _ => settled.2.2) (by simp [free])
      have taken := h.change off (t := { s.task q with
          phase := .used, context := release (.proc q) })
        (away_fresh (by simp) rfl) (by simp) (by simp [Awake, release])
      exact ⟨_, _, if_pos free, taken.pass todo (by simp) rfl noff few on.off id
        fun _ _ => id⟩
    · refine ⟨_, _, if_neg free, h.move (on.alone (by simp [todo])) noff few on.off
        (plays_release held settled.1 few (by simp) (by simp [settled.2.2]) ?_)
        (by simp [release]) (by simp [release, passed])⟩
      exact ⟨settled.1, by simp [List.length_erase_of_mem held, settled.2.1], settled.2.2⟩
  | scan q =>
    obtain ⟨self, held, settled, rfl⟩ := ok
    by_cases done : cfg.nproc ≤ q
    · refine ⟨_, _, if_pos done, h.move (on.alone (by simp [todo])) noff few on.off ?_
        (by simp [scheduler]) (by simp [held])⟩
      have zero : (g c).depth = 0 := by simp [settled.2.1, held]
      exact ⟨zero, .inr ⟨trivial, .inr ⟨⟨self, held, settled, rfl⟩, .inr settled⟩⟩⟩
    · refine ⟨_, _, if_neg done, h.move (on.alone (by simp [todo])) noff few on.off
        (plays_acquire (by simp [held]) settled (by simp) ⟨⟨self, by simp [held],
          ⟨settled.1, by simp [settled.2.1], settled.2.2⟩, by simp [Awake, release]⟩, .inr ?_⟩)
        (by simp [acquire, release]) (by simp [held])⟩
      refine plays_release List.mem_cons_self settled.1 (by simp [Op.next, settled.2.1]) (by simp)
        (by simp [Op.next, settled.2.2]) ?_
      simp only [Op.next, List.erase_cons_head]
      exact ⟨⟨self, held, settled, rfl⟩, .inr settled⟩
  | unproc =>
    have self : (g c).self = none := ok
    refine ⟨_, _, rfl, h.advance (h.locks.keep rfl rfl) ?_ rfl rfl
      (fun q chan later => .inl (todo ▸ List.mem_cons_of_mem _ later)) fun ch r lock past =>
        h.wakes lock (todo ▸ past)⟩
    exact { on with
      plays := after.resolve_left id
      proc := fun eq => absurd (self.symm.trans eq) (by simp)
      left := by simp
      dozes := fun later => on.dozes (todo ▸ List.mem_cons_of_mem _ later) }

end Xv6.Sched
