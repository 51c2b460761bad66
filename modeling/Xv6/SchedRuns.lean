import Xv6.SchedSteps

/-! Runs of the processors: calls, interrupts and what holds in every state that is reached. -/

namespace Xv6.Sched

open Function (update update_self update_of_ne update_eq_self)
variable {cfg : Config} {s : System} {g : Nat → Stage} {c : Nat} {rest : List Op}

theorem plays_yield {g : Stage} {p : Nat} (self : g.self = some p) (empty : g.held = [])
    (settled : g.Settled) (awake : Awake rest) (plays : Plays cfg g rest) :
    Plays cfg g (yield p ++ rest) := by
  obtain ⟨mark, depth, parked⟩ := id settled
  have asleep : Awake (release (.proc p) ++ rest) := fun q chan later => by
    simp only [release, List.cons_append, List.mem_cons, reduceCtorEq, false_or]
      at later
    exact awake q chan later
  have ready : { g with held := [.proc p], depth := g.depth + 1, parked := some .runnable } =
      Op.next { g with held := .proc p :: g.held, depth := g.depth + 1 } (.become p .runnable) := by
    rw [Op.next, empty]
  refine plays_acquire (by simp [empty]) settled (by simp) ⟨⟨self, by simp, parked, by simp⟩,
    .inr ⟨?_, .inr (plays_release ?_ mark ?_ (fun q chan later => absurd later (awake q chan))
      (by simp [Op.next]) ?_)⟩⟩
  · rw [← ready]
    exact ⟨self, rfl, mark, by simp [depth, empty], rfl, by simp, asleep⟩
  · simp [Op.next]
  · simp [Op.next, depth]
  · simpa [Op.next, ← parked] using plays

theorem plays_device {g : Stage} {dev : Device} (empty : g.held = []) (settled : g.Settled)
    (guards : ∀ chan ∈ dev.chans, cfg.guard chan = dev.lock) (awake : Awake rest)
    (plays : Plays cfg g rest) : Plays cfg g (dev.code ++ rest) ∧ Awake (dev.code ++ rest) := by
  -- The induction is on the channels, with the lock of the device held.
  have woken : ∀ chans : List Nat, (∀ chan ∈ chans, cfg.guard chan = dev.lock) →
      Plays cfg { g with held := [.other dev.lock], depth := g.depth + 1 }
        (chans.map (fun chan => .wakeup chan 0) ++ (release (.other dev.lock) ++ rest)) ∧
      Awake (chans.map (fun chan => .wakeup chan 0) ++ (release (.other dev.lock) ++ rest)) ∧
      ∀ chan q, cfg.guard chan = dev.lock → passed cfg chan q
        (chans.map (fun chan => .wakeup chan 0) ++ (release (.other dev.lock) ++ rest)) = false := by
    intro chans
    induction chans with
    | nil =>
      refine fun _ => ⟨plays_release (by simp) settled.1 (by simp [settled.2.1])
        (fun q ch later => absurd later (awake q ch)) (by simp) (by simpa [← empty] using plays),
        fun q ch later => awake q ch (by simpa [release] using later), ?_⟩
      simp +contextual [release, passed]
    | cons chan chans ih =>
      intro guards
      obtain ⟨goes, calm, fresh⟩ := ih fun ch there => guards ch (List.mem_cons_of_mem _ there)
      have mine := guards chan List.mem_cons_self
      refine ⟨⟨⟨Nat.zero_le _, by simp [mine], ⟨settled.1, by simp [settled.2.1, empty],
        settled.2.2⟩, by simp, calm, fun q => fresh chan q mine⟩, .inr goes⟩, ?_, ?_⟩
      · exact fun q ch later => calm q ch (by simpa using later)
      · intro ch q same
        simp only [List.map_cons, List.cons_append, passed]
        split
        · simp
        · exact fresh ch q same
  obtain ⟨goes, calm, fresh⟩ := woken dev.chans guards
  rw [Device.code, List.append_assoc, List.append_assoc]
  refine ⟨plays_acquire (by simp [empty]) settled (fun ch q same => ?_) (by rwa [empty]), ?_⟩
  · exact fresh ch q (Lock.other.inj same).symm
  · exact fun q ch later => calm q ch (by simpa [acquire] using later)

theorem plays_kerneltrap {g : Stage} {yielding : Option Nat} (empty : g.held = [])
    (settled : g.Settled) (self : ∀ p, yielding = some p → g.self = some p) (awake : Awake rest)
    (plays : Plays cfg g rest) : ∀ devices : List Device,
      (∀ dev ∈ devices, ∀ chan ∈ dev.chans, cfg.guard chan = dev.lock) →
      Plays cfg g (kerneltrap devices yielding ++ rest) ∧
        Awake (kerneltrap devices yielding ++ rest) := by
  intro devices
  have zero : g.depth = 0 := settled.2.1.trans (by simp [empty])
  have last : Plays cfg g (.intrOn :: rest) ∧ Awake (.intrOn :: rest) :=
    ⟨⟨zero, .inr plays⟩, by simpa [Awake] using awake⟩
  induction devices with
  | nil =>
    intro _
    cases yielding with
    | none => exact last
    | some p =>
      simp only [kerneltrap]
      refine ⟨plays_yield (self p rfl) empty settled last.2 last.1, fun q chan later => ?_⟩
      exact last.2 q chan (by simpa [yield, acquire, release] using later)
  | cons dev devices ih =>
    intro guards
    obtain ⟨goes, calm⟩ := ih fun other there => guards other (List.mem_cons_of_mem _ there)
    have unfolded : kerneltrap (dev :: devices) yielding ++ rest =
        dev.code ++ (kerneltrap devices yielding ++ rest) := by
      simp [kerneltrap]
    rw [unfolded]
    exact plays_device empty settled (guards dev List.mem_cons_self) calm goes

theorem Holds.idle (h : Holds cfg s g) {p : Nat} (proc : (s.cpu c).proc = some p)
    (todo : (s.cpu c).todo = []) : (g c).self = some p ∧ (g c).Settled := by
  have on := h.cpus c
  have settled := on.plays
  rw [todo] at settled
  exact ⟨on.self_eq (on.alone (by simp [todo])) proc, settled⟩

theorem Holds.plays_code (h : Holds cfg s g) {p : Nat} {call : Call} (self : (g c).self = some p)
    (settled : (g c).Settled) (fits : s.Fits cfg c p call) :
    Plays cfg (g c) (call.code cfg p) := by
  have holds : ∀ lk, s.holding c lk = true ↔ lk ∈ (g c).held := fun lk => by
    simp [h.holding_iff, settled.1]
  have noff := (h.cpus c).noff
  obtain ⟨mark, depth, parked⟩ := id settled
  have grown : ∀ lk, { g c with held := lk :: (g c).held, depth := (g c).depth + 1 }.Settled :=
    fun lk => ⟨mark, by simp [depth], parked⟩
  have alone : ∀ lk, (g c).depth = 1 → lk ∈ (g c).held → (g c).held = [lk] := fun lk one there => by
    obtain ⟨other, eq⟩ := List.length_eq_one_iff.mp (depth.symm.trans one)
    rw [eq] at there ⊢
    rw [List.mem_singleton.mp there]
  cases call with
  | acquire lk =>
    have free : lk ∉ (g c).held := fun there => fits ((holds lk).mpr there)
    exact plays_acquire free settled (by simp [passed]) (grown lk)
  | release lk =>
    have held := (holds lk).mp fits
    exact plays_release held mark (Nat.le_of_eq depth.symm) (by simp) (by simp [parked])
      ⟨mark, by simp [depth, List.length_erase_of_mem held], parked⟩
  | yield =>
    have none : (g c).held = [] :=
      List.length_eq_zero_iff.mp (depth.symm.trans (noff.symm.trans fits))
    exact plays_yield self none settled (by simp [Awake]) settled
  | sleep chan =>
    -- The lock of the process is taken before the one of the channel is let go.
    have only := alone _ (noff.symm.trans fits.1) ((holds _).mp fits.2)
    refine plays_acquire (by simp [only]) settled (by simp) (plays_release (by simp [only]) mark
      (by simp [depth]) (by simp +contextual [Sched.acquire, Sched.release]) (by simp)
      ⟨⟨self, by simp, parked⟩, .inr ⟨⟨self, by simp [Op.next, only], mark,
        by simp [Op.next, depth, only], by simp [Op.next], by simp [Op.next],
        by simp [Awake, Sched.acquire, Sched.release]⟩, .inr ⟨⟨self, by simp [Op.next], rfl⟩,
          .inr ?_⟩⟩⟩)
    refine plays_release (by simp [Op.next]) mark (by simp [Op.next, depth, only])
      (by simp [Sched.acquire]) (by simp [Op.next]) ?_
    exact plays_acquire (by simp [Op.next, only]) ⟨mark, by simp [Op.next, depth, only], rfl⟩
      (by simp [passed]) ⟨mark, by simp [Op.next, depth, only], rfl⟩
  | wakeup chan =>
    refine ⟨⟨Nat.zero_le _, (holds _).mp fits.1, settled, fun r other there => ?_, by simp [Awake],
      by simp [passed]⟩, .inr settled⟩
    exact fits.2 r (fun eq => other (eq ▸ self.symm)) ((holds _).mpr there)
  | kill q =>
    have free : .proc q ∉ (g c).held := fun there => fits ((holds _).mpr there)
    refine plays_acquire free settled (by simp) ⟨⟨by simp, parked⟩, .inr ?_⟩
    exact plays_release (by simp [Op.next]) mark (by simp [Op.next, depth]) (by simp)
      (by simp [Op.next, parked]) ⟨mark, by simp [Op.next, depth], parked⟩
  | alloc q =>
    have free : .proc q ∉ (g c).held := fun there => fits ((holds _).mpr there)
    exact plays_acquire free settled (by simp) ⟨⟨by simp, grown _, rfl⟩, .inr (grown _)⟩
  | exit =>
    -- The zombie never comes back from `sched`, so the panic behind it is not reached.
    have only := alone _ (noff.symm.trans fits.1) ((holds _).mp fits.2)
    refine plays_acquire (by simp [only]) settled (by simp) ⟨⟨self, by simp, parked, by simp⟩,
      .inr (plays_release (by simp [Op.next, only]) mark (by simp [Op.next, depth]) (by simp)
        (by simp) ?_)⟩
    exact ⟨⟨self, by simp [Op.next, only], mark, by simp [Op.next, depth, only], by simp [Op.next],
        by simp [Op.next], by simp [Awake]⟩, .inl rfl⟩
  | intrOn => exact ⟨noff.symm.trans fits, .inr settled⟩
  | intrOff => exact ⟨trivial, .inr settled⟩
  | ready q => exact settled
  | free q => exact settled

/-- Whatever happens next, nothing panics and the system stays as the threads have it. -/
theorem Holds.step (h : Holds cfg s g) (e : Event) (allowed : s.Allowed cfg e) :
    ∃ t g', s.step cfg e = .ok t ∧ Holds cfg t g' := by
  cases e with
  | run c =>
    cases todo : (s.cpu c).todo with
    | nil => exact ⟨s, g, by simp [System.step, todo], h⟩
    | cons op rest =>
      obtain ⟨t, g', runs, holds⟩ := h.exec op todo
      exact ⟨t, g', by simpa [System.step, todo] using runs, holds⟩
  | interrupt c devices timer =>
    have on := h.cpus c
    by_cases enabled : (s.cpu c).sie = true
    swap
    · exact ⟨s, g, if_neg enabled, h⟩
    have zero := on.off enabled
    have empty : (g c).held = [] := List.length_eq_zero_iff.mp (by have := on.few; omega)
    have settled : (g c).Settled := by
      refine ⟨?_, by simp [zero, empty], ?_⟩
      · by_contra marked
        obtain ⟨lk, mark⟩ := Option.ne_none_iff_exists'.mp marked
        simpa [empty] using on.mark mark
      · by_contra waits
        obtain ⟨p, -, there⟩ := on.parked (Option.isSome_iff_ne_none.mpr waits)
        simp [empty] at there
    have awake : Awake (s.cpu c).todo := fun q chan later => by
      simpa [empty] using (on.dozes later).2
    have alone : (g c).self = none → (s.cpu c).proc = none := fun self => by
      by_contra there
      obtain ⟨p, proc⟩ := Option.ne_none_iff_exists'.mp there
      simpa [empty] using (on.left self proc).2.1
    have self : ∀ p, (if timer then (s.cpu c).proc else none) = some p → (g c).self = some p := by
      intro p picked
      cases timer with
      | true => exact on.self_eq alone (by simpa using picked)
      | false => simp at picked
    have trap := plays_kerneltrap empty settled self awake on.plays devices allowed
    exact ⟨_, _, if_pos enabled, h.move alone on.noff on.few (by simp)
      trap.1 (fun q chan later => absurd later (trap.2 q chan)) (by simp [empty])⟩
  | call c call =>
    obtain ⟨p, proc, todo, fits⟩ := allowed
    have on := h.cpus c
    obtain ⟨self, settled⟩ := h.idle proc todo
    have plays := h.plays_code self settled fits
    have start : (∀ q chan, .doze q chan ∈ call.code cfg p →
        q = p ∧ .other (cfg.guard chan) ∈ (g c).held) →
        (∀ chan q, ¬passed cfg chan q (call.code cfg p)) → ∃ g', Holds cfg (s.setCpu c
          { s.cpu c with todo := (s.cpu c).proc.elim [] (call.code cfg) }) g' := by
      intro dozes passes
      rw [show (s.cpu c).proc.elim [] (call.code cfg) = call.code cfg p by rw [proc]; rfl]
      exact ⟨_, h.move (on.alone (by simp [todo])) on.noff on.few on.off plays
        (fun q chan later => .inr ⟨(dozes q chan later).1 ▸ self, (dozes q chan later).2⟩)
        fun chan q _ done => absurd done (passes chan q)⟩
    have off : ∀ q, s.holding c (.proc q) → (s.task q).phase ≠ .running →
        ∀ d, (g d).self ≠ some q :=
      fun q held => h.off_of_held (h.holding_iff.mp held).1 fun _ => settled.2.2
    cases call with
    | ready q =>
      have nowhere := off q fits.1 (by simp [fits.2])
      have away := (h.away nowhere).2 (by simp [fits.2]) (by simp [fits.2])
      exact ⟨_, _, rfl, h.change nowhere ⟨by simp, fun _ _ => away⟩ (by simp) (h.saved.2 q)⟩
    | free q =>
      have nowhere := off q fits.1 (by rcases fits.2 with eq | eq <;> simp [eq])
      exact ⟨_, _, rfl, h.change nowhere ⟨by simp, by simp⟩ (by simp) (h.saved.2 q)⟩
    | sleep chan =>
      have dozes : ∀ q ch, .doze q ch ∈ (Call.sleep chan).code cfg p →
          q = p ∧ .other (cfg.guard ch) ∈ (g c).held := fun q ch later => by
        simp only [Call.code, sleep, Sched.acquire, Sched.release, List.cons_append,
          List.nil_append, List.mem_cons, reduceCtorEq, List.not_mem_nil, or_false,
          false_or] at later
        obtain ⟨rfl, rfl⟩ := later
        exact ⟨rfl, (h.holding_iff.mp fits.2).1⟩
      obtain ⟨g', holds⟩ := start dozes (by
        simp [Call.code, sleep, Sched.acquire, Sched.release, passed])
      exact ⟨_, g', rfl, holds⟩
    | _ =>
      obtain ⟨g', holds⟩ := start (by
          simp [Call.code, yield, kkill, kexit, Sched.acquire, Sched.release])
        (by simp [Call.code, yield, kkill, kexit, Sched.acquire, Sched.release, passed])
      exact ⟨_, g', rfl, holds⟩

def Event.cpu : Event → Nat
  | .run c | .call c _ | .interrupt c _ _ => c

/-- No other processor changes a lock that is held. -/
theorem Holds.exclusive (h : Holds cfg s g) {lk : Lock} (held : s.holding c lk = true) {e : Event}
    {t : System} (other : e.cpu ≠ c) (step : s.step cfg e = .ok t) : t.lock lk = s.lock lk := by
  have mine := (h.holding_iff.mp held).1
  have locked : (s.lock lk).locked = true := (h.locks.locked lk).mpr ⟨c, mine⟩
  cases e with
  | run d =>
    cases todo : (s.cpu d).todo with
    | nil =>
      simp only [System.step, todo, List.head?_nil, Option.elim_none, Except.ok.injEq] at step
      rw [step]
    | cons op rest =>
      simp only [System.step, todo, List.head?_cons, Option.elim_some] at step
      -- What another thread releases or records is a lock that it has.
      have theirs : ∀ lk', lk' ∈ (g d).held → lk ≠ lk' := fun lk' there same =>
        other (h.locks.once (same ▸ there) mine)
      have ok := (h.now todo).1
      cases op with
      | own lk' =>
        cases step
        simp [System.setLock, System.setCpu, theirs lk' ok.2]
      | disown lk' =>
        cases step
        simp [System.setLock, System.setCpu, theirs lk' ok.1]
      | unlock lk' =>
        cases step
        simp [System.setLock, System.setCpu, theirs lk' ((h.cpus d).mark ok.1)]
      | swap lk' =>
        simp only [System.exec] at step
        split at step <;> cases step
        · rfl
        · rename_i free
          have ne : lk ≠ lk' := fun same => free (same ▸ locked)
          simp [System.setLock, System.setCpu, ne]
      | _ =>
        simp only [System.exec] at step
        (repeat' split at step) <;> cases step <;> rfl
  | interrupt d chans timer =>
    simp only [System.step] at step
    split at step <;> cases step <;> rfl
  | call d call => cases call <;> cases step <;> rfl

theorem holds_boot : Holds cfg boot fun _ => ⟨none, [], none, 0, none⟩ := by
  have settled : Stage.Settled ⟨none, [], none, 0, none⟩ := ⟨rfl, rfl, rfl⟩
  refine ⟨⟨by simp, by simp, by simp [boot], by simp [boot]⟩, fun c => ?_, by simp, ?_, by simp,
    by simp [boot, Awake], fun p => ?_⟩
  · exact ⟨rfl, Nat.le_refl 0, by simp, ⟨rfl, .inr ⟨trivial, .inr ⟨⟨rfl, rfl, settled, rfl⟩,
      .inr settled⟩⟩⟩, by simp, by simp, by simp, by simp [boot], by simp [boot, scheduler]⟩
  · intro p _
    by_cases first : p = Tree.initproc
    · subst first
      exact away_fresh (by simp [boot]) (by simp [boot])
    · simp [boot, first, Away]
  · by_cases first : p = Tree.initproc <;> simp [boot, first, Awake, release]

theorem holds_of_run {events : List Event} (run : Trace.Run (System.Step cfg) boot events s) :
    ∃ g, Holds cfg s g := by
  refine run.invariant (fun s => ∃ g, Holds cfg s g) ?_ ⟨_, holds_boot⟩
  rintro s e t ⟨g, h⟩ ⟨allowed, step⟩
  obtain ⟨u, g', same, holds⟩ := h.step e allowed
  rw [Except.ok.inj (step.symm.trans same)]
  exact ⟨g', holds⟩

def System.Calm (cfg : Config) (s : System) : Prop :=
  ∀ e, s.Allowed cfg e → ∃ t, s.step cfg e = .ok t

def System.Exclusive (cfg : Config) (s : System) : Prop :=
  ∀ c lk, s.holding c lk = true → (s.cpu c).sie = false ∧
    ∀ e t, e.cpu ≠ c → s.step cfg e = .ok t → t.lock lk = s.lock lk

def System.Seated (s : System) : Prop :=
  (∀ c d p, (s.cpu c).proc = some p → (s.cpu d).proc = some p → c = d) ∧
    ∀ p, (s.task p).phase = .running → ∃ c, (s.cpu c).proc = some p

def visit (chan q : Nat) : List Op := acquire (.proc q) ++ .rouse q chan :: release (.proc q)

structure System.Clear (s : System) (chan q : Nat) : Prop where
  awake : (s.task q).phase = .sleeping → (s.task q).chan ≠ some chan
  runs : ∀ d, .doze q chan ∉ (s.cpu d).todo
  saved : ∀ p, .doze q chan ∉ (s.task p).context
  under : ∀ d, .doze q chan ∉ (s.cpu d).context

def System.Rouses (s : System) : Prop :=
  ∀ c chan pre k rest, (s.cpu c).todo = pre ++ .wakeup chan k :: rest →
    pre <:+ visit chan (k - 1) → ∀ q < k, .rouse q chan ∉ pre → (s.cpu c).proc ≠ some q →
      s.Clear chan q

section Visit

variable {chan j k q : Nat} {pre : List Op}

theorem passed_visit (part : ∀ op ∈ pre, op ∈ visit chan j) (below : q < k)
    (done : .rouse q chan ∉ pre) : passed cfg chan q (pre ++ .wakeup chan k :: rest) = true := by
  induction pre with
  | nil => simp [passed, below]
  | cons op pre ih =>
    have rest := ih (fun op there => part op (List.mem_cons_of_mem _ there))
      fun there => done (List.mem_cons_of_mem _ there)
    have here := part op List.mem_cons_self
    simp only [visit, acquire, release, List.cons_append, List.nil_append, List.mem_cons,
      List.not_mem_nil, or_false] at here
    rcases here with rfl | rfl | rfl | rfl | rfl | rfl | rfl | rfl | rfl <;>
      simp_all [passed]
    exact Ne.symm done.1

/-- The lock of the channel is held all the time. -/
theorem guard_of_visit {g : Stage} (part : ∀ op ∈ pre, op ∈ visit chan j)
    (plays : Plays cfg g (pre ++ .wakeup chan k :: rest)) : .other (cfg.guard chan) ∈ g.held := by
  induction pre generalizing g with
  | nil => exact plays.1.2.1
  | cons op pre ih =>
    have rest := fun final => ih (fun op there => part op (List.mem_cons_of_mem _ there))
      (plays.2.resolve_left final)
    have here := part op List.mem_cons_self
    simp only [visit, acquire, release, List.cons_append, List.nil_append, List.mem_cons,
      List.not_mem_nil, or_false] at here
    rcases here with rfl | rfl | rfl | rfl | rfl | rfl | rfl | rfl | rfl <;>
      simpa [Op.next, Op.Final] using rest

end Visit

def System.fits (cfg : Config) (s : System) (c : Nat) : Call → Bool
  | .acquire lk => !s.holding c lk
  | .release lk => s.holding c lk
  | .sleep chan | .wakeup chan =>
    (s.cpu c).noff == 1 && s.holding c (.other (cfg.guard chan))
  | .alloc q => !s.holding c (.proc q)
  | .ready q => s.holding c (.proc q) && (s.task q).phase == .used
  | _ => false

def System.checked (cfg : Config) (s : System) : Event → Option System
  | .run c => (s.step cfg (.run c)).toOption
  | .call c call =>
    if (s.cpu c).proc.isSome && (s.cpu c).todo.isEmpty && s.fits cfg c call then
      (s.step cfg (.call c call)).toOption
    else none
  | .interrupt _ _ _ => none

theorem Holds.fits_of_check (h : Holds cfg s g) {p : Nat} {call : Call} (settled : (g c).Settled)
    (fits : s.fits cfg c call = true) : s.Fits cfg c p call := by
  cases call with
  | acquire lk => simpa [System.fits, System.Fits] using fits
  | release lk => simpa [System.fits, System.Fits] using fits
  | sleep chan => simpa [System.fits, System.Fits] using fits
  | wakeup chan =>
    simp only [System.fits, Bool.and_eq_true, beq_iff_eq] at fits
    refine ⟨fits.2, fun q _ other => ?_⟩
    -- A second lock would make the depth two.
    have length := settled.2.1.symm.trans ((h.cpus c).noff.symm.trans fits.1)
    obtain ⟨lk, only⟩ := List.length_eq_one_iff.mp length
    have guard := (h.holding_iff.mp fits.2).1
    have lock := (h.holding_iff.mp other).1
    rw [only, List.mem_singleton] at guard lock
    simp [← guard] at lock
  | alloc q => simpa [System.fits, System.Fits] using fits
  | ready q => simpa [System.fits, System.Fits] using fits
  | _ => simp [System.fits] at fits

theorem run_of_checked {events : List Event} {t : System} (h : ∃ g, Holds cfg s g)
    (computed : Trace.steps (System.checked cfg) s events = some t) :
    Trace.Run (System.Step cfg) s events t := by
  refine (Trace.Run.of_steps_inv (fun s => ∃ g, Holds cfg s g) ?_ h computed).1
  rintro s e t ⟨g, h⟩ step
  have allowed : s.Allowed cfg e ∧ s.step cfg e = .ok t := by
    cases e with
    | run c =>
      refine ⟨trivial, ?_⟩
      cases ran : s.step cfg (.run c) <;> simp_all [System.checked, Except.toOption]
    | interrupt => simp [System.checked] at step
    | call c call =>
      simp only [System.checked] at step
      split at step
      · rename_i good
        simp only [Bool.and_eq_true, List.isEmpty_iff] at good
        obtain ⟨⟨on, todo⟩, fits⟩ := good
        obtain ⟨p, proc⟩ := Option.isSome_iff_exists.mp on
        refine ⟨⟨p, proc, todo, h.fits_of_check (h.idle proc todo).2 fits⟩, ?_⟩
        cases ran : s.step cfg (.call c call) <;> simp_all [Except.toOption]
      · simp at step
  obtain ⟨u, g', same, holds⟩ := h.step e allowed.1
  obtain rfl : t = u := Except.ok.inj (allowed.2.symm.trans same)
  exact ⟨allowed, g', holds⟩

def fallsAsleep : List Event :=
  List.replicate 12 (.run 0) ++ .call 0 (.alloc 1) :: (List.replicate 5 (.run 0) ++
    .call 0 (.ready 1) :: .call 0 (.release (.proc 1)) :: (List.replicate 4 (.run 0) ++
    List.replicate 22 (.run 1) ++ .call 1 (.acquire (.other 5)) :: (List.replicate 4 (.run 1) ++
    .call 1 (.sleep 5) :: List.replicate 15 (.run 1))))

def wakes : List Event :=
  .call 0 (.acquire (.other 5)) :: (List.replicate 4 (.run 0) ++
    .call 0 (.wakeup 5) :: List.replicate 11 (.run 0))

theorem wakes_run : ∃ s t, Trace.Run (System.Step ⟨64, id, 0⟩) boot fallsAsleep s ∧
    (s.task 1).phase = .sleeping ∧ (s.task 1).chan = some 5 ∧
    Trace.Run (System.Step ⟨64, id, 0⟩) s wakes t ∧ (t.cpu 0).todo = [.wakeup 5 2] ∧
    (t.cpu 0).proc = some 0 ∧ t.holding 0 (.other 5) = true := by
  have computed : (Trace.steps (System.checked ⟨64, id, 0⟩) boot fallsAsleep).any fun s =>
      (s.task 1).phase = .sleeping ∧ (s.task 1).chan = some 5 ∧
      (Trace.steps (System.checked ⟨64, id, 0⟩) s wakes).any (fun t =>
        (t.cpu 0).todo = [.wakeup 5 2] ∧ (t.cpu 0).proc = some 0 ∧
          t.holding 0 (.other 5) = true) = true := by
    decide +kernel
  obtain ⟨s, first, facts⟩ := (Option.any_eq_true _ _).mp computed
  obtain ⟨asleep, chan, more⟩ := of_decide_eq_true facts
  obtain ⟨t, second, final⟩ := (Option.any_eq_true _ _).mp more
  have run := run_of_checked ⟨_, holds_boot⟩ first
  exact ⟨s, t, run, asleep, chan, run_of_checked (holds_of_run run) second,
    of_decide_eq_true final⟩

/-- However the processors interleave, whatever interrupts come and whatever is called by processes
that keep to the rules of these functions, nothing panics. -/
theorem threads_never_panic {cfg : Config} {events : List Event} {s : System}
    (run : Trace.Run (System.Step cfg) boot events s) : s.Calm cfg := by
  obtain ⟨g, h⟩ := holds_of_run run
  intro e allowed
  obtain ⟨t, -, step, -⟩ := h.step e allowed
  exact ⟨t, step⟩

theorem threads_never_panic_waking : ∃ s,
    Trace.Run (System.Step ⟨64, id, 0⟩) boot (fallsAsleep ++ wakes) s ∧
    (s.cpu 0).todo = [.wakeup 5 2] ∧ s.Calm ⟨64, id, 0⟩ := by
  obtain ⟨_, s, sleeps, -, -, wakes, todo, -⟩ := wakes_run
  exact ⟨s, sleeps.append wakes, todo, threads_never_panic (sleeps.append wakes)⟩

/-- Spinlocks are exclusive, and are held with interrupts off. -/
theorem spinlocks_exclusive {cfg : Config} {events : List Event} {s : System}
    (run : Trace.Run (System.Step cfg) boot events s) : s.Exclusive cfg := by
  obtain ⟨g, h⟩ := holds_of_run run
  refine fun c lk held => ⟨?_, fun e t other step => h.exclusive held other step⟩
  have there := List.length_pos_of_mem (h.holding_iff.mp held).1
  have few := (h.cpus c).few
  by_contra enabled
  have := (h.cpus c).off (by simpa using enabled)
  omega

theorem spinlocks_exclusive_waking : ∃ s,
    Trace.Run (System.Step ⟨64, id, 0⟩) boot (fallsAsleep ++ wakes) s ∧
    s.holding 0 (.other 5) = true ∧ s.Exclusive ⟨64, id, 0⟩ := by
  obtain ⟨_, s, sleeps, -, -, wakes, -, -, held⟩ := wakes_run
  exact ⟨s, sleeps.append wakes, held, spinlocks_exclusive (sleeps.append wakes)⟩

/-- The scheduler never gives a process to two processors. -/
theorem process_on_one_cpu {cfg : Config} {events : List Event} {s : System}
    (run : Trace.Run (System.Step cfg) boot events s) : s.Seated := by
  obtain ⟨g, h⟩ := holds_of_run run
  refine ⟨fun c d p first second => ?_, fun p phase => ?_⟩
  · -- A processor has the process or, in its scheduler, the lock of a process that is not RUNNING.
    have has : ∀ c, (s.cpu c).proc = some p → (g c).self = some p ∨
        .proc p ∈ (g c).held ∧ ∀ d, (g d).self ≠ some p := by
      intro c proc
      cases self : (g c).self with
      | none =>
        obtain ⟨-, held, still⟩ := (h.cpus c).left self proc
        exact .inr ⟨held, h.off_of_held held (by simp [self]) still⟩
      | some q => exact .inl (by rw [← proc, ((h.cpus c).proc self).1])
    rcases has c first with mine | ⟨held, off⟩
    · rcases has d second with theirs | ⟨-, off⟩
      · exact h.once mine theirs
      · exact absurd mine (off c)
    · rcases has d second with theirs | ⟨lock, -⟩
      · exact absurd theirs (off d)
      · exact h.locks.once held lock
  · by_contra nowhere
    push Not at nowhere
    exact (h.away fun c self => nowhere c ((h.cpus c).proc self).1).1 phase

theorem process_on_one_cpu_waking : ∃ s,
    Trace.Run (System.Step ⟨64, id, 0⟩) boot (fallsAsleep ++ wakes) s ∧
    (s.cpu 0).proc = some 0 ∧ s.Seated := by
  obtain ⟨_, s, sleeps, -, -, wakes, -, proc, -⟩ := wakes_run
  exact ⟨s, sleeps.append wakes, proc, process_on_one_cpu (sleeps.append wakes)⟩

/-- No wakeup is lost: whoever went to sleep before is not left behind. -/
theorem wakeups_not_lost {cfg : Config} {events : List Event} {s : System}
    (run : Trace.Run (System.Step cfg) boot events s) : s.Rouses := by
  obtain ⟨g, h⟩ := holds_of_run run
  intro c chan pre k rest todo part q below done other
  have inside : ∀ op ∈ pre, op ∈ visit chan (k - 1) := fun op there => part.subset there
  have plays := (h.cpus c).plays
  rw [todo] at plays
  have self : (g c).self ≠ some q := fun self => other ((h.cpus c).proc self).1
  obtain ⟨awake, runs⟩ := h.wakes (guard_of_visit inside plays)
    (todo ▸ passed_visit inside below done) self
  exact ⟨awake, runs, fun p => h.saved.2 p q chan, fun d => h.saved.1 d q chan⟩

/-- A process that sleeps is roused by the time the loop has passed its slot. -/
theorem wakeups_not_lost_waking : ∃ s t, Trace.Run (System.Step ⟨64, id, 0⟩) boot fallsAsleep s ∧
    (s.task 1).phase = .sleeping ∧ (s.task 1).chan = some 5 ∧
    Trace.Run (System.Step ⟨64, id, 0⟩) s wakes t ∧ (t.cpu 0).todo = [.wakeup 5 2] ∧
    t.Rouses ∧ t.Clear 5 1 := by
  obtain ⟨s, t, sleeps, asleep, chan, wakes, todo, proc, -⟩ := wakes_run
  have rouses := wakeups_not_lost (sleeps.append wakes)
  refine ⟨s, t, sleeps, asleep, chan, wakes, todo, rouses, ?_⟩
  exact rouses 0 5 [] 2 [] todo List.nil_suffix 1 (by decide) List.not_mem_nil (by simp [proc])

end Xv6.Sched
