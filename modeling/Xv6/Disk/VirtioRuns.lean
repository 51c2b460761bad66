import Xv6.Disk.VirtioLaws

/-! The disk over whole runs: no request is mixed up with another. -/

namespace Xv6

namespace Virtio

open Prog Circular
open Function (update update_self update_of_ne update_eq_self)

def Pc.buf : Pc → Option Nat
  | .enter buf _ | .alloc buf _ => some buf
  | pc => pc.request.map Request.buf

theorem Pc.buf_of_request {pc : Pc} {c : Request} (here : pc.request = some c) :
    pc.buf = some c.buf := by
  cases pc <;> simp_all [Pc.buf, Pc.request]

variable {s t : State} {post : State → Prop}

namespace State

def requests (s : State) (p : Nat) : Option Request := (s.pcs p).request

def stages (s : State) (p : Nat) : Stage := (s.pcs p).stage

def chain (s : State) (p : Nat) : List Nat := ((s.requests p).map Request.chain).getD []

def Waits (s : State) (p : Nat) (c : Request) : Prop :=
  s.requests p = some c ∧ s.stages p = .posted

structure Tidy (s : State) : Prop where
  keeps : s.driver.Keeps s.requests s.stages
  held : ∀ p b, (s.pcs p).buf = some b → s.holder b = some p

def ClearsOwn (s : State) (e : Event) (t : State) : Prop :=
  t.driver.clears = s.driver.clears ∧
    (∀ p c, s.Waits p c → t.driver.disk c.buf = s.driver.disk c.buf) ∨
  e = .handle ∧ t.driver.clears = s.driver.clears + 1 ∧
    ∃ p c, s.Waits p c ∧ s.driver.served c.i0 = true ∧ s.driver.disk c.buf = true ∧
      t.driver.disk = update s.driver.disk c.buf false

def Lands (post : State → Prop) : Option (Except Stop State) → Prop
  | none => True
  | some (.ok t) => post t
  | some (.error _) => False

theorem requests_goto (s : State) (p : Nat) (pc : Pc) :
    (s.goto p pc).requests = update s.requests p pc.request := by
  funext q
  by_cases same : q = p
  · subst same
    simp [requests, goto]
  · simp [requests, goto, same]

theorem stages_goto (s : State) (p : Nat) (pc : Pc) :
    (s.goto p pc).stages = update s.stages p pc.stage := by
  funext q
  by_cases same : q = p
  · subst same
    simp [stages, goto]
  · simp [stages, goto, same]

section Steps

variable {s : State} {p : Nat} {pc : Pc}

theorem held_goto (held : ∀ p b, (s.pcs p).buf = some b → s.holder b = some p)
    (same : ∀ b, pc.buf = some b → s.holder b = some p) :
    ∀ q b, ((s.goto p pc).pcs q).buf = some b → s.holder b = some q := by
  intro q b using_
  change (update s.pcs p pc q).buf = some b at using_
  by_cases here : q = p
  · subst here
    rw [update_self] at using_
    exact same b using_
  · rw [update_of_ne here] at using_
    exact held q b using_

theorem Tidy.goto (tidy : s.Tidy) (request : pc.request = s.requests p)
    (stage : pc.stage = s.stages p) (buf : ∀ b, pc.buf = some b → s.holder b = some p)
    (lock : Option Holder) : ({ s with lock := lock }.goto p pc).Tidy := by
  refine ⟨?_, held_goto tidy.held buf⟩
  rw [requests_goto, stages_goto, request, stage]
  have requests : update s.requests p (s.requests p) = s.requests :=
    update_eq_self ..
  have stages : update s.stages p (s.stages p) = s.stages := update_eq_self ..
  exact requests.symm ▸ stages.symm ▸ tidy.keeps

theorem clearsOwn_of_driver_eq {e : Event} (same : t.driver = s.driver) : s.ClearsOwn e t :=
  .inl ⟨by rw [same], fun _ _ _ => by rw [same]⟩

theorem lands_acquire (got : post ({ s with lock := some (.proc p) }.goto p pc)) :
    Lands post (s.acquire p pc) := by
  unfold acquire
  split
  · exact got
  · trivial

theorem lands_drive {α : Type} {op : DriverM α} {next : State → α → State}
    (ran : wp op (fun a d => post (next { s with driver := d } a)) (fun _ => False) s.driver) :
    Lands post (some (s.drive op next)) := by
  obtain ⟨a, d, returned, holds⟩ := exists_ok_of_wp ran
  rw [drive, returned]
  exact holds

theorem lands_advance (tidy : s.Tidy) (p : Nat) :
    Lands (fun t => t.Tidy ∧ s.ClearsOwn (.run p) t) (s.advance p) := by
  have held := tidy.held p
  unfold advance
  cases here : s.pcs p with
  | idle => trivial
  | enter buf write =>
    refine lands_acquire ⟨tidy.goto ?_ ?_ ?_ _, clearsOwn_of_driver_eq rfl⟩
    · rw [requests, here]; rfl
    · rw [stages, here]; rfl
    · intro b using_
      exact held b (by rw [here]; exact using_)
  | alloc buf write =>
    have none_here : s.requests p = none := by rw [requests, here]; rfl
    have unformed : s.stages p = .unformed := by rw [stages, here]; rfl
    have locked : s.holder buf = some p := held buf (by rw [here]; rfl)
    apply lands_drive
    apply wp_alloc3Desc
    · -- Three descriptors: the request begins with a buffer that nobody else uses.
      intro i0 i1 i2 spare
      dsimp only [allocated]
      refine ⟨⟨?_, held_goto tidy.held ?_⟩, .inl ⟨rfl, fun _ _ _ => rfl⟩⟩
      · rw [requests_goto, stages_goto]
        have fresh : ∀ q e, s.requests q = some e → e.buf ≠ buf := by
          rintro q e there rfl
          have other := tidy.held q e.buf (Pc.buf_of_request there)
          rw [locked] at other
          obtain rfl := Option.some.inj other
          rw [none_here] at there
          exact absurd there (by simp)
        have stages : update s.stages p .unformed = s.stages := by
          rw [← unformed, update_eq_self]
        exact stages.symm ▸
          tidy.keeps.draw (c := ⟨buf, write, i0, i1, i2⟩) none_here unformed fresh spare
      · rintro b ⟨⟩
        exact locked
    · -- Too few: nothing is taken, and the process sleeps.
      intro desc kept
      have after : ({ s with driver := { s.driver with desc := desc } } : State).Tidy :=
        ⟨tidy.keeps.undo kept, tidy.held⟩
      have request : (Pc.enter buf write).request = s.requests p := none_here.symm
      have stage : (Pc.enter buf write).stage = s.stages p := unformed.symm
      refine ⟨after.goto request stage ?_ _, .inl ⟨rfl, fun _ _ _ => rfl⟩⟩
      rintro b ⟨⟩
      exact locked
  | format c =>
    have request : s.requests p = some c := by rw [requests, here]; rfl
    have unformed : s.stages p = .unformed := by rw [stages, here]; rfl
    refine ⟨⟨?_, held_goto tidy.held ?_⟩, .inl ⟨rfl, fun q e waits => ?_⟩⟩
    · rw [requests_goto, stages_goto]
      have requests : update s.requests p (some c) = s.requests := by
        rw [← request, update_eq_self]
      exact requests.symm ▸ tidy.keeps.format request unformed
    · intro b using_
      exact held b (by rw [here]; exact using_)
    · -- Whoever waits already uses another buffer.
      have other : e.buf ≠ c.buf := by
        intro same
        obtain rfl := tidy.keeps.chains.bufs waits.1 request same
        rw [waits.2] at unformed
        exact absurd unformed (by decide)
      exact update_of_ne other _ _
  | publish c =>
    have request : s.requests p = some c := by rw [requests, here]; rfl
    have formed : s.stages p = .formed := by rw [stages, here]; rfl
    refine ⟨⟨?_, held_goto tidy.held ?_⟩, .inl ⟨rfl, fun _ _ _ => rfl⟩⟩
    · rw [requests_goto, stages_goto]
      have requests : update s.requests p (some c) = s.requests := by
        rw [← request, update_eq_self]
      exact requests.symm ▸ tidy.keeps.publish request formed
    · intro b using_
      exact held b (by rw [here]; exact using_)
  | wait c =>
    have request : s.requests p = some c := by rw [requests, here]; rfl
    have posted : s.stages p = .posted := by rw [stages, here]; rfl
    have buf : ∀ b, some c.buf = some b → s.holder b = some p := by
      intro b using_
      exact held b (by rw [here]; exact using_)
    dsimp only
    split
    · have same : (Pc.asleep c).request = s.requests p := request.symm
      exact ⟨tidy.goto same posted.symm buf _, clearsOwn_of_driver_eq rfl⟩
    · rename_i unset
      refine ⟨⟨?_, held_goto tidy.held buf⟩, clearsOwn_of_driver_eq rfl⟩
      rw [requests_goto, stages_goto]
      have requests : update s.requests p (some c) = s.requests := by
        rw [← request, update_eq_self]
      exact requests.symm ▸ tidy.keeps.finish request posted (by simpa using unset)
  | asleep c =>
    refine lands_acquire ⟨tidy.goto ?_ ?_ ?_ _, clearsOwn_of_driver_eq rfl⟩
    · rw [requests, here]; rfl
    · rw [stages, here]; rfl
    · intro b using_
      exact held b (by rw [here]; exact using_)
  | retire c =>
    have request : s.requests p = some c := by rw [requests, here]; rfl
    have ended : s.stages p = .done := by rw [stages, here]; rfl
    have formed := tidy.keeps.formed request (by rw [ended]; decide)
    apply lands_drive
    refine wp_retire formed (tidy.keeps.chains.nodup request)
      (fun i mem => tidy.keeps.chains.taken request mem) fun desc free kept now => ?_
    refine ⟨⟨?_, held_goto tidy.held ?_⟩, .inl ⟨rfl, fun _ _ _ => rfl⟩⟩
    · rw [requests_goto, stages_goto]
      exact tidy.keeps.retire request ended kept now
    · rintro b ⟨⟩
  | release =>
    refine ⟨tidy.goto ?_ ?_ ?_ _, clearsOwn_of_driver_eq rfl⟩
    · rw [requests, here]; rfl
    · rw [stages, here]; rfl
    · rintro b ⟨⟩

theorem wp_consume {post : Unit → Driver → Prop} {abort : Stop → Prop} {d : Driver}
    {req : Nat → Option Request} {stage : Nat → Stage} (keeps : d.Keeps req stage)
    (more : d.used.read ≠ d.used.write)
    (done : ∀ p c, req p = some c → stage p = .posted → d.served c.i0 = true →
      d.disk c.buf = true → (d.clear c.buf).Keeps req stage → post () (d.clear c.buf)) :
    wp consume post abort d := by
  obtain ⟨p, c, here, sent, entry, first, set, served⟩ := keeps.first_used more
  have buf := (keeps.formed here (by rw [sent]; decide)).buf
  have status : (d.info c.i0).status = 0 := keeps.status (first ▸ List.mem_cons_self ..)
  simp only [consume, wp_bind, wp_get, entry, status, ne_eq, not_true_eq_false, if_false, buf,
    wp_set]
  exact done p c here sent served set (keeps.consume more here first)

theorem lands_handle (tidy : s.Tidy) :
    Lands (fun t => t.Tidy ∧ s.ClearsOwn .handle t) (some s.handle) := by
  unfold handle
  split
  · exact ⟨⟨tidy.keeps, tidy.held⟩, clearsOwn_of_driver_eq rfl⟩
  · rename_i more
    apply lands_drive
    refine wp_consume tidy.keeps more fun p c here sent served set keeps => ?_
    exact ⟨⟨keeps, tidy.held⟩, .inr ⟨rfl, rfl, p, c, ⟨here, sent⟩, served, set, rfl⟩⟩

theorem lands_step (tidy : s.Tidy) (e : Event) :
    Lands (fun t => t.Tidy ∧ s.ClearsOwn e t) (s.step e) := by
  cases e with
  | lockBuf p b =>
    simp only [step]
    split
    · rename_i free
      refine ⟨⟨tidy.keeps, fun q b' using_ => ?_⟩, clearsOwn_of_driver_eq rfl⟩
      have before := tidy.held q b' using_
      have other : b' ≠ b := by
        rintro rfl
        rw [free] at before
        exact absurd before (by simp)
      exact (update_of_ne other _ _).trans before
    · trivial
  | unlockBuf p b =>
    simp only [step]
    split
    · rename_i allowed
      refine ⟨⟨tidy.keeps, fun q b' using_ => ?_⟩, clearsOwn_of_driver_eq rfl⟩
      have before := tidy.held q b' using_
      -- A process inside the driver does not release its buffer.
      have other : b' ≠ b := by
        rintro rfl
        rw [allowed.1] at before
        obtain rfl := Option.some.inj before
        rw [allowed.2] at using_
        exact absurd using_ (by simp [Pc.buf, Pc.request])
      exact (update_of_ne other _ _).trans before
    · trivial
  | rw p b write =>
    simp only [step]
    split
    · rename_i allowed
      refine ⟨tidy.goto ?_ ?_ ?_ s.lock, clearsOwn_of_driver_eq rfl⟩
      · rw [requests, allowed.2]; rfl
      · rw [stages, allowed.2]; rfl
      · rintro b ⟨⟩
        exact allowed.1
    · trivial
  | run p => exact lands_advance tidy p
  | interrupt =>
    simp only [step]
    split
    · exact ⟨⟨tidy.keeps, tidy.held⟩, clearsOwn_of_driver_eq rfl⟩
    · trivial
  | handle =>
    simp only [step]
    split
    · exact lands_handle tidy
    · trivial
  | fetch =>
    simp only [step]
    split
    · rename_i more
      exact ⟨⟨tidy.keeps.fetch more, tidy.held⟩, .inl ⟨rfl, fun _ _ _ => rfl⟩⟩
    · trivial
  | complete head =>
    simp only [step]
    split
    · rename_i mem
      exact ⟨⟨tidy.keeps.complete mem, tidy.held⟩, .inl ⟨rfl, fun _ _ _ => rfl⟩⟩
    · trivial

end Steps

theorem Start.tidy (start : s.Start) : s.Tidy := by
  have nobody : ∀ {p c}, s.requests p ≠ some c := by
    intro p c
    rw [requests, start.idle p]
    simp [Pc.request]
  obtain ⟨avail, queued⟩ : _ ∧ s.driver.queued = [] := sound_new start.avail.1 start.avail.2
  obtain ⟨used, finished⟩ : _ ∧ s.driver.finished = [] := sound_new start.used.1 start.used.2
  have nothing : s.driver.travelling = [] := by
    rw [Driver.travelling, queued, finished, start.pending]
    rfl
  have chains : Chains s.driver.free s.requests := by
    refine ⟨fun here => absurd here nobody, fun here => absurd here nobody,
      fun here => absurd here nobody, fun here => absurd here nobody, fun inside taken => ?_⟩
    rw [start.free _ inside] at taken
    exact absurd taken (by decide)
  refine ⟨?_, fun p b using_ => ?_⟩
  · constructor
    · exact chains
    · exact fun here => absurd here nobody
    · exact fun here => absurd here nobody
    · intro h mem
      rw [nothing] at mem
      exact absurd mem (by simp)
    · rw [nothing]
      exact List.nodup_nil
    · exact fun here => absurd here nobody
    · intro h mem
      rw [finished] at mem
      exact absurd mem (by simp)
    · exact avail
    · exact used
    · rw [start.counts.1, start.counts.2, finished]
      rfl
  · rw [start.idle p] at using_
    exact absurd using_ (by simp [Pc.buf, Pc.request])

theorem Start.tidy_run {es : List Event} (start : s.Start) (run : Trace.Run Steps s es t) :
    t.Tidy := by
  refine run.invariant Tidy (fun s e t tidy stepped => ?_) start.tidy
  have lands := lands_step tidy e
  rw [show s.step e = some (.ok t) from stepped] at lands
  exact lands.1

structure Orderly (s : State) : Prop where
  /-- A descriptor is free or in the chain of exactly one process. -/
  desc : ∀ i < num, s.driver.free i = true ∧ (∀ p, i ∉ s.chain p) ∨
    s.driver.free i = false ∧ ∃! p, i ∈ s.chain p
  /-- It is there only once. -/
  nodup : ∀ p, (s.chain p).Nodup
  /-- The flag a caller waits for is cleared only after the device has completed its request. -/
  own : ∀ p c, s.Waits p c → s.driver.disk c.buf = false → s.driver.served c.i0 = true
  /-- Completions and clearings match, but for those the handler has not seen. -/
  counts : s.driver.completions = s.driver.clears + s.driver.finished.length
  /-- Without a chain in flight every descriptor is free. -/
  idle : (∀ p, s.chain p = []) → ∀ i < num, s.driver.free i = true

theorem mem_chain {p i : Nat} : i ∈ s.chain p ↔ ∃ c, s.requests p = some c ∧ i ∈ c.chain := by
  unfold chain
  cases s.requests p <;> simp

theorem Tidy.orderly (tidy : s.Tidy) : s.Orderly := by
  have chains := tidy.keeps.chains
  have desc : ∀ i < num, s.driver.free i = true ∧ (∀ p, i ∉ s.chain p) ∨
      s.driver.free i = false ∧ ∃! p, i ∈ s.chain p := by
    intro i inside
    cases free : s.driver.free i with
    | true =>
      refine .inl ⟨rfl, fun p mem => ?_⟩
      obtain ⟨c, here, mem'⟩ := mem_chain.mp mem
      have taken := (chains.taken here mem').2
      rw [free] at taken
      exact absurd taken (by decide)
    | false =>
      obtain ⟨p, c, here, mem⟩ := chains.owned inside free
      refine .inr ⟨rfl, p, mem_chain.mpr ⟨c, here, mem⟩, fun q there => ?_⟩
      obtain ⟨e, other, mem'⟩ := mem_chain.mp there
      exact chains.apart other here mem' mem
  refine ⟨desc, fun p => ?_, fun p c waits cleared => ?_, tidy.keeps.counts,
    fun none i inside => ?_⟩
  · unfold chain
    cases here : s.requests p with
    | none => simp
    | some c => simpa using chains.nodup here
  · rw [← Bool.not_eq_false, tidy.keeps.served waits.1 waits.2]
    intro earlier
    have posted : s.stages p ≠ .unformed := by rw [waits.2]; decide
    have set := (tidy.keeps.flag waits.1 posted).mpr (.inr (List.mem_append_left _ earlier))
    rw [cleared] at set
    exact absurd set (by decide)
  · rcases desc i inside with free | ⟨-, p, mem, -⟩
    · exact free.1
    · rw [none p] at mem
      exact absurd mem (by simp)

/-- No request is mixed up with another, whatever processes, device and handler do. -/
theorem disk_in_order {s t : State} {es : List Event} (start : s.Start)
    (run : Trace.Run Steps s es t) :
    t.Orderly ∧ (∀ e stop, t.step e ≠ some (.error stop)) ∧
      ∀ e u, t.Steps e u → t.ClearsOwn e u := by
  have tidy := start.tidy_run run
  refine ⟨tidy.orderly, fun e stop stopped => ?_, fun e u stepped => ?_⟩
  · have lands := lands_step tidy e
    rw [stopped] at lands
    exact lands
  · have lands := lands_step tidy e
    rw [show t.step e = some (.ok u) from stepped] at lands
    exact lands.2

def fresh : State where
  driver :=
    { desc := fun _ => .zero, avail := ⟨fun _ => 0, 0, 0⟩, used := ⟨fun _ => 0, 0, 0⟩
      free := fun i => decide (i < num), info := fun _ => ⟨none, 0⟩, ops := fun _ => ⟨false, 0⟩
      disk := fun _ => false, blockno := id, pending := [], served := fun _ => false
      completions := 0, clears := 0 }
  lock := none
  pcs _ := .idle
  holder _ := none

theorem fresh_start : fresh.Start :=
  ⟨⟨rfl, rfl⟩, ⟨rfl, rfl⟩, fun i inside => by simpa [fresh] using inside, rfl, rfl, fun _ => rfl,
    rfl, rfl⟩

def next (s : State) (e : Event) : Option State := (s.step e).bind Except.toOption

theorem steps_of_next (s : State) (e : Event) (t : State) (computed : s.next e = some t) :
    s.Steps e t := by
  obtain ⟨r, stepped, ok⟩ := Option.bind_eq_some_iff.mp computed
  cases r with
  | error stop => exact absurd ok (by simp [Except.toOption])
  | ok u =>
    obtain rfl : u = t := by simpa [Except.toOption] using ok
    exact stepped

def overtake : List Event :=
  [.lockBuf 0 5, .lockBuf 1 9, .rw 0 5 false, .rw 1 9 true] ++
    -- Each takes the lock, gets descriptors, formats and publishes them, and goes to sleep.
    List.replicate 5 (.run 0) ++ List.replicate 5 (.run 1) ++
    [.fetch, .fetch, .complete 3, .interrupt, .handle, .handle, .run 1, .run 1]

/-- The second caller goes on and the first one still waits; every descriptor is accounted for. -/
theorem disk_in_order_overtake : fresh.Start ∧ ∃ s, Trace.Run Steps fresh overtake s ∧
    s.pcs 1 = .retire ⟨9, true, 3, 4, 5⟩ ∧ s.pcs 0 = .asleep ⟨5, false, 0, 1, 2⟩ ∧
    s.driver.disk 9 = false ∧ s.driver.disk 5 = true ∧ s.Orderly := by
  have ran : (Trace.steps next fresh overtake).any fun s =>
      decide (s.pcs 1 = .retire ⟨9, true, 3, 4, 5⟩ ∧ s.pcs 0 = .asleep ⟨5, false, 0, 1, 2⟩ ∧
        s.driver.disk 9 = false ∧ s.driver.disk 5 = true) := by decide
  obtain ⟨s, computed, facts⟩ := (Option.any_eq_true _ _).mp ran
  obtain ⟨second, first, cleared, set⟩ := of_decide_eq_true facts
  have run : Trace.Run Steps fresh overtake s :=
    Trace.Run.of_steps steps_of_next computed
  exact ⟨fresh_start, s, run, second, first, cleared, set, (disk_in_order fresh_start run).1⟩

end State

end Virtio

end Xv6
