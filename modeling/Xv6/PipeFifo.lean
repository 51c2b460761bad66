import Xv6.Pipes

/-! No byte that goes through a pipe is lost, repeated or reordered. -/

namespace Xv6

open Circular
open Function (update update_self update_of_ne update_eq_self)

def Pipe.ring (pi : Pipe) : Buffer UInt8 := ⟨pi.data, pi.nread, pi.nwrite⟩

def PipeCode.call : PipeCode → Option (Nat × Nat)
  | .write call i _ | .writeSleep call i => some (call, i)
  | _ => none

def PipePc.call : PipePc → Option (Nat × Nat)
  | .idle => none
  | .acquire c | .locked c | .wake _ _ c | .doze _ c | .wait c => c.call

namespace PipeSys

def writing (s : PipeSys) (p : Nat) : Option (Nat × Nat) := (s.tasks p).pc.call

/-- What a step does to the bytes of a pipe. -/
inductive Moves (s t : PipeSys) : Prop where
  /-- No byte moves. -/
  | quiet (ring : t.pipe.ring = s.pipe.ring) (stored : t.stored = s.stored)
      (delivered : t.delivered = s.delivered) (request : t.request = s.request)
      (ncalls : t.ncalls = s.ncalls)
      (writing : ∀ q, t.writing q = s.writing q ∨ t.writing q = none)
  /-- A process starts to write. -/
  | calls (p : Nat) (src : Nat → UInt8) (n : Int) (ring : t.pipe.ring = s.pipe.ring)
      (stored : t.stored = s.stored) (delivered : t.delivered = s.delivered)
      (request : t.request = update s.request s.ncalls (src, n))
      (ncalls : t.ncalls = s.ncalls + 1)
      (writing : t.writing = update s.writing p (some (s.ncalls, 0)))
  /-- A writer puts its next byte in. -/
  | stores (p call i : Nat) (mine : s.writing p = some (call, i))
      (more : (i : Int) < (s.request call).2) (room : ¬ s.pipe.Full)
      (ring : t.pipe.ring = s.pipe.ring.push pipesize (2 ^ 32) ((s.request call).1 i))
      (stored : t.stored = s.stored ++ [(call, (s.request call).1 i)])
      (delivered : t.delivered = s.delivered) (request : t.request = s.request)
      (ncalls : t.ncalls = s.ncalls)
      (writing : t.writing = update s.writing p (some (call, i + 1)))
  /-- A reader takes the oldest byte out. -/
  | delivers (some : ¬ s.pipe.Empty) (ring : t.pipe.ring = s.pipe.ring.pop (2 ^ 32))
      (stored : t.stored = s.stored)
      (delivered : t.delivered = s.delivered ++ [s.pipe.data (s.pipe.nread % pipesize)])
      (request : t.request = s.request) (ncalls : t.ncalls = s.ncalls)
      (writing : t.writing = s.writing)

section Inversion

variable {s t : PipeSys} {p : Nat} {copied : Bool}

theorem writing_setTask (s : PipeSys) (p : Nat) (task : PipeTask) :
    (s.setTask p task).writing = update s.writing p task.pc.call := by
  funext q
  by_cases same : q = p
  · subst same
    simp [writing, setTask]
  · simp [writing, setTask, same]

theorem moves_setTask {u : PipeSys} {task : PipeTask} (ring : u.pipe.ring = s.pipe.ring)
    (stored : u.stored = s.stored) (delivered : u.delivered = s.delivered)
    (request : u.request = s.request) (ncalls : u.ncalls = s.ncalls)
    (others : u.writing = s.writing)
    (stays : task.pc.call = s.writing p ∨ task.pc.call = none) : s.Moves (u.setTask p task) := by
  refine .quiet ring stored delivered request ncalls fun q => ?_
  rw [writing_setTask, others]
  by_cases same : q = p
  · subst same
    simpa using stays
  · simp [same]

theorem moves_goto {pc : PipePc} (stays : pc.call = s.writing p ∨ pc.call = none) :
    s.Moves (s.goto p pc) := moves_setTask rfl rfl rfl rfl rfl rfl stays

theorem moves_writeTurn {call i : Nat} (mine : s.writing p = some (call, i)) :
    s.Moves (s.writeTurn p call i copied) := by
  unfold writeTurn
  split
  · exact moves_goto (Or.inr rfl)
  split
  · exact moves_goto (Or.inr rfl)
  split
  · exact moves_goto (Or.inl mine.symm)
  rename_i room
  split
  · exact moves_goto (Or.inr rfl)
  · -- The byte goes into the ring.
    refine .stores p call i mine (by omega) room rfl rfl rfl rfl rfl ?_
    exact writing_setTask _ p _

theorem moves_readTurn {n : Int} {i : Nat} (mine : s.writing p = none) :
    s.Moves (s.readTurn p n i copied) := by
  unfold readTurn
  split
  · exact moves_goto (Or.inr rfl)
  rename_i more
  split
  · exact moves_goto (Or.inr rfl)
  · refine .delivers (fun empty => more (Or.inr empty)) rfl rfl rfl rfl rfl ?_
    rw [goto, writing_setTask]
    exact Function.update_eq_self_iff.mpr mine.symm

theorem moves_exec {c : PipeCode} (here : (s.tasks p).pc = .locked c) :
    s.Moves (s.exec p copied c) := by
  have mine : s.writing p = c.call := by rw [writing, here]; rfl
  cases c with
  | write call i stored => exact moves_writeTurn mine
  | writeSleep call i => exact moves_setTask rfl rfl rfl rfl rfl rfl (Or.inl mine.symm)
  | readWait n =>
    simp only [exec]
    split
    · split <;> exact moves_goto (Or.inr rfl)
    · exact moves_goto (Or.inr rfl)
  | readSleep n => exact moves_setTask rfl rfl rfl rfl rfl rfl (Or.inr rfl)
  | readCopy n i => exact moves_readTurn mine
  | close writable => cases writable <;> exact moves_setTask rfl rfl rfl rfl rfl rfl (Or.inr rfl)
  | closeEnd => exact moves_setTask rfl rfl rfl rfl rfl rfl (Or.inr rfl)
  | ret value => exact moves_setTask rfl rfl rfl rfl rfl rfl (Or.inr rfl)

theorem rouse_eq (s : PipeSys) (chan : PipeChan) (k : Nat) :
    ∃ asleep, s.rouse chan k = s.setTask k { s.tasks k with asleep := asleep } := by
  unfold rouse
  split
  · exact ⟨none, rfl⟩
  · refine ⟨(s.tasks k).asleep, ?_⟩
    simp [setTask]

theorem moves_advance (ran : s.advance p copied = some t) : s.Moves t := by
  unfold advance at ran
  split at ran
  · simp at ran
  · rename_i c here
    split at ran
    · obtain rfl := Option.some.inj ran
      exact moves_setTask rfl rfl rfl rfl rfl rfl (Or.inl (by rw [writing, here]; rfl))
    · simp at ran
  · rename_i c here
    obtain rfl := Option.some.inj ran
    exact moves_exec here
  · rename_i chan k c here
    have mine : s.writing p = c.call := by rw [writing, here]; rfl
    split at ran
    · obtain rfl := Option.some.inj ran
      exact moves_goto (Or.inl mine.symm)
    split at ran
    · obtain rfl := Option.some.inj ran
      exact moves_goto (Or.inl mine.symm)
    split at ran
    · simp at ran
    · obtain rfl := Option.some.inj ran
      obtain ⟨asleep, roused⟩ := s.rouse_eq chan k
      rw [roused]
      refine moves_setTask rfl rfl rfl rfl rfl ?_ (Or.inl mine.symm)
      rw [writing_setTask]
      exact update_eq_self k s.writing
  · rename_i chan c here
    obtain rfl := Option.some.inj ran
    exact moves_setTask rfl rfl rfl rfl rfl rfl (Or.inl (by rw [writing, here]; rfl))
  · rename_i c here
    split at ran
    · obtain rfl := Option.some.inj ran
      exact moves_goto (Or.inl (by rw [writing, here]; rfl))
    · simp at ran

theorem moves_enter {c : PipeCode} (quiet : c.call = none) (ran : s.enter p c = some t) :
    s.Moves t := by
  unfold enter at ran
  split at ran
  · obtain rfl := Option.some.inj ran
    exact moves_goto (Or.inr quiet)
  · simp at ran

theorem moves_step {e : PipeEvent} (stepped : s.step e = some t) : s.Moves t := by
  unfold step at stepped
  split at stepped
  · simp at stepped
  cases e with
  | write p src n =>
    simp only [enter] at stepped
    split at stepped
    · obtain rfl := Option.some.inj stepped
      exact .calls p src n rfl rfl rfl rfl rfl (writing_setTask _ p _)
    · simp at stepped
  | read p n => exact moves_enter rfl stepped
  | close p writable => exact moves_enter rfl stepped
  | run p copied => exact moves_advance stepped
  | kill p =>
    simp only at stepped
    split at stepped
    · simp at stepped
    · obtain rfl := Option.some.inj stepped
      exact moves_setTask rfl rfl rfl rfl rfl rfl (Or.inl rfl)
  | renew p =>
    simp only at stepped
    split at stepped
    · obtain rfl := Option.some.inj stepped
      exact moves_setTask rfl rfl rfl rfl rfl rfl (Or.inl rfl)
    · simp at stepped

end Inversion

structure Sent (s : PipeSys) (call i : Nat) : Prop where
  bytes : (s.stored.filter (·.1 = call)).map Prod.snd = (List.range i).map (s.request call).1
  within : (i : Int) ≤ max 0 (s.request call).2

structure Ledger (s : PipeSys) : Prop where
  ring : s.pipe.ring.Holds pipesize (2 ^ 32) (s.stored.map Prod.snd) s.delivered.length
  delivered : s.delivered = (s.stored.map Prod.snd).take s.delivered.length
  made : ∀ b ∈ s.stored, b.1 < s.ncalls
  sent : ∀ call, call < s.ncalls → ∃ i, s.Sent call i
  writers : ∀ p call i, s.writing p = some (call, i) → call < s.ncalls ∧ s.Sent call i
  /-- Two processes are never in one call. -/
  apart : ∀ p q call i j, s.writing p = some (call, i) → s.writing q = some (call, j) → p = q

section Ledger

variable {s t : PipeSys}

theorem pipesize_dvd : pipesize ∣ 2 ^ 32 := by decide

theorem pipesize_lt : pipesize < 2 ^ 32 := by decide

theorem Sent.congr {call i : Nat} (sent : s.Sent call i)
    (stored : t.stored.filter (·.1 = call) = s.stored.filter (·.1 = call))
    (request : t.request call = s.request call) : t.Sent call i :=
  ⟨by rw [stored, request]; exact sent.bytes, by rw [request]; exact sent.within⟩

theorem Ledger.step (ledger : s.Ledger) (moves : s.Moves t) : t.Ledger := by
  cases moves with
  | quiet ring stored delivered request ncalls writing =>
    have same : ∀ call i, s.Sent call i → t.Sent call i := fun call i sent =>
      sent.congr (by rw [stored]) (by rw [request])
    have before : ∀ p call i, t.writing p = some (call, i) → s.writing p = some (call, i) := by
      intro p call i here
      rcases writing p with stays | left
      · rw [← stays, here]
      · simp [left] at here
    refine ⟨by rw [ring, stored, delivered]; exact ledger.ring,
      by rw [stored, delivered]; exact ledger.delivered, by rw [stored, ncalls]; exact ledger.made,
      fun call made => ?_, fun p call i here => ?_, fun p q call i j here there => ?_⟩
    · rw [ncalls] at made
      obtain ⟨i, sent⟩ := ledger.sent call made
      exact ⟨i, same call i sent⟩
    · obtain ⟨made, sent⟩ := ledger.writers p call i (before p call i here)
      exact ⟨ncalls ▸ made, same call i sent⟩
    · exact ledger.apart p q call i j (before p call i here) (before q call j there)
  | calls p src n ring stored delivered request ncalls writing =>
    -- The new call has stored nothing, and the others are older.
    have old : ∀ call i, call < s.ncalls → s.Sent call i → t.Sent call i := fun call i made sent =>
      sent.congr (by rw [stored]) (by rw [request, update_of_ne made.ne])
    have new : t.Sent s.ncalls 0 := by
      refine ⟨?_, by simp⟩
      rw [stored, List.filter_eq_nil_iff.mpr fun b here => ?_]
      · rfl
      · simpa using (ledger.made b here).ne
    refine ⟨by rw [ring, stored, delivered]; exact ledger.ring,
      by rw [stored, delivered]; exact ledger.delivered, fun b here => ?_, fun call made => ?_,
      fun q call i here => ?_, fun q q' call i j here there => ?_⟩
    · rw [stored] at here
      have made := ledger.made b here
      omega
    · by_cases newest : call = s.ncalls
      · exact ⟨0, newest ▸ new⟩
      · have made : call < s.ncalls := by omega
        obtain ⟨i, sent⟩ := ledger.sent call made
        exact ⟨i, old call i made sent⟩
    · rw [writing] at here
      by_cases same : q = p
      · rw [same, update_self] at here
        obtain ⟨rfl, rfl⟩ := Prod.mk.inj (Option.some.inj here)
        exact ⟨by omega, new⟩
      · rw [update_of_ne same] at here
        obtain ⟨made, sent⟩ := ledger.writers q call i here
        exact ⟨by omega, old call i made sent⟩
    · rw [writing] at here there
      -- A process in an older call is not the one that starts the new call.
      by_cases same : q = p <;> by_cases same' : q' = p
      · rw [same, same']
      · rw [same, update_self] at here
        rw [update_of_ne same'] at there
        obtain ⟨rfl, rfl⟩ := Prod.mk.inj (Option.some.inj here)
        exact absurd (ledger.writers q' _ j there).1 (lt_irrefl _)
      · rw [same', update_self] at there
        rw [update_of_ne same] at here
        obtain ⟨rfl, rfl⟩ := Prod.mk.inj (Option.some.inj there)
        exact absurd (ledger.writers q _ i here).1 (lt_irrefl _)
      · rw [update_of_ne same] at here
        rw [update_of_ne same'] at there
        exact ledger.apart q q' call i j here there
  | stores p call i mine more room ring stored delivered request ncalls writing =>
    obtain ⟨made, sent⟩ := ledger.writers p call i mine
    have few : s.delivered.length ≤ (s.stored.map Prod.snd).length := ledger.ring.taken_le
    have free : (s.stored.map Prod.snd).length < s.delivered.length + pipesize := by
      have fits := ledger.ring.fits
      have notFull := mt (ledger.ring.full_iff pipesize_lt).mpr room
      omega
    have mapped : t.stored.map Prod.snd =
        s.stored.map Prod.snd ++ [(s.request call).1 i] := by
      rw [stored, List.map_append]
      rfl
    have others : ∀ call' j, call' ≠ call → s.Sent call' j → t.Sent call' j := by
      intro call' j other sent
      refine sent.congr ?_ (by rw [request])
      rw [stored, List.filter_append]
      simp [Ne.symm other]
    have grown : t.Sent call (i + 1) := by
      refine ⟨?_, ?_⟩
      · rw [stored, request, List.filter_append, List.map_append, sent.bytes, List.range_succ,
          List.map_append]
        simp
      · rw [request]
        omega
    refine ⟨?_, ?_, fun b here => ?_, fun call' made' => ?_, fun q call' j here => ?_,
      fun q q' call' j k here there => ?_⟩
    · rw [ring, mapped, delivered]
      exact ledger.ring.push pipesize_dvd free _
    · rw [mapped, delivered, List.take_append_of_le_length few]
      exact ledger.delivered
    · rw [stored, List.mem_append, List.mem_singleton] at here
      rw [ncalls]
      rcases here with old | rfl
      · exact ledger.made b old
      · exact made
    · by_cases same : call' = call
      · exact ⟨i + 1, same ▸ grown⟩
      · obtain ⟨j, sent⟩ := ledger.sent call' (ncalls ▸ made')
        exact ⟨j, others call' j same sent⟩
    · rw [writing] at here
      by_cases same : q = p
      · rw [same, update_self] at here
        obtain ⟨rfl, rfl⟩ := Prod.mk.inj (Option.some.inj here)
        exact ⟨ncalls ▸ made, grown⟩
      · rw [update_of_ne same] at here
        obtain ⟨made', sent'⟩ := ledger.writers q call' j here
        refine ⟨ncalls ▸ made', others call' j (fun equal => same ?_) sent'⟩
        exact ledger.apart q p call j i (equal ▸ here) mine
    · -- The writer stays in its call, so nobody else is in it.
      have before : ∀ r k, t.writing r = some (call', k) →
          ∃ k', s.writing r = some (call', k') := by
        intro r k here
        rw [writing] at here
        by_cases same : r = p
        · rw [same, update_self] at here
          obtain ⟨rfl, -⟩ := Prod.mk.inj (Option.some.inj here)
          exact ⟨i, same ▸ mine⟩
        · rw [update_of_ne same] at here
          exact ⟨k, here⟩
      obtain ⟨j', here⟩ := before q j here
      obtain ⟨k', there⟩ := before q' k there
      exact ledger.apart q q' call' j' k' here there
  | delivers some ring stored delivered request ncalls writing =>
    have low := ledger.ring.taken_le
    have more : s.delivered.length < (s.stored.map Prod.snd).length := by
      have differ := mt (ledger.ring.read_eq_write_iff pipesize_lt).mpr some
      omega
    have front := ledger.ring.front pipesize_dvd more
    have length : t.delivered.length = s.delivered.length + 1 := by simp [delivered]
    refine ⟨?_, ?_, by rw [stored, ncalls]; exact ledger.made, fun call made => ?_,
      fun p call i here => ?_, by rw [writing]; exact ledger.apart⟩
    · rw [ring, stored, length]
      exact ledger.ring.pop more
    · rw [length, stored, List.take_succ_eq_append_getElem more, ← ledger.delivered, delivered,
        ← front]
      rfl
    · rw [ncalls] at made
      obtain ⟨i, sent⟩ := ledger.sent call made
      exact ⟨i, sent.congr (by rw [stored]) (by rw [request])⟩
    · rw [writing] at here
      obtain ⟨made, sent⟩ := ledger.writers p call i here
      exact ⟨ncalls ▸ made, sent.congr (by rw [stored]) (by rw [request])⟩

theorem Start.ledger (start : s.Start) : s.Ledger := by
  have nobody : ∀ p, s.writing p = none := fun p => by rw [writing, start.idle p]; rfl
  have ring : s.pipe.ring = ⟨s.pipe.data, 0, 0⟩ := by
    rw [Pipe.ring, start.nread, start.nwrite]
  refine ⟨?_, by simp [start.delivered], by simp [start.stored], fun call made => ?_,
    fun p call i here => by simp [nobody] at here,
    fun p q call i j here => by simp [nobody] at here⟩
  · rw [ring, start.stored, start.delivered]
    exact holds_nil s.pipe.data
  · simp [start.ncalls] at made

end Ledger

/-- Pipes are first in, first out, and lose nothing, however their users are interleaved. -/
theorem pipe_loses_nothing {s₀ s : PipeSys} {es : List PipeEvent} (start : s₀.Start)
    (run : Trace.Run Steps s₀ es s) :
    s.pipe.ring.count (2 ^ 32) ≤ pipesize ∧
      s.delivered ++ s.pipe.ring.contents pipesize (2 ^ 32) = s.stored.map Prod.snd ∧
      ∀ call, call < s.ncalls → ∃ i : Nat, (i : Int) ≤ max 0 (s.request call).2 ∧
        (s.stored.filter (·.1 = call)).map Prod.snd = (List.range i).map (s.request call).1 := by
  have ledger : s.Ledger := run.invariant Ledger
    (fun s e t before stepped => before.step (moves_step stepped)) start.ledger
  refine ⟨?_, ?_, fun call made => ?_⟩
  · have fits := ledger.ring.fits
    rw [ledger.ring.count pipesize_lt]
    omega
  · rw [ledger.ring.contents pipesize_dvd pipesize_lt]
    -- What was delivered is the front of what was stored.
    nth_rewrite 1 [ledger.delivered]
    exact List.take_append_drop _ _
  · obtain ⟨i, sent⟩ := ledger.sent call made
    exact ⟨i, sent.within, sent.bytes⟩

def new : PipeSys where
  pipe := ⟨fun _ => 5, 0, 0, true, true⟩
  lock := none
  freed := false
  tasks := fun _ => ⟨.idle, none, false⟩
  request := fun _ => (fun _ => 0, 0)
  ncalls := 0
  stored := []
  delivered := []

theorem new_start : new.Start :=
  ⟨rfl, rfl, rfl, rfl, rfl, fun _ => rfl, fun _ => rfl, rfl, rfl, rfl⟩

def passOne : List PipeEvent :=
  -- The writer takes the lock, stores, wakes the readers and releases the lock.
  .write 0 (fun i => UInt8.ofNat (97 + i)) 2 :: List.replicate 70 (.run 0 true) ++
    .read 1 1 :: List.replicate 3 (.run 1 true)

/-- Of two bytes that were written, one is delivered and the other is still in the ring. -/
theorem pipe_loses_nothing_pass : new.Start ∧ ∃ s, Trace.Run Steps new passOne s ∧
    s.stored = [(0, 97), (0, 98)] ∧ s.delivered = [97] ∧
    s.delivered ++ s.pipe.ring.contents pipesize (2 ^ 32) = [97, 98] := by
  have ran : (Trace.steps step new passOne).any fun s =>
      decide (s.stored = [(0, 97), (0, 98)]) && decide (s.delivered = [97]) := by decide
  obtain ⟨s, computed, facts⟩ := (Option.any_eq_true _ _).mp ran
  rw [Bool.and_eq_true, decide_eq_true_eq, decide_eq_true_eq] at facts
  have run : Trace.Run Steps new passOne s :=
    Trace.Run.of_steps (fun _ _ _ stepped => stepped) computed
  have order := (pipe_loses_nothing new_start run).2.1
  rw [facts.1] at order
  exact ⟨new_start, s, run, facts.1, facts.2, order⟩

end PipeSys

end Xv6
