import Mathlib.Algebra.Order.BigOperators.Group.List
import Mathlib.Algebra.Order.Group.Nat
import Mathlib.Algebra.Ring.Nat
import Xv6.Disk.Log
import Xv6.Lib.Run

/-! Calls of any number of processes share the log: its space is reserved and it commits alone. -/

namespace Xv6

variable {ι : Type} [DecidableEq ι]

/-- Where the commit of the log stands. -/
inductive CommitPhase (ι : Type) where
  /-- No commit is under way. -/
  | idle
  /-- A process writes the transaction to disk. -/
  | writing (process : ι)
  /-- A process has written it and is about to let waiting calls in. -/
  | written (process : ι)
  deriving DecidableEq

/--
The log with its users.

Every open call stands with the process that made it and the distinct blocks logged since then.
-/
structure LogUse (ι : Type) where
  log : Log
  calls : List (ι × List Nat)
  phase : CommitPhase ι
  deriving DecidableEq

/-- What a process does to the log while it holds the log's lock, and the unlocked commit. -/
inductive LogEvent (ι : Type) where
  | beginOp (process : ι)
  | logWrite (process : ι) (blockno : Nat)
  | endOp (process : ι)
  | commit (process : ι)
  | endCommit (process : ι)
  deriving DecidableEq

def charge (process : ι) (blockno : Nat) (calls : List (ι × List Nat)) : List (ι × List Nat) :=
  calls.map fun call => if call.1 = process then (call.1, call.2.insert blockno) else call

def closeCall (process : ι) (calls : List (ι × List Nat)) : List (ι × List Nat) :=
  calls.eraseP fun call => call.1 = process

def LogUse.Inside (s : LogUse ι) (process : ι) : Prop := ∃ call ∈ s.calls, call.1 = process

instance (s : LogUse ι) (process : ι) : Decidable (s.Inside process) :=
  inferInstanceAs (Decidable (∃ call ∈ s.calls, call.1 = process))

def LogUse.MayLog (s : LogUse ι) (process : ι) (blockno : Nat) : Prop :=
  s.Inside process ∧
    ∀ call ∈ s.calls, call.1 = process → (call.2.insert blockno).length ≤ maxopblocks

instance (s : LogUse ι) (process : ι) (blockno : Nat) : Decidable (s.MayLog process blockno) :=
  inferInstanceAs (Decidable (_ ∧ _))

def LogUse.step (s : LogUse ι) : LogEvent ι → Option (Except LogPanic (LogUse ι))
  | .beginOp process =>
    s.log.beginOp.map fun log => .ok { s with log, calls := (process, []) :: s.calls }
  | .logWrite process blockno =>
    if s.MayLog process blockno then
      match s.log.logWrite blockno with
      | .ok log => some (.ok { s with log, calls := charge process blockno s.calls })
      | .error e => some (.error e)
    else none
  | .endOp process =>
    if s.Inside process then
      match s.log.endOp with
      | .ok (log, doCommit) =>
        some (.ok ⟨log, closeCall process s.calls, if doCommit then .writing process else s.phase⟩)
      | .error e => some (.error e)
    else none
  | .commit process =>
    if s.phase = .writing process then
      some (.ok { s with log := s.log.commit, phase := .written process })
    else none
  | .endCommit process =>
    if s.phase = .written process then
      some (.ok { s with log := s.log.endCommit, phase := .idle })
    else none

def LogUse.start : LogUse ι := ⟨⟨[], 0, false⟩, [], .idle⟩

def reserve (calls : List (ι × List Nat)) : Nat :=
  (calls.map fun call => maxopblocks - call.2.length).sum

omit [DecidableEq ι] in
/-- A call reserves at most its allowance. -/
theorem reserve_le (calls : List (ι × List Nat)) : reserve calls ≤ calls.length * maxopblocks := by
  induction calls with
  | nil => simp [reserve]
  | cons call rest ih =>
    simp only [reserve, List.map_cons, List.sum_cons, List.length_cons] at ih ⊢
    rw [Nat.succ_mul]
    omega

omit [DecidableEq ι] in
/-- The reservation call by call. -/
theorem reserve_cons (call : ι × List Nat) (rest : List (ι × List Nat)) :
    reserve (call :: rest) = (maxopblocks - call.2.length) + reserve rest := rfl

theorem reserve_closeCall (process : ι) (calls : List (ι × List Nat)) :
    reserve (closeCall process calls) ≤ reserve calls :=
  (List.eraseP_sublist.map _).sum_le_sum fun _ _ => Nat.zero_le _

theorem reserve_charge_le (process : ι) (blockno : Nat) (calls : List (ι × List Nat)) :
    reserve (charge process blockno calls) ≤ reserve calls := by
  induction calls with
  | nil => exact Nat.le_refl _
  | cons call rest ih =>
    have longer : call.2.length ≤ (call.2.insert blockno).length := by
      rw [List.length_insert]
      split <;> omega
    simp only [charge, List.map_cons, reserve_cons] at ih ⊢
    by_cases own : call.1 = process
    · simp only [if_pos own]
      omega
    · simp only [if_neg own]
      omega

variable {process : ι} {blockno : Nat} {s s' : LogUse ι} {log : Log} {es : List (LogEvent ι)}

theorem reserve_charge_lt : ∀ {calls : List (ι × List Nat)}, (∃ call ∈ calls, call.1 = process) →
      (∀ call ∈ calls, blockno ∉ call.2) →
      (∀ call ∈ calls, call.1 = process → (call.2.insert blockno).length ≤ maxopblocks) →
      reserve (charge process blockno calls) + 1 ≤ reserve calls := by
  intro calls
  induction calls with
  | nil =>
    rintro ⟨call, none, -⟩
    cases none
  | cons call rest ih =>
    intro inside fresh allowed
    by_cases own : call.1 = process
    · -- This call pays one block, and the others pay no less than nothing.
      have room := allowed call (List.mem_cons_self ..) own
      rw [List.length_insert_of_not_mem (fresh call (List.mem_cons_self ..))] at room
      have others := reserve_charge_le process blockno rest
      simp only [charge, List.map_cons, if_pos own, reserve_cons,
        List.length_insert_of_not_mem (fresh call (List.mem_cons_self ..))] at others ⊢
      omega
    · have later : ∃ call ∈ rest, call.1 = process := by
        obtain ⟨other, member, owns⟩ := inside
        rcases List.mem_cons.mp member with rfl | member
        · exact absurd owns own
        · exact ⟨other, member, owns⟩
      have paid := ih later (fun c member => fresh c (List.mem_cons_of_mem _ member))
        (fun c member => allowed c (List.mem_cons_of_mem _ member))
      simp only [charge, List.map_cons, if_neg own, reserve_cons] at paid ⊢
      omega

structure LogUse.Reserved (s : LogUse ι) : Prop where
  outstanding : s.log.outstanding = s.calls.length
  nodup : s.log.block.Nodup
  logged : ∀ call ∈ s.calls, ∀ b ∈ call.2, b ∈ s.log.block
  room : s.log.block.length + reserve s.calls ≤ logblocks
  committing : s.log.committing = true ↔ s.phase ≠ .idle
  alone : s.phase ≠ .idle → s.calls = []

omit [DecidableEq ι] in
/-- The log starts with all its space free. -/
theorem LogUse.start_reserved : (LogUse.start : LogUse ι).Reserved :=
  ⟨rfl, List.nodup_nil, by simp [start], by simp [start, reserve], by simp [start], fun _ => rfl⟩

theorem LogUse.Reserved.idle (reserved : s.Reserved) (inside : s.Inside process) :
    s.phase = .idle ∧ s.log.committing = false := by
  have idle : s.phase = .idle := by
    by_contra busy
    obtain ⟨call, member, -⟩ := inside
    rw [reserved.alone busy] at member
    cases member
  refine ⟨idle, ?_⟩
  by_contra set
  exact (reserved.committing.mp (by simpa using set)) idle

theorem LogUse.Reserved.beginOp (reserved : s.Reserved) (done : s.log.beginOp = some log) :
    LogUse.Reserved { s with log, calls := (process, []) :: s.calls } := by
  unfold Log.beginOp at done
  split_ifs at done with busy full
  cases done
  -- The test counts a whole allowance for each open call, which is at least what is reserved.
  have bound := reserve_le s.calls
  have space : s.log.block.length + (s.calls.length + 1) * maxopblocks ≤ logblocks := by
    have counted := reserved.outstanding
    rw [counted] at full
    push_cast [← Int.ofNat_le] at full ⊢
    omega
  have idle : s.phase = .idle := by
    by_contra other
    exact busy (reserved.committing.mpr other)
  refine ⟨?_, reserved.nodup, ?_, ?_, reserved.committing, fun other => absurd idle other⟩
  · simp [reserved.outstanding]
  · intro call member b logged
    rcases List.mem_cons.mp member with rfl | member
    · cases logged
    · exact reserved.logged call member b logged
  · rw [reserve_cons]
    rw [Nat.succ_mul] at space
    simp only [List.length_nil]
    omega

theorem LogUse.Reserved.logWrite (reserved : s.Reserved) (may : s.MayLog process blockno)
    (done : s.log.logWrite blockno = .ok log) :
    LogUse.Reserved { s with log, calls := charge process blockno s.calls } := by
  obtain ⟨-, -, outcome⟩ := Log.logWrite_ok done
  have noted : ∀ {block : List Nat}, blockno ∈ block → (∀ b ∈ s.log.block, b ∈ block) →
      ∀ call ∈ charge process blockno s.calls, ∀ b ∈ call.2, b ∈ block := by
    intro block listed kept call member b logged
    obtain ⟨old, inside, rfl⟩ := List.mem_map.mp member
    split at logged
    · rcases List.mem_insert_iff.mp logged with rfl | earlier
      · exact listed
      · exact kept b (reserved.logged old inside b earlier)
    · exact kept b (reserved.logged old inside b logged)
  have idle := (reserved.idle may.1).1
  have nodup := Log.logWrite_nodup reserved.nodup done
  rcases outcome with ⟨absorbed, rfl⟩ | ⟨fresh, rfl⟩
  · refine ⟨?_, nodup, noted absorbed fun _ member => member, ?_, reserved.committing,
      fun other => absurd idle other⟩
    · simpa [charge] using reserved.outstanding
    · have smaller := reserve_charge_le process blockno s.calls
      have room := reserved.room
      simp only
      omega
  · refine ⟨?_, nodup, noted (by simp) fun _ member => List.mem_append_left _ member, ?_,
      reserved.committing, fun other => absurd idle other⟩
    · simpa [charge] using reserved.outstanding
    · have paid := reserve_charge_lt may.1
        (fun call member logged => fresh (reserved.logged call member _ logged)) may.2
      have room := reserved.room
      simp only [List.length_append, List.length_singleton]
      omega

theorem LogUse.Inside.closeCall_length (inside : s.Inside process) :
    (closeCall process s.calls).length + 1 = s.calls.length := by
  obtain ⟨call, member, own⟩ := inside
  have one := List.length_eraseP_of_mem (p := fun call => decide (call.1 = process)) member
    (by simpa using own)
  have some := List.length_pos_of_mem member
  unfold closeCall
  omega

theorem LogUse.Reserved.endOp (reserved : s.Reserved) (inside : s.Inside process) :
    ∃ log doCommit, s.log.endOp = .ok (log, doCommit) ∧
      LogUse.Reserved
        ⟨log, closeCall process s.calls, if doCommit then .writing process else s.phase⟩ := by
  obtain ⟨idle, quiet⟩ := reserved.idle inside
  have fewer := inside.closeCall_length
  have smaller := reserve_closeCall process s.calls
  have counted := reserved.outstanding
  have room := reserved.room
  have logged : ∀ call ∈ closeCall process s.calls, ∀ b ∈ call.2, b ∈ s.log.block :=
    fun call member => reserved.logged call (List.mem_of_mem_eraseP member)
  by_cases last : s.log.outstanding - 1 = 0
  · have none : closeCall process s.calls = [] := List.eq_nil_of_length_eq_zero (by omega)
    refine ⟨{ s.log with outstanding := s.log.outstanding - 1, committing := true }, true, ?_, ?_⟩
    · simp [Log.endOp, quiet, last]
    · exact ⟨by simp only [none]; simpa using last, reserved.nodup, logged,
        by simp only; omega, by simp, fun _ => none⟩
  · refine ⟨{ s.log with outstanding := s.log.outstanding - 1 }, false, ?_, ?_⟩
    · simp [Log.endOp, quiet, last]
    · exact ⟨by simp only; omega, reserved.nodup, logged, by simp only; omega,
        by simpa [idle] using quiet, fun other => absurd idle (by simpa using other)⟩

theorem LogUse.Reserved.step {e : LogEvent ι} (reserved : s.Reserved)
    (done : s.step e = some (.ok s')) : s'.Reserved := by
  cases e with
  | beginOp process =>
    obtain ⟨log, began, same⟩ := Option.map_eq_some_iff.mp done
    cases same
    exact reserved.beginOp began
  | logWrite process blockno =>
    simp only [LogUse.step] at done
    split_ifs at done with may
    cases write : s.log.logWrite blockno with
    | error e => simp [write] at done
    | ok log =>
      simp only [write, Option.some.injEq, Except.ok.injEq] at done
      exact done ▸ reserved.logWrite may write
  | endOp process =>
    simp only [LogUse.step] at done
    split_ifs at done with inside
    obtain ⟨log, doCommit, ended, kept⟩ := reserved.endOp inside
    simp only [ended, Option.some.injEq, Except.ok.injEq] at done
    exact done ▸ kept
  | commit process =>
    simp only [LogUse.step] at done
    split_ifs at done with writing
    cases done
    -- The commit empties the log, and nobody else holds a reservation in it.
    have none := reserved.alone (by simp [writing])
    exact ⟨reserved.outstanding, List.nodup_nil, by simp [none], by simp [Log.commit, none, reserve],
      by simpa [writing, Log.commit] using reserved.committing, fun _ => none⟩
  | endCommit process =>
    simp only [LogUse.step] at done
    split_ifs at done with written
    cases done
    exact ⟨reserved.outstanding, reserved.nodup, reserved.logged, reserved.room,
      by simp [Log.endCommit], fun other => absurd rfl other⟩

def LogUse.Step (s : LogUse ι) (e : LogEvent ι) (s' : LogUse ι) : Prop := s.step e = some (.ok s')

theorem LogUse.Reserved.run (reserved : s.Reserved) (ran : Trace.Run LogUse.Step s es s') :
    s'.Reserved :=
  ran.invariant LogUse.Reserved (fun _ _ _ kept step => kept.step step) reserved

theorem LogUse.Reserved.panics_iff (reserved : s.Reserved) (e : LogEvent ι) :
    (∃ p, s.step e = some (.error p)) ↔
      ∃ process blockno, e = .logWrite process blockno ∧ s.MayLog process blockno ∧
        s.log.block.length = logblocks := by
  have bound : s.log.block.length ≤ logblocks :=
    Nat.le_trans (Nat.le_add_right _ _) reserved.room
  cases e with
  | beginOp process => simp [LogUse.step]
  | logWrite process blockno =>
    by_cases may : s.MayLog process blockno
    · have called : 1 ≤ s.log.outstanding := by
        obtain ⟨call, member, -⟩ := may.1
        have some := List.length_pos_of_mem member
        have counted := reserved.outstanding
        omega
      rcases Nat.lt_or_eq_of_le bound with room | full
      · obtain ⟨log, wrote⟩ := Log.exists_logWrite blockno room called
        simp [LogUse.step, wrote, Nat.ne_of_lt room]
      · simp [LogUse.step, Log.logWrite, full]
    · simp [LogUse.step, may]
  | endOp process =>
    by_cases inside : s.Inside process
    · obtain ⟨log, doCommit, ended, -⟩ := reserved.endOp inside
      simp [LogUse.step, ended]
    · simp [LogUse.step, inside]
  | commit process => simp [LogUse.step]
  | endCommit process => simp [LogUse.step]

def LogUse.next (s : LogUse ι) (e : LogEvent ι) : Option (LogUse ι) :=
  (s.step e).bind Except.toOption

theorem LogUse.run_of_next (computed : Trace.steps LogUse.next s es = some s') :
    Trace.Run LogUse.Step s es s' := by
  refine Trace.Run.of_steps ?_ computed
  intro s e t one
  obtain ⟨outcome, stepped, ok⟩ := Option.bind_eq_some_iff.mp one
  cases outcome with
  | error p => cases ok
  | ok u =>
    cases ok
    exact stepped

/--
In every reachable state the log is within bounds, lists no block twice, and commits alone.

A commit runs only while no call is open, and until it ends no call begins or logs a block.
An event panics exactly when a process inside a call logs a block while the log is full.
-/
theorem log_use_safe {s : LogUse ι} {es : List (LogEvent ι)}
    (ran : Trace.Run LogUse.Step .start es s) :
    s.log.block.length ≤ logblocks ∧ s.log.block.Nodup ∧
      (s.phase ≠ .idle → s.log.outstanding = 0) ∧
      (s.phase ≠ .idle → ∀ process blockno,
        s.step (.beginOp process) = none ∧ s.step (.logWrite process blockno) = none) ∧
      ∀ e, (∃ p, s.step e = some (.error p)) ↔
        ∃ process blockno, e = .logWrite process blockno ∧ s.MayLog process blockno ∧
          s.log.block.length = logblocks := by
  have reserved := LogUse.start_reserved.run ran
  refine ⟨Nat.le_trans (Nat.le_add_right _ _) reserved.room, reserved.nodup, ?_, ?_,
    reserved.panics_iff⟩
  · intro busy
    simp [reserved.outstanding, reserved.alone busy]
  · -- A commit is under way, so the flag is set and no process is inside a call.
    intro busy process blockno
    have flag := reserved.committing.mpr busy
    have nobody : ¬s.MayLog process blockno := by
      rintro ⟨⟨call, member, -⟩, -⟩
      rw [reserved.alone busy] at member
      cases member
    exact ⟨by simp [LogUse.step, Log.beginOp, flag], by simp [LogUse.step, nobody]⟩

/-- One process logs a block twice and ends its call while another waits for the commit. -/
theorem log_use_safe_commit :
    ∃ s : LogUse Nat, s.phase ≠ .idle ∧ s.log.block = [7] ∧ s.log.outstanding = 0 ∧
      s.step (.beginOp 1) = none := by
  let es : List (LogEvent Nat) := [.beginOp 0, .logWrite 0 7, .logWrite 0 7, .endOp 0]
  let s : LogUse Nat := ⟨⟨[7], 0, true⟩, [], .writing 0⟩
  have ran : Trace.Run LogUse.Step .start es s := LogUse.run_of_next (by decide)
  have busy : s.phase ≠ .idle := by decide
  obtain ⟨-, -, alone, quiet, -⟩ := log_use_safe ran
  exact ⟨s, busy, rfl, alone busy, (quiet busy 1 0).1⟩

def fillLog : List (LogEvent Nat) :=
  [.beginOp 0, .beginOp 1, .beginOp 2] ++ (List.range 30).map fun b => .logWrite (b / 10) b

/-- A block that is already in a full log cannot be logged again: `log_write` panics. -/
theorem log_write_absorbed_panics :
    ∃ s : LogUse Nat, Trace.Run LogUse.Step .start fillLog s ∧ s.MayLog 0 3 ∧
      3 ∈ s.log.block ∧ s.step (.logWrite 0 3) = some (.error .tooBig) := by
  have computed : (Trace.steps LogUse.next .start fillLog).any (fun s =>
      s.MayLog 0 3 ∧ 3 ∈ s.log.block ∧ s.step (.logWrite 0 3) = some (.error .tooBig)) = true := by
    decide
  obtain ⟨s, reached, facts⟩ := (Option.any_eq_true _ _).mp computed
  exact ⟨s, LogUse.run_of_next reached, of_decide_eq_true facts⟩

end Xv6
