import Xv6.DataRuns
import Xv6.LockedCopies
import Xv6.SwapIsolation

/-! A copy with spinlocks held can put its thread to sleep when it needs the file system. -/

namespace Xv6

open Prog

variable {post : Unit → Kthread → Prop} {loads : Nat → FsLoad} {env : FsEnv} {isWrite : Bool}
  {addr i len va : Nat} {src : List UInt8} {pi : Pipe} {n : Int} {s : CopyState}

section Rules

variable {th : Kthread} {abort : Stop → Prop}

@[simp] theorem wp_acquire :
    wp acquire post abort th ↔ post () { th with noff := th.noff + 1 } := wp_modify _ _ _ _

@[simp] theorem wp_release :
    wp release post abort th ↔ post () { th with noff := th.noff - 1 } := wp_modify _ _ _ _

@[simp] theorem wp_resume {o : Others} : wp o.resume post abort th ↔
      post () { th with m := ⟨o.kmem, o.fs, { th.m.proc with killed := o.killed }⟩ } :=
  wp_modify _ _ _ _

@[simp] theorem wp_sleep :
    wp sleep post abort th ↔ if th.noff = 1 then post () th else abort .schedLocks := by
  unfold sleep sched
  by_cases one : th.noff = 1
  · have same : { th with noff := 1 } = th := by rw [← one]
    simp [one, same]
  · simp [one]

@[simp] theorem wp_wakeup : wp wakeup post abort th ↔ post () th := by
  simp [wakeup]

@[simp] theorem wp_killed {post : Bool → Kthread → Prop} :
    wp killed post abort th ↔ post th.m.proc.killed th := by
  simp [killed]

theorem wp_kern {α : Type} {op : KernOp α} {post : α → Kthread → Prop}
    (done : ∀ a m', post a ⟨m', th.noff⟩) (panics : ∀ e, abort (.panic e)) :
    wp (kern op) post abort th := by
  refine wp_intro (fun a th' ran => ?_) (fun e ran => ?_)
  · unfold kern at ran
    split at ran
    · cases ran
      exact done _ _
    · cases ran
  · unfold kern at ran
    split at ran
    · cases ran
    · cases ran
      exact panics _

theorem wp_runCalls (locked : 1 ≤ th.noff) (calls : List FsCall) (done : post () th)
    (sleeps : calls ≠ [] → abort .schedLocks) : ∀ k, wp (runCalls loads k calls) post abort th := by
  induction calls with
  | nil =>
    simpa [runCalls] using done
  | cons call rest ih =>
    intro k
    have stops := sleeps (List.cons_ne_nil call rest)
    have deep : th.noff ≠ 0 := by omega
    simp only [runCalls, FsCall.run, wp_bind, wp_acquire]
    split
    · simpa [deep] using stops
    · simpa using ih (fun _ => stops) (k + 1)

theorem wp_runCalls_committing (locked : 1 ≤ th.noff) (rest : List FsCall)
    (busy : (loads 0).log.committing = true) (stops : abort .schedLocks) :
    wp (runCalls loads 0 (.beginOp :: rest)) post abort th := by
  have waits : FsCall.beginOp.sleeps (loads 0) = true := by
    simp [FsCall.sleeps, Log.beginOp, busy]
  have deep : th.noff ≠ 0 := by omega
  simpa only [runCalls, FsCall.run, wp_bind, wp_acquire, waits, if_true, wp_sleep,
    Nat.add_eq_right, deep, if_false] using stops

end Rules

theorem copyCalls_quiet (fuel : Nat) : ∀ va len m,
    QuietIff (copyCalls env isWrite fuel va len m) (CopiesQuietly env isWrite fuel va len m) := by
  -- Both sides go on to the next page under the same conditions.
  induction fuel with
  | zero => exact fun _ _ _ => ⟨fun _ => rfl, fun loud => absurd trivial loud⟩
  | succ fuel ih =>
    intro va len m
    unfold copyCalls CopiesQuietly
    by_cases none : len = 0
    · rw [if_pos none]
      exact ⟨fun _ => rfl, fun loud => absurd (Or.inl none) loud⟩
    simp only [none, if_false, false_or]
    have first := accessCalls_quiet (c := .of env m) (p := m.proc) (pgrounddown va) isWrite
    by_cases quiet : m.proc.ReachesQuietly (.of env m) (pgrounddown va) isWrite
    · -- The first page is there, so the calls are those of the pages behind it.
      rw [first.silent quiet, List.nil_append]
      simp only [quiet, true_and]
      split
      · rename_i pa m' reached
        split
        · rename_i unwritable
          refine ⟨fun _ => rfl, fun loud => absurd (fun pa' m'' reached' writable => ?_) loud⟩
          rw [reached] at reached'
          cases reached'
          simp [writable] at unwritable
        · rename_i writable
          refine (ih _ _ _).congr ⟨fun rest pa' m'' reached' _ => ?_,
            fun rest => rest pa m' reached (by simpa using writable)⟩
          rw [reached] at reached'
          cases reached'
          exact rest
      · rename_i stopped
        exact ⟨fun _ => rfl, fun loud => absurd (fun pa m' reached => absurd reached (stopped pa m'))
          loud⟩
    · obtain ⟨rest, begins⟩ := first.begins quiet
      exact ⟨fun both => absurd both.1 quiet, fun _ => ⟨_, by rw [begins]; rfl⟩⟩

section Copies

variable {th : Kthread} {abort : Stop → Prop} {t : Turn} {α : Type} {op : KernOp α}

theorem wp_lockedCopy {post : α → Kthread → Prop} (locked : 1 ≤ th.noff)
    (done : ∀ r m', post r ⟨m', th.noff⟩) (panics : ∀ e, abort (.panic e))
    (sleeps : ¬ CopiesQuietly t.env isWrite len va len th.m → abort .schedLocks) :
    wp (lockedCopy t isWrite va len op) post abort th := by
  simp only [lockedCopy, wp_bind, wp_get]
  refine wp_runCalls locked _ (wp_kern done panics) (fun calls => sleeps fun quiet => ?_) 0
  exact calls ((copyCalls_quiet _ _ _ _).silent quiet)

theorem wp_lockedCopy_committing {post : α → Kthread → Prop}
    (locked : 1 ≤ th.noff) (busy : (t.loads 0).log.committing = true)
    (loud : ¬ CopiesQuietly t.env isWrite len va len th.m) (stops : abort .schedLocks) :
    wp (lockedCopy t isWrite va len op) post abort th := by
  obtain ⟨rest, begins⟩ := (copyCalls_quiet len va len th.m).begins loud
  simp only [lockedCopy, wp_bind, wp_get, begins]
  exact wp_runCalls_committing locked rest busy stops

end Copies

section Turns

variable {th : Kthread} {t : Turn}

theorem wp_pipewriteTurn (held : th.noff = 1) :
    wp (pipewriteTurn t pi addr n i) (fun sec th' => th'.noff = sec.locks)
      (fun e => CopyState.Quiet t.env ⟨.pipewrite pi addr n i, th⟩ → e ≠ .schedLocks) th := by
  unfold pipewriteTurn
  by_cases ended : n ≤ i
  · simp [ended, held, Section.locks]
  rw [if_neg ended, wp_bind, wp_killed]
  split
  · simp [held, Section.locks]
  rename_i goes
  by_cases full : pi.nwrite = u32 (pi.nread + pipesize)
  · simp [full, held, Section.locks]
  rw [if_neg full, wp_bind]
  refine wp_lockedCopy (Nat.le_of_eq held.symm) (fun r m' => ?_) (fun e _ => Stop.noConfusion)
    (fun loud quiet => ?_)
  · split
    · simpa [Section.locks] using held
    · simp [Section.locks, held]
  · simp only [Bool.or_eq_true, Bool.not_eq_true', not_or, Bool.not_eq_false,
      Bool.not_eq_true] at goes
    exact absurd (quiet (not_le.mp ended) goes.1 goes.2 full) loud

theorem wp_pipeemptyTurn (held : th.noff = 1) :
    wp (pipeemptyTurn t pi addr n) (fun sec th' => th'.noff = sec.locks)
      (fun e => CopyState.Quiet t.env ⟨.pipeempty pi addr n, th⟩ → e ≠ .schedLocks) th := by
  unfold pipeemptyTurn
  split
  · simpa [Section.locks] using held
  rw [wp_bind, wp_killed]
  split
  · simp [held, Section.locks]
  · simp [held, Section.locks]

theorem wp_pipereadTurn (held : th.noff = 1) :
    wp (pipereadTurn t pi addr n i) (fun sec th' => th'.noff = sec.locks)
      (fun e => CopyState.Quiet t.env ⟨.piperead pi addr n i, th⟩ → e ≠ .schedLocks) th := by
  unfold pipereadTurn
  by_cases ended : n ≤ i ∨ pi.nread = pi.nwrite
  · simp [ended, held, Section.locks]
  rw [if_neg ended, wp_bind]
  obtain ⟨more, filled⟩ := not_or.mp ended
  refine wp_lockedCopy (Nat.le_of_eq held.symm) (fun r m' => ?_) (fun e _ => Stop.noConfusion)
    (fun loud quiet => absurd (quiet (not_le.mp more) filled) loud)
  split
  · simp [Section.locks, held]
  · simpa [Section.locks] using held

theorem wp_consolereadTurn {cons : Cons} {dst : Nat} {target : Int} (held : th.noff = 1) :
    wp (consolereadTurn t cons dst n target) (fun sec th' => th'.noff = sec.locks)
      (fun e => CopyState.Quiet t.env ⟨.consoleread cons dst n target, th⟩ → e ≠ .schedLocks)
      th := by
  unfold consolereadTurn
  by_cases ended : n ≤ 0
  · simp [ended, held, Section.locks]
  rw [if_neg ended]
  by_cases empty : cons.r = cons.w
  · rw [if_pos empty, wp_bind, wp_killed]
    split
    · simp [held, Section.locks]
    · simp [held, Section.locks]
  rw [if_neg empty]
  by_cases eof : cons.buf (cons.r % inputBufSize) = 4
  · simp [eof, held, Section.locks]
  rw [if_neg eof, wp_bind]
  refine wp_lockedCopy (Nat.le_of_eq held.symm) (fun r m' => ?_) (fun e _ => Stop.noConfusion)
    (fun loud quiet => absurd (quiet (not_le.mp ended) empty eof) loud)
  split_ifs
  · simp [Section.locks, held]
  · simp [Section.locks, held]
  · simpa [Section.locks] using held

theorem wp_kwaitTurn {slot : Nat} {havekids : Bool} (held : th.noff = 1) :
    wp (kwaitTurn t addr slot havekids) (fun sec th' => th'.noff = sec.locks)
      (fun e => CopyState.Quiet t.env ⟨.kwait addr slot havekids, th⟩ → e ≠ .schedLocks) th := by
  unfold kwaitTurn
  by_cases ended : nproc ≤ slot
  · rw [if_pos ended, wp_bind, wp_killed]
    split
    · simp [held, Section.locks]
    · simp [held, Section.locks]
  rw [if_neg ended]
  split
  · simpa [Section.locks] using held
  rename_i pp _
  rw [wp_bind, wp_acquire]
  -- The child's state is collected with two locks held, and both are given back.
  have collects : ∀ th' : Kthread, th'.noff = 2 →
      wp (do
        kern (withKmem (freeproc pp.proc))
        release
        release
        return Section.returned pp.proc.pid) (fun sec th'' => th''.noff = sec.locks)
        (fun e => CopyState.Quiet t.env ⟨.kwait addr slot havekids, th⟩ → e ≠ .schedLocks) th' := by
    intro th' two
    rw [wp_bind]
    refine wp_kern (fun _ m' => ?_) (fun e _ => Stop.noConfusion)
    simp [Section.locks, two]
  split_ifs with alive asked
  · simp [Section.locks, held]
  · rw [wp_bind]
    refine wp_lockedCopy (by simp) (fun r m' => ?_) (fun e _ => Stop.noConfusion)
      (fun loud quiet => absurd (quiet (not_le.mp ended) asked) loud)
    split
    · simp [Section.locks, held]
    · exact collects _ (by simp [held])
  · exact collects _ (by simp [held])

end Turns

theorem CopyState.wp_turn (t : Turn) (held : s.th.noff = s.sec.locks) :
    wp (s.sec.turn t) (fun sec th' => th'.noff = sec.locks)
      (fun e => s.Quiet t.env → e ≠ .schedLocks) s.th := by
  obtain ⟨sec, th⟩ := s
  cases sec with
  | pipewrite pi addr n i => exact wp_pipewriteTurn held
  | pipeempty pi addr n => exact wp_pipeemptyTurn held
  | piperead pi addr n i => exact wp_pipereadTurn held
  | consoleread cons dst n target => exact wp_consolereadTurn held
  | kwait addr slot havekids => exact wp_kwaitTurn held
  | returned value => simpa [Section.turn] using held

def Turn.committing (env : FsEnv) (m : Machine) : Turn where
  env := env
  loads := fun _ => ⟨⟨[], 0, true⟩, fun _ => false, fun _ => true⟩
  others := ⟨m.kmem, m.fs, false⟩
  pipe := ⟨fun _ => 0, 0, 0, true, true⟩
  cons := ⟨fun _ => 0, 0, 0⟩
  child := some ⟨{ m.proc with state := .zombie }, 0⟩

theorem CopyState.wp_turn_committing (held : s.th.noff = s.sec.locks) (loud : ¬ s.Quiet env) :
    wp (s.sec.turn (.committing env s.th.m)) (fun _ _ => False) (fun e => e = .schedLocks)
      s.th := by
  obtain ⟨sec, th⟩ := s
  unfold CopyState.Quiet at loud
  cases sec with
  | pipewrite pi addr n i =>
    simp only [Classical.not_imp] at loud
    obtain ⟨more, isOpen, alive, room, loud⟩ := loud
    simp only [Section.turn, pipewriteTurn, if_neg (not_le.mpr more), wp_bind, wp_killed, isOpen,
      alive, Bool.not_true, Bool.or_self, Bool.false_eq_true, if_false, if_neg room]
    exact wp_lockedCopy_committing (Nat.le_of_eq held.symm) rfl loud rfl
  | piperead pi addr n i =>
    simp only [Classical.not_imp] at loud
    obtain ⟨more, filled, loud⟩ := loud
    have goes : ¬ (n ≤ i ∨ pi.nread = pi.nwrite) := not_or.mpr ⟨not_le.mpr more, filled⟩
    simp only [Section.turn, pipereadTurn, if_neg goes, wp_bind]
    exact wp_lockedCopy_committing (Nat.le_of_eq held.symm) rfl loud rfl
  | consoleread cons dst n target =>
    simp only [Classical.not_imp] at loud
    obtain ⟨more, filled, char, loud⟩ := loud
    simp only [Section.turn, consolereadTurn, if_neg (not_le.mpr more), if_neg filled,
      if_neg char, wp_bind]
    exact wp_lockedCopy_committing (Nat.le_of_eq held.symm) rfl loud rfl
  | kwait addr slot havekids =>
    simp only [Classical.not_imp] at loud
    obtain ⟨more, asked, loud⟩ := loud
    simp only [Section.turn, kwaitTurn, if_neg (not_le.mpr more), Turn.committing, wp_bind,
      wp_acquire, ne_eq, not_true_eq_false, if_false, asked, not_false_iff, if_true]
    exact wp_lockedCopy_committing (by simp) rfl loud rfl
  | pipeempty pi addr n => exact absurd trivial loud
  | returned value => exact absurd trivial loud

theorem CopyState.held_of_run {sec : Section} {m : Machine} {es : List CopyEvent}
    (run : Trace.Run CopyState.Steps (.enter sec m) es s) : s.th.noff = s.sec.locks := by
  refine run.invariant (fun s => s.th.noff = s.sec.locks) (fun s e s' held stepped => ?_) rfl
  unfold CopyState.Steps CopyState.next at stepped
  cases e with
  | turn t =>
    dsimp only at stepped
    split at stepped
    · rename_i sec' th' ran
      cases stepped
      have kept := wp_ok (CopyState.wp_turn t held) ran
      exact kept
    · cases stepped
  | others o =>
    dsimp only at stepped
    split at stepped
    · rename_i th' ran
      cases stepped
      have kept : wp o.resume (fun _ th => th.noff = s.sec.locks) (fun _ => True) s.th :=
        wp_resume.mpr held
      have still := wp_ok kept ran
      exact still
    · cases stepped

/-- With spinlocks held, a thread can stop in the scheduler exactly where its next copy needs the
file system for a page of the user buffer. -/
theorem locked_copy_sleepless_iff {sec : Section} {m : Machine} {es : List CopyEvent}
    {s : CopyState} (run : Trace.Run CopyState.Steps (.enter sec m) es s) (env : FsEnv) :
    (∀ t : Turn, t.env = env → s.next (.turn t) ≠ .error .schedLocks) ↔ s.Quiet env := by
  have held := CopyState.held_of_run run
  constructor
  · intro safe
    by_contra loud
    refine safe (.committing env s.th.m) rfl ?_
    unfold CopyState.next
    dsimp only
    rw [eq_error_of_wp (CopyState.wp_turn_committing held loud)]
  · rintro quiet t rfl stopped
    unfold CopyState.next at stopped
    dsimp only at stopped
    split at stopped
    · cases stopped
    · rename_i e ran
      exact wp_error (CopyState.wp_turn t held) ran quiet (Except.error.inj stopped)

def openPipe : Pipe := ⟨fun _ => 0, 0, 0, true, true⟩

def coldTurn (m : Machine) : Turn where
  env := someRoom
  loads := fun _ => ⟨⟨[], 0, false⟩, fun _ => false, fun _ => false⟩
  others := ⟨m.kmem, m.fs, false⟩
  pipe := openPipe
  cons := ⟨fun _ => 0, 0, 0⟩
  child := none

def touched : Machine := after (handlePageFault someFiles 8 13) dataRunning

/-- Two bytes of a page that is there are written to a pipe without sleeping. -/
theorem locked_copy_sleepless_touched : ∃ s,
    Trace.Run CopyState.Steps (.enter (.pipewrite openPipe 8 2 0) touched)
      [.turn (coldTurn touched)] s ∧
    ∀ t : Turn, t.env = someRoom → s.next (.turn t) ≠ .error .schedLocks := by
  have ran : ((CopyState.enter (.pipewrite openPipe 8 2 0) touched).next
      (.turn (coldTurn touched))).toOption.any fun s =>
        (walkaddr s.th.m.proc.pagetable 0).isSome &&
          match s.sec with
          | .pipewrite _ addr n i => addr = 8 ∧ n = 2 ∧ i = 1
          | _ => false := by
    decide +kernel
  obtain ⟨s, found, facts⟩ := (Option.any_eq_true _ _).mp ran
  obtain ⟨mapped, place⟩ := Bool.and_eq_true_iff.mp facts
  have stepped : (CopyState.enter (.pipewrite openPipe 8 2 0) touched).next
      (.turn (coldTurn touched)) = .ok s := by
    cases result : (CopyState.enter (.pipewrite openPipe 8 2 0) touched).next
      (.turn (coldTurn touched)) with
    | ok s' =>
      rw [result] at found
      exact congrArg _ (Option.some.inj found)
    | error e => simp [result, Except.toOption] at found
  have run : Trace.Run CopyState.Steps (.enter (.pipewrite openPipe 8 2 0) touched)
      [.turn (coldTurn touched)] s := .cons stepped (.nil s)
  refine ⟨s, run, (locked_copy_sleepless_iff run someRoom).mpr ?_⟩
  -- The second byte lies on the same page as the first.
  unfold CopyState.Quiet
  split at place
  · rename_i pi addr n i at_
    obtain ⟨rfl, rfl, rfl⟩ := of_decide_eq_true place
    rw [at_]
    intro _ _ _ _
    exact .inr ⟨.inl (Option.isSome_iff_ne_none.mp mapped), fun _ _ _ _ => trivial⟩
  · cases place

def filledFile : Inode :=
  { elfFile 6 pgsize with data := Function.update (elfFile 6 pgsize).data 96 64 }

def filledSys : Sys := { initSys with fs := initFs filledFile }

/-- Writing to a pipe from a data page that was not used yet stops the kernel. -/
theorem pipewrite_stops : filledSys.Boot ∧ ∃ s m,
    Trace.Run Sys.Steps filledSys startInit s ∧ s.enter 0 = some m ∧
    m.proc.paging.segs.data.Has 8 ∧
    (CopyState.enter (.pipewrite openPipe 8 1 0) m).next (.turn (coldTurn m)) =
      .error .schedLocks := by
  refine ⟨⟨by decide, by decide, fun _ => rfl⟩, ?_⟩
  obtain ⟨s, m, run, entered, data, stopped⟩ := Sys.exists_run filledSys startInit 0 (fun m =>
      m.proc.paging.segs.data.Has 8 ∧
      errorOf ((CopyState.enter (.pipewrite openPipe 8 1 0) m).next (.turn (coldTurn m))) =
        some .schedLocks) (by decide +kernel)
  exact ⟨s, m, run, entered, data, eq_error_of_errorOf stopped⟩

end Xv6
