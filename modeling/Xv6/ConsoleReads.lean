import Xv6.Console

/-! Reading from the console: every byte that was committed is delivered once and in order, and the
calls of readers account for what was delivered. -/

namespace Xv6

/-- A call under way has not seen the end of a line or of the input. -/
structure ReadCall.Open (call : ReadCall) : Prop where
  more : 0 < call.n
  count : call.got.length + call.n = call.target
  unended : newline ∉ call.got
  plain : ctrlD ∉ call.got

/-- A call that returned got a line, or its front, or all bytes up to the end of the input. -/
structure Returned.Fits (done : Returned) : Prop where
  count : done.call.got.length + done.call.n = done.call.target
  plain : ctrlD ∉ done.call.got
  /-- The end of a line is the last byte. -/
  line : newline ∉ done.call.got ∨ done.stop = .newline ∧
    ∃ front, done.call.got = front ++ [newline] ∧ newline ∉ front
  /-- Fewer bytes than asked for come only with the end of a line or of the input. -/
  short : 0 < done.call.n → done.stop = .newline ∧ newline ∈ done.call.got ∨ done.stop = .eof ∨
    done.stop = .killed

namespace ConsSys

/-- The bytes a process was given. -/
def received (s : ConsSys) (p : Nat) : List UInt8 := s.delivered.filterMap (Delivery.byteFor p)

/-- The bytes of all calls of a process, the one under way included. -/
def readBy (s : ConsSys) (p : Nat) : List UInt8 :=
  (s.returned.filter fun done => done.p = p).flatMap (fun done => done.call.got) ++
    (s.reading p).elim [] ReadCall.got

/-- The processes whose calls returned no byte because of the end of the input. -/
def emptyReads (s : ConsSys) : List Nat :=
  (s.returned.filter fun done => done.stop = .eof ∧ done.call.got.isEmpty).map Returned.p

/-- The calls account for everything that was delivered. -/
structure Reads (s : ConsSys) : Prop where
  calls : ∀ p call, s.reading p = some call → call.Open
  ended : ∀ done ∈ s.returned, done.Fits
  received : ∀ p, s.received p = s.readBy p
  /-- Each end of the input that was taken is a call that returned no byte. -/
  eofs : s.delivered.filterMap Delivery.eofFor = s.emptyReads

section Calls

variable {s t : ConsSys} {p : Nat} {call : ReadCall} {stop : ReadEnd}

theorem Reads.finish (others : ∀ q ≠ p, ∀ call, s.reading q = some call → call.Open)
    (ended : ∀ done ∈ s.returned, done.Fits) (fits : Returned.Fits ⟨p, call, stop⟩)
    (received : ∀ q ≠ p, s.received q = s.readBy q)
    (mine : s.received p = (s.returned.filter fun done => done.p = p).flatMap
      (fun done => done.call.got) ++ call.got)
    (eofs : s.delivered.filterMap Delivery.eofFor =
      s.emptyReads ++ if stop = .eof ∧ call.got.isEmpty then [p] else []) :
    (s.finish p call stop).Reads := by
  refine ⟨fun q call' there => ?_, fun done mem => ?_, fun q => ?_, ?_⟩
  · by_cases same : q = p
    · simp [ConsSys.finish, same] at there
    · have still : (s.finish p call stop).reading q = s.reading q := Function.update_of_ne same ..
      rw [still] at there
      exact others q same call' there
  · rcases List.mem_append.mp mem with old | new
    · exact ended done old
    · rw [List.mem_singleton.mp new]
      exact fits
  · by_cases same : q = p
    · subst same
      simp only [ConsSys.received] at mine
      simp only [ConsSys.received, readBy, ConsSys.finish, mine]
      simp
    · have old := received q same
      simp only [ConsSys.received] at old
      simp only [ConsSys.received, readBy, ConsSys.finish, old, Function.update_of_ne same]
      simp [Ne.symm same]
  · rw [emptyReads] at eofs
    simp only [emptyReads, ConsSys.finish]
    congr 1
    by_cases empty : stop = .eof ∧ call.got.isEmpty <;> simp_all

theorem Reads.go (others : ∀ q ≠ p, ∀ call, s.reading q = some call → call.Open)
    (ended : ∀ done ∈ s.returned, done.Fits) (opened : call.Open)
    (received : ∀ q ≠ p, s.received q = s.readBy q)
    (mine : s.received p = (s.returned.filter fun done => done.p = p).flatMap
      (fun done => done.call.got) ++ call.got)
    (eofs : s.delivered.filterMap Delivery.eofFor = s.emptyReads) : (s.go p call).Reads := by
  have here : (s.go p call).reading p = some call := Function.update_self ..
  have there : ∀ q ≠ p, (s.go p call).reading q = s.reading q := fun q other =>
    Function.update_of_ne other ..
  refine ⟨fun q call' under => ?_, ended, fun q => ?_, eofs⟩
  · by_cases same : q = p
    · rw [same, here] at under
      exact Option.some.inj under ▸ opened
    · rw [there q same] at under
      exact others q same call' under
  · by_cases same : q = p
    · rw [same, readBy, here]
      exact mine
    · rw [readBy, there q same]
      exact received q same

theorem Reads.ending (reads : s.Reads) (under : s.reading p = some call)
    (fits : Returned.Fits ⟨p, call, stop⟩) (data : ¬ (stop = .eof ∧ call.got.isEmpty)) :
    (s.finish p call stop).Reads := by
  refine .finish (fun q _ => reads.calls q) reads.ended fits (fun q _ => reads.received q) ?_ ?_
  · rw [reads.received, readBy, under, Option.elim_some]
  · rw [reads.eofs, if_neg data, List.append_nil]

theorem Reads.setR (reads : s.Reads) (r : Nat) : (s.setR r).Reads :=
  ⟨reads.calls, reads.ended, reads.received, reads.eofs⟩

theorem received_deliver_byte (s : ConsSys) (p q : Nat) (c : UInt8) :
    (s.deliver (.byte p c)).received q = s.received q ++ if p = q then [c] else [] := by
  simp only [received, deliver]
  by_cases same : p = q <;> simp [Delivery.byteFor, same]

theorem received_deliver_eof (s : ConsSys) (p q : Nat) :
    (s.deliver (.eof p)).received q = s.received q := by
  simp [received, deliver, Delivery.byteFor]

theorem eofs_deliver_byte (s : ConsSys) (p : Nat) (c : UInt8) :
    (s.deliver (.byte p c)).delivered.filterMap Delivery.eofFor =
      s.delivered.filterMap Delivery.eofFor := by
  simp [deliver, Delivery.eofFor]

theorem eofs_deliver_eof (s : ConsSys) (p : Nat) :
    (s.deliver (.eof p)).delivered.filterMap Delivery.eofFor =
      s.delivered.filterMap Delivery.eofFor ++ [p] := by
  simp [deliver, Delivery.eofFor]

theorem Reads.eof (reads : s.Reads) (under : s.reading p = some call) (r : Nat) :
    (if call.n < call.target then (s.setR r).finish p call .eof
      else (s.deliver (.eof p)).finish p call .eof).Reads := by
  obtain ⟨more, count, unended, plain⟩ := reads.calls p call under
  have fits : Returned.Fits ⟨p, call, .eof⟩ :=
    ⟨count, plain, .inl unended, fun _ => .inr (.inl rfl)⟩
  split
  · refine (reads.setR r).ending under fits fun both => ?_
    have empty := List.isEmpty_iff.mp both.2
    simp only [empty, List.length_nil] at count
    omega
  · have empty : call.got = [] := List.length_eq_zero_iff.mp (by omega)
    refine .finish (fun q _ => reads.calls q) reads.ended fits (fun q _ => ?_) ?_ ?_
    · rw [received_deliver_eof]
      exact reads.received q
    · have mine := reads.received p
      rw [readBy, under] at mine
      rw [received_deliver_eof]
      exact mine
    · rw [eofs_deliver_eof, reads.eofs, empty]
      rfl

theorem Reads.byte (reads : s.Reads) (under : s.reading p = some call) {c : UInt8}
    (isByte : c ≠ ctrlD) :
    (if c = newline then
      (s.deliver (.byte p c)).finish p ⟨call.target, call.n - 1, call.got ++ [c]⟩ .newline
    else if call.n - 1 = 0 then
      (s.deliver (.byte p c)).finish p ⟨call.target, call.n - 1, call.got ++ [c]⟩ .full
    else (s.deliver (.byte p c)).go p ⟨call.target, call.n - 1, call.got ++ [c]⟩).Reads := by
  obtain ⟨more, count, unended, plain⟩ := reads.calls p call under
  -- What other processes were given does not change.
  have others : ∀ q ≠ p, (s.deliver (.byte p c)).received q = (s.deliver (.byte p c)).readBy q := by
    intro q other
    rw [received_deliver_byte, if_neg (Ne.symm other), List.append_nil]
    exact reads.received q
  have mine : (s.deliver (.byte p c)).received p = (s.returned.filter fun done => done.p = p).flatMap
      (fun done => done.call.got) ++ (call.got ++ [c]) := by
    have before := reads.received p
    rw [readBy, under, Option.elim_some] at before
    rw [received_deliver_byte, if_pos rfl, ← List.append_assoc, ← before]
  have eofs := (eofs_deliver_byte s p c).trans reads.eofs
  have size : (call.got ++ [c]).length + (call.n - 1) = call.target := by
    rw [List.length_append, List.length_singleton]
    omega
  have noEnd : ctrlD ∉ call.got ++ [c] := by
    simp only [List.mem_append, List.mem_singleton, not_or]
    exact ⟨plain, fun same => isByte same.symm⟩
  split
  · rename_i ends
    refine .finish (fun q _ => reads.calls q) reads.ended ⟨size, noEnd,
      .inr ⟨rfl, call.got, by rw [ends], unended⟩, fun _ => .inl ⟨rfl, by simp [ends]⟩⟩ others
      mine ?_
    rw [eofs, if_neg (by simp), List.append_nil]
    rfl
  · rename_i goes
    have still : newline ∉ call.got ++ [c] := by
      simp only [List.mem_append, List.mem_singleton, not_or]
      exact ⟨unended, fun same => goes same.symm⟩
    split
    · rename_i last
      refine .finish (fun q _ => reads.calls q) reads.ended
        ⟨size, noEnd, .inl still, fun left => ?_⟩ others mine ?_
      · exact absurd left (by simp only [last]; omega)
      · rw [eofs, if_neg (by simp), List.append_nil]
        rfl
    · rename_i left
      exact .go (fun q _ => reads.calls q) reads.ended
        ⟨Nat.pos_of_ne_zero left, size, still, noEnd⟩ others mine eofs

theorem Reads.turn (reads : s.Reads) (under : s.reading p = some call) :
    (s.turn p call true).Reads := by
  have moved := reads.setR (u32 (s.cons.r + 1))
  unfold ConsSys.turn
  simp only [Bool.not_true, Bool.false_eq_true, if_false]
  split
  · exact moved.eof under _
  · rename_i isByte
    exact moved.byte under isByte

theorem Reads.step (reads : s.Reads) {event : ConsEvent} (copies : ∀ q, event ≠ .turn q false)
    (stepped : s.step event = some t) : t.Reads := by
  cases event with
  | intr c =>
    obtain rfl := Option.some.inj stepped
    exact ⟨reads.calls, reads.ended, reads.received, reads.eofs⟩
  | read q n =>
    simp only [ConsSys.step] at stepped
    split at stepped
    · simp at stepped
    rename_i idle
    have mine : s.received q = (s.returned.filter fun done => done.p = q).flatMap
        (fun done => done.call.got) := by
      have before := reads.received q
      rw [readBy, idle, Option.elim_none, List.append_nil] at before
      exact before
    split at stepped
    · obtain rfl := Option.some.inj stepped
      refine .finish (fun q _ => reads.calls q) reads.ended ⟨rfl, by simp, .inl (by simp), by simp⟩
        (fun q _ => reads.received q) (by rw [mine, List.append_nil]) ?_
      rw [reads.eofs, if_neg (by simp), List.append_nil]
    · rename_i some_
      obtain rfl := Option.some.inj stepped
      exact .go (fun q _ => reads.calls q) reads.ended
        ⟨Nat.pos_of_ne_zero some_, by simp, by simp, by simp⟩ (fun q _ => reads.received q)
        (by rw [mine, List.append_nil]) reads.eofs
  | turn q copied =>
    simp only [ConsSys.step] at stepped
    split at stepped
    · simp at stepped
    · rename_i call under
      split at stepped
      · simp at stepped
      · obtain rfl := Option.some.inj stepped
        cases copied with
        | false => exact absurd rfl (copies q)
        | true => exact reads.turn under
  | killed q =>
    simp only [ConsSys.step] at stepped
    split at stepped
    · simp at stepped
    · rename_i call under
      split at stepped
      · obtain rfl := Option.some.inj stepped
        obtain ⟨more, count, unended, plain⟩ := reads.calls q call under
        exact reads.ending under ⟨count, plain, .inl unended, fun _ => .inr (.inr rfl)⟩ (by simp)
      · simp at stepped

end Calls

section Turns

variable {s t : ConsSys} {line : Line} {p : Nat} {call : ReadCall}

theorem Holds.front (holds : s.Holds line) (more : s.cons.r ≠ s.cons.w) :
    ∃ inside : s.delivered.length < line.committed.length,
      s.cons.buf (s.cons.r % inputBufSize) = line.committed[s.delivered.length] := by
  have taken := holds.taken
  have read : s.cons.r = s.delivered.length % 2 ^ 32 := holds.ring.read
  have inside : s.delivered.length < line.committed.length := by
    refine Nat.lt_of_le_of_ne taken fun same => more ?_
    rw [read, holds.write, same]
  have some : s.delivered.length < (line.committed ++ line.editing).length := by
    rw [List.length_append]
    omega
  refine ⟨inside, ?_⟩
  rw [← List.getElem_append_left inside]
  exact holds.ring.front inputBufSize_dvd some

theorem Holds.of_same (holds : s.Holds line) (cons : t.cons = s.cons)
    (delivered : t.delivered = s.delivered) : t.Holds line := by
  refine ⟨?_, ?_, ?_, ?_, holds.unended⟩
  · rw [cons, delivered]
    exact holds.ring
  · rw [cons]
    exact holds.write
  · rw [delivered]
    exact holds.taken
  · rw [delivered]
    exact holds.stream

theorem Holds.finish {stop : ReadEnd} (holds : s.Holds line) : (s.finish p call stop).Holds line :=
  holds.of_same rfl rfl

theorem Holds.go (holds : s.Holds line) : (s.go p call).Holds line := holds.of_same rfl rfl

theorem setR_r (s : ConsSys) (r : Nat) : (s.setR r).cons.r = r := rfl

theorem setR_setR (s : ConsSys) (a b : Nat) : (s.setR a).setR b = s.setR b := rfl

theorem setR_self (s : ConsSys) : s.setR s.cons.r = s := rfl

theorem setR_ring (s : ConsSys) : (s.setR (u32 (s.cons.r + 1))).cons.ring =
    s.cons.ring.pop (2 ^ 32) := by
  simp only [ConsSys.setR, ConsBuf.ring, Circular.Buffer.pop, u32]

theorem Holds.deliver (holds : s.Holds line) (more : s.cons.r ≠ s.cons.w) {d : Delivery}
    (value : d.value = s.cons.buf (s.cons.r % inputBufSize)) :
    ((s.setR (u32 (s.cons.r + 1))).deliver d).Holds line := by
  obtain ⟨inside, front⟩ := holds.front more
  have length : ((s.setR (u32 (s.cons.r + 1))).deliver d).delivered.length =
      s.delivered.length + 1 := List.length_append ..
  have popped := holds.ring.pop (by rw [List.length_append]; omega)
  refine ⟨by rw [length]; exact popped, holds.write, by rw [length]; exact inside, ?_,
    holds.unended⟩
  rw [length, List.take_succ_eq_append_getElem inside, ← front, ← value, ← holds.stream]
  exact List.map_append ..

theorem Holds.unread (holds : s.Holds line) :
    indexSub (u32 (s.cons.r + 1)) 1 = s.cons.r := by
  have read : s.cons.r = s.delivered.length % 2 ^ 32 := holds.ring.read
  rw [indexSub_eq, u32, Circular.wrapped_pred (by omega) (by decide), Nat.add_sub_cancel, read,
    Nat.mod_mod]

theorem Holds.turn (holds : s.Holds line) (more : s.cons.r ≠ s.cons.w) :
    (s.turn p call true).Holds line := by
  unfold ConsSys.turn
  simp only [Bool.not_true, Bool.false_eq_true, if_false]
  split
  · rename_i isEnd
    split
    · rw [setR_setR, setR_r, holds.unread, setR_self]
      exact holds.finish
    · exact (holds.deliver more (d := .eof p) isEnd.symm).finish
  · have given := holds.deliver more (d := .byte p _) rfl
    split
    · exact given.finish
    · split
      · exact given.finish
      · exact given.go

theorem Holds.step (holds : s.Holds line) {event : ConsEvent} (copies : ∀ q, event ≠ .turn q false)
    (keyless : ∀ c, event ≠ .intr c) (stepped : s.step event = some t) : t.Holds line := by
  cases event with
  | intr c => exact absurd rfl (keyless c)
  | read q n =>
    simp only [ConsSys.step] at stepped
    split at stepped
    · simp at stepped
    split at stepped
    · obtain rfl := Option.some.inj stepped
      exact holds.finish
    · obtain rfl := Option.some.inj stepped
      exact holds.go
  | turn q copied =>
    simp only [ConsSys.step] at stepped
    split at stepped
    · simp at stepped
    · split at stepped
      · simp at stepped
      · rename_i more
        obtain rfl := Option.some.inj stepped
        cases copied with
        | false => exact absurd rfl (copies q)
        | true => exact holds.turn more
  | killed q =>
    simp only [ConsSys.step] at stepped
    split at stepped
    · simp at stepped
    · split at stepped
      · obtain rfl := Option.some.inj stepped
        exact holds.finish
      · simp at stepped

theorem typed_cons {event : ConsEvent} {rest : List ConsEvent} (stepped : s.step event = some t) :
    s.typed line (event :: rest) = t.typed (s.typed line [event]) rest := by
  cases event <;> simp only [typed, stepped]

theorem Holds.run {events : List ConsEvent} : ∀ {s : ConsSys} {line : Line}, s.Holds line →
    s.Reads → (∀ q, ConsEvent.turn q false ∉ events) →
    Trace.steps ConsSys.step s events = some t → t.Holds (s.typed line events) ∧ t.Reads := by
  induction events with
  | nil =>
    intro s line holds reads _ ran
    obtain rfl := Option.some.inj ran
    exact ⟨holds, reads⟩
  | cons event rest ih =>
    intro s line holds reads copies ran
    obtain ⟨u, stepped, later⟩ := Option.bind_eq_some_iff.mp ran
    have copied : ∀ q, event ≠ .turn q false := fun q same => copies q (by simp [same])
    have next : u.Holds (s.typed line [event]) := by
      cases event with
      | intr c =>
        obtain rfl := Option.some.inj stepped
        exact holds.consoleintr c
      | read q n =>
        simp only [typed, stepped]
        exact holds.step copied nofun stepped
      | turn q copied' =>
        simp only [typed, stepped]
        exact holds.step copied nofun stepped
      | killed q =>
        simp only [typed, stepped]
        exact holds.step copied nofun stepped
    rw [typed_cons stepped]
    exact ih next (reads.step copied stepped)
      (fun q mem => copies q (List.mem_cons_of_mem _ mem)) later

theorem committed_key (line : Line) (room : Nat) (c : UInt8) :
    line.committed <+: (line.key room c).committed := by
  unfold Line.key
  split
  · exact List.prefix_refl _
  split
  · exact List.prefix_refl _
  split
  · exact List.prefix_refl _
  split
  · exact List.prefix_refl _
  · generalize (if c = 13 then newline else c) = stored
    dsimp only
    split
    · exact List.prefix_append ..
    · exact List.prefix_refl _

theorem committed_typed (events : List ConsEvent) : ∀ (s : ConsSys) (line : Line),
    line.committed <+: (s.typed line events).committed := by
  induction events with
  | nil =>
    intro s line
    exact List.prefix_refl _
  | cons event rest ih =>
    intro s line
    cases stepped : s.step event with
    | none => simp [typed, stepped]
    | some t =>
      cases event with
      | intr c =>
        simp only [typed, stepped]
        exact (committed_key line s.room c).trans (ih t _)
      | read q n => simpa only [typed, stepped] using ih t line
      | turn q copied => simpa only [typed, stepped] using ih t line
      | killed q => simpa only [typed, stepped] using ih t line

theorem typed_append {later : List ConsEvent} {events : List ConsEvent} :
    ∀ {s : ConsSys} {line : Line}, Trace.steps ConsSys.step s events = some t →
    s.typed line (events ++ later) = t.typed (s.typed line events) later := by
  induction events with
  | nil =>
    intro s line ran
    obtain rfl := Option.some.inj ran
    rfl
  | cons event rest ih =>
    intro s line ran
    obtain ⟨u, stepped, more⟩ := Option.bind_eq_some_iff.mp ran
    have whole : s.typed line (event :: (rest ++ later)) =
        u.typed (s.typed line [event]) (rest ++ later) := typed_cons stepped
    have front : s.typed line (event :: rest) = u.typed (s.typed line [event]) rest :=
      typed_cons stepped
    rw [List.cons_append, whole, front]
    exact ih more

theorem span_eq (c : ConsBuf) (first last : Nat) :
    c.span first last = c.ring.slice inputBufSize (2 ^ 32) first last := by
  simp only [ConsBuf.span, Circular.Buffer.slice, ConsBuf.ring, indexSub_eq, u32]

theorem Holds.pending (holds : s.Holds line) :
    s.cons.span s.cons.r s.cons.w = line.committed.drop s.delivered.length := by
  have slice := holds.ring.slice inputBufSize_dvd inputBufSize_lt (le_refl _) holds.taken
    (by rw [List.length_append]; omega)
  rw [← holds.write, ← holds.ring.read, List.take_left] at slice
  exact slice

theorem Holds.edited (holds : s.Holds line) : s.cons.span s.cons.w s.cons.e = line.editing := by
  have slice := holds.ring.slice inputBufSize_dvd inputBufSize_lt holds.taken
    (by rw [List.length_append]; omega) (le_refl _)
  rw [← holds.write, ← holds.ring.write, List.take_length, List.drop_left] at slice
  exact slice

end Turns

end ConsSys

theorem boot_holds : ConsSys.boot.Holds ⟨[], []⟩ :=
  ⟨Circular.holds_nil _, rfl, le_refl _, rfl, by simp⟩

theorem boot_reads : ConsSys.boot.Reads :=
  ⟨by simp [ConsSys.boot], by simp [ConsSys.boot], fun _ => rfl, rfl⟩

/-- Console input is edited by lines without loss. In every run of interrupts and readers in which
the copies succeed, the indices are in order, what was delivered is followed by what is committed in
the buffer to make up all that was committed, the line that is edited comes behind it, and what was
committed stays. The calls of a process got what was delivered to it, each up to the end of a line
or of the input, and each end of the input that was taken is a call that returned no byte. -/
theorem console_lossless {events later : List ConsEvent} {s : ConsSys}
    (ran : Trace.steps ConsSys.step .boot events = some s)
    (copies : ∀ p, ConsEvent.turn p false ∉ events) :
    indexSub s.cons.w s.cons.r ≤ indexSub s.cons.e s.cons.r ∧
    indexSub s.cons.e s.cons.r ≤ inputBufSize ∧
    indexSub s.cons.e s.cons.r =
      (s.cons.span s.cons.r s.cons.w).length + (s.cons.span s.cons.w s.cons.e).length ∧
    s.delivered.map Delivery.value ++ s.cons.span s.cons.r s.cons.w =
      (ConsSys.boot.typed ⟨[], []⟩ events).committed ∧
    s.cons.span s.cons.w s.cons.e = (ConsSys.boot.typed ⟨[], []⟩ events).editing ∧
    (ConsSys.boot.typed ⟨[], []⟩ events).committed <+:
      (ConsSys.boot.typed ⟨[], []⟩ (events ++ later)).committed ∧
    s.Reads ∧ ∀ done ∈ s.returned,
      done.value = if done.stop = .killed then -1 else (done.call.got.length : Int) := by
  obtain ⟨holds, reads⟩ := boot_holds.run boot_reads copies ran
  have taken := holds.taken
  have fits := holds.fits
  refine ⟨?_, ?_, ?_, ?_, holds.edited, ?_, reads, fun done mem => ?_⟩
  · rw [holds.pending_length, holds.held_length]
    omega
  · rw [holds.held_length]
    omega
  · rw [holds.pending, holds.edited, holds.held_length, List.length_drop]
    omega
  · rw [holds.stream, holds.pending, List.take_append_drop]
  · rw [ConsSys.typed_append ran]
    exact ConsSys.committed_typed later s _
  · have count := (reads.ended done mem).count
    rw [Returned.value]
    split
    · rfl
    · omega

/-- A line with a byte erased, the end of the input, and two calls that read them. -/
def typedLine : List ConsEvent :=
  [.read 7 10, .intr 97, .intr 98, .intr 8, .intr 13, .intr 4, .turn 7 true, .turn 7 true,
    .read 7 10, .turn 7 true]

/-- The first call gets the line as it was edited, and the second one no byte. -/
theorem console_lossless_line : ∃ s, Trace.steps ConsSys.step .boot typedLine = some s ∧
    s.delivered.map Delivery.value = [97, 10, 4] ∧ s.returned.map Returned.value = [2, 0] ∧
    s.Reads := by
  have ran : (Trace.steps ConsSys.step .boot typedLine).any fun s =>
      s.delivered.map Delivery.value = [97, 10, 4] ∧ s.returned.map Returned.value = [2, 0] := by
    decide
  obtain ⟨s, steps, facts⟩ := (Option.any_eq_true _ _).mp ran
  obtain ⟨bytes, values⟩ := of_decide_eq_true facts
  have copies : ∀ p, ConsEvent.turn p false ∉ typedLine := by simp [typedLine]
  obtain ⟨-, -, -, -, -, -, reads, -⟩ := @console_lossless typedLine [] s steps copies
  exact ⟨s, steps, bytes, values, reads⟩

end Xv6
