import Xv6.Lib.Circular
import Xv6.Lib.Run
import Xv6.Params

/-! Console input: the interrupt handler edits a line in a ring that readers take committed bytes
from, in any order of interrupts and turns of readers. -/

namespace Xv6

/-- The byte that ends a line. -/
def newline : UInt8 := 10

/-- The byte for the end of the input. -/
def ctrlD : UInt8 := 4

/-- The input buffer with its read, write and edit index. -/
structure ConsBuf where
  buf : Nat → UInt8
  r : Nat
  w : Nat
  e : Nat

/-- The difference of two indices, as the machine computes it. -/
def indexSub (a b : Nat) : Nat := u32 (a + 2 ^ 32 - b)

/-- Step the edit index back. -/
def ConsBuf.erase (s : ConsBuf) : ConsBuf := { s with e := indexSub s.e 1 }

/-- The loop that kills a line. -/
def ConsBuf.killLine : Nat → ConsBuf → ConsBuf
  | 0, s => s
  | fuel + 1, s =>
    if s.e ≠ s.w ∧ s.buf (indexSub s.e 1 % inputBufSize) ≠ newline then s.erase.killLine fuel else s

/-- Store a byte at the edit index, and commit everything up to it where a line ends. -/
def ConsBuf.store (s : ConsBuf) (c : UInt8) : ConsBuf :=
  let s := { s with buf := Function.update s.buf (s.e % inputBufSize) c, e := u32 (s.e + 1) }
  if c = newline ∨ c = ctrlD ∨ indexSub s.e s.r = inputBufSize then { s with w := s.e } else s

/-- The interrupt for an input byte; echoing and waking readers are left out. -/
def consoleintr (c : UInt8) (s : ConsBuf) : ConsBuf :=
  -- ^P prints the processes, ^U kills the line, ^H and delete erase a byte.
  if c = 16 then s
  else if c = 21 then s.killLine (indexSub s.e s.w)
  else if c = 8 ∨ c = 127 then if s.e ≠ s.w then s.erase else s
  else if c ≠ 0 ∧ indexSub s.e s.r < inputBufSize then s.store (if c = 13 then newline else c)
  else s

/-- A call of `consoleread` under way: what was asked for, what is left, what was copied out. -/
structure ReadCall where
  target : Nat
  n : Nat
  got : List UInt8

/-- Why a call returned. -/
inductive ReadEnd where
  /-- All bytes asked for were copied. -/
  | full
  | newline
  | eof
  /-- The process was killed while it waited. -/
  | killed
  /-- A copy to the process failed. -/
  | failed
  deriving DecidableEq

/-- A call that returned. -/
structure Returned where
  p : Nat
  call : ReadCall
  stop : ReadEnd

/-- The value a call returned. -/
def Returned.value (done : Returned) : Int :=
  if done.stop = .killed then -1 else done.call.target - done.call.n

/-- What a reader took from the buffer: a byte, or the end of the input. -/
inductive Delivery where
  | byte (p : Nat) (value : UInt8)
  | eof (p : Nat)

/-- The byte in the buffer behind it. -/
def Delivery.value : Delivery → UInt8
  | .byte _ value => value
  | .eof _ => ctrlD

/-- The byte, if it went to a process. -/
def Delivery.byteFor (p : Nat) : Delivery → Option UInt8
  | .byte q value => if q = p then some value else none
  | .eof _ => none

/-- The process that was told of the end of the input. -/
def Delivery.eofFor : Delivery → Option Nat
  | .byte _ _ => none
  | .eof p => some p

/-- The console with its readers, and what they were given so far. -/
structure ConsSys where
  cons : ConsBuf
  reading : Nat → Option ReadCall
  delivered : List Delivery
  returned : List Returned

/-- What can happen at the console. -/
inductive ConsEvent where
  | intr (c : UInt8)
  | read (p n : Nat)
  /-- A turn of the loop of a reader that finds a byte; the copy to the process succeeds or fails. -/
  | turn (p : Nat) (copied : Bool)
  /-- A reader that was killed finds the buffer empty. -/
  | killed (p : Nat)

namespace ConsSys

/-- A call returns. -/
def finish (s : ConsSys) (p : Nat) (call : ReadCall) (stop : ReadEnd) : ConsSys :=
  { s with reading := Function.update s.reading p none, returned := s.returned ++ [⟨p, call, stop⟩] }

/-- A call is under way. -/
def go (s : ConsSys) (p : Nat) (call : ReadCall) : ConsSys :=
  { s with reading := Function.update s.reading p (some call) }

/-- Something is given to a reader. -/
def deliver (s : ConsSys) (d : Delivery) : ConsSys := { s with delivered := s.delivered ++ [d] }

/-- The read index is set. -/
def setR (s : ConsSys) (r : Nat) : ConsSys := { s with cons := { s.cons with r := r } }

/-- One turn of the loop of `consoleread`, with the lock held and a byte in the buffer. -/
def turn (s : ConsSys) (p : Nat) (call : ReadCall) (copied : Bool) : ConsSys :=
  let c := s.cons.buf (s.cons.r % inputBufSize)
  let s := s.setR (u32 (s.cons.r + 1))
  if c = ctrlD then
    -- After other bytes it is saved for the next call, which then gets no bytes.
    if call.n < call.target then (s.setR (indexSub s.cons.r 1)).finish p call .eof
    else (s.deliver (.eof p)).finish p call .eof
  else if !copied then s.finish p call .failed
  else
    let s := s.deliver (.byte p c)
    let call := ⟨call.target, call.n - 1, call.got ++ [c]⟩
    if c = newline then s.finish p call .newline
    else if call.n = 0 then s.finish p call .full
    else s.go p call

/-- One step of the console, when the event is possible. -/
def step (s : ConsSys) : ConsEvent → Option ConsSys
  | .intr c => some { s with cons := consoleintr c s.cons }
  | .read p n =>
    match s.reading p with
    | some _ => none
    | none =>
      if n = 0 then some (s.finish p ⟨0, 0, []⟩ .full)
      else some (s.go p ⟨n, n, []⟩)
  | .turn p copied =>
    match s.reading p with
    | none => none
    | some call => if s.cons.r = s.cons.w then none else some (s.turn p call copied)
  | .killed p =>
    match s.reading p with
    | none => none
    | some call => if s.cons.r = s.cons.w then some (s.finish p call .killed) else none

/-- The console after booting. -/
def boot : ConsSys := ⟨⟨fun _ => 0, 0, 0, 0⟩, fun _ => none, [], []⟩

end ConsSys

/-- What was typed: the bytes committed so far, and the line that is being edited. -/
structure Line where
  committed : List UInt8
  editing : List UInt8

/-- A key, typed with some room left in the buffer: the line discipline. -/
def Line.key (line : Line) (room : Nat) (c : UInt8) : Line :=
  if c = 0 ∨ c = 16 then line
  else if c = 21 then { line with editing := [] }
  else if c = 8 ∨ c = 127 then { line with editing := line.editing.dropLast }
  -- Without room the byte is dropped.
  else if room = 0 then line
  else
    let c := if c = 13 then newline else c
    let editing := line.editing ++ [c]
    -- A line is committed when it ends, and when it fills the buffer.
    if c = newline ∨ c = ctrlD ∨ room = 1 then ⟨line.committed ++ editing, []⟩
    else ⟨line.committed, editing⟩

/-- Room in the buffer. -/
def ConsSys.room (s : ConsSys) : Nat := inputBufSize - indexSub s.cons.e s.cons.r

/-- What was typed in some events. -/
def ConsSys.typed : ConsSys → Line → List ConsEvent → Line
  | _, line, [] => line
  | s, line, event :: rest =>
    match s.step event with
    | none => line
    | some t =>
      match event with
      | .intr c => t.typed (line.key s.room c) rest
      | _ => t.typed line rest

/-- The bytes between two indices. -/
def ConsBuf.span (s : ConsBuf) (first last : Nat) : List UInt8 :=
  (List.range (indexSub last first)).map fun k => s.buf (u32 (first + k) % inputBufSize)

/-- The buffer up to the edit index, as a ring. -/
def ConsBuf.ring (c : ConsBuf) : Circular.Buffer UInt8 := ⟨c.buf, c.r, c.e⟩

/-- The console holds what was typed and not delivered. -/
structure ConsSys.Holds (s : ConsSys) (line : Line) : Prop where
  ring : s.cons.ring.Holds inputBufSize (2 ^ 32) (line.committed ++ line.editing) s.delivered.length
  write : s.cons.w = line.committed.length % 2 ^ 32
  taken : s.delivered.length ≤ line.committed.length
  stream : s.delivered.map Delivery.value = line.committed.take s.delivered.length
  /-- A line that is being edited has not ended. -/
  unended : newline ∉ line.editing

section Ring

variable {s : ConsSys} {line : Line}

theorem inputBufSize_dvd : inputBufSize ∣ 2 ^ 32 := by decide

theorem inputBufSize_lt : inputBufSize < 2 ^ 32 := by decide

theorem indexSub_eq (a b : Nat) : indexSub a b = (a + 2 ^ 32 - b) % 2 ^ 32 := by rw [indexSub, u32]

theorem erase_ring (c : ConsBuf) : c.erase.ring = c.ring.erase (2 ^ 32) := by
  have index := indexSub_eq c.e 1
  simp only [ConsBuf.ring, ConsBuf.erase, Circular.Buffer.erase, index]

@[simp] theorem erase_w (c : ConsBuf) : c.erase.w = c.w := by rw [ConsBuf.erase]

namespace ConsSys.Holds

theorem fits (holds : s.Holds line) :
    line.committed.length + line.editing.length ≤ s.delivered.length + inputBufSize := by
  simpa using holds.ring.fits

theorem editing_length (holds : s.Holds line) :
    indexSub s.cons.e s.cons.w = line.editing.length := by
  have fits := holds.fits
  have taken := holds.taken
  have edit : s.cons.e = (line.committed.length + line.editing.length) % 2 ^ 32 := by
    rw [← List.length_append]
    exact holds.ring.write
  rw [indexSub_eq, edit, holds.write]
  exact Circular.wrapped_sub (by simp only [inputBufSize] at fits; omega)

theorem held_length (holds : s.Holds line) : indexSub s.cons.e s.cons.r =
    line.committed.length + line.editing.length - s.delivered.length := by
  have count := holds.ring.count inputBufSize_lt
  rw [List.length_append, Circular.Buffer.count] at count
  rw [indexSub_eq]
  exact count

theorem pending_length (holds : s.Holds line) : indexSub s.cons.w s.cons.r =
    line.committed.length - s.delivered.length := by
  have fits := holds.fits
  obtain ⟨d, length⟩ := Nat.exists_eq_add_of_le holds.taken
  have read : s.cons.r = s.delivered.length % 2 ^ 32 := holds.ring.read
  rw [indexSub_eq, holds.write, read, length, Nat.add_sub_cancel_left]
  exact Circular.wrapped_sub (by simp only [inputBufSize] at fits; omega)

theorem edit_eq_write_iff (holds : s.Holds line) : s.cons.e = s.cons.w ↔ line.editing = [] := by
  have fits := holds.fits
  have taken := holds.taken
  have edit : s.cons.e = (line.committed.length + line.editing.length) % 2 ^ 32 := by
    rw [← List.length_append]
    exact holds.ring.write
  rw [edit, holds.write, Circular.wrapped_eq_iff (by simp only [inputBufSize] at fits; omega),
    List.length_eq_zero_iff]

theorem erase (holds : s.Holds line) (some : line.editing ≠ []) :
    Holds { s with cons := s.cons.erase } { line with editing := line.editing.dropLast } := by
  have length : 0 < line.editing.length := List.length_pos_iff.mpr some
  have taken := holds.taken
  have ring := holds.ring.erase inputBufSize_lt (by rw [List.length_append]; omega)
  rw [List.dropLast_append_of_ne_nil some, ← erase_ring] at ring
  refine ⟨ring, ?_, taken, holds.stream,
    fun mem => holds.unended (List.dropLast_subset _ mem)⟩
  rw [erase_w]
  exact holds.write

theorem killLine : ∀ {fuel : Nat} {s : ConsSys} {line : Line}, s.Holds line →
    line.editing.length = fuel →
    Holds { s with cons := s.cons.killLine fuel } { line with editing := [] } := by
  intro fuel
  induction fuel with
  | zero =>
    intro s line holds length
    have empty := List.length_eq_zero_iff.mp length
    rw [← empty]
    exact holds
  | succ fuel ih =>
    intro s line holds length
    have some : line.editing ≠ [] := List.ne_nil_of_length_eq_add_one length
    have taken := holds.taken
    have last : s.cons.buf (indexSub s.cons.e 1 % inputBufSize) = line.editing.getLast some := by
      have back := holds.ring.back inputBufSize_dvd inputBufSize_lt
        (by rw [List.length_append]; omega)
      rw [← List.getLast_eq_getElem (List.append_ne_nil_of_right_ne_nil _ some),
        List.getLast_append_of_ne_nil _ some] at back
      rw [indexSub_eq]
      exact back
    have goes : s.cons.e ≠ s.cons.w ∧
        s.cons.buf (indexSub s.cons.e 1 % inputBufSize) ≠ newline := by
      refine ⟨fun same => some (holds.edit_eq_write_iff.mp same), fun ends => holds.unended ?_⟩
      rw [← ends, last]
      exact List.getLast_mem some
    rw [ConsBuf.killLine, if_pos goes]
    have killed := ih (holds.erase some) (by rw [List.length_dropLast, length]; rfl)
    exact killed

theorem store (holds : s.Holds line) {c : UInt8}
    (room : indexSub s.cons.e s.cons.r < inputBufSize) : Holds { s with cons := s.cons.store c }
      (if c = newline ∨ c = ctrlD ∨ s.room = 1 then ⟨line.committed ++ (line.editing ++ [c]), []⟩
        else ⟨line.committed, line.editing ++ [c]⟩) := by
  have taken := holds.taken
  have free : s.room = inputBufSize - indexSub s.cons.e s.cons.r := rfl
  rw [holds.held_length] at room free
  have ring := holds.ring.push inputBufSize_dvd (by rw [List.length_append]; omega) c
  rw [List.append_assoc] at ring
  -- The byte fills the buffer when there was room for one.
  have filled : indexSub (u32 (s.cons.e + 1)) s.cons.r = inputBufSize ↔ s.room = 1 := by
    have count := ring.count inputBufSize_lt
    rw [List.length_append, List.length_append, List.length_singleton] at count
    have distance : indexSub (u32 (s.cons.e + 1)) s.cons.r = line.committed.length +
        (line.editing.length + 1) - s.delivered.length := by
      rw [indexSub_eq, u32]
      exact count
    rw [distance, free]
    simp only [inputBufSize] at *
    omega
  unfold ConsBuf.store
  simp only [filled]
  split
  · -- The whole line is committed, and the next one begins.
    refine ⟨?_, ?_, by simp; omega, ?_, by simp⟩
    · rw [List.append_nil]
      exact ring
    · exact ring.write
    · rw [List.take_append_of_le_length taken]
      exact holds.stream
  · rename_i open_
    refine ⟨ring, holds.write, taken, holds.stream, fun mem => ?_⟩
    rcases List.mem_append.mp mem with old | new
    · exact holds.unended old
    · exact open_ (Or.inl (List.mem_singleton.mp new).symm)

theorem consoleintr (holds : s.Holds line) (c : UInt8) :
    Holds { s with cons := Xv6.consoleintr c s.cons } (line.key s.room c) := by
  unfold Xv6.consoleintr Line.key
  by_cases print : c = 16
  · rw [if_pos print, if_pos (Or.inr print)]
    exact holds
  rw [if_neg print]
  by_cases kill : c = 21
  · subst kill
    rw [if_pos rfl, if_neg (by decide), if_pos rfl, holds.editing_length]
    exact holds.killLine rfl
  rw [if_neg kill]
  by_cases back : c = 8 ∨ c = 127
  · have other : ¬ (c = 0 ∨ c = 16) := by rcases back with rfl | rfl <;> decide
    rw [if_pos back, if_neg other, if_neg kill, if_pos back]
    split
    · rename_i edited
      exact holds.erase fun empty => edited (holds.edit_eq_write_iff.mpr empty)
    · rename_i same
      rw [holds.edit_eq_write_iff.mp (not_not.mp same)]
      have empty := holds.edit_eq_write_iff.mp (not_not.mp same)
      rw [List.dropLast_nil, ← empty]
      exact holds
  rw [if_neg back]
  by_cases nul : c = 0
  · rw [if_neg (fun both => both.1 nul), if_pos (Or.inl nul)]
    exact holds
  have plain : ¬ (c = 0 ∨ c = 16) := fun either => either.elim nul print
  simp only [if_neg plain, if_neg kill, if_neg back]
  by_cases room : indexSub s.cons.e s.cons.r < inputBufSize
  · have some : s.room ≠ 0 := by rw [ConsSys.room]; omega
    rw [if_pos ⟨nul, room⟩, if_neg some]
    exact holds.store room
  · have none : s.room = 0 := by rw [ConsSys.room]; omega
    rw [if_neg (fun both => room both.2), if_pos none]
    exact holds

end ConsSys.Holds

end Ring

end Xv6
