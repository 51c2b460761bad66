import Xv6.Programs.Grep
import Xv6.Programs.Strings
import Mathlib.Data.List.TakeWhile

/-! The lines `grep` writes, however its input arrives. -/

namespace Xv6.Grep

open Ulib
open Function (update update_self update_of_ne)

def newline : UInt8 := 10

def bufSize : Nat := 1024

def store (mem : Nat → UInt8) (s : Nat) (bytes : List UInt8) (i : Nat) : UInt8 :=
  if s ≤ i then bytes.getD (i - s) (mem i) else mem i

def lineLoop (pattern : List UInt8) :
    Nat → (Nat → UInt8) → Nat → List (List UInt8) → (Nat → UInt8) × Nat × List (List UInt8)
  | 0, mem, p, out => (mem, p, out)
  | fuel + 1, mem, p, out =>
    match strchr mem newline (bufSize - p) p with
    | none => (mem, p, out)
    | some q =>
      let mem := update mem q 0
      if matchRe pattern (stringAt mem (bufSize - p) p) then
        let mem := update mem q newline
        lineLoop pattern fuel mem (q + 1) (out ++ [bytesAt mem p (q + 1 - p)])
      else lineLoop pattern fuel mem (q + 1) out

def readLoop (pattern : List UInt8) (cut : Nat → Nat) :
    Nat → Nat → (Nat → UInt8) → Nat → List UInt8 → List (List UInt8) → List (List UInt8)
  | 0, _, _, _, _, out => out
  | fuel + 1, k, mem, m, input, out =>
    let got := input.take (min (cut k) (bufSize - m - 1))
    if got = [] then out
    else
      let mem := store mem m got
      let m := m + got.length
      let mem := update mem m 0
      let (mem, p, out) := lineLoop pattern bufSize mem 0 out
      let m := m - p
      readLoop pattern cut fuel (k + 1) (memmove 0 p m mem) m (input.drop got.length) out

def grep (pattern : List UInt8) (cut : Nat → Nat) (mem : Nat → UInt8) (input : List UInt8) :
    List (List UInt8) :=
  -- Every turn that goes on takes a byte of the input.
  readLoop pattern cut (input.length + 1) 0 mem 0 input []

def lines (stream : List UInt8) : List (List UInt8) := (stream.splitOn newline).dropLast

def Fits (line : List UInt8) : Prop := line.length + 1 < bufSize

instance : DecidablePred Fits := fun _ => inferInstanceAs (Decidable (_ < _))

def selected (pattern stream : List UInt8) : List (List UInt8) :=
  (((lines stream).takeWhile Fits).filter (matchRe pattern)).map (· ++ [newline])

section Lines

variable {l t : List UInt8}

theorem lines_cons (plain : newline ∉ l) : lines (l ++ newline :: t) = l :: lines t := by
  have whole : l.splitOnP (· == newline) = [l] :=
    List.splitOnP_eq_singleton fun c member =>
      beq_false_of_ne fun same => plain (same ▸ member)
  unfold lines List.splitOn
  rw [List.splitOnP_append_cons (p := (· == newline)) l t (beq_self_eq_true newline), whole,
    List.singleton_append, List.dropLast_cons_of_ne_nil (List.splitOnP_ne_nil _ _)]

theorem lines_eq_nil (plain : newline ∉ l) : lines l = [] := by
  have whole : l.splitOnP (· == newline) = [l] :=
    List.splitOnP_eq_singleton fun c member =>
      beq_false_of_ne fun same => plain (same ▸ member)
  rw [lines, List.splitOn, whole]
  rfl

theorem line_or_rest (t : List UInt8) :
    newline ∉ t ∨ ∃ l r, t = l ++ newline :: r ∧ newline ∉ l := by
  by_cases here : newline ∈ t
  · obtain ⟨l, r, split, first⟩ := List.eq_append_cons_of_mem here
    exact .inr ⟨l, r, split, first⟩
  · exact .inl here

variable {pattern : List UInt8}

theorem selected_cons (plain : newline ∉ l) (fits : Fits l) :
    selected pattern (l ++ newline :: t) =
      (if matchRe pattern l then [l ++ [newline]] else []) ++ selected pattern t := by
  unfold selected
  rw [lines_cons plain, List.takeWhile_cons_of_pos (by simpa using fits), List.filter_cons]
  split <;> simp

theorem selected_eq_nil (plain : newline ∉ l) (long : ¬ Fits l) (t : List UInt8) :
    selected pattern (l ++ t) = [] := by
  rcases line_or_rest t with none | ⟨l', r, rfl, first⟩
  · have whole : newline ∉ l ++ t := by simp [plain, none]
    simp [selected, lines_eq_nil whole]
  · -- The line goes on to the next newline, and is longer still.
    have whole : newline ∉ l ++ l' := by simp [plain, first]
    have longer : ¬ Fits (l ++ l') := by
      simp only [Fits, List.length_append] at *
      omega
    unfold selected
    rw [← List.append_assoc, lines_cons whole, List.takeWhile_cons_of_neg (by simpa using longer)]
    rfl

end Lines

section Loops

variable {pattern : List UInt8}

theorem lineLoop_spec (fuel : Nat) : ∀ {mem : Nat → UInt8} {p : Nat} {t : List UInt8}
    (out : List (List UInt8)), Str mem p t → p + t.length < bufSize → t.length < fuel →
    ∃ mem' rest sel, lineLoop pattern fuel mem p out =
        (mem', p + (t.length - rest.length), out ++ sel) ∧ rest.length ≤ t.length ∧
      Holds mem' (p + (t.length - rest.length)) rest ∧ 0 ∉ rest ∧ newline ∉ rest ∧
      ∀ more, selected pattern (t ++ more) = sel ++ selected pattern (rest ++ more) := by
  induction fuel with
  | zero =>
    omega
  | succ fuel ih =>
    intro mem p t out str room enough
    rcases line_or_rest t with none | ⟨l, r, rfl, first⟩
    · -- No newline is left: what is there is the rest.
      refine ⟨mem, t, [], ?_, Nat.le_refl _, ?_, str.chars, none, fun _ => rfl⟩
      · rw [lineLoop, str.strchr_none none]
        simp
      · rw [Nat.sub_self, Nat.add_zero]
        exact str.holds
    · simp only [List.length_append, List.length_cons] at room enough ⊢
      have found : strchr mem newline (bufSize - p) p = some (p + l.length) :=
        str.strchr_some first (by omega)
      obtain ⟨line, next⟩ := str.cut
      have text : stringAt (update mem (p + l.length) 0) (bufSize - p) p = l :=
        line.stringAt (by omega)
      have fits : Fits l := by
        simp only [Fits]
        omega
      -- What follows the line is treated in the same way, whether the line is written or not.
      have goOn : ∀ mem₁ wrote, Str mem₁ (p + l.length + 1) r →
          lineLoop pattern (fuel + 1) mem p out =
            lineLoop pattern fuel mem₁ (p + l.length + 1) (out ++ wrote) →
          (if matchRe pattern l then [l ++ [newline]] else []) = wrote →
          ∃ mem' rest sel, lineLoop pattern (fuel + 1) mem p out =
              (mem', p + (l.length + (r.length + 1) - rest.length), out ++ sel) ∧
            rest.length ≤ l.length + (r.length + 1) ∧
            Holds mem' (p + (l.length + (r.length + 1) - rest.length)) rest ∧ 0 ∉ rest ∧
            newline ∉ rest ∧ ∀ more, selected pattern (l ++ newline :: r ++ more) =
              sel ++ selected pattern (rest ++ more) := by
        intro mem₁ wrote str₁ runs written
        obtain ⟨mem', rest, sel, ran, shorter, holds, chars, plain, selects⟩ :=
          ih (out ++ wrote) str₁ (by omega) (by omega)
        have place : p + l.length + 1 + (r.length - rest.length) =
            p + (l.length + (r.length + 1) - rest.length) := by omega
        rw [place] at ran holds
        refine ⟨mem', rest, wrote ++ sel, ?_, by omega, holds, chars, plain, fun more => ?_⟩
        · rw [runs, ran, List.append_assoc]
        · rw [List.append_assoc, List.cons_append, selected_cons first fits, written, selects,
            List.append_assoc]
      by_cases matched : matchRe pattern l = true
      · -- The newline is put back before the line is written.
        have back : Str (update (update mem (p + l.length) 0) (p + l.length)
            newline) (p + l.length + 1) r := next.update (.inl (by omega))
        have whole : Holds (update (update mem (p + l.length) 0) (p + l.length)
            newline) p (l ++ [newline]) := by
          refine holds_append.mpr ⟨line.holds.congr fun i here => ?_, ?_, trivial⟩
          · exact update_of_ne (by omega) _ _
          · exact update_self ..
        have bytes := whole.bytesAt
        rw [List.length_append, List.length_singleton] at bytes
        refine goOn _ [l ++ [newline]] back ?_ (if_pos matched)
        rw [lineLoop, found]
        simp only [text, if_pos matched]
        rw [show p + l.length + 1 - p = l.length + 1 by omega, bytes]
      · refine goOn _ [] next ?_ (if_neg matched)
        rw [lineLoop, found]
        simp only [text, if_neg matched, List.append_nil]

theorem str_store {mem : Nat → UInt8} {rest got : List UInt8} (holds : Holds mem 0 rest)
    (chars : 0 ∉ rest) (chars' : 0 ∉ got) :
    Str (update (store mem rest.length got) (rest.length + got.length) 0) 0
      (rest ++ got) := by
  refine ⟨.of_get fun i here => ?_, ?_, by simp [chars, chars']⟩
  · rw [List.length_append] at here
    rw [update_of_ne (by omega), store, Nat.zero_add]
    by_cases old : i < rest.length
    · rw [if_neg (by omega), List.getElem_append_left old]
      simpa using holds.get i old
    · have read : i - rest.length < got.length := by omega
      rw [if_pos (by omega), List.getElem_append_right (by omega)]
      simp [read]
  · rw [Nat.zero_add, List.length_append]
    exact update_self ..

theorem holds_moved {mem : Nat → UInt8} {p : Nat} {rest : List UInt8} (holds : Holds mem p rest) :
    Holds (memmove 0 p rest.length mem) 0 rest := by
  refine .of_get fun i here => ?_
  rw [memmove_apply, if_pos (by omega)]
  simpa using holds.get i here

theorem readLoop_eq {cut : Nat → Nat} (some_ : ∀ k, 0 < cut k) (fuel : Nat) :
    ∀ {k : Nat} {mem : Nat → UInt8} {rest input : List UInt8} (out : List (List UInt8)),
    input.length < fuel → Holds mem 0 rest → rest.length < bufSize → 0 ∉ rest → newline ∉ rest →
    0 ∉ input →
    readLoop pattern cut fuel k mem rest.length input out =
      out ++ selected pattern (rest ++ input) := by
  induction fuel with
  | zero =>
    omega
  | succ fuel ih =>
    intro k mem rest input out enough holds room chars plain chars'
    rw [readLoop]
    by_cases stop : input.take (min (cut k) (bufSize - rest.length - 1)) = []
    · rw [if_pos stop]
      have positive := some_ k
      -- A read returns nothing at the end of the input, or because the buffer is full.
      have nothing : selected pattern (rest ++ input) = [] := by
        rcases List.take_eq_nil_iff.mp stop with full | ended
        · apply selected_eq_nil plain
          simp only [Fits]
          omega
        · rw [ended, List.append_nil, selected, lines_eq_nil plain]
          rfl
      rw [nothing, List.append_nil]
    · simp only [if_neg stop]
      generalize reads : input.take (min (cut k) (bufSize - rest.length - 1)) = got at stop ⊢
      have length : got.length ≤ bufSize - rest.length - 1 := by
        rw [← reads, List.length_take]
        omega
      have positive : 0 < got.length := List.length_pos_iff.mpr stop
      obtain ⟨left, split⟩ : ∃ left, got ++ left = input := by
        rw [← reads]
        exact List.take_prefix ..
      subst split
      simp only [List.mem_append, not_or] at chars'
      rw [List.length_append] at enough
      -- The buffer has what was left and what was read, and its complete lines are done.
      have filled := str_store holds chars chars'.1
      have size : 0 + (rest ++ got).length < bufSize := by
        simp only [List.length_append]
        omega
      obtain ⟨mem', rest', sel, ran, shorter, holds', zeros, plain', selects⟩ :=
        @lineLoop_spec pattern bufSize _ _ _ out filled size (by omega)
      simp only [List.length_append, Nat.zero_add] at ran shorter holds' size
      simp only [ran, List.drop_left]
      have remains : rest.length + got.length - (rest.length + got.length - rest'.length) =
          rest'.length := by omega
      rw [remains, ih (out ++ sel) (by omega) (holds_moved holds') (by omega) zeros plain' chars'.2,
        ← List.append_assoc rest got left, selects, List.append_assoc]

end Loops

theorem grep_eq (pattern : List UInt8) {cut : Nat → Nat} (some_ : ∀ k, 0 < cut k)
    (mem : Nat → UInt8) {input : List UInt8} (chars : 0 ∉ input) :
    grep pattern cut mem input = selected pattern input := by
  have nothing : Holds mem 0 [] := trivial
  exact readLoop_eq some_ _ [] (Nat.lt_succ_self _) nothing (by decide) List.not_mem_nil
    List.not_mem_nil chars

theorem selected_eq_iff {pattern stream : List UInt8} :
    selected pattern stream = ((lines stream).filter (matchRe pattern)).map (· ++ [newline]) ↔
      ∀ line ∈ (lines stream).dropWhile Fits, matchRe pattern line = false := by
  -- What is written and what matches differ by the lines behind the first that does not fit.
  have apart : (lines stream).filter (matchRe pattern) =
      ((lines stream).takeWhile Fits).filter (matchRe pattern) ++
        ((lines stream).dropWhile Fits).filter (matchRe pattern) := by
    rw [← List.filter_append, List.takeWhile_append_dropWhile]
  rw [selected, apart, List.map_append, List.self_eq_append_right, List.map_eq_nil_iff,
    List.filter_eq_nil_iff]
  simp only [Bool.not_eq_true]

/-- However its input arrives, `grep` writes exactly the lines that match, in order and unmodified,
if and only if no line from the first one on that does not fit into the buffer matches. -/
theorem grep_writes_matching_lines_iff {pattern : List UInt8} {cut : Nat → Nat} (mem : Nat → UInt8)
    {input : List UInt8} (some_ : ∀ k, 0 < cut k) (chars : 0 ∉ input) :
    grep pattern cut mem input = ((lines input).filter (matchRe pattern)).map (· ++ [newline]) ↔
      ∀ line ∈ (lines input).dropWhile Fits, matchRe pattern line = false := by
  rw [grep_eq pattern some_ mem chars]
  exact selected_eq_iff

def longInput (n : Nat) : List UInt8 := List.replicate n 97 ++ newline :: [97, newline]

theorem lines_longInput (n : Nat) : lines (longInput n) = [List.replicate n 97, [97]] := by
  have plain : newline ∉ List.replicate n (97 : UInt8) := by
    intro member
    exact absurd (List.eq_of_mem_replicate member) (by decide)
  rw [longInput, lines_cons plain]
  exact congrArg _ (by decide)

theorem dropWhile_long {n : Nat} (long : 1023 ≤ n) (t : List (List UInt8)) :
    (List.replicate n 97 :: t).dropWhile Fits = List.replicate n 97 :: t := by
  apply List.dropWhile_cons_of_neg
  simp only [Fits, List.length_replicate, bufSize, decide_eq_true_eq]
  omega

theorem chars_longInput (n : Nat) : 0 ∉ longInput n := by
  intro member
  rcases List.mem_append.mp member with member | member
  · exact absurd (List.eq_of_mem_replicate member) (by decide)
  · exact absurd member (by decide)

/-- A line `'b'` in front of a line of 1023 characters is found, and no other line matches. -/
theorem grep_writes_before_long_line :
    grep [98] (fun _ => 1) (fun _ => 0) (98 :: newline :: longInput 1023) = [[98, newline]] := by
  have split : lines (98 :: newline :: longInput 1023) =
      [[98], List.replicate 1023 97, [97]] := by
    rw [← lines_longInput]
    exact lines_cons (l := [98]) (by decide)
  have chars : 0 ∉ 98 :: newline :: longInput 1023 := by
    simp [chars_longInput, newline]
  have others : ∀ line ∈ [List.replicate 1023 97, [97]], matchRe [98] line = false := by
    decide +kernel
  rw [(grep_writes_matching_lines_iff _ (fun _ => Nat.one_pos) chars).mpr, split]
  · decide +kernel
  · rw [split, List.dropWhile_cons_of_pos (by decide), dropWhile_long (Nat.le_refl _)]
    exact others

/-- After a line of 1023 characters nothing is written, although the line behind it matches. -/
theorem grep_stops_at_long_line :
    0 ∉ longInput 1023 ∧ lines (longInput 1023) = [List.replicate 1023 97, [97]] ∧
      grep [97] (fun _ => 1) (fun _ => 0) (longInput 1023) ≠
        ((lines (longInput 1023)).filter (matchRe [97])).map (· ++ [newline]) := by
  refine ⟨chars_longInput 1023, lines_longInput 1023, ?_⟩
  rw [grep_eq [97] (fun _ => Nat.one_pos) _ (chars_longInput 1023), Ne, selected_eq_iff,
    lines_longInput, dropWhile_long (Nat.le_refl _)]
  intro none
  exact absurd (none [97] (List.mem_cons_of_mem _ List.mem_cons_self)) (by decide)

end Xv6.Grep
