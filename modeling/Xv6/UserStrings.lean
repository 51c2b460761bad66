import Xv6.UserCopies

/-! Strings copied from user memory: where they end, and how much is written for them. -/

namespace Xv6

open Prog

/-- The inner loop of `copyinstr`: the bytes written for the bytes of one page, and whether a NUL
was among them. -/
def scanString : List UInt8 → List UInt8 × Bool
  | [] => ([], false)
  | byte :: rest =>
    if byte = 0 then ([0], true)
    else
      let (written, gotNull) := scanString rest
      (byte :: written, gotNull)

/-- The outer loop of `copyinstr`, which returns what it wrote to its destination as well. -/
def copyinstrFrom (env : FsEnv) (other : Option PageTable) :
    Nat → Nat → Nat → KernOp (Int × List UInt8)
  | 0, _, _ => return (-1, [])
  | fuel + 1, srcva, max => do
    if max = 0 then return (-1, [])
    match ← copyinPage env other srcva max with
    | none => return (-1, [])
    | some bytes =>
      let (written, gotNull) := scanString bytes
      if gotNull then return (0, written)
      let (r, more) ← copyinstrFrom env other fuel (pgrounddown srcva + pgsize) (max - bytes.length)
      return (r, written ++ more)

/-- Copy a string from memory mapped in a table, with its NUL; every turn takes a byte at least. -/
def copyinstr (env : FsEnv) (other : Option PageTable) (srcva max : Nat) :
    KernOp (Int × List UInt8) :=
  copyinstrFrom env other max srcva max

/-- The number of bytes before the first NUL. -/
def strlen (buf : List UInt8) : Nat := (buf.takeWhile (· ≠ 0)).length

/-- The length of a string of the current process, which is copied. -/
def fetchstr (env : FsEnv) (addr max : Nat) : KernOp (Int × List UInt8) := do
  let (r, buf) ← copyinstr env none addr max
  if r < 0 then return (-1, buf)
  return (strlen buf, buf)

/-- Copying a string evicts no page. -/
def CopyinstrCalm (env : FsEnv) (other : Option PageTable) : Nat → Nat → Nat → Machine → Prop
  | 0, _, _, _ => True
  | fuel + 1, srcva, max, m =>
    max = 0 ∨ m.ReachCalm env other (pgrounddown srcva) false ∧
      ∀ bytes m', copyinPage env other srcva max m = .ok (some bytes, m') →
        (scanString bytes).2 = false →
        CopyinstrCalm env other fuel (pgrounddown srcva + pgsize) (max - bytes.length) m'

section Scan

variable {bytes : List UInt8}

theorem scanString_all (open_ : (scanString bytes).2 = false) :
    (scanString bytes).1 = bytes ∧ 0 ∉ bytes := by
  induction bytes with
  | nil => simp [scanString]
  | cons byte rest ih =>
    by_cases zero : byte = 0
    · simp [scanString, zero] at open_
    · simp only [scanString, zero, if_false] at open_ ⊢
      obtain ⟨same, none⟩ := ih open_
      refine ⟨by rw [same], fun mem => ?_⟩
      rcases List.mem_cons.mp mem with here | there
      · exact zero here.symm
      · exact none there

theorem scanString_nul (ended : (scanString bytes).2 = true) : ∃ str rest,
    bytes = str ++ 0 :: rest ∧ 0 ∉ str ∧ (scanString bytes).1 = str ++ [0] := by
  induction bytes with
  | nil => simp [scanString] at ended
  | cons byte rest ih =>
    by_cases zero : byte = 0
    · exact ⟨[], rest, by rw [zero]; rfl, by simp, by simp [scanString, zero]⟩
    · simp only [scanString, zero] at ended ⊢
      obtain ⟨str, more, split, none, written⟩ := ih ended
      refine ⟨byte :: str, more, by rw [split]; rfl, fun mem => ?_, by rw [written]; rfl⟩
      rcases List.mem_cons.mp mem with here | there
      · exact zero here.symm
      · exact none there

end Scan

/-- A string with its NUL was found within a limit. -/
structure Machine.FoundString (m : Machine) (other : Option PageTable) (src max : Nat)
    (written : List UInt8) : Prop where
  ends : ∃ str, 0 ∉ str ∧ written = str ++ [0]
  fits : written.length ≤ max
  held : m.UserBytes other src written

/-- No NUL was found, because of the limit or because a page is not there. -/
structure Machine.MissedString (m : Machine) (other : Option PageTable) (src max : Nat)
    (written : List UInt8) : Prop where
  plain : 0 ∉ written
  fits : written.length ≤ max
  held : m.UserBytes other src written
  stopped : written.length < max → ∀ pte, ¬ (copyTable m other).UserPage (src + written.length) pte

/-- A NUL is at an offset of an address, and all pages up to it can be accessed. -/
def Machine.NulAt (m : Machine) (other : Option PageTable) (src j : Nat) : Prop :=
  (∀ k ≤ j, ∃ pte, (copyTable m other).UserPage (src + k) pte) ∧
    ∃ pte, (copyTable m other).UserPage (src + j) pte ∧ m.kmem.ram pte.pa ((src + j) % pgsize) = 0

section Strings

variable {env : FsEnv} {other : Option PageTable} {m m' : Machine} {src max : Nat}
  {bytes more : List UInt8}

theorem Machine.UserBytes.append (first : m.UserBytes other src bytes)
    (second : m.UserBytes other (src + bytes.length) more) :
    m.UserBytes other src (bytes ++ more) := by
  intro i byte here
  by_cases early : i < bytes.length
  · rw [List.getElem?_append_left early] at here
    exact first i byte here
  · rw [List.getElem?_append_right (by omega)] at here
    have there := second _ byte here
    have place : src + bytes.length + (i - bytes.length) = src + i := by omega
    rwa [place] at there

theorem Machine.UserBytes.left (held : m.UserBytes other src (bytes ++ more)) :
    m.UserBytes other src bytes := by
  intro i byte here
  refine held i byte ?_
  rw [List.getElem?_append_left (List.getElem?_eq_some_iff.mp here).1]
  exact here

theorem Machine.UserBytes.nil : m.UserBytes other src [] := fun i byte here => by simp at here

theorem copyinstrFrom_spec (fuel : Nat) : ∀ {src max : Nat} {m : Machine}, m.CopyReady other →
    max ≤ fuel → CopyinstrCalm env other fuel src max m →
    wp (copyinstrFrom env other fuel src max) (fun result m' => m.Extends m' ∧
      (result.1 = 0 ∧ m'.FoundString other src max result.2 ∨
        result.1 = -1 ∧ m'.MissedString other src max result.2)) (fun _ => True) m := by
  -- The induction is on the turns; each turn takes at least one byte.
  induction fuel with
  | zero =>
    intro src max m _ enough _
    simp only [copyinstrFrom, wp_pure]
    exact ⟨.of_eq rfl rfl, Or.inr ⟨trivial, by simp, Nat.zero_le _, .nil, fun below => by
      simp only [List.length_nil] at below; omega⟩⟩
  | succ fuel ih =>
    intro src max m ready enough calm
    by_cases none_ : max = 0
    · simp only [copyinstrFrom, none_, if_true, wp_pure]
      exact ⟨.of_eq rfl rfl, Or.inr ⟨trivial, by simp, Nat.zero_le _, .nil, fun below => by
        simp only [List.length_nil] at below; omega⟩⟩
    obtain ⟨reach, rest⟩ := calm.resolve_left none_
    have inPage : src % pgsize < pgsize := Nat.mod_lt _ pgsize_pos
    simp only [copyinstrFrom, none_, if_false, wp_bind]
    refine wp_intro (fun found m₁ ran => ?_) fun _ _ => trivial
    obtain ⟨extension, ready₁, absent, taken⟩ := copyinPage_spec ready reach ran
    cases found with
    | none =>
      -- The page of the next byte is not there.
      simp only [wp_pure]
      exact ⟨extension, Or.inr ⟨trivial, by simp, Nat.zero_le _, .nil, fun _ => absent rfl⟩⟩
    | some bytes =>
      obtain ⟨length, held⟩ := taken bytes rfl
      simp only
      cases ended : (scanString bytes).2 with
      | true =>
        obtain ⟨str, after, split, plain, written⟩ := scanString_nul ended
        simp only [if_true, wp_pure, written]
        refine ⟨extension, Or.inl ⟨trivial, ⟨str, plain, rfl⟩, ?_, ?_⟩⟩
        · have size : (str ++ 0 :: after).length ≤ max := by rw [← split]; omega
          simp only [List.length_append, List.length_cons, List.length_nil] at size ⊢
          omega
        · rw [split, List.append_cons] at held
          exact held.left
      | false =>
        obtain ⟨written, plain⟩ := scanString_all ended
        simp only [Bool.false_eq_true, if_false, wp_bind, written]
        refine wp_imp (ih ready₁ (by omega) (rest bytes m₁ ran ended)) ?_
        rintro ⟨r, later⟩ m' ⟨extension', outcome⟩
        simp only [wp_pure]
        change r = 0 ∧ m'.FoundString other _ _ later ∨
          r = -1 ∧ m'.MissedString other _ _ later at outcome
        have first : m'.UserBytes other src bytes := held.extend ready₁ extension'
        -- Unless the limit is in this page, the next page starts behind the bytes taken.
        have next : max - bytes.length ≠ 0 → pgrounddown src + pgsize = src + bytes.length := by
          simp only [pgrounddown, pgsize] at *
          omega
        refine ⟨extension.trans extension', ?_⟩
        rcases outcome with ⟨zero, ends, fits, held'⟩ | ⟨failed, plain', fits, held', stopped⟩
        · obtain ⟨str, none, rfl⟩ := ends
          simp only [List.length_append, List.length_cons] at fits
          rw [next (by omega)] at held'
          refine Or.inl ⟨zero, ⟨bytes ++ str, ?_, by rw [List.append_assoc]⟩, ?_, first.append held'⟩
          · rw [List.mem_append]
            exact fun mem => mem.elim plain none
          · simp only [List.length_append, List.length_cons]
            omega
        · refine Or.inr ⟨failed, ?_, ?_, ?_, fun below => ?_⟩
          · rw [List.mem_append]
            exact fun mem => mem.elim plain plain'
          · rw [List.length_append]
            omega
          · -- Bytes behind the limit are not there, so where they would be does not matter.
            by_cases last : max - bytes.length = 0
            · have empty : later = [] := List.length_eq_zero_iff.mp (by omega)
              rw [empty, List.append_nil]
              exact first
            · rw [next last] at held'
              exact first.append held'
          · rw [List.length_append] at below ⊢
            have lacks := stopped (by omega)
            rwa [next (by omega), Nat.add_assoc] at lacks

theorem Machine.FoundString.nulAt (found : m.FoundString other src max bytes) :
    ∃ j < max, m.NulAt other src j := by
  obtain ⟨str, -, rfl⟩ := found.ends
  have fits := found.fits
  simp only [List.length_append, List.length_cons] at fits
  refine ⟨str.length, by omega, fun k upto => ?_, ?_⟩
  · have inside : k < (str ++ [0]).length := by simp; omega
    obtain ⟨pte, page, -⟩ := found.held k _ (List.getElem?_eq_getElem inside)
    exact ⟨pte, page⟩
  · exact found.held str.length 0 (by simp)

theorem Machine.MissedString.not_nulAt (missed : m.MissedString other src max bytes) {j : Nat}
    (inside : j < max) : ¬ m.NulAt other src j := by
  rintro ⟨pages, pte, page, zero⟩
  by_cases early : j < bytes.length
  · -- The byte at this place was taken, and it is no NUL.
    have here := List.getElem?_eq_getElem early
    obtain ⟨pte', page', byte⟩ := missed.held j _ here
    obtain rfl : pte = pte' := Option.some.inj (page.entry.symm.trans page'.entry)
    refine missed.plain ?_
    rw [← zero, byte]
    exact List.getElem_mem early
  · obtain ⟨pte', page'⟩ := pages bytes.length (by omega)
    exact missed.stopped (by omega) pte' page'

/-- Copying a string that evicts no page finds exactly the user's string: it returns 0 exactly if a
NUL is within the limit and all pages up to it can be accessed, has then written the bytes up to the
first one with their NUL, and never writes more bytes than the limit. -/
theorem copyinstr_exact {r : Int} {written : List UInt8} (ready : m.CopyReady other)
    (calm : CopyinstrCalm env other max src max m)
    (ran : copyinstr env other src max m = .ok ((r, written), m')) :
    m.Extends m' ∧ (r = 0 ∨ r = -1) ∧ (r = 0 ↔ ∃ j < max, m'.NulAt other src j) ∧
    (r = 0 → ∃ str, 0 ∉ str ∧ written = str ++ [0]) ∧
    written.length ≤ max ∧ m'.UserBytes other src written := by
  have copied := wp_ok (copyinstrFrom_spec max ready le_rfl calm) ran
  obtain ⟨extension, ⟨zero, found⟩ | ⟨failed, missed⟩⟩ := copied
  · exact ⟨extension, Or.inl zero, iff_of_true zero found.nulAt, fun _ => found.ends, found.fits,
      found.held⟩
  · have other_ : r ≠ 0 := by
      omega
    refine ⟨extension, Or.inr failed, iff_of_false other_ ?_, fun zero => absurd zero other_,
      missed.fits, missed.held⟩
    rintro ⟨j, inside, nul⟩
    exact missed.not_nulAt inside nul

theorem fetchstr_length {r : Int} {buf : List UInt8} (ready : m.CopyReady none)
    (calm : CopyinstrCalm env none max src max m)
    (ran : fetchstr env src max m = .ok ((r, buf), m')) :
    r = -1 ∧ (∀ j < max, ¬ m'.NulAt none src j) ∨
      ∃ str, 0 ∉ str ∧ r = str.length ∧ buf = str ++ [0] ∧ m'.UserBytes none src buf := by
  have judged : wp (fetchstr env src max) (fun result m' =>
      result.1 = -1 ∧ (∀ j < max, ¬ m'.NulAt none src j) ∨
      ∃ str, 0 ∉ str ∧ result.1 = str.length ∧ result.2 = str ++ [0] ∧
        m'.UserBytes none src result.2) (fun _ => True) m := by
    rw [fetchstr, wp_bind]
    refine wp_imp (copyinstrFrom_spec max ready le_rfl calm) ?_
    rintro ⟨r, buf⟩ m' ⟨-, ⟨zero, found⟩ | ⟨failed, missed⟩⟩
    · obtain ⟨str, plain, same⟩ := found.ends
      change r = 0 at zero
      change buf = str ++ [0] at same
      simp only [zero, lt_irrefl, if_false, wp_pure, same]
      -- The first NUL is the one at the end.
      have length : strlen (str ++ [0]) = str.length := by
        rw [strlen, List.takeWhile_append_of_pos fun c mem => ?_]
        · simp
        · simpa using fun zero : c = 0 => plain (zero ▸ mem)
      exact Or.inr ⟨str, plain, by rw [length], rfl, same ▸ found.held⟩
    · change r = -1 at failed
      simp only [failed, show (-1 : Int) < 0 by decide, if_true, wp_pure]
      exact Or.inl ⟨trivial, fun j inside => missed.not_nulAt inside⟩
  have done := wp_ok judged ran
  exact done

end Strings

/-- A new heap with one byte of a string at the end of its first page. -/
def stringHeap : Machine := after (copyout someFiles none 4095 [65]) freshHeap

theorem stringHeap_ready : stringHeap.CopyReady none := by
  have ran : copyout someFiles none 4095 [65] freshHeap = .ok (0, stringHeap) :=
    eq_ok_of_valueOf (by decide)
  have calm : CopyoutCalm someFiles none 1 4095 [65] freshHeap :=
    Or.inr ⟨reachCalm_of_free (by decide), fun _ _ _ => trivial⟩
  have copied := wp_ok (copyoutFrom_spec 1 freshHeap_ready le_rfl calm) ran
  exact copied.1

theorem stringHeap_calm : CopyinstrCalm someFiles none 2 4095 2 stringHeap := by
  have turn : (copyinPage someFiles none 4095 2 stringHeap).toOption.any
      fun (found, m₁) => found = some [65] ∧ m₁.kmem.freelist ≠ [] := by decide
  obtain ⟨_, m₁, first, facts⟩ := exists_ok_of_any turn
  obtain ⟨rfl, free⟩ := of_decide_eq_true facts
  refine Or.inr ⟨reachCalm_of_free (by decide), fun bytes m' ran _ => ?_⟩
  obtain ⟨rfl, rfl⟩ : [65] = bytes ∧ m₁ = m' := by simpa [first] using ran
  exact Or.inr ⟨reachCalm_of_free free, fun _ _ _ _ => trivial⟩

/-- A string whose NUL is on the next page, at the limit and on a page not touched before. -/
theorem copyinstr_exact_edge : stringHeap.CopyReady none ∧ ∃ m',
    copyinstr someFiles none 4095 2 stringHeap = .ok ((0, [65, 0]), m') ∧
    (∃ j < 2, m'.NulAt none 4095 j) ∧ m'.UserBytes none 4095 [65, 0] := by
  have ran : copyinstr someFiles none 4095 2 stringHeap = .ok ((0, [65, 0]), _) :=
    eq_ok_of_valueOf (by decide)
  obtain ⟨-, -, exactly, -, -, held⟩ := copyinstr_exact stringHeap_ready stringHeap_calm ran
  exact ⟨stringHeap_ready, _, ran, exactly.mp rfl, held⟩

end Xv6
