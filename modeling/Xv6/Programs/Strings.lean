import Mathlib.Logic.Function.Basic
import Mathlib.Tactic.Common

/-! Strings and moves in the memory of a program, as in the user library. -/

namespace Xv6.Ulib

open Function (update_self update_of_ne)

/-- The first place of a character at or after a place, before the end of the string. -/
def strchr (mem : Nat → UInt8) (c : UInt8) : Nat → Nat → Option Nat
  | 0, _ => none
  | fuel + 1, s =>
    if mem s = 0 then none else if mem s = c then some s else strchr mem c fuel (s + 1)

/-- The characters of the string at a place. -/
def stringAt (mem : Nat → UInt8) : Nat → Nat → List UInt8
  | 0, _ => []
  | fuel + 1, s => if mem s = 0 then [] else mem s :: stringAt mem fuel (s + 1)

/-- The bytes of a range. -/
def bytesAt (mem : Nat → UInt8) (s n : Nat) : List UInt8 := (List.range n).map fun i => mem (s + i)

/-- Copy bytes from the first one on. -/
def copyUp : Nat → Nat → Nat → (Nat → UInt8) → Nat → UInt8
  | 0, _, _, mem => mem
  | n + 1, dst, src, mem => copyUp n (dst + 1) (src + 1) (Function.update mem dst (mem src))

/-- Copy bytes from the last one on. -/
def copyDown : Nat → Nat → Nat → (Nat → UInt8) → Nat → UInt8
  | 0, _, _, mem => mem
  | n + 1, dst, src, mem => copyDown n dst src (Function.update mem (dst + n) (mem (src + n)))

/-- Copy bytes between ranges that may overlap. -/
def memmove (dst src n : Nat) (mem : Nat → UInt8) : Nat → UInt8 :=
  if dst < src then copyUp n dst src mem else copyDown n dst src mem

section Memory

variable {mem mem' : Nat → UInt8} {p : Nat} {t l r : List UInt8} {c : UInt8}

/-- Bytes are in memory from a place on. -/
def Holds (mem : Nat → UInt8) : Nat → List UInt8 → Prop
  | _, [] => True
  | p, b :: t => mem p = b ∧ Holds mem (p + 1) t

theorem Holds.get (holds : Holds mem p t) (i : Nat) (here : i < t.length) : mem (p + i) = t[i] := by
  induction t generalizing p i with
  | nil => simp at here
  | cons b t ih =>
    cases i with
    | zero => exact holds.1
    | succ i =>
      rw [show p + (i + 1) = p + 1 + i by omega]
      exact ih holds.2 i (by simpa using here)

theorem Holds.of_get : ∀ {p : Nat} {t : List UInt8},
    (∀ i (here : i < t.length), mem (p + i) = t[i]) → Holds mem p t := by
  intro p t
  induction t generalizing p with
  | nil => exact fun _ => trivial
  | cons b t ih =>
    intro each
    refine ⟨each 0 (by simp), ih fun i here => ?_⟩
    rw [show p + 1 + i = p + (i + 1) by omega]
    exact each (i + 1) (by simpa using here)

theorem Holds.congr (holds : Holds mem p t) (same : ∀ i < t.length, mem' (p + i) = mem (p + i)) :
    Holds mem' p t :=
  .of_get fun i here => (same i here).trans (holds.get i here)

theorem holds_append : Holds mem p (l ++ r) ↔ Holds mem p l ∧ Holds mem (p + l.length) r := by
  induction l generalizing p with
  | nil => simp [Holds]
  | cons b l ih =>
    simp only [List.cons_append, Holds, ih, List.length_cons, and_assoc]
    rw [show p + 1 + l.length = p + (l.length + 1) by omega]

theorem Holds.bytesAt (holds : Holds mem p t) : bytesAt mem p t.length = t := by
  apply List.ext_getElem
  · simp [Ulib.bytesAt]
  · intro i _ here
    simpa [Ulib.bytesAt] using holds.get i here

/-- A string in memory, with its end. -/
structure Str (mem : Nat → UInt8) (p : Nat) (t : List UInt8) : Prop where
  holds : Holds mem p t
  stop : mem (p + t.length) = 0
  chars : 0 ∉ t

theorem Str.tail {b : UInt8} (str : Str mem p (b :: t)) : Str mem (p + 1) t where
  holds := str.holds.2
  stop := by
    rw [show p + 1 + t.length = p + (b :: t).length by simp; omega]
    exact str.stop
  chars := fun here => str.chars (List.mem_cons_of_mem b here)

theorem Str.head {b : UInt8} (str : Str mem p (b :: t)) : mem p = b ∧ mem p ≠ 0 := by
  refine ⟨str.holds.1, fun zero => str.chars ?_⟩
  rw [← zero, str.holds.1]
  exact List.mem_cons_self

theorem Str.stringAt {fuel : Nat} (str : Str mem p t) (enough : t.length < fuel) :
    stringAt mem fuel p = t := by
  induction t generalizing p fuel with
  | nil =>
    obtain ⟨fuel, rfl⟩ := Nat.exists_eq_succ_of_ne_zero (show fuel ≠ 0 by omega)
    rw [Ulib.stringAt, if_pos (by simpa using str.stop)]
  | cons b t ih =>
    obtain ⟨fuel, rfl⟩ := Nat.exists_eq_succ_of_ne_zero (show fuel ≠ 0 by omega)
    rw [Ulib.stringAt, if_neg str.head.2, str.head.1, ih str.tail (by simpa using enough)]

theorem Str.strchr_none {fuel : Nat} (str : Str mem p t) (absent : c ∉ t) :
    strchr mem c fuel p = none := by
  induction t generalizing p fuel with
  | nil =>
    cases fuel with
    | zero => rfl
    | succ fuel => rw [strchr, if_pos (by simpa using str.stop)]
  | cons b t ih =>
    cases fuel with
    | zero => rfl
    | succ fuel =>
      have other : mem p ≠ c := by
        rw [str.head.1]
        exact fun same => absent (same ▸ List.mem_cons_self)
      rw [strchr, if_neg str.head.2, if_neg other]
      exact ih str.tail fun here => absent (List.mem_cons_of_mem b here)

theorem Str.strchr_some {fuel : Nat} (str : Str mem p (l ++ c :: r)) (first : c ∉ l)
    (enough : l.length < fuel) : strchr mem c fuel p = some (p + l.length) := by
  induction l generalizing p fuel with
  | nil =>
    obtain ⟨fuel, rfl⟩ := Nat.exists_eq_succ_of_ne_zero (show fuel ≠ 0 by omega)
    have here : mem p = c ∧ mem p ≠ 0 := Str.head str
    rw [strchr, if_neg here.2, if_pos here.1]
    rfl
  | cons b l ih =>
    obtain ⟨fuel, rfl⟩ := Nat.exists_eq_succ_of_ne_zero (show fuel ≠ 0 by omega)
    have head : mem p = b ∧ mem p ≠ 0 := Str.head str
    have tail : Str mem (p + 1) (l ++ c :: r) := Str.tail str
    have other : mem p ≠ c := by
      rw [head.1]
      exact fun same => first (same ▸ List.mem_cons_self)
    rw [strchr, if_neg head.2, if_neg other,
      ih tail (fun here => first (List.mem_cons_of_mem b here)) (by simpa using enough)]
    simp only [List.length_cons]
    congr 1
    omega

theorem Str.update {q : Nat} {x : UInt8} (str : Str mem p t) (outside : q < p ∨ p + t.length < q) :
    Str (Function.update mem q x) p t where
  holds := str.holds.congr fun i here => update_of_ne (by omega) _ _
  stop := by
    rw [update_of_ne (by omega)]
    exact str.stop
  chars := str.chars

theorem Str.cut (str : Str mem p (l ++ c :: r)) :
    Str (Function.update mem (p + l.length) 0) p l ∧
      Str (Function.update mem (p + l.length) 0) (p + l.length + 1) r := by
  obtain ⟨left, right⟩ := holds_append.mp str.holds
  have stop := str.stop
  simp only [List.length_append] at stop
  have chars := str.chars
  simp only [List.mem_append, List.mem_cons, not_or] at chars
  refine ⟨⟨left.congr fun i here => update_of_ne (by omega) _ _,
    update_self .., chars.1⟩, ?_⟩
  refine Str.update ⟨right.2, ?_, chars.2.2⟩ (.inl (by omega))
  rw [show p + l.length + 1 + r.length = p + (l.length + (r.length + 1)) by omega]
  exact stop

end Memory

section Moves

theorem copyUp_apply (n : Nat) : ∀ (dst src : Nat) (mem : Nat → UInt8) (a : Nat), dst < src →
    copyUp n dst src mem a = if dst ≤ a ∧ a < dst + n then mem (src + (a - dst)) else mem a := by
  induction n with
  | zero =>
    intro dst src mem a _
    rw [copyUp, if_neg (by omega)]
  | succ n ih =>
    intro dst src mem a behind
    rw [copyUp, ih _ _ _ _ (by omega)]
    by_cases first : a = dst
    · subst first
      rw [if_neg (by omega), update_self, if_pos ⟨Nat.le_refl _, by omega⟩]
      simp
    · -- The byte written first is not read again.
      rw [update_of_ne first, update_of_ne (by omega)]
      by_cases inside : dst + 1 ≤ a ∧ a < dst + 1 + n
      · rw [if_pos inside, if_pos (by omega)]
        congr 1
        omega
      · rw [if_neg inside, if_neg (by omega)]

theorem copyDown_apply (n : Nat) : ∀ (dst src : Nat) (mem : Nat → UInt8) (a : Nat), src ≤ dst →
    copyDown n dst src mem a = if dst ≤ a ∧ a < dst + n then mem (src + (a - dst)) else mem a := by
  induction n with
  | zero =>
    intro dst src mem a _
    rw [copyDown, if_neg (by omega)]
  | succ n ih =>
    intro dst src mem a before
    rw [copyDown, ih _ _ _ _ before]
    by_cases last : a = dst + n
    · subst last
      rw [if_neg (by omega), update_self, if_pos ⟨by omega, by omega⟩]
      congr 1
      omega
    · rw [update_of_ne last]
      by_cases inside : dst ≤ a ∧ a < dst + n
      · rw [if_pos inside, if_pos (by omega), update_of_ne (by omega)]
      · rw [if_neg inside, if_neg (by omega)]

theorem memmove_apply (dst src n : Nat) (mem : Nat → UInt8) (a : Nat) :
    memmove dst src n mem a = if dst ≤ a ∧ a < dst + n then mem (src + (a - dst)) else mem a := by
  unfold memmove
  split
  · exact copyUp_apply n dst src mem a ‹_›
  · exact copyDown_apply n dst src mem a (by omega)

end Moves

end Xv6.Ulib
