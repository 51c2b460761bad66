import Mathlib.Data.List.Basic
import Mathlib.Data.Int.ModEq
import Mathlib.Logic.Function.Basic
import Mathlib.Tactic.Common

/-! Circular buffers with free-running counters that wrap at a multiple of the capacity. -/

namespace Circular

variable {α : Type}

/-- A buffer with the number of entries taken out and put in, both wrapped. -/
structure Buffer (α : Type) where
  data : Nat → α
  read : Nat
  write : Nat

/-- How many entries a buffer holds, by its wrapped counters. -/
def Buffer.count (bound : Nat) (b : Buffer α) : Nat := (b.write + bound - b.read) % bound

/-- The entries a buffer holds, the oldest first. -/
def Buffer.contents (cap bound : Nat) (b : Buffer α) : List α :=
  (List.range (b.count bound)).map fun k => b.data ((b.read + k) % bound % cap)

/-- The entries between two places given by wrapped counters. -/
def Buffer.slice (cap bound : Nat) (b : Buffer α) (first last : Nat) : List α :=
  (List.range ((last + bound - first) % bound)).map fun k => b.data ((first + k) % bound % cap)

/-- Put an entry in. -/
def Buffer.push (cap bound : Nat) (b : Buffer α) (a : α) : Buffer α :=
  { b with data := Function.update b.data (b.write % cap) a, write := (b.write + 1) % bound }

/-- Take the oldest entry out. -/
def Buffer.pop (bound : Nat) (b : Buffer α) : Buffer α :=
  { b with read := (b.read + 1) % bound }

/-- Take the newest entry back. -/
def Buffer.erase (bound : Nat) (b : Buffer α) : Buffer α :=
  { b with write := (b.write + bound - 1) % bound }

/-- A buffer holds what was put in and not taken out yet. -/
structure Buffer.Holds (cap bound : Nat) (b : Buffer α) (sent : List α) (taken : Nat) : Prop where
  write : b.write = sent.length % bound
  read : b.read = taken % bound
  taken_le : taken ≤ sent.length
  fits : sent.length ≤ taken + cap
  stored : ∀ k (inside : k < sent.length), taken ≤ k → b.data (k % cap) = sent[k]

section Laws

variable {cap bound taken : Nat} {b : Buffer α} {sent : List α}

theorem place_ne {j k : Nat} (below : j < k) (close : k < j + cap) : j % cap ≠ k % cap := by
  intro same
  have divides : cap ∣ k - j := (Nat.modEq_iff_dvd' below.le).mp same
  have := Nat.le_of_dvd (by omega) divides
  omega

theorem holds_nil (data : Nat → α) : (Buffer.mk data 0 0).Holds cap bound [] 0 :=
  ⟨by simp, by simp, le_refl _, Nat.zero_le _, fun k inside => absurd inside (by simp)⟩

theorem wrapped_sub {a d : Nat} (small : d < bound) :
    ((a + d) % bound + bound - a % bound) % bound = d := by
  have positive : 0 < bound := by omega
  have reduced := Nat.mod_lt a positive
  have split := Nat.add_mod a d bound
  rw [Nat.mod_eq_of_lt small] at split
  by_cases wraps : a % bound + d < bound
  · rw [split, Nat.mod_eq_of_lt wraps, show a % bound + d + bound - a % bound = d + bound by
      omega, Nat.add_mod_right, Nat.mod_eq_of_lt small]
  · have wrapped : (a % bound + d) % bound = a % bound + d - bound := by
      rw [Nat.mod_eq_sub_mod (by omega), Nat.mod_eq_of_lt (by omega)]
    rw [split, wrapped, show a % bound + d - bound + bound - a % bound = d by omega,
      Nat.mod_eq_of_lt small]

theorem wrapped_eq_iff {a d : Nat} (small : d < bound) : (a + d) % bound = a % bound ↔ d = 0 := by
  constructor
  · intro same
    have apart := wrapped_sub (a := a) small
    rw [same, Nat.add_sub_cancel_left, Nat.mod_self] at apart
    exact apart.symm
  · intro zero
    rw [zero, Nat.add_zero]

theorem wrapped_pred {n : Nat} (positive : 0 < n) (wide : 0 < bound) :
    (n % bound + bound - 1) % bound = (n - 1) % bound := by
  rw [Nat.add_sub_assoc wide, Nat.mod_add_mod, show n + (bound - 1) = n - 1 + bound by omega,
    Nat.add_mod_right]

theorem Buffer.Holds.count (holds : b.Holds cap bound sent taken) (wide : cap < bound) :
    b.count bound = sent.length - taken := by
  have low := holds.taken_le
  have high := holds.fits
  obtain ⟨d, length⟩ := Nat.exists_eq_add_of_le low
  rw [Buffer.count, holds.write, holds.read, length, Nat.add_sub_cancel_left]
  exact wrapped_sub (by omega)

theorem Buffer.Holds.read_eq_write_iff (holds : b.Holds cap bound sent taken) (wide : cap < bound) :
    b.read = b.write ↔ taken = sent.length := by
  have low := holds.taken_le
  constructor
  · intro same
    have count := holds.count wide
    rw [Buffer.count, ← same, Nat.add_sub_cancel_left, Nat.mod_self] at count
    omega
  · intro same
    rw [holds.read, holds.write, same]

theorem Buffer.Holds.full_iff (holds : b.Holds cap bound sent taken) (wide : cap < bound) :
    b.write = (b.read + cap) % bound ↔ sent.length = taken + cap := by
  have low := holds.taken_le
  have high := holds.fits
  rw [holds.read, Nat.mod_add_mod, holds.write]
  constructor
  · intro same
    have divides : bound ∣ taken + cap - sent.length := (Nat.modEq_iff_dvd' high).mp same
    have zero := Nat.eq_zero_of_dvd_of_lt divides (by omega)
    omega
  · intro same
    rw [same]

theorem Buffer.Holds.push (holds : b.Holds cap bound sent taken) (dvd : cap ∣ bound)
    (room : sent.length < taken + cap) (a : α) :
    (b.push cap bound a).Holds cap bound (sent ++ [a]) taken := by
  have low := holds.taken_le
  have place : b.write % cap = sent.length % cap := by
    rw [holds.write, Nat.mod_mod_of_dvd _ dvd]
  refine ⟨?_, holds.read, by simp; omega, by simp; omega, fun k inside later => ?_⟩
  · simp [Buffer.push, holds.write]
  · rw [List.length_append, List.length_singleton] at inside
    rcases Nat.lt_or_ge k sent.length with old | new
    · -- An old entry is at another place.
      have apart : k % cap ≠ sent.length % cap := place_ne old (by omega)
      simp only [Buffer.push, place, Function.update_of_ne apart, List.getElem_append_left old]
      exact holds.stored k old later
    · obtain rfl : k = sent.length := by omega
      simp [Buffer.push, place]

theorem Buffer.Holds.front (holds : b.Holds cap bound sent taken) (dvd : cap ∣ bound)
    (some : taken < sent.length) : b.data (b.read % cap) = sent[taken] := by
  rw [holds.read, Nat.mod_mod_of_dvd _ dvd]
  exact holds.stored taken some (le_refl _)

theorem Buffer.Holds.pop (holds : b.Holds cap bound sent taken) (some : taken < sent.length) :
    (b.pop bound).Holds cap bound sent (taken + 1) := by
  have high := holds.fits
  refine ⟨holds.write, ?_, some, by omega, fun k inside later => holds.stored k inside (by omega)⟩
  simp [Buffer.pop, holds.read]

theorem Buffer.Holds.back (holds : b.Holds cap bound sent taken) (dvd : cap ∣ bound)
    (wide : cap < bound) (some : taken < sent.length) :
    b.data ((b.write + bound - 1) % bound % cap) = sent[sent.length - 1] := by
  rw [holds.write, wrapped_pred (by omega) (by omega), Nat.mod_mod_of_dvd _ dvd]
  exact holds.stored _ (by omega) (by omega)

theorem Buffer.Holds.erase (holds : b.Holds cap bound sent taken) (wide : cap < bound)
    (some : taken < sent.length) : (b.erase bound).Holds cap bound sent.dropLast taken := by
  have high := holds.fits
  refine ⟨?_, holds.read, by rw [List.length_dropLast]; omega, by rw [List.length_dropLast]; omega,
    fun k inside later => ?_⟩
  · rw [Buffer.erase, holds.write, List.length_dropLast]
    exact wrapped_pred (by omega) (by omega)
  · rw [List.length_dropLast] at inside
    rw [List.getElem_dropLast]
    exact holds.stored k (by omega) later

theorem Buffer.Holds.slice (holds : b.Holds cap bound sent taken) (dvd : cap ∣ bound)
    (wide : cap < bound) {first last : Nat} (kept : taken ≤ first) (ordered : first ≤ last)
    (present : last ≤ sent.length) :
    b.slice cap bound (first % bound) (last % bound) = (sent.take last).drop first := by
  have high := holds.fits
  obtain ⟨d, rfl⟩ := Nat.exists_eq_add_of_le ordered
  apply List.ext_getElem
  · rw [Buffer.slice, List.length_map, List.length_range, wrapped_sub (by omega), List.length_drop,
      List.length_take]
    omega
  · intro k inside inside'
    rw [List.length_drop, List.length_take] at inside'
    simp only [Buffer.slice, List.getElem_map, List.getElem_range, List.getElem_drop,
      List.getElem_take]
    rw [Nat.mod_mod_of_dvd _ dvd, Nat.add_mod, Nat.mod_mod_of_dvd _ dvd, ← Nat.add_mod]
    exact holds.stored (first + k) (by omega) (by omega)

theorem Buffer.Holds.contents (holds : b.Holds cap bound sent taken) (dvd : cap ∣ bound)
    (wide : cap < bound) : b.contents cap bound = sent.drop taken := by
  have whole := holds.slice dvd wide (le_refl _) holds.taken_le (le_refl _)
  rw [← holds.read, ← holds.write, List.take_length] at whole
  exact whole

/-- Some entries were put in and some taken out to get a buffer as it is. -/
def Buffer.Sound (cap bound : Nat) (b : Buffer α) : Prop :=
  ∃ sent taken, b.Holds cap bound sent taken

theorem sound_new (read : b.read = 0) (write : b.write = 0) :
    b.Sound cap bound ∧ b.contents cap bound = [] := by
  obtain ⟨data, _, _⟩ := b
  subst read write
  exact ⟨⟨[], 0, holds_nil data⟩, by simp [Buffer.contents, Buffer.count]⟩

theorem Buffer.Sound.push (sound : b.Sound cap bound) (dvd : cap ∣ bound) (wide : cap < bound)
    (room : (b.contents cap bound).length < cap) (a : α) :
    (b.push cap bound a).Sound cap bound ∧
      (b.push cap bound a).contents cap bound = b.contents cap bound ++ [a] := by
  obtain ⟨sent, taken, holds⟩ := sound
  have low := holds.taken_le
  rw [holds.contents dvd wide] at room ⊢
  rw [List.length_drop] at room
  have pushed := holds.push dvd (by omega) a
  refine ⟨⟨_, _, pushed⟩, ?_⟩
  rw [pushed.contents dvd wide, List.drop_append_of_le_length low]

theorem Buffer.Sound.pop (sound : b.Sound cap bound) (dvd : cap ∣ bound) (wide : cap < bound)
    (more : b.read ≠ b.write) :
    (b.pop bound).Sound cap bound ∧
      b.contents cap bound = b.data (b.read % cap) :: (b.pop bound).contents cap bound := by
  obtain ⟨sent, taken, holds⟩ := sound
  have low := holds.taken_le
  have some : taken < sent.length := by
    rcases Nat.lt_or_eq_of_le low with below | same
    · exact below
    · exact absurd ((holds.read_eq_write_iff wide).mpr same) more
  have popped := holds.pop some
  refine ⟨⟨_, _, popped⟩, ?_⟩
  rw [holds.contents dvd wide, popped.contents dvd wide, holds.front dvd some,
    List.drop_eq_getElem_cons some]

end Laws

end Circular
