import Mathlib.Tactic.Common

/-! Byte strings that are written over from a place on. -/

namespace Overlay

variable {α : Type}

/-- A string with another one written over it; it grows when the other one reaches further. -/
def overlay (old : List α) (off : Nat) (new : List α) : List α :=
  old.take off ++ new ++ old.drop (off + new.length)

theorem getElem?_overlay_inside {old new : List α} {off i : Nat} (inside : off ≤ old.length)
    (low : off ≤ i) (high : i < off + new.length) :
    (overlay old off new)[i]? = new[i - off]? := by
  have front : (old.take off).length = off := by simp [inside]
  rw [overlay, List.append_assoc, List.getElem?_append_right (by omega), front,
    List.getElem?_append_left (by omega)]

theorem getElem?_overlay_outside {old new : List α} {off i : Nat} (inside : off ≤ old.length)
    (outside : i < off ∨ off + new.length ≤ i) : (overlay old off new)[i]? = old[i]? := by
  have front : (old.take off).length = off := by simp [inside]
  rcases outside with before | behind
  · rw [overlay, List.append_assoc, List.getElem?_append_left (by omega),
      List.getElem?_take_of_lt before]
  · rw [overlay, List.getElem?_append_right (by simp; omega), List.getElem?_drop]
    congr 1
    simp only [List.length_append]
    omega

theorem take_drop_map_range (f : Nat → α) (size off n : Nat) :
    (((List.range size).map f).drop off).take n =
      (List.range (min n (size - off))).map fun i => f (off + i) := by
  apply List.ext_getElem
  · simp
  · intro i _ _
    simp

theorem map_range_eq_overlay {f f' : Nat → α} {n off : Nat} {new : List α} (inside : off ≤ n)
    (written : ∀ i (here : i < new.length), f' (off + i) = new[i])
    (kept : ∀ i < n, i < off ∨ off + new.length ≤ i → f' i = f i) :
    (List.range (max n (off + new.length))).map f' =
      overlay ((List.range n).map f) off new := by
  have within : off ≤ ((List.range n).map f).length := by simpa using inside
  apply List.ext_getElem?
  intro i
  by_cases range : off ≤ i ∧ i < off + new.length
  · -- Inside the range both sides are the new element.
    rw [getElem?_overlay_inside within range.1 range.2, List.getElem?_map,
      List.getElem?_range (by omega), List.getElem?_eq_getElem (by omega)]
    have here := written (i - off) (by omega)
    rw [show off + (i - off) = i by omega] at here
    exact congrArg some here
  · rw [getElem?_overlay_outside within (by omega), List.getElem?_map, List.getElem?_map]
    by_cases old : i < n
    · rw [List.getElem?_range (by omega), List.getElem?_range old]
      exact congrArg some (kept i old (by omega))
    · -- Beyond both strings there is nothing.
      rw [List.getElem?_eq_none (by simp; omega), List.getElem?_eq_none (by simp; omega)]
      rfl

end Overlay
