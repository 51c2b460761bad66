import Xv6.Lib.Run
import Mathlib.Logic.Function.Basic

/-! A flat memory: loads return what was stored last, or what was there at the start. -/

namespace Flat

open Trace

variable {α β ε : Type} [DecidableEq α]

/-- What happens to a memory: completed accesses, and events that are no access. -/
inductive Event (α β ε : Type) where
  | load (a : α) (value : β)
  | store (a : α) (value : β)
  | other (e : ε)

/-- The value an event stores at an address. -/
def Event.stored (a : α) : Event α β ε → Option β
  | .store b value => if b = a then some value else none
  | _ => none

/-- The value stored last at an address. -/
def lastStore (es : List (Event α β ε)) (a : α) : Option β := es.reverse.findSome? (Event.stored a)

/-- One step of the memory; the loads of interest return what the memory holds. -/
def Step (seen : α → Prop) (mem : α → β) : Event α β ε → (α → β) → Prop
  | .load a value, mem' => (seen a → value = mem a) ∧ mem' = mem
  | .store a value, mem' => mem' = Function.update mem a value
  | .other _, mem' => mem' = mem

theorem lastStore_cons (e : Event α β ε) (es : List (Event α β ε)) (a : α) :
    lastStore (e :: es) a = (lastStore es a).or (e.stored a) := by
  -- Seen from the end, the first event comes last.
  simp only [lastStore, List.reverse_cons, List.findSome?_append, List.findSome?_singleton]

theorem content_of_run {seen : α → Prop} {mem mem' : α → β} {es : List (Event α β ε)}
    (run : Run (Step seen) mem es mem') (a : α) : mem' a = (lastStore es a).getD (mem a) := by
  induction run with
  | nil => rfl
  | @cons s t u e es first _ ih =>
    rw [ih, lastStore_cons]
    -- A later store hides the first event; otherwise the first event decides.
    cases later : lastStore es a with
    | some value => rfl
    | none =>
      cases e with
      | load b value => rw [first.2]; rfl
      | other e => rw [show t = s from first]; rfl
      | store b value =>
        rw [show t = Function.update s b value from first]
        by_cases same : b = a
        · simp [Event.stored, same]
        · simp [Event.stored, same, Function.update_of_ne (Ne.symm same)]

theorem load_of_run {seen : α → Prop} {mem mem' : α → β} {before after : List (Event α β ε)}
    {a : α} {value : β} (run : Run (Step seen) mem (before ++ .load a value :: after) mem')
    (here : seen a) : value = (lastStore before a).getD (mem a) := by
  obtain ⟨t, front, back⟩ := run.split
  -- The load reads the memory that the events before it left.
  cases back with
  | cons first _ => rw [first.1 here, content_of_run front a]

end Flat
