import Mathlib.Data.List.Basic
import Mathlib.Tactic.Common

/-! Singly linked lists and rings: their nodes in order, and walking along them. -/

namespace Linked

variable {α : Type} {next next' : α → α} {stop : α → Bool} {a b z : α} {xs ys : List α}

/-- The nodes of a list follow each other, and the last one leads to the end. -/
def Nodes (next : α → α) : List α → α → Prop
  | [], _ => True
  | a :: as, z => next a = as.headD z ∧ Nodes next as z

/-- Follow the pointers from a node to the first one that passes a test. -/
def walk (stop : α → Bool) (next : α → α) : Nat → α → Option α
  | 0, _ => none
  | fuel + 1, a => if stop a then some a else walk stop next fuel (next a)

theorem nodes_append : Nodes next (xs ++ b :: ys) z ↔ Nodes next xs b ∧ Nodes next (b :: ys) z := by
  induction xs with
  | nil => simp [Nodes]
  | cons x xs ih =>
    have first : (xs ++ b :: ys).headD z = xs.headD b := by cases xs <;> rfl
    simp only [List.cons_append, Nodes, ih, first, and_assoc]

theorem Nodes.congr (nodes : Nodes next xs z) (same : ∀ a ∈ xs, next' a = next a) :
    Nodes next' xs z := by
  induction xs with
  | nil => trivial
  | cons x xs ih =>
    exact ⟨(same x (List.mem_cons_self ..)).trans nodes.1,
      ih nodes.2 fun a member => same a (List.mem_cons_of_mem _ member)⟩

theorem Nodes.between (ring : Nodes next xs z) (first : xs.head? = some z) (mine : a ∈ xs)
    (yours : b ∈ xs) : ∃ ys, Nodes next (a :: ys) b ∧ ∀ y ∈ ys, y ∈ xs := by
  obtain ⟨before, after, split⟩ := List.append_of_mem mine
  obtain ⟨lead, trail, parted⟩ := List.append_of_mem yours
  -- From the first node to the end of the list, which leads back to its head.
  have back : Nodes next (a :: after) z := (nodes_append.mp (split ▸ ring)).2
  have inside : ∀ y ∈ after, y ∈ xs := fun y member => by simp [split, member]
  have front : Nodes next lead b := (nodes_append.mp (parted ▸ ring)).1
  cases lead with
  | nil =>
    have same : b = z := by
      rw [parted] at first
      exact Option.some.inj first
    exact ⟨after, same ▸ back, inside⟩
  | cons x lead =>
    have same : x = z := by
      rw [parted] at first
      exact Option.some.inj first
    subst same
    refine ⟨after ++ x :: lead, nodes_append.mpr ⟨back, front⟩, fun y member => ?_⟩
    rcases List.mem_append.mp member with late | early
    · exact inside y late
    · exact parted ▸ List.mem_append_left _ early

theorem walk_ends (nodes : Nodes next (a :: ys) b) (passes : stop b = true) :
    ∃ c ∈ a :: (ys ++ [b]), stop c = true ∧
      ∀ fuel, ys.length + 2 ≤ fuel → walk stop next fuel a = some c := by
  induction ys generalizing a with
  | nil =>
    by_cases here : stop a = true
    · refine ⟨a, List.mem_cons_self .., here, fun fuel enough => ?_⟩
      obtain ⟨fuel, rfl⟩ := Nat.exists_eq_add_of_le' enough
      simp [walk, here]
    · refine ⟨b, by simp, passes, fun fuel enough => ?_⟩
      obtain ⟨fuel, rfl⟩ := Nat.exists_eq_add_of_le' enough
      have step : next a = b := nodes.1
      simp [walk, here, step, passes]
  | cons y ys ih =>
    by_cases here : stop a = true
    · refine ⟨a, List.mem_cons_self .., here, fun fuel enough => ?_⟩
      obtain ⟨fuel, rfl⟩ := Nat.exists_eq_add_of_le' enough
      simp [walk, here]
    · obtain ⟨c, member, good, ends⟩ := ih nodes.2
      refine ⟨c, List.mem_cons_of_mem _ member, good, fun fuel enough => ?_⟩
      obtain ⟨fuel, rfl⟩ := Nat.exists_eq_add_of_le' (Nat.le_trans (by simp) enough : 1 ≤ fuel)
      have step : next a = y := nodes.1
      rw [walk, if_neg here, step]
      exact ends fuel (by simp at enough; omega)

end Linked
