import Mathlib.Data.List.Basic
import Mathlib.Data.List.Induction
import Mathlib.Logic.Function.Basic
import Mathlib.Tactic.Common

/-! Trees of pages in a memory: which page a path of indices reaches, and writes that keep it. -/

namespace Radix

variable {α ι W : Type} [DecidableEq α] [DecidableEq ι] (link : W → Option α)

/-- Overwrite one entry of one page. -/
def put (m : α → ι → W) (t : α) (i : ι) (w : W) : α → ι → W :=
  Function.update m t (Function.update (m t) i w)

theorem put_apply (m : α → ι → W) (t u : α) (i j : ι) (w : W) :
    put m t i w u j = if u = t ∧ j = i then w else m u j := by
  -- The page decides first, and within the page the index does.
  by_cases page : u = t
  · subst page
    by_cases entry : j = i <;> simp [put, entry]
  · simp [put, page]

/-- The page that a path of indices reaches from another page. -/
def node (m : α → ι → W) : α → List ι → Option α
  | t, [] => some t
  | t, i :: rest => (link (m t i)).bind fun u => node m u rest

theorem node_snoc (m : α → ι → W) (p : List ι) (i : ι) :
    ∀ t, node link m t (p ++ [i]) = (node link m t p).bind fun u => link (m u i) := by
  -- Both sides follow the entries of the path from the front.
  induction p with
  | nil => intro t; simp [node]
  | cons j p ih => intro t; simp [node, ih, Option.bind_assoc]

/-- Different paths of bounded length reach different pages. -/
def Separated (m : α → ι → W) (root : α) (depth : Nat) : Prop :=
  ∀ p q t, p.length ≤ depth → q.length ≤ depth → node link m root p = some t →
    node link m root q = some t → p = q

variable {link} {m : α → ι → W} {root t u : α} {depth : Nat} {p : List ι} {i : ι} {w : W}

theorem node_put_leaf (separated : Separated link m root depth) (deep : p.length = depth)
    (reached : node link m root p = some t) :
    ∀ q : List ι, q.length ≤ depth → node link (put m t i w) root q = node link m root q := by
  intro q
  -- Induct on the path from its end: the page before its last step is not the one written.
  induction q using List.reverseRecOn with
  | nil => intro _; rfl
  | append_singleton q j ih =>
    intro short
    rw [List.length_append, List.length_singleton] at short
    rw [node_snoc, node_snoc, ih (by omega)]
    cases before : node link m root q with
    | none => rfl
    | some v =>
      have other : v ≠ t := by
        rintro rfl
        have same := separated q p v (by omega) (by omega) before reached
        rw [same] at short
        omega
      simp [put_apply, other]

theorem node_put_link (separated : Separated link m root depth) (shallow : p.length < depth)
    (reached : node link m root p = some t) (empty : link (m t i) = none)
    (linked : link w = some u)
    (fresh : ∀ q : List ι, q.length ≤ depth → node link m root q ≠ some u)
    (blank : ∀ j, link (m u j) = none) :
    ∀ q : List ι, q.length ≤ depth →
      node link (put m t i w) root q = if q = p ++ [i] then some u else node link m root q := by
  intro q
  -- Induct on the path from its end: it goes through the new page, or steps as it did before.
  induction q using List.reverseRecOn with
  | nil => intro _; simp [node]
  | append_singleton q j ih =>
    intro short
    rw [List.length_append, List.length_singleton] at short
    rw [node_snoc, node_snoc, ih (by omega)]
    have notSelf : u ≠ t := fun same => fresh p (by omega) (same ▸ reached)
    by_cases through : q = p ++ [i]
    · -- The new page links nowhere, and there was no page here before.
      have longer : q ++ [j] ≠ p ++ [i] := by
        intro same
        have lengths := congrArg List.length same
        simp [through] at lengths
      have gone : node link m root q = none := by
        rw [through, node_snoc, reached]
        exact empty
      rw [if_pos through, if_neg longer, gone]
      simp [put_apply, notSelf, blank]
    · rw [if_neg through]
      cases before : node link m root q with
      | none =>
        have other : q ++ [j] ≠ p ++ [i] := by
          intro same
          have prefixes := (List.append_inj' same rfl).1
          rw [prefixes, reached] at before
          cases before
        rw [if_neg other]
        rfl
      | some v =>
        -- The step reads the entry written exactly when it is the last step to the new page.
        have exactly_ : (v = t ∧ j = i) ↔ q ++ [j] = p ++ [i] := by
          constructor
          · rintro ⟨rfl, rfl⟩
            rw [separated q p v (by omega) (by omega) before reached]
          · intro same
            obtain ⟨prefixes, last⟩ := List.append_inj' same rfl
            rw [prefixes, reached] at before
            exact ⟨(Option.some.inj before).symm, List.singleton_inj.mp last⟩
        by_cases last : q ++ [j] = p ++ [i]
        · rw [if_pos last]
          simp [put_apply, exactly_.mpr last, linked]
        · have other : ¬(v = t ∧ j = i) := fun both => last (exactly_.mp both)
          simp [put_apply, other, last]

theorem Separated.put_link (separated : Separated link m root depth) (shallow : p.length < depth)
    (reached : node link m root p = some t) (empty : link (m t i) = none)
    (linked : link w = some u)
    (fresh : ∀ q : List ι, q.length ≤ depth → node link m root q ≠ some u)
    (blank : ∀ j, link (m u j) = none) : Separated link (put m t i w) root depth := by
  -- Only one path reaches the fresh page, and the others reach what they reached before.
  have paths := node_put_link separated shallow reached empty linked fresh blank
  intro q r v short shorter one two
  rw [paths q short] at one
  rw [paths r shorter] at two
  split at one
  · split at two
    · rename_i first second
      rw [first, second]
    · cases one
      exact absurd two (fresh r shorter)
  · split at two
    · cases two
      exact absurd one (fresh q short)
    · exact separated q r v short shorter one two

theorem node_congr {m' : α → ι → W}
    (same : ∀ (q : List ι) v, q.length < depth → node link m root q = some v → m' v = m v) :
    ∀ q : List ι, q.length ≤ depth → node link m' root q = node link m root q := by
  intro q
  induction q using List.reverseRecOn with
  | nil => intro _; rfl
  | append_singleton q j ih =>
    intro short
    rw [List.length_append, List.length_singleton] at short
    rw [node_snoc, node_snoc, ih (by omega)]
    cases before : node link m root q with
    | none => rfl
    | some v => simp [same q v (by omega) before]

end Radix
