import Mathlib.Data.List.Nodup
import Mathlib.Logic.Function.Basic
import Mathlib.Tactic.Common

/-! Doubly linked rings through a head node: searching, unlinking and linking in at the front. -/

namespace Ring

open Function (update)

variable {α : Type} [DecidableEq α]

/-- The two pointers of every node. -/
structure Links (α : Type) where
  next : α → α
  prev : α → α

/-- Store a node's next pointer. -/
def Links.setNext (l : Links α) (a b : α) : Links α := { l with next := update l.next a b }

/-- Store a node's previous pointer. -/
def Links.setPrev (l : Links α) (a b : α) : Links α := { l with prev := update l.prev a b }

/-- Take a node out of the ring. -/
def Links.unlink (l : Links α) (b : α) : Links α :=
  let l := l.setPrev (l.next b) (l.prev b)
  l.setNext (l.prev b) (l.next b)

/-- Link a node in behind the head. -/
def Links.pushFront (l : Links α) (head b : α) : Links α :=
  let l := l.setNext b (l.next head)
  let l := l.setPrev b head
  let l := l.setPrev (l.next head) b
  l.setNext head b

/-- Follow a pointer from a node to the first one that passes a test, or to the head. -/
def seek (follow : α → α) (head : α) (test : α → Bool) : Nat → α → α
  | 0, _ => head
  | fuel + 1, b =>
    if b = head then head
    else if test b then b
    else seek follow head test fuel (follow b)

/-- Two nodes point at each other. -/
def Links.Joined (l : Links α) (a b : α) : Prop := l.next a = b ∧ l.prev b = a

/-- The nodes between two ends of a stretch of the ring. -/
def Links.Path (l : Links α) : α → List α → α → Prop
  | a, [], b => l.Joined a b
  | a, x :: xs, b => l.Joined a x ∧ l.Path x xs b

/-- The nodes of a ring behind its head, in order. -/
structure Links.Lists (l : Links α) (head : α) (xs : List α) : Prop where
  path : l.Path head xs head
  nodup : (head :: xs).Nodup

variable {l : Links α} {b head : α} {xs ys zs : List α} {test : α → Bool} {fuel : Nat}

omit [DecidableEq α] in
/-- A path splits at each of its nodes. -/
theorem Links.path_append {y : α} :
    ∀ {xs : List α} {a : α}, l.Path a (xs ++ y :: ys) b ↔ l.Path a xs y ∧ l.Path y ys b := by
  intro xs
  induction xs with
  | nil => exact Iff.rfl
  | cons x xs ih =>
    intro a
    simp only [List.cons_append, Links.Path, ih, and_assoc]

omit [DecidableEq α] in
/-- A path only reads the pointers along it. -/
theorem Links.Path.congr {m : Links α} :
    ∀ {xs : List α} {a : α}, l.Path a xs b → (∀ c ∈ a :: xs, m.next c = l.next c) →
      (∀ c ∈ xs ++ [b], m.prev c = l.prev c) → m.Path a xs b := by
  intro xs
  induction xs with
  | nil =>
    intro a path next prev
    exact ⟨(next a (by simp)).trans path.1, (prev b (by simp)).trans path.2⟩
  | cons x xs ih =>
    intro a path next prev
    refine ⟨⟨(next a (by simp)).trans path.1.1, (prev x (by simp)).trans path.1.2⟩, ?_⟩
    exact ih path.2 (fun c member => next c (List.mem_cons_of_mem _ member))
      fun c member => prev c (List.mem_cons_of_mem _ member)

omit [DecidableEq α] in
/-- The node before the end of a path lies on it. -/
theorem Links.Path.prev_mem : ∀ {xs : List α} {a : α}, l.Path a xs b → l.prev b ∈ a :: xs := by
  intro xs
  induction xs with
  | nil => exact fun path => List.mem_singleton.mpr path.2
  | cons x xs ih => exact fun path => List.mem_cons_of_mem _ (ih path.2)

omit [DecidableEq α] in
/-- The node after the start of a path lies on it. -/
theorem Links.Path.next_mem {a : α} (path : l.Path a xs b) : l.next a ∈ xs ++ [b] := by
  cases xs with
  | nil => exact List.mem_singleton.mpr path.1
  | cons x xs => exact List.mem_cons.mpr (Or.inl path.1.1)

/-- The pointers that take a node out lead past it. -/
def Links.skip (l : Links α) (b : α) : Links α :=
  ⟨update l.next (l.prev b) (l.next b), update l.prev (l.next b) (l.prev b)⟩

theorem Links.Path.skip {c : α} (after : l.Path b zs c) :
    ∀ {ys : List α} {a : α}, l.Path a ys b → (a :: (ys ++ zs)).Nodup → c ∉ ys ++ zs →
      (l.skip b).Path a (ys ++ zs) c := by
  intro ys
  induction ys with
  | nil =>
    intro a before nodup last
    -- The node before the skipped one is the start, so it is joined to the node behind it.
    have start : l.prev b = a := before.2
    cases zs with
    | nil =>
      have stop : l.next b = c := after.1
      exact ⟨by simp [Links.skip, start, stop], by simp [Links.skip, start, stop]⟩
    | cons z zs =>
      have behind : l.next b = z := after.1.1
      refine ⟨⟨by simp [Links.skip, start, behind], by simp [Links.skip, start, behind]⟩, ?_⟩
      refine after.2.congr ?_ ?_
      · intro d member
        have other : d ≠ a := fun same => (List.nodup_cons.mp nodup).1 (same ▸ member)
        simp [Links.skip, start, other]
      · intro d member
        have other : d ≠ z := by
          rintro rfl
          rcases List.mem_append.mp member with inside | final
          · exact (List.nodup_cons.mp (List.nodup_cons.mp nodup).2).1 inside
          · exact last (List.mem_singleton.mp final ▸ List.mem_cons_self ..)
        simp [Links.skip, behind, other]
  | cons y ys ih =>
    intro a before nodup last
    obtain ⟨fresh, rest⟩ := List.nodup_cons.mp nodup
    refine ⟨⟨?_, ?_⟩, ?_⟩
    · have other : a ≠ l.prev b := by
        intro same
        have member := before.2.prev_mem
        rw [← same] at member
        exact fresh (List.mem_append_left _ member)
      simpa [Links.skip, other] using before.1.1
    · have other : y ≠ l.next b := by
        intro same
        have member := after.next_mem
        rw [← same] at member
        rcases List.mem_append.mp member with inside | final
        · exact (List.nodup_cons.mp rest).1 (List.mem_append_right _ inside)
        · exact last (List.mem_singleton.mp final ▸ List.mem_cons_self ..)
      simpa [Links.skip, other] using before.1.2
    · exact ih before.2 rest fun member => last (List.mem_cons_of_mem _ member)

theorem Links.Lists.unlink (lists : l.Lists head (ys ++ b :: zs)) :
    (l.unlink b).Lists head (ys ++ zs) := by
  obtain ⟨fresh, nodup⟩ := List.nodup_cons.mp lists.nodup
  have once := List.nodup_middle.mp nodup
  obtain ⟨alone, others⟩ := List.nodup_cons.mp once
  obtain ⟨before, after⟩ := Links.path_append.mp lists.path
  have outside : head ∉ ys ++ zs := by
    intro inside
    rcases List.mem_append.mp inside with left | right
    · exact fresh (List.mem_append_left _ left)
    · exact fresh (List.mem_append_right _ (List.mem_cons_of_mem _ right))
  -- The first pointer written is not the one the second write reads.
  have apart : b ≠ l.next b := by
    intro same
    have inside := after.next_mem
    rw [← same] at inside
    rcases List.mem_append.mp inside with right | final
    · exact alone (List.mem_append_right _ right)
    · exact fresh (List.mem_singleton.mp final ▸ List.mem_append_right _ (List.mem_cons_self ..))
  have writes : l.unlink b = l.skip b := by
    simp [Links.unlink, Links.setPrev, Links.setNext, Links.skip, apart]
  rw [writes]
  have whole : (head :: (ys ++ zs)).Nodup := List.nodup_cons.mpr ⟨outside, others⟩
  exact ⟨after.skip before whole outside, whole⟩

theorem Links.Lists.pushFront (lists : l.Lists head xs) (fresh : b ∉ head :: xs) :
    (l.pushFront head b).Lists head (b :: xs) := by
  obtain ⟨outside, nodup⟩ := List.nodup_cons.mp lists.nodup
  have other : head ≠ b := fun same => fresh (same ▸ List.mem_cons_self ..)
  have missing : b ∉ xs := fun inside => fresh (List.mem_cons_of_mem _ inside)
  have writes : l.pushFront head b =
      ⟨update (update l.next b (l.next head)) head b,
        update (update l.prev b head) (l.next head) b⟩ := by
    simp [Links.pushFront, Links.setNext, Links.setPrev, other]
  rw [writes]
  refine ⟨⟨⟨by simp, ?_⟩, ?_⟩, ?_⟩
  · have first := lists.path.next_mem
    have apart : b ≠ l.next head := by
      intro same
      rw [← same] at first
      rcases List.mem_append.mp first with inside | final
      · exact missing inside
      · exact other (List.mem_singleton.mp final).symm
    simp [apart]
  · -- Behind the new node comes what was first, and the rest of the ring is as it was.
    cases xs with
    | nil =>
      have alone : l.next head = head := lists.path.1
      exact ⟨by simp [alone, other.symm], by simp [alone]⟩
    | cons x xs =>
      have first : l.next head = x := lists.path.1.1
      refine ⟨⟨by simp [first, other.symm], by simp [first]⟩, ?_⟩
      refine lists.path.2.congr ?_ ?_
      · intro c member
        have notNew : c ≠ b := fun same => missing (same ▸ member)
        have notHead : c ≠ head := fun same => outside (same ▸ member)
        simp [notNew, notHead]
      · intro c member
        have notFirst : c ≠ x := by
          rintro rfl
          rcases List.mem_append.mp member with inside | final
          · exact (List.nodup_cons.mp nodup).1 inside
          · exact outside (List.mem_singleton.mp final ▸ List.mem_cons_self ..)
        have notNew : c ≠ b := by
          rintro rfl
          rcases List.mem_append.mp member with inside | final
          · exact missing (List.mem_cons_of_mem _ inside)
          · exact other (List.mem_singleton.mp final).symm
        simp [first, notFirst, notNew]
  · refine List.nodup_cons.mpr ⟨?_, List.nodup_cons.mpr ⟨missing, nodup⟩⟩
    intro inside
    rcases List.mem_cons.mp inside with same | inside
    · exact other same
    · exact outside inside

theorem Links.Lists.moveFront (lists : l.Lists head (ys ++ b :: zs)) :
    ((l.unlink b).pushFront head b).Lists head (b :: (ys ++ zs)) := by
  refine lists.unlink.pushFront ?_
  obtain ⟨fresh, nodup⟩ := List.nodup_cons.mp lists.nodup
  have alone := (List.nodup_cons.mp (List.nodup_middle.mp nodup)).1
  intro inside
  rcases List.mem_cons.mp inside with same | inside
  · exact fresh (same ▸ List.mem_append_right _ (List.mem_cons_self ..))
  · exact alone inside

theorem Links.Path.seek :
    ∀ {xs : List α} {a : α} {fuel : Nat}, l.Path a xs head → head ∉ xs → xs.length < fuel →
      Ring.seek l.next head test fuel (l.next a) = (xs.find? test).getD head := by
  intro xs
  induction xs with
  | nil =>
    intro a fuel path _ enough
    obtain ⟨fuel, rfl⟩ := Nat.exists_eq_add_of_lt enough
    have stop : l.next a = head := path.1
    simp [Ring.seek, stop]
  | cons x xs ih =>
    intro a fuel path outside enough
    cases fuel with
    | zero => omega
    | succ fuel =>
      have first : l.next a = x := path.1.1
      have other : x ≠ head := fun same => outside (same ▸ List.mem_cons_self ..)
      have rest : Ring.seek l.next head test fuel (l.next x) = (xs.find? test).getD head :=
        ih path.2 (fun inside => outside (List.mem_cons_of_mem _ inside)) (by simpa using enough)
      cases passes : test x <;> simp [Ring.seek, first, other, passes, rest]

omit [DecidableEq α] in
/-- Read from its other end, a path follows the other pointer. -/
theorem Links.Path.reverse :
    ∀ {xs : List α} {a : α}, l.Path a xs b → Links.Path ⟨l.prev, l.next⟩ b xs.reverse a := by
  intro xs
  induction xs with
  | nil => exact fun path => ⟨path.2, path.1⟩
  | cons x xs ih =>
    intro a path
    rw [List.reverse_cons]
    exact Links.path_append.mpr ⟨ih path.2, path.1.2, path.1.1⟩

theorem Links.Lists.seek_next (lists : l.Lists head xs) (enough : xs.length < fuel) :
    seek l.next head test fuel (l.next head) = (xs.find? test).getD head :=
  lists.path.seek (List.nodup_cons.mp lists.nodup).1 enough

theorem Links.Lists.seek_prev (lists : l.Lists head xs) (enough : xs.length < fuel) :
    seek l.prev head test fuel (l.prev head) = (xs.reverse.find? test).getD head := by
  have back := lists.path.reverse
  refine back.seek ?_ (by simpa using enough)
  simpa using (List.nodup_cons.mp lists.nodup).1

end Ring
