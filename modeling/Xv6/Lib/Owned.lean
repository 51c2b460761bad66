import Mathlib.Logic.Function.Basic
import Mathlib.Tactic.Common

/-! Resources held in slots: what is held is marked, and nothing is held twice. -/

namespace Owned

variable {ι β : Type}

theorem update_eq_some_iff [DecidableEq ι] {held : ι → Option β} {i j : ι} {new : Option β}
    {b : β} :
    Function.update held i new j = some b ↔ j = i ∧ new = some b ∨ j ≠ i ∧ held j = some b := by
  by_cases same : j = i
  · subst same
    simp
  · simp [same]

/-- Every resource in a slot is marked, and no resource is in two slots. -/
structure Once (held : ι → Option β) (marked : β → Prop) : Prop where
  marked : ∀ {i b}, held i = some b → marked b
  once : ∀ {i j b}, held i = some b → held j = some b → i = j

namespace Once

variable {held held' : ι → Option β} {marked marked' : β → Prop}

theorem mono (owned : Once held marked) (more : ∀ b, marked b → marked' b) :
    Once held marked' :=
  ⟨fun here => more _ (owned.marked here), owned.once⟩

theorem shrink (owned : Once held marked)
    (fewer : ∀ {i b}, held' i = some b → held i = some b ∧ marked' b) : Once held' marked' :=
  ⟨fun here => (fewer here).2, fun here there => owned.once (fewer here).1 (fewer there).1⟩

variable [DecidableEq ι]

theorem take (owned : Once held marked) {i : ι} {b : β} (loose : ∀ j, held j ≠ some b)
    (mark : marked b) : Once (Function.update held i (some b)) marked := by
  constructor
  · intro j c here
    rcases update_eq_some_iff.mp here with ⟨-, new⟩ | ⟨-, old⟩
    · obtain rfl := Option.some.inj new
      exact mark
    · exact owned.marked old
  · intro j k c here there
    rcases update_eq_some_iff.mp here with ⟨rfl, new⟩ | ⟨-, old⟩
    · rcases update_eq_some_iff.mp there with ⟨rfl, -⟩ | ⟨-, old'⟩
      · rfl
      · exact absurd (old'.trans new.symm) (loose k)
    · rcases update_eq_some_iff.mp there with ⟨rfl, new⟩ | ⟨-, old'⟩
      · exact absurd (old.trans new.symm) (loose j)
      · exact owned.once old old'

end Once

end Owned
