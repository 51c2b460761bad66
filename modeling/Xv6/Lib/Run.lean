import Mathlib.Tactic.Common

/-! Runs of labelled transition systems: invariants along them and simulations between them. -/

namespace Trace

variable {σ τ ε : Type}

/-- A run takes one step for each of its events. -/
inductive Run (step : σ → ε → σ → Prop) : σ → List ε → σ → Prop where
  | nil (s : σ) : Run step s [] s
  | cons {s t u : σ} {e : ε} {es : List ε} (first : step s e t) (rest : Run step t es u) :
      Run step s (e :: es) u

/-- A step that is only taken where it is allowed. -/
def Guarded (allowed : σ → ε → Prop) (step : σ → ε → σ → Prop) (s : σ) (e : ε) (t : σ) : Prop :=
  allowed s e ∧ step s e t

variable {step : σ → ε → σ → Prop} {s t : σ} {es fs : List ε}

theorem Run.invariant (run : Run step s es t) (inv : σ → Prop)
    (keeps : ∀ s e t, inv s → step s e t → inv t) (start : inv s) : inv t := by
  induction run with
  | nil => exact start
  | cons first _ ih => exact ih (keeps _ _ _ start first)

theorem Run.guarded {allowed : ε → Prop} (run : Run step s es t) (all : ∀ e ∈ es, allowed e) :
    Run (Guarded (fun _ e => allowed e) step) s es t := by
  induction run with
  | nil s => exact .nil s
  | cons first _ ih =>
    exact .cons ⟨all _ (by simp), first⟩ (ih fun e member => all e (by simp [member]))

theorem Run.unguarded {allowed : σ → ε → Prop} (run : Run (Guarded allowed step) s es t) :
    Run step s es t := by
  induction run with
  | nil s => exact .nil s
  | cons first _ ih => exact .cons first.2 ih

theorem Run.simulation {abstract : τ → ε → τ → Prop} (run : Run step s es t) (rel : σ → τ → Prop)
    (matched : ∀ s a e t, rel s a → step s e t → ∃ b, abstract a e b ∧ rel t b) :
    ∀ a, rel s a → ∃ b, Run abstract a es b ∧ rel t b := by
  -- The abstract run is built from the front, one matched step at a time.
  induction run with
  | nil => exact fun a start => ⟨a, .nil a, start⟩
  | cons first _ ih =>
    intro a start
    obtain ⟨b, step, related⟩ := matched _ _ _ _ start first
    obtain ⟨c, rest, final⟩ := ih b related
    exact ⟨c, .cons step rest, final⟩

theorem Run.split :
    ∀ {s u : σ}, Run step s (es ++ fs) u → ∃ t, Run step s es t ∧ Run step t fs u := by
  induction es with
  | nil => exact fun run => ⟨_, .nil _, run⟩
  | cons e es ih =>
    rintro s u (_ | ⟨first, rest⟩)
    obtain ⟨t, front, back⟩ := ih rest
    exact ⟨t, .cons first front, back⟩

/-- Take one step for each event, as long as each is possible. -/
def steps (step : σ → ε → Option σ) : σ → List ε → Option σ
  | s, [] => some s
  | s, e :: es => (step s e).bind fun t => steps step t es

theorem Run.of_steps_inv {step : σ → ε → Option σ} {rel : σ → ε → σ → Prop} (inv : σ → Prop)
    (sound : ∀ s e t, inv s → step s e = some t → rel s e t ∧ inv t) :
    ∀ {s t : σ}, inv s → steps step s es = some t → Run rel s es t ∧ inv t := by
  induction es with
  | nil =>
    rintro s t start ⟨⟩
    exact ⟨.nil s, start⟩
  | cons e es ih =>
    intro s t start computed
    obtain ⟨u, first, rest⟩ := Option.bind_eq_some_iff.mp computed
    obtain ⟨moved, kept⟩ := sound s e u start first
    obtain ⟨run, final⟩ := ih kept rest
    exact ⟨.cons moved run, final⟩

theorem Run.of_steps {step : σ → ε → Option σ} {rel : σ → ε → σ → Prop}
    (sound : ∀ s e t, step s e = some t → rel s e t) (computed : steps step s es = some t) :
    Run rel s es t :=
  (Run.of_steps_inv (fun _ => True) (fun s e t _ taken => ⟨sound s e t taken, trivial⟩) trivial
    computed).1

theorem Run.append {u : σ} (run : Run step s es t) (more : Run step t fs u) :
    Run step s (es ++ fs) u := by
  induction run with
  | nil => exact more
  | cons first _ ih => exact .cons first (ih more)

end Trace
