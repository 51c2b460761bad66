import Mathlib.Algebra.Group.Int.Defs
import Mathlib.Algebra.Group.Nat.Defs
import Mathlib.Logic.Function.Basic
import Mathlib.Tactic.Common

/-! Computations over a mutable state that may abort, with rules for pre- and postconditions. -/

namespace Prog

variable {σ τ ε α β : Type}

/-- A computation that reads and writes a state and may abort with an error. -/
abbrev Comp (σ ε α : Type) := StateT σ (Except ε) α

/-- Every outcome of a computation satisfies the condition for its kind of ending. -/
def wp (prog : Comp σ ε α) (post : α → σ → Prop) (abort : ε → Prop) (s : σ) : Prop :=
  -- A normal ending is judged with its result and final state, an aborted one by its error.
  match prog s with
  | .ok (a, t) => post a t
  | .error e => abort e

/-- Run a computation on one part of a larger state and put the part back. -/
def focus (part : σ → τ) (put : σ → τ → σ) (prog : Comp τ ε α) : Comp σ ε α := fun s =>
  -- Only the selected part can change, and an abort inside aborts the whole.
  match prog (part s) with
  | .ok (a, t) => .ok (a, put s t)
  | .error e => .error e

/-- Run a body at every index below a bound, in increasing order. -/
def upto : Nat → (Nat → Comp σ ε Unit) → Comp σ ε Unit
  | 0, _ => pure ()
  | n + 1, body => do
    upto n body
    body n

/-- The state after a computation, or the state before it when it aborts. -/
def after (prog : Comp σ ε α) (s : σ) : σ :=
  match prog s with
  | .ok (_, t) => t
  | .error _ => s

/-- The value a run returned, if it did. -/
def valueOf : Except ε (α × σ) → Option α
  | .ok (a, _) => some a
  | .error _ => none

variable {prog : Comp σ ε α} {s t : σ} {a : α} {e : ε} {post post' : α → σ → Prop}
  {abort : ε → Prop}

theorem eq_ok_of_valueOf (returned : valueOf (prog s) = some a) :
    prog s = .ok (a, after prog s) := by
  unfold after
  cases run : prog s with
  | ok result =>
    rw [run] at returned
    obtain rfl := Option.some.inj returned
    rfl
  | error e => simp [run, valueOf] at returned

/-- The error a run ended with, if it did. -/
def errorOf : Except ε α → Option ε
  | .ok _ => none
  | .error e => some e

theorem exists_ok_of_any {run : Except ε (α × σ)} {test : α × σ → Bool}
    (passed : run.toOption.any test = true) : ∃ a t, run = .ok (a, t) ∧ test (a, t) = true := by
  cases run with
  | ok result => exact ⟨result.1, result.2, rfl, by simpa [Except.toOption] using passed⟩
  | error e => simp [Except.toOption] at passed

theorem eq_error_of_errorOf {run : Except ε α} (ended : errorOf run = some e) : run = .error e := by
  cases run with
  | ok result => simp [errorOf] at ended
  | error e' =>
    obtain rfl := Option.some.inj ended
    rfl

@[simp] theorem wp_pure (a : α) (post : α → σ → Prop) (abort : ε → Prop) (s : σ) :
    wp (pure a : Comp σ ε α) post abort s ↔ post a s := Iff.rfl

@[simp] theorem wp_bind (prog : Comp σ ε α) (rest : α → Comp σ ε β) (post : β → σ → Prop)
    (abort : ε → Prop) (s : σ) :
    wp (prog >>= rest) post abort s ↔
      wp prog (fun a t => wp (rest a) post abort t) abort s := by
  -- An abort of the first part is the abort of the whole sequence.
  simp only [wp, bind, StateT.bind]
  cases prog s <;> rfl

@[simp] theorem wp_map (f : α → β) (prog : Comp σ ε α) (post : β → σ → Prop)
    (abort : ε → Prop) (s : σ) :
    wp (f <$> prog) post abort s ↔ wp prog (fun a t => post (f a) t) abort s := by
  simp only [wp, Functor.map, StateT.map]
  cases prog s <;> rfl

@[simp] theorem wp_discard (prog : Comp σ ε α) (post : PUnit → σ → Prop)
    (abort : ε → Prop) (s : σ) :
    wp (discard prog) post abort s ↔ wp prog (fun _ t => post ⟨⟩ t) abort s :=
  wp_map (fun _ => PUnit.unit) prog post abort s

@[simp] theorem wp_get (post : σ → σ → Prop) (abort : ε → Prop) (s : σ) :
    wp (get : Comp σ ε σ) post abort s ↔ post s s := Iff.rfl

@[simp] theorem wp_set (t : σ) (post : PUnit → σ → Prop) (abort : ε → Prop) (s : σ) :
    wp (set t : Comp σ ε PUnit) post abort s ↔ post ⟨⟩ t := Iff.rfl

@[simp] theorem wp_modify (f : σ → σ) (post : PUnit → σ → Prop) (abort : ε → Prop) (s : σ) :
    wp (modify f : Comp σ ε PUnit) post abort s ↔ post ⟨⟩ (f s) := Iff.rfl

@[simp] theorem wp_throw (e : ε) (post : α → σ → Prop) (abort : ε → Prop) (s : σ) :
    wp (throw e : Comp σ ε α) post abort s ↔ abort e := Iff.rfl

@[simp] theorem wp_focus (part : σ → τ) (put : σ → τ → σ) (prog : Comp τ ε α)
    (post : α → σ → Prop) (abort : ε → Prop) (s : σ) :
    wp (focus part put prog) post abort s ↔
      wp prog (fun a t => post a (put s t)) abort (part s) := by
  -- Both sides inspect the same outcome of the inner computation.
  simp only [wp, focus]
  cases prog (part s) <;> rfl

theorem wp_mono {abort' : ε → Prop} (holds : wp prog post abort s)
    (ending : ∀ a t, post a t → post' a t) (aborted : ∀ e, abort e → abort' e) :
    wp prog post' abort' s := by
  -- The same outcome is judged by the weaker condition of its kind.
  unfold wp at holds ⊢
  split at holds
  · exact ending _ _ holds
  · exact aborted _ holds

theorem wp_imp (holds : wp prog post abort s) (ending : ∀ a t, post a t → post' a t) :
    wp prog post' abort s :=
  wp_mono holds ending fun _ aborted => aborted

theorem wp_congr (agree : ∀ a t, post a t ↔ post' a t) :
    wp prog post abort s ↔ wp prog post' abort s :=
  ⟨fun holds => wp_imp holds fun a t => (agree a t).mp,
    fun holds => wp_imp holds fun a t => (agree a t).mpr⟩

theorem wp_and (first : wp prog post abort s) (second : wp prog post' abort s) :
    wp prog (fun a t => post a t ∧ post' a t) abort s := by
  -- A computation has one outcome, so both conditions speak about it.
  unfold wp at first second ⊢
  split at first <;> simp_all

theorem wp_ok (holds : wp prog post abort s) (ran : prog s = .ok (a, t)) : post a t := by
  simpa only [wp, ran] using holds

/-- What holds of every outcome of a computation holds of the one that it had. -/
@[elab_as_elim] theorem of_ran {motive : α → σ → Prop} (a : α) (t : σ)
    (ran : prog s = .ok (a, t)) (judged : wp prog motive (fun _ => True) s) : motive a t :=
  wp_ok judged ran

theorem wp_error (holds : wp prog post abort s) (ran : prog s = .error e) : abort e := by
  simpa only [wp, ran] using holds

theorem eq_error_of_wp (holds : wp prog (fun _ _ => False) (fun e' => e' = e) s) :
    prog s = .error e := by
  cases ran : prog s with
  | ok result => exact (wp_ok holds ran).elim
  | error e' => rw [wp_error holds ran]

theorem exists_ok_of_wp (holds : wp prog post (fun _ => False) s) :
    ∃ a t, prog s = .ok (a, t) ∧ post a t := by
  cases ran : prog s with
  | ok result => exact ⟨result.1, result.2, rfl, wp_ok holds ran⟩
  | error e => exact (wp_error holds ran).elim

theorem wp_intro (ending : ∀ a t, prog s = .ok (a, t) → post a t)
    (aborted : ∀ e, prog s = .error e → abort e) : wp prog post abort s := by
  -- The two kinds of ending are covered by the two assumptions.
  unfold wp
  split
  · exact ending _ _ ‹_›
  · exact aborted _ ‹_›

theorem wp_upto {body : Nat → Comp σ ε Unit} (inv : Nat → σ → Prop) : ∀ n s, inv 0 s →
      (∀ i, i < n → ∀ s, inv i s → wp (body i) (fun _ t => inv (i + 1) t) abort s) →
      wp (upto n body) (fun _ t => inv n t) abort s := by
  -- The loop runs its first turns before the last, so the invariant grows one index at a time.
  intro n
  induction n with
  | zero => intro s start _; exact start
  | succ n ih =>
    intro s start turn
    simp only [upto, wp_bind]
    have earlier := ih s start fun i below => turn i (Nat.lt_succ_of_lt below)
    exact wp_imp earlier fun _ t reached => turn n (Nat.lt_succ_self n) t reached

-- Outside this module runs are judged by the rules above, never by evaluating the program.
attribute [irreducible] wp

end Prog
