import Xv6.ProcTree

/-! What steps do to the process table, and the links between processes. -/

namespace Xv6

namespace Tree

open Function (update update_self update_of_ne update_eq_self)

def Pc.making : Pc → Option Nat
  | .copy np | .adopt np | .publish np => some np
  | _ => none

def Pc.adopted : Pc → Option Nat
  | .publish np => some np
  | _ => none

def Pc.past : Pc → Nat → Prop
  | .reparent _ k, x => x < k
  | .bury _, _ => True
  | _, _ => False

def Pc.leaving : Pc → Bool
  | .exit _ | .reparent _ _ | .bury _ => true
  | _ => false

structure Slot.Similar (a b : Slot) : Prop where
  phase : b.phase = a.phase ∨ a.phase.alive = true ∧ b.phase.alive = true
  pid : b.pid = a.pid
  parent : b.parent = a.parent
  xstate : b.xstate = a.xstate

theorem Slot.Similar.refl (a : Slot) : a.Similar a := ⟨.inl rfl, rfl, rfl, rfl⟩

variable {a b slot : Slot} {pc : Pc} {k np p x : Nat} {lock : Option Nat} {ok : Bool} {status : Int}

theorem Slot.Similar.alive (similar : a.Similar b) : b.phase.alive = a.phase.alive := by
  rcases similar.phase with same | ⟨first, second⟩
  · rw [same]
  · rw [first, second]

theorem Slot.Similar.phase_eq (similar : a.Similar b) {phase : Phase} (dead : phase.alive = false) :
    b.phase = phase ↔ a.phase = phase := by
  rcases similar.phase with same | ⟨first, second⟩
  · rw [same]
  · constructor
    · rintro rfl
      rw [second] at dead
      exact absurd dead (by decide)
    · rintro rfl
      rw [first] at dead
      exact absurd dead (by decide)

theorem Pc.leaving_of_past (past : pc.past x) : pc.leaving = true := by
  cases pc <;> first | rfl | exact past.elim

theorem Pc.making_of_adopted (adopted : pc.adopted = some np) : pc.making = some np := by
  cases pc <;> first | exact adopted | exact absurd adopted (by simp [Pc.adopted])

namespace Table

structure SameRecords (s t : Table) : Prop where
  nextpid : t.nextpid = s.nextpid
  forks : t.forks = s.forks
  exits : t.exits = s.exits
  reaped : t.reaped = s.reaped

/-- What a step can do to the process table. -/
inductive Moves (s : Table) : Table → Prop where
  /-- Scheduling, or a process goes on and changes no link. -/
  | calm {t : Table} (p : Nat) (pc : Pc) (proc : ∀ x, (s.proc x).Similar (t.proc x))
      (pcs : t.pcs = update s.pcs p pc) (records : s.SameRecords t)
      (making : pc.making = (s.pcs p).making ∨ pc.making = none)
      (adopted : pc.adopted = (s.pcs p).adopted ∨ pc.adopted = none)
      (past : ∀ x < nproc, pc.past x → (s.pcs p).past x ∨ (s.proc x).parent ≠ some p)
      (leaving : pc.leaving = true → (s.pcs p).leaving = true ∨ p ≠ initproc) : Moves s t
  /-- `allocproc` takes a slot. -/
  | takes {t : Table} (p k : Nat) (inside : k < nproc) (unused : (s.proc k).phase = .unused)
      (same : t = (s.take k).goto p (.copy k)) : Moves s t
  /-- `kfork` gives up. -/
  | drops {t : Table} (p np : Nat) (here : s.pcs p = .copy np)
      (same : t = (s.set np .free).goto p .out) : Moves s t
  | adopts {t : Table} (p np : Nat) (here : s.pcs p = .adopt np)
      (running : (s.proc p).phase = .running)
      (same : t = (s.set np { s.proc np with parent := some p }).goto p (.publish np)) : Moves s t
  | publishes {t : Table} (p np : Nat) (here : s.pcs p = .publish np)
      (same : t = (s.setPhase np .runnable).goto p .out) : Moves s t
  | reparents {t : Table} (p k : Nat) (status : Int) (here : s.pcs p = .reparent status k)
      (inside : k < nproc) (child : (s.proc k).parent = some p)
      (same : t = (s.set k { s.proc k with parent := some initproc }).goto p
        (.reparent status (k + 1))) : Moves s t
  | buries {t : Table} (p : Nat) (status : Int) (here : s.pcs p = .bury status)
      (running : (s.proc p).phase = .running)
      (same : t = (s.bury p status).release p .out) : Moves s t
  | reaps {t : Table} (p k : Nat) (child : (s.proc k).parent = some p)
      (zombie : (s.proc k).phase = .zombie) (running : (s.proc p).phase = .running)
      (quiet : (s.pcs p).making = none)
      (same : t = (s.reap p k).release p .out) : Moves s t

/-! What each step is. -/

section Inversion

variable {s t : Table} {p : Nat}

theorem moves_goto (making : pc.making = none) (adopted : pc.adopted = none)
    (past : ∀ x < nproc, pc.past x → (s.pcs p).past x ∨ (s.proc x).parent ≠ some p)
    (leaving : pc.leaving = true → (s.pcs p).leaving = true ∨ p ≠ initproc) :
    s.Moves ({ s with lock := lock }.goto p pc) :=
  .calm p pc (fun _ => .refl _) rfl ⟨rfl, rfl, rfl, rfl⟩ (.inr making) (.inr adopted) past leaving

theorem moves_other (making : pc.making = none) (adopted : pc.adopted = none)
    (past : ∀ x, ¬ pc.past x) (leaving : pc.leaving = false) :
    s.Moves ({ s with lock := lock }.goto p pc) :=
  moves_goto making adopted (fun x _ gone => absurd gone (past x)) fun leaves => by
    rw [leaving] at leaves
    exact absurd leaves Bool.false_ne_true

theorem similar_set (similar : (s.proc x).Similar slot) (y : Nat) :
    (s.proc y).Similar ((s.set x slot).proc y) := by
  by_cases same : y = x
  · subst same
    simpa [set] using similar
  · simpa [set, same] using Slot.Similar.refl (s.proc y)

theorem moves_switch {before after : Phase} (switched : s.switch p before after = some t)
    (first : before.alive = true) (second : after.alive = true) : s.Moves t := by
  unfold switch at switched
  split at switched
  · rename_i here
    obtain rfl := Option.some.inj switched
    refine .calm p (s.pcs p) (similar_set ⟨.inr ⟨here ▸ first, second⟩, rfl, rfl, rfl⟩)
      (update_eq_self ..).symm ⟨rfl, rfl, rfl, rfl⟩ (.inl rfl) (.inl rfl)
      (fun _ _ gone => .inl gone) .inl
  · exact absurd switched (by simp)

theorem moves_enter (entered : s.enter p pc = some t) (making : pc.making = none)
    (adopted : pc.adopted = none) (past : ∀ x, ¬ pc.past x)
    (leaving : pc.leaving = true → p ≠ initproc) : s.Moves t := by
  unfold enter at entered
  split at entered
  · obtain rfl := Option.some.inj entered
    exact moves_goto making adopted (fun x _ gone => absurd gone (past x))
      fun leaves => .inr (leaving leaves)
  · exact absurd entered (by simp)

theorem moves_scan {addr : Nat} {havekids : Bool} (here : s.pcs p = .scan addr k havekids)
    (running : (s.proc p).phase = .running) : s.Moves (s.scan p addr k havekids ok) := by
  have quiet : (s.pcs p).making = none := by rw [here]; rfl
  unfold scan
  split
  · split
    · exact moves_other rfl rfl (fun _ gone => gone) rfl
    · -- The process goes to sleep.
      refine .calm p (.wait addr) (similar_set ⟨.inr ⟨running ▸ rfl, rfl⟩, rfl, rfl, rfl⟩) rfl
        ⟨rfl, rfl, rfl, rfl⟩ (.inr rfl) (.inr rfl) (fun _ _ gone => gone.elim) ?_
      intro leaves
      exact absurd leaves Bool.false_ne_true
  split
  · rename_i child
    split
    · rename_i zombie
      split
      · exact moves_other rfl rfl (fun _ gone => gone) rfl
      · exact .reaps p k child zombie running quiet rfl
    · exact moves_other rfl rfl (fun _ gone => gone) rfl
  · exact moves_other rfl rfl (fun _ gone => gone) rfl

theorem moves_kill {pid : Int} : s.Moves (s.kill p pid k) := by
  unfold kill
  split
  · exact moves_other rfl rfl (fun _ gone => gone) rfl
  split
  · refine .calm p .out (similar_set ⟨?_, rfl, rfl, rfl⟩) rfl ⟨rfl, rfl, rfl, rfl⟩ (.inr rfl)
      (.inr rfl) (fun _ _ gone => gone.elim) ?_
    · -- Only a sleeping process changes its state.
      by_cases asleep : (s.proc k).phase = .sleeping
      · exact .inr ⟨by rw [asleep]; rfl, by simp [asleep]; rfl⟩
      · exact .inl (by simp [asleep])
    · intro leaves
      exact absurd leaves Bool.false_ne_true
  · exact moves_other rfl rfl (fun _ gone => gone) rfl

theorem moves_advance (running : (s.proc p).phase = .running) (advanced : s.advance p ok = some t) :
    s.Moves t := by
  unfold advance at advanced
  cases here : s.pcs p with
  | out => simp [here] at advanced
  | alloc k =>
    simp only [here] at advanced
    split at advanced
    · obtain rfl := Option.some.inj advanced
      exact moves_other rfl rfl (fun _ gone => gone) rfl
    split at advanced
    · rename_i inside unused
      obtain rfl := Option.some.inj advanced
      exact .takes p k (by omega) unused rfl
    · obtain rfl := Option.some.inj advanced
      exact moves_other rfl rfl (fun _ gone => gone) rfl
  | copy np =>
    simp only [here] at advanced
    split at advanced
    · obtain rfl := Option.some.inj advanced
      refine .calm p (.adopt np) (fun _ => .refl _) rfl ⟨rfl, rfl, rfl, rfl⟩ (.inl ?_) (.inr rfl)
        (fun _ _ gone => gone.elim) ?_
      · rw [here]
        rfl
      · intro leaves
        exact absurd leaves Bool.false_ne_true
    · obtain rfl := Option.some.inj advanced
      exact .drops p np here rfl
  | adopt np =>
    simp only [here] at advanced
    split at advanced
    · obtain rfl := Option.some.inj advanced
      exact .adopts p np here running rfl
    · exact absurd advanced (by simp)
  | publish np =>
    simp only [here] at advanced
    obtain rfl := Option.some.inj advanced
    exact .publishes p np here rfl
  | exit status =>
    simp only [here, acquire] at advanced
    split at advanced
    · obtain rfl := Option.some.inj advanced
      refine moves_goto rfl rfl (fun x _ gone => absurd gone (Nat.not_lt_zero x)) fun _ => .inl ?_
      rw [here]
      rfl
    · exact absurd advanced (by simp)
  | reparent status k =>
    have leaving : (s.pcs p).leaving = true := by rw [here]; rfl
    have past : ∀ x, x < k → (s.pcs p).past x := by
      intro x below
      rw [here]
      exact below
    simp only [here] at advanced
    split at advanced
    · rename_i all
      obtain rfl := Option.some.inj advanced
      exact moves_goto rfl rfl (fun x inside _ => .inl (past x (by omega))) fun _ => .inl leaving
    split at advanced
    · rename_i inside child
      obtain rfl := Option.some.inj advanced
      exact .reparents p k status here (by omega) child rfl
    · rename_i inside other
      obtain rfl := Option.some.inj advanced
      refine moves_goto rfl rfl (fun x _ gone => ?_) fun _ => .inl leaving
      -- The slot just looked at is not a child of the process.
      rcases Nat.lt_succ_iff_lt_or_eq.mp gone with below | rfl
      · exact .inl (past x below)
      · exact .inr other
  | bury status =>
    simp only [here] at advanced
    obtain rfl := Option.some.inj advanced
    exact .buries p status here running rfl
  | wait addr =>
    simp only [here, acquire] at advanced
    split at advanced
    · obtain rfl := Option.some.inj advanced
      exact moves_other rfl rfl (fun _ gone => gone) rfl
    · exact absurd advanced (by simp)
  | scan addr k havekids =>
    simp only [here] at advanced
    obtain rfl := Option.some.inj advanced
    exact moves_scan here running
  | kill pid k =>
    simp only [here] at advanced
    obtain rfl := Option.some.inj advanced
    exact moves_kill

theorem moves_step {e : Event} (stepped : s.Steps e t) : s.Moves t := by
  unfold Steps at stepped
  cases e with
  | fork p =>
    exact moves_enter stepped rfl rfl (fun x gone => gone) fun leaves =>
      absurd leaves Bool.false_ne_true
  | exit p status =>
    simp only [step] at stepped
    split at stepped
    · exact absurd stepped (by simp)
    · rename_i other
      exact moves_enter stepped rfl rfl (fun x gone => gone) fun _ => other
  | wait p addr =>
    exact moves_enter stepped rfl rfl (fun x gone => gone) fun leaves =>
      absurd leaves Bool.false_ne_true
  | kill p pid =>
    exact moves_enter stepped rfl rfl (fun x gone => gone) fun leaves =>
      absurd leaves Bool.false_ne_true
  | run p ok =>
    simp only [step] at stepped
    split at stepped
    · rename_i running
      exact moves_advance running stepped
    · exact absurd stepped (by simp)
  | dispatch p => exact moves_switch stepped rfl rfl
  | yield p => exact moves_switch stepped rfl rfl
  | sleep p =>
    simp only [step] at stepped
    split at stepped
    · exact moves_switch stepped rfl rfl
    · exact absurd stepped (by simp)
  | wakeup p => exact moves_switch stepped rfl rfl

end Inversion

structure Rooted (t : Table) : Prop where
  parents : ∀ {x q}, (t.proc x).parent = some q → (t.proc q).phase.alive = true
  child : ∀ {x}, x ≠ initproc →
    (t.proc x).phase.alive = true ∨ (t.proc x).phase = .zombie → (t.proc x).parent ≠ none
  making : ∀ {p np}, (t.pcs p).making = some np → (t.proc np).phase = .used
  once : ∀ {p q np}, (t.pcs p).making = some np → (t.pcs q).making = some np → p = q
  adopted : ∀ {p np}, (t.pcs p).adopted = some np → (t.proc np).parent ≠ none
  past : ∀ {p x}, (t.pcs p).past x → (t.proc x).parent ≠ some p
  init : (t.proc initproc).phase.alive = true
  leaving : ∀ {p}, (t.pcs p).leaving = true → p ≠ initproc
  outside : ∀ {x}, nproc ≤ x → (t.proc x).phase = .unused ∧ (t.proc x).parent = none

/-! What each kind of step keeps. -/

@[simp] theorem proc_goto (t : Table) (p : Nat) (pc : Pc) : (t.goto p pc).proc = t.proc := rfl

@[simp] theorem proc_release (t : Table) (p : Nat) (pc : Pc) : (t.release p pc).proc = t.proc := rfl

@[simp] theorem proc_set (t : Table) (x : Nat) (slot : Slot) :
    (t.set x slot).proc = update t.proc x slot := rfl

@[simp] theorem proc_take (t : Table) (k : Nat) : (t.take k).proc =
    update t.proc k { t.proc k with phase := .used, pid := t.nextpid } := rfl

@[simp] theorem proc_bury (t : Table) (p : Nat) (status : Int) : (t.bury p status).proc =
    update t.proc p { t.proc p with phase := .zombie, xstate := status } := rfl

@[simp] theorem proc_reap (t : Table) (p k : Nat) :
    (t.reap p k).proc = update t.proc k .free := rfl

section Keeping

variable {s t : Table}

theorem Rooted.calm (rooted : s.Rooted) (proc : ∀ x, (s.proc x).Similar (t.proc x))
    (pcs : t.pcs = update s.pcs p pc)
    (making : pc.making = (s.pcs p).making ∨ pc.making = none)
    (adopted : pc.adopted = (s.pcs p).adopted ∨ pc.adopted = none)
    (past : ∀ x < nproc, pc.past x → (s.pcs p).past x ∨ (s.proc x).parent ≠ some p)
    (leaving : pc.leaving = true → (s.pcs p).leaving = true ∨ p ≠ initproc) : t.Rooted := by
  -- What a process makes it made before.
  have made : ∀ {q np}, (t.pcs q).making = some np → (s.pcs q).making = some np := by
    intro q np here
    rw [pcs] at here
    rcases eq_or_ne q p with rfl | other
    · rw [update_self] at here
      rcases making with same | none
      · rw [← same, here]
      · rw [none] at here
        exact absurd here (by simp)
    · rwa [update_of_ne other] at here
  constructor
  · intro x q here
    rw [(proc x).parent] at here
    rw [(proc q).alive]
    exact rooted.parents here
  · intro x other live
    rw [(proc x).alive, (proc x).phase_eq rfl] at live
    rw [(proc x).parent]
    exact rooted.child other live
  · intro q np here
    exact ((proc np).phase_eq rfl).mpr (rooted.making (made here))
  · exact fun here there => rooted.once (made here) (made there)
  · intro q np here
    rw [(proc np).parent]
    rw [pcs] at here
    rcases eq_or_ne q p with rfl | other
    · rw [update_self] at here
      rcases adopted with same | none
      · exact rooted.adopted (same ▸ here)
      · rw [none] at here
        exact absurd here (by simp)
    · rw [update_of_ne other] at here
      exact rooted.adopted here
  · intro q x gone
    rw [(proc x).parent]
    rw [pcs] at gone
    rcases eq_or_ne q p with rfl | other
    · rw [update_self] at gone
      rcases Nat.lt_or_ge x nproc with inside | outside
      · rcases past x inside gone with before | other
        · exact rooted.past before
        · exact other
      · rw [(rooted.outside outside).2]
        simp
    · rw [update_of_ne other] at gone
      exact rooted.past gone
  · rw [(proc initproc).alive]
    exact rooted.init
  · intro q leaves
    rw [pcs] at leaves
    rcases eq_or_ne q p with rfl | other
    · rw [update_self] at leaves
      rcases leaving leaves with before | other
      · exact rooted.leaving before
      · exact other
    · rw [update_of_ne other] at leaves
      exact rooted.leaving leaves
  · intro x outside
    rw [(proc x).parent, (proc x).phase_eq rfl]
    exact rooted.outside outside

structure Fits (s : Table) (x : Nat) (slot : Slot) (p : Nat) (pc : Pc) : Prop where
  parent : ∀ {q}, slot.parent = some q → (update s.proc x slot q).phase.alive = true
  dies : slot.phase.alive = false → ∀ y, y ≠ x → (s.proc y).parent ≠ some x
  child : x ≠ initproc → slot.phase.alive = true ∨ slot.phase = .zombie → slot.parent ≠ none
  making : ∀ {np}, pc.making = some np →
    (update s.proc x slot np).phase = .used ∧ ∀ q, q ≠ p → (s.pcs q).making ≠ some np
  others : ∀ {q}, q ≠ p → (s.pcs q).making = some x →
    slot.phase = .used ∧ (slot.parent = none → (s.proc x).parent = none)
  adopted : ∀ {np}, pc.adopted = some np → (update s.proc x slot np).parent ≠ none
  past : ∀ {y}, pc.past y → (update s.proc x slot y).parent ≠ some p
  given : ∀ {q}, q ≠ p → (s.pcs q).leaving = true → slot.parent = some q →
    (s.proc x).parent = some q
  init : x = initproc → slot.phase.alive = true
  leaving : pc.leaving = true → p ≠ initproc
  outside : nproc ≤ x → slot.phase = .unused ∧ slot.parent = none

theorem Rooted.change (rooted : s.Rooted) (fits : s.Fits x slot p pc)
    (proc : t.proc = update s.proc x slot) (pcs : t.pcs = update s.pcs p pc) :
    t.Rooted := by
  constructor
  · intro y q
    rw [proc]
    rcases eq_or_ne y x with rfl | other
    · rw [update_self]
      exact fits.parent
    · intro here
      rw [update_of_ne other] at here
      rcases eq_or_ne q x with rfl | ne
      · -- A parent that changes must live on.
        by_contra dead
        exact fits.dies (by simpa using dead) y other here
      · rw [update_of_ne ne]
        exact rooted.parents here
  · intro y other live
    rw [proc] at live ⊢
    rcases eq_or_ne y x with rfl | ne
    · rw [update_self] at live ⊢
      exact fits.child other live
    · rw [update_of_ne ne] at live ⊢
      exact rooted.child other live
  · intro q np here
    rw [proc]
    rw [pcs] at here
    rcases eq_or_ne q p with rfl | other
    · rw [update_self] at here
      exact (fits.making here).1
    · rw [update_of_ne other] at here
      rcases eq_or_ne np x with rfl | ne
      · rw [update_self]
        exact (fits.others other here).1
      · rw [update_of_ne ne]
        exact rooted.making here
  · intro q r np here there
    rw [pcs] at here there
    rcases eq_or_ne q p with rfl | first
    · rcases eq_or_ne r q with rfl | second
      · rfl
      · rw [update_self] at here
        rw [update_of_ne second] at there
        exact absurd there ((fits.making here).2 r second)
    · rcases eq_or_ne r p with rfl | second
      · rw [update_self] at there
        rw [update_of_ne first] at here
        exact absurd here ((fits.making there).2 q first)
      · rw [update_of_ne first] at here
        rw [update_of_ne second] at there
        exact rooted.once here there
  · intro q np here
    rw [proc]
    rw [pcs] at here
    rcases eq_or_ne q p with rfl | other
    · rw [update_self] at here
      exact fits.adopted here
    · rw [update_of_ne other] at here
      rcases eq_or_ne np x with rfl | ne
      · rw [update_self]
        intro lost
        exact rooted.adopted here ((fits.others other (Pc.making_of_adopted here)).2 lost)
      · rw [update_of_ne ne]
        exact rooted.adopted here
  · intro q y gone
    rw [proc]
    rw [pcs] at gone
    rcases eq_or_ne q p with rfl | other
    · rw [update_self] at gone
      exact fits.past gone
    · rw [update_of_ne other] at gone
      rcases eq_or_ne y x with rfl | ne
      · rw [update_self]
        intro here
        exact rooted.past gone (fits.given other (Pc.leaving_of_past gone) here)
      · rw [update_of_ne ne]
        exact rooted.past gone
  · rw [proc]
    rcases eq_or_ne initproc x with rfl | ne
    · rw [update_self]
      exact fits.init rfl
    · rw [update_of_ne ne]
      exact rooted.init
  · intro q leaves
    rw [pcs] at leaves
    rcases eq_or_ne q p with rfl | other
    · rw [update_self] at leaves
      exact fits.leaving leaves
    · rw [update_of_ne other] at leaves
      exact rooted.leaving leaves
  · intro y outside
    rw [proc]
    rcases eq_or_ne y x with rfl | ne
    · rw [update_self]
      exact fits.outside outside
    · rw [update_of_ne ne]
      exact rooted.outside outside

theorem Rooted.childless (rooted : s.Rooted) (dead : (s.proc x).phase.alive = false) (y : Nat) :
    (s.proc y).parent ≠ some x := by
  intro here
  have alive := rooted.parents here
  rw [dead] at alive
  exact absurd alive (by decide)

theorem Rooted.ne_init (rooted : s.Rooted) (dead : (s.proc x).phase.alive = false) :
    x ≠ initproc := by
  rintro rfl
  rw [rooted.init] at dead
  exact absurd dead (by decide)

theorem Rooted.inside (rooted : s.Rooted) (used : (s.proc x).phase ≠ .unused) :
    ¬ nproc ≤ x := fun outside => used (rooted.outside outside).1

theorem Rooted.alone (rooted : s.Rooted) {q : Nat} (here : (s.pcs p).making = some np)
    (other : q ≠ p) : (s.pcs q).making ≠ some np := fun there => other (rooted.once there here)

theorem Rooted.fits_free (rooted : s.Rooted) (dead : (s.proc x).phase.alive = false)
    (mine : ∀ q, q ≠ p → (s.pcs q).making ≠ some x) : s.Fits x .free p .out where
  parent := fun here => absurd here (by simp [Slot.free])
  dies := fun _ y _ => rooted.childless dead y
  child := fun _ live => absurd live (by simp [Slot.free, Phase.alive])
  making := fun here => absurd here (by simp [Pc.making])
  others := fun other here => absurd here (mine _ other)
  adopted := fun here => absurd here (by simp [Pc.adopted])
  past := fun gone => gone.elim
  given := fun _ _ here => absurd here (by simp [Slot.free])
  init := fun same => absurd same (rooted.ne_init dead)
  leaving := fun leaves => absurd leaves Bool.false_ne_true
  outside := fun _ => ⟨rfl, rfl⟩

theorem Rooted.takes (rooted : s.Rooted) (inside : k < nproc)
    (unused : (s.proc k).phase = .unused) : ((s.take k).goto p (.copy k)).Rooted := by
  have dead : (s.proc k).phase.alive = false := by rw [unused]; rfl
  have free : ∀ q, (s.pcs q).making ≠ some k := by
    intro q here
    have used := rooted.making here
    rw [unused] at used
    exact absurd used (by decide)
  refine rooted.change (x := k) (p := p) ?_ (proc_take s k) rfl
  constructor
  · intro q here
    rcases eq_or_ne q k with rfl | ne
    · exact absurd here (rooted.childless dead q)
    · rw [update_of_ne ne]
      exact rooted.parents here
  · exact fun _ y _ => rooted.childless dead y
  · exact fun _ live => absurd live (by simp [Phase.alive])
  · rintro np ⟨⟩
    exact ⟨by rw [update_self], fun q _ => free q⟩
  · exact fun _ here => absurd here (free _)
  · exact fun here => absurd here (by simp [Pc.adopted])
  · exact fun gone => gone.elim
  · exact fun _ _ here => here
  · exact fun eq => absurd eq (rooted.ne_init dead)
  · exact fun leaves => absurd leaves Bool.false_ne_true
  · exact fun outside => absurd inside (Nat.not_lt.mpr outside)

theorem Rooted.adopts (rooted : s.Rooted) (here : s.pcs p = .adopt np)
    (running : (s.proc p).phase = .running) :
    ((s.set np { s.proc np with parent := some p }).goto p (.publish np)).Rooted := by
  have mine : (s.pcs p).making = some np := by rw [here]; rfl
  have used := rooted.making mine
  have dead : (s.proc np).phase.alive = false := by rw [used]; rfl
  have alive : (s.proc p).phase.alive = true := by rw [running]; rfl
  have ne : p ≠ np := by
    rintro rfl
    rw [alive] at dead
    exact absurd dead (by decide)
  refine rooted.change (x := np) (p := p) ?_ rfl rfl
  constructor
  · rintro q ⟨⟩
    rw [update_of_ne ne]
    exact alive
  · exact fun _ y _ => rooted.childless dead y
  · exact fun _ _ => by simp
  · rintro _ ⟨⟩
    exact ⟨by rw [update_self]; exact used, fun q other => rooted.alone mine other⟩
  · exact fun other here => absurd here (rooted.alone mine other)
  · rintro _ ⟨⟩
    simp
  · exact fun gone => gone.elim
  · rintro q other _ ⟨⟩
    exact absurd rfl other
  · exact fun eq => absurd eq (rooted.ne_init dead)
  · exact fun leaves => absurd leaves Bool.false_ne_true
  · exact fun outside => absurd outside (rooted.inside (by rw [used]; decide))

theorem Rooted.publishes (rooted : s.Rooted) (here : s.pcs p = .publish np) :
    ((s.setPhase np .runnable).goto p .out).Rooted := by
  have mine : (s.pcs p).making = some np := by rw [here]; rfl
  have parent := rooted.adopted (show (s.pcs p).adopted = some np by rw [here]; rfl)
  have used := rooted.making mine
  have dead : (s.proc np).phase.alive = false := by rw [used]; rfl
  refine rooted.change (x := np) (p := p) ?_ rfl rfl
  constructor
  · intro q up
    have alive := rooted.parents up
    rcases eq_or_ne q np with rfl | ne
    · rw [update_self]
      rfl
    · rw [update_of_ne ne]
      exact alive
  · exact fun _ y _ => rooted.childless dead y
  · exact fun _ _ => parent
  · exact fun made => absurd made (by simp [Pc.making])
  · exact fun other made => absurd made (rooted.alone mine other)
  · exact fun made => absurd made (by simp [Pc.adopted])
  · exact fun gone => gone.elim
  · exact fun _ _ up => up
  · exact fun _ => rfl
  · exact fun leaves => absurd leaves Bool.false_ne_true
  · exact fun outside => absurd outside (rooted.inside (by rw [used]; decide))

theorem Rooted.reparents (rooted : s.Rooted) (here : s.pcs p = .reparent status k)
    (inside : k < nproc) : ((s.set k { s.proc k with parent := some initproc }).goto p
      (.reparent status (k + 1))).Rooted := by
  have leaving : (s.pcs p).leaving = true := by rw [here]; rfl
  have other := rooted.leaving leaving
  refine rooted.change (x := k) (p := p) ?_ rfl rfl
  constructor
  · rintro q ⟨⟩
    rcases eq_or_ne initproc k with rfl | ne
    · rw [update_self]
      exact rooted.init
    · rw [update_of_ne ne]
      exact rooted.init
  · exact fun dead y _ => rooted.childless dead y
  · exact fun _ _ => by simp
  · exact fun made => absurd made (by simp [Pc.making])
  · exact fun _ made => ⟨rooted.making made, fun lost => absurd lost (by simp)⟩
  · exact fun made => absurd made (by simp [Pc.adopted])
  · -- The child just given away is not a child of the process any more.
    intro y gone
    rcases eq_or_ne y k with rfl | ne
    · rw [update_self]
      intro up
      exact other (Option.some.inj up).symm
    · rw [update_of_ne ne]
      have below : y < k := by
        have : y < k + 1 := gone
        omega
      exact rooted.past (show (s.pcs p).past y by rw [here]; exact below)
  · rintro q _ leaves ⟨⟩
    exact absurd rfl (rooted.leaving leaves)
  · rintro rfl
    exact rooted.init
  · exact fun _ => other
  · exact fun outside => absurd inside (Nat.not_lt.mpr outside)

theorem Rooted.buries (rooted : s.Rooted) (here : s.pcs p = .bury status)
    (running : (s.proc p).phase = .running) : ((s.bury p status).release p .out).Rooted := by
  have leaving : (s.pcs p).leaving = true := by rw [here]; rfl
  have alive : (s.proc p).phase.alive = true := by rw [running]; rfl
  -- Every child was given away.
  have gone : ∀ y, (s.proc y).parent ≠ some p := fun y =>
    rooted.past (show (s.pcs p).past y by rw [here]; trivial)
  refine rooted.change (x := p) (p := p) ?_ rfl rfl
  constructor
  · intro q up
    rcases eq_or_ne q p with rfl | ne
    · exact absurd up (gone q)
    · rw [update_of_ne ne]
      exact rooted.parents up
  · exact fun _ y _ => gone y
  · exact fun other _ => rooted.child other (.inl alive)
  · exact fun made => absurd made (by simp [Pc.making])
  · intro q _ made
    have used := rooted.making made
    rw [running] at used
    exact absurd used (by decide)
  · exact fun made => absurd made (by simp [Pc.adopted])
  · exact fun past => past.elim
  · exact fun _ _ up => up
  · exact fun eq => absurd eq (rooted.leaving leaving)
  · exact fun leaves => absurd leaves Bool.false_ne_true
  · exact fun outside => absurd outside (rooted.inside (by rw [running]; decide))

theorem Rooted.step (rooted : s.Rooted) (moves : s.Moves t) : t.Rooted := by
  cases moves with
  | calm p pc proc pcs records making adopted past leaving =>
    exact rooted.calm proc pcs making adopted past leaving
  | takes p k inside unused same => exact same ▸ rooted.takes inside unused
  | drops p np here same =>
    subst same
    have mine : (s.pcs p).making = some np := by rw [here]; rfl
    have dead : (s.proc np).phase.alive = false := by rw [rooted.making mine]; rfl
    exact rooted.change (rooted.fits_free dead fun q other => rooted.alone mine other) rfl rfl
  | adopts p np here running same => exact same ▸ rooted.adopts here running
  | publishes p np here same => exact same ▸ rooted.publishes here
  | reparents p k status here inside child same => exact same ▸ rooted.reparents here inside
  | buries p status here running same => exact same ▸ rooted.buries here running
  | reaps p k child zombie running quiet same =>
    subst same
    have dead : (s.proc k).phase.alive = false := by rw [zombie]; rfl
    refine rooted.change (rooted.fits_free dead fun q _ made => ?_) rfl rfl
    have used := rooted.making made
    rw [zombie] at used
    exact absurd used (by decide)

theorem Boot.rooted (boot : t.Boot) : t.Rooted := by
  have alive : (t.proc initproc).phase.alive = true := by rw [boot.init.1]; rfl
  have orphan : ∀ x, (t.proc x).parent = none := by
    intro x
    rcases eq_or_ne x initproc with rfl | other
    · exact boot.init.2.2
    · rw [boot.rest x other]
      rfl
  have out : ∀ {p np}, (t.pcs p).making ≠ some np := by
    intro p np
    rw [boot.out p]
    simp [Pc.making]
  constructor
  · intro x q up
    rw [orphan x] at up
    exact absurd up (by simp)
  · intro x other live
    rw [boot.rest x other] at live
    exact absurd live (by simp [Slot.free, Phase.alive])
  · exact fun made => absurd made out
  · exact fun made => absurd made out
  · exact fun adopted => absurd (Pc.making_of_adopted adopted) out
  · intro p x _
    rw [orphan x]
    simp
  · exact alive
  · intro p leaves
    rw [boot.out p] at leaves
    exact absurd leaves Bool.false_ne_true
  · intro x outside
    have other : x ≠ initproc := by
      rintro rfl
      exact absurd outside (by decide)
    rw [boot.rest x other]
    exact ⟨rfl, rfl⟩

end Keeping

end Table

end Tree

end Xv6
