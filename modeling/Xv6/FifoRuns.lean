import Xv6.Lib.Arrivals
import Xv6.ForkTable

/-! Pages leave memory in the order in which they became resident, over whole runs. -/

namespace Xv6

open Prog Arrivals
open Function (update update_self update_of_ne)

def Sys.log (s : Sys) (h : Nat → List Nat) : SysEvent → Nat → List Nat
  | .userinit slot => update h slot []
  | .page slot env op =>
    match s.enter slot with
    | none => h
    | some m =>
      match op.run env m with
      | .ok (r, _) => update h slot ((op.arrival m r).toList ++ h slot)
      | .error _ => h
  | .fork slot child =>
    match s.enter slot with
    | none => h
    -- The resident pages of the parent arrive in the order of the table.
    | some m => update h child (m.proc.paging.residents 16384)
  | _ => h

def Sys.history (s : Sys) (h : Nat → List Nat) : List SysEvent → Nat → List Nat
  | [] => h
  | e :: es =>
    match s.step e with
    | none => h
    | some t => t.history (s.log h e) es

structure PagingInfo.Follows (pg : PagingInfo) (h : List Nat) : Prop where
  next : pg.nextFifoSeq = h.length + 1
  arrived : ∀ j, (pg.pages j).state = .resident → j ∈ h
  numbered : ∀ j, (pg.pages j).state = .resident → (pg.pages j).fifoSeq = rank h j

section Tables

variable {pg pg' : PagingInfo} {new : Option Nat} {h : List Nat}

theorem PagingInfo.Follows.ages (follows : pg.Follows h) (ages : pg.Ages pg' new) :
    pg'.Follows (new.toList ++ h) := by
  have next := ages.next
  rw [follows.next] at next
  cases new with
  | none =>
    refine ⟨next, fun j resident => ?_, fun j resident => ?_⟩
    · exact follows.arrived j (ages.kept j resident (by simp)).1
    · obtain ⟨before, same⟩ := ages.kept j resident (by simp)
      rw [same]
      exact follows.numbered j before
  | some i =>
    refine ⟨by simpa using next, fun j resident => ?_, fun j resident => ?_⟩
    · by_cases newest : i = j
      · simp [newest]
      · have before := (ages.kept j resident (by simpa using newest)).1
        exact List.mem_append_right _ (follows.arrived j before)
    · -- The newest page has the highest number; the others keep theirs.
      by_cases newest : i = j
      · subst newest
        rw [ages.numbered i rfl, follows.next]
        exact rank_cons_self.symm
      · obtain ⟨before, same⟩ := ages.kept j resident (by simpa using newest)
        rw [same, follows.numbered j before]
        exact (rank_cons_of_ne newest).symm

theorem initPagingInfo_follows : initPagingInfo.Follows [] :=
  ⟨rfl, by simp [initPagingInfo], by simp [initPagingInfo]⟩

theorem PagingInfo.rank_residents {n j : Nat} (resident : (pg.pages j).state = .resident)
    (below : j < n) : rank (pg.residents n) j = (pg.residents j).length + 1 := by
  induction n with
  | zero => omega
  | succ n ih =>
    rw [PagingInfo.residents]
    rcases eq_or_ne n j with rfl | other
    · rw [if_pos resident, rank_cons_self]
    · have earlier := ih (by omega)
      split
      · rw [rank_cons_of_ne other, earlier]
      · exact earlier

theorem forkPaging_follows (parent : PagingInfo) :
    (forkPaging parent initPagingInfo).Follows (parent.residents 16384) := by
  refine ⟨?_, fun j resident => ?_, fun j resident => ?_⟩
  · unfold forkPaging
    rw [copyPages_next]
    exact Nat.add_comm _ _
  · exact PagingInfo.mem_residents.mpr ((forkPaging_resident_iff parent j).mp resident)
  · obtain ⟨below, resident⟩ := (forkPaging_resident_iff parent j).mp resident
    rw [PagingInfo.rank_residents resident below]
    unfold forkPaging
    rw [copyPages_page, if_pos below, if_pos resident]
    exact Nat.add_comm _ _

end Tables

def Sys.Follows (s : Sys) (h : Nat → List Nat) : Prop :=
  ∀ i p, s.procs i = some p → p.paging.Follows (h i)

section Runs

variable {s t : Sys} {e : SysEvent} {es : List SysEvent} {i : Nat} {h : Nat → List Nat}

theorem Sys.log_stays {p : Proc} (stepped : s.step e = some t) (here : s.procs i = some p)
    (quiet : e.runner ≠ some i) : s.log h e i = h i := by
  cases e with
  | userinit slot =>
    -- A new process goes into an unused slot.
    have other : i ≠ slot := by
      rintro rfl
      simp only [Sys.step] at stepped
      split at stepped
      · rename_i unused
        simp [unused.2] at here
      · simp at stepped
    exact update_of_ne other _ _
  | fork slot child =>
    have other : i ≠ child := by
      rintro rfl
      simp only [Sys.step] at stepped
      split at stepped
      · rename_i unused
        simp [unused.2] at here
      · simp at stepped
    simp only [Sys.log]
    cases s.enter slot with
    | none => rfl
    | some m => exact update_of_ne other _ _
  | page slot env op =>
    have other : i ≠ slot := fun same => quiet (by rw [same]; rfl)
    simp only [Sys.log]
    cases s.enter slot with
    | none => rfl
    | some m =>
      dsimp only
      cases op.run env m with
      | ok result => exact update_of_ne other _ _
      | error panic => rfl
  | _ => rfl

theorem Sys.log_turn {m m' : Machine} (mine : e.runner = some i) (entered : s.enter i = some m)
    (turns : m.Turns e m') (ran : ∀ env op, e = .page i env op → ∃ r, op.run env m = .ok (r, m')) :
    ∃ new : Option Nat, s.log h e i = new.toList ++ h i ∧
      m.proc.paging.Ages m'.proc.paging new := by
  cases e with
  | page slot env op =>
    obtain rfl : slot = i := Option.some.inj mine
    obtain ⟨r, ran⟩ := ran env op rfl
    refine ⟨op.arrival m r, ?_, (PagingOp.run_does ran).ages⟩
    simp only [Sys.log, entered, ran, update_self]
  | userinit slot => simp [SysEvent.runner] at mine
  | fork slot child => simp [SysEvent.runner] at mine
  | _ => exact ⟨none, rfl, turns.ages (by simp)⟩

theorem Sys.Follows.step (follows : s.Follows h) (accounts : s.Accounts 0)
    (stepped : s.step e = some t) : t.Follows (s.log h e) := by
  intro i p here
  have evolved := Sys.evolves accounts stepped here
  generalize p.paging = pg at evolved ⊢
  cases evolved with
  | stays q found quiet =>
    rw [Sys.log_stays stepped found quiet]
    exact follows i q found
  | born event vacant =>
    subst event
    simpa [Sys.log] using initPagingInfo_follows
  | forked slot m event vacant entered =>
    subst event
    simpa [Sys.log, entered] using forkPaging_follows m.proc.paging
  | turned m m' mine entered turns ran =>
    obtain ⟨-, found, -⟩ := accounts.sound entered
    obtain ⟨new, logged, ages⟩ := Sys.log_turn (h := h) mine entered turns ran
    rw [logged]
    exact (follows i _ found).ages ages

theorem Sys.Follows.run (run : Trace.Run Sys.Steps s es t) (accounts : s.Accounts 0)
    (follows : s.Follows h) : t.Accounts 0 ∧ t.Follows (s.history h es) := by
  induction run generalizing h with
  | nil => exact ⟨accounts, follows⟩
  | @cons s u t e es first rest ih =>
    have stepped : s.step e = some u := first
    simp only [Sys.history, stepped]
    exact ih (accounts.step stepped) (follows.step accounts stepped)

theorem Sys.history_append {es' : List SysEvent} (run : Trace.Run Sys.Steps s es t) :
    s.history h (es ++ es') = t.history (s.history h es) es' := by
  induction run generalizing h with
  | nil => rfl
  | @cons s u t e es first rest ih =>
    have stepped : s.step e = some u := first
    simp only [List.cons_append, Sys.history, stepped]
    exact ih

theorem Sys.step_present {p : Proc} (accounts : s.Accounts 0) (stepped : s.step e = some t)
    (here : s.procs i = some p) (alive : e ≠ .reap i) : ∃ p', t.procs i = some p' := by
  -- Whatever is put into a slot, the slot of this process stays filled.
  have filled : ∀ {j q}, t.procs = update s.procs j (some q) → ∃ p', t.procs i = some p' := by
    intro j q procs
    rcases eq_or_ne i j with rfl | other
    · exact ⟨q, by simp [procs]⟩
    · exact ⟨p, by simpa [procs, other] using here⟩
  cases Sys.moves accounts stepped with
  | turned j m m' _ _ _ _ left => exact filled (by rw [left]; rfl)
  | born j q _ _ _ _ procs => exact filled procs
  | forked slot j m q _ _ _ _ _ procs => exact filled procs
  | reaped j event _ procs =>
    have other : i ≠ j := fun same => alive (by rw [event, same])
    exact ⟨p, by simpa [procs, other] using here⟩
  | still _ _ procs => exact ⟨p, procs ▸ here⟩

theorem Sys.Follows.resident_before {p q : Proc} (run : Trace.Run Sys.Steps s es t)
    (accounts : s.Accounts 0) (follows : s.Follows h) (alive : ∀ e ∈ es, e ≠ .reap i)
    (start : s.procs i = some p) (here : t.procs i = some q) :
    ∃ new, s.history h es i = new ++ h i ∧ ∀ j, (q.paging.pages j).state = .resident → j ∉ new →
      (p.paging.pages j).state = .resident := by
  induction run generalizing h p with
  | nil =>
    obtain rfl := Option.some.inj (start.symm.trans here)
    exact ⟨[], rfl, fun j resident _ => resident⟩
  | @cons s u t e es first rest ih =>
    have stepped : s.step e = some u := first
    obtain ⟨p', middle⟩ := Sys.step_present accounts stepped start (alive e List.mem_cons_self)
    obtain ⟨new, grown, before⟩ := ih (accounts.step stepped) (follows.step accounts stepped)
      (fun e later => alive e (List.mem_cons_of_mem _ later)) middle here
    simp only [Sys.history, stepped]
    rw [grown]
    -- One event adds at most one arrival, and what else is resident was so before.
    have evolved := Sys.evolves accounts stepped middle
    generalize p'.paging = pg at evolved before
    cases evolved with
    | stays p' found quiet =>
      obtain rfl := Option.some.inj (start.symm.trans found)
      rw [Sys.log_stays stepped found quiet]
      exact ⟨new, rfl, before⟩
    | born event vacant => simp [vacant] at start
    | forked slot m event vacant entered => simp [vacant] at start
    | turned m m' mine entered turns ran =>
      obtain ⟨-, found, -⟩ := accounts.sound entered
      obtain rfl := Option.some.inj (start.symm.trans found)
      obtain ⟨one, logged, ages⟩ := Sys.log_turn (h := h) mine entered turns ran
      rw [logged]
      refine ⟨new ++ one.toList, by simp, fun j resident old => ?_⟩
      rw [List.mem_append, not_or] at old
      exact (ages.kept j (before j resident old.1) (by simpa using old.2)).1

end Runs

section Order

variable {pg : PagingInfo} {h : List Nat}

theorem fifoScan_least {pages : Nat → PageInfo} {n : Nat}
    (small : ∀ j, j < n → (pages j).state = .resident → (pages j).fifoSeq < 0x7FFFFFFF) :
    (∀ j, j < n → (pages j).state = .resident → (fifoScan pages n).2 ≤ (pages j).fifoSeq) ∧
      ((∀ j, j < n → (pages j).state ≠ .resident) ∧ (fifoScan pages n).2 = 0x7FFFFFFF ∨
        ∃ v, (fifoScan pages n).1 = some v ∧ (fifoScan pages n).2 = (pages v).fifoSeq) := by
  induction n with
  | zero => exact ⟨fun j below => by omega, Or.inl ⟨fun j below => by omega, rfl⟩⟩
  | succ n ih =>
    obtain ⟨least, found⟩ := ih fun j below => small j (by omega)
    rw [fifoScan]
    split
    · -- The last entry is better than all before it.
      rename_i better
      refine ⟨fun j below resident => ?_, Or.inr ⟨n, rfl, rfl⟩⟩
      rcases eq_or_ne j n with rfl | other
      · exact le_refl _
      · exact (better.2.trans_le (least j (by omega) resident)).le
    · rename_i worse
      refine ⟨fun j below resident => ?_, ?_⟩
      · rcases eq_or_ne j n with rfl | other
        · by_contra less
          exact worse ⟨resident, by omega⟩
        · exact least j (by omega) resident
      · rcases found with ⟨empty, top⟩ | some
        · refine Or.inl ⟨fun j below resident => ?_, top⟩
          rcases eq_or_ne j n with rfl | other
          · exact worse ⟨resident, top ▸ small j (by omega) resident⟩
          · exact empty j (by omega) resident
        · exact Or.inr some

structure PagingInfo.Ordered (pg : PagingInfo) (h : List Nat) : Prop where
  numbered : ∀ j, j < maxTrackedPages → (pg.pages j).state = .resident →
    1 ≤ (pg.pages j).fifoSeq ∧ (pg.pages j).fifoSeq < pg.nextFifoSeq
  distinct : ∀ j k, j < maxTrackedPages → k < maxTrackedPages →
    (pg.pages j).state = .resident → (pg.pages k).state = .resident →
    (pg.pages j).fifoSeq = (pg.pages k).fifoSeq → j = k
  victim : ∀ v, (fifoScan pg.pages maxTrackedPages).1 = some v ↔
    v < maxTrackedPages ∧ (pg.pages v).state = .resident ∧
      ∀ j, j < maxTrackedPages → (pg.pages j).state = .resident → j ≠ v → rank h v < rank h j

theorem PagingInfo.Follows.ordered (follows : pg.Follows h) (few : h.length < 2 ^ 31 - 2) :
    pg.Ordered h := by
  have small : ∀ j, j < maxTrackedPages → (pg.pages j).state = .resident →
      (pg.pages j).fifoSeq < 0x7FFFFFFF := by
    intro j _ resident
    have bound := rank_le (h := h) (a := j)
    rw [follows.numbered j resident]
    omega
  have distinct : ∀ j k, (pg.pages j).state = .resident → (pg.pages k).state = .resident →
      (pg.pages j).fifoSeq = (pg.pages k).fifoSeq → j = k := by
    intro j k here there same
    rw [follows.numbered j here, follows.numbered k there] at same
    exact rank_inj (follows.arrived j here) same
  obtain ⟨least, found⟩ := fifoScan_least small
  refine ⟨fun j _ resident => ?_, fun j k _ _ => distinct j k, fun v => ⟨fun chosen => ?_, ?_⟩⟩
  · have positive := rank_pos_iff.mpr (follows.arrived j resident)
    have bound := rank_le (h := h) (a := j)
    rw [follows.numbered j resident, follows.next]
    omega
  · obtain ⟨tracked, resident⟩ := fifoScan_spec chosen
    refine ⟨tracked, resident, fun j below other differs => ?_⟩
    rcases found with ⟨empty, -⟩ | ⟨w, chosen', number⟩
    · exact absurd resident (empty v tracked)
    · obtain rfl : v = w := Option.some.inj (chosen.symm.trans chosen')
      have order := least j below other
      rw [number, follows.numbered v resident, follows.numbered j other] at order
      refine lt_of_le_of_ne order fun same => differs ?_
      exact (rank_inj (follows.arrived v resident) same).symm
  · rintro ⟨tracked, resident, first⟩
    rcases found with ⟨empty, -⟩ | ⟨w, chosen, number⟩
    · exact absurd resident (empty v tracked)
    · -- The page the scan chose cannot come after the first one.
      obtain ⟨tracked', resident'⟩ := fifoScan_spec chosen
      by_cases same : w = v
      · rw [chosen, same]
      · have order := least v tracked resident
        rw [number, follows.numbered w resident', follows.numbered v resident] at order
        exact absurd order (Nat.not_le.mpr (first w tracked' resident' same))

end Order

/-- Replacement is first in, first out over whole runs. -/
theorem fifo_over_runs {s₀ s₁ s₂ : Sys} {es₁ es₂ : List SysEvent} {i : Nat} {p₁ p₂ : Proc}
    (boot : s₀.Boot) (first : Trace.Run Sys.Steps s₀ es₁ s₁)
    (second : Trace.Run Sys.Steps s₁ es₂ s₂) (alive : ∀ e ∈ es₂, e ≠ .reap i)
    (here₁ : s₁.procs i = some p₁) (here₂ : s₂.procs i = some p₂)
    (few : (s₀.history (fun _ => []) (es₁ ++ es₂) i).length < 2 ^ 31 - 2) :
    p₂.paging.Ordered (s₀.history (fun _ => []) (es₁ ++ es₂) i) ∧
      ∃ new, s₀.history (fun _ => []) (es₁ ++ es₂) i =
        new ++ s₀.history (fun _ => []) es₁ i ∧
      ∀ v₁ v₂, (fifoScan p₁.paging.pages maxTrackedPages).1 = some v₁ →
        (fifoScan p₂.paging.pages maxTrackedPages).1 = some v₂ →
        v₁ = v₂ ∧ v₁ ∉ new ∨ rank (s₀.history (fun _ => []) es₁ i) v₁ <
          rank (s₀.history (fun _ => []) (es₁ ++ es₂) i) v₂ := by
  have vacant : s₀.Follows fun _ => [] := fun i p here => by simp [boot.procs] at here
  obtain ⟨accounts₁, follows₁⟩ := vacant.run first boot.accounts
  obtain ⟨-, follows₂⟩ := follows₁.run second accounts₁
  obtain ⟨new, grown, before⟩ := follows₁.resident_before second accounts₁ alive here₁ here₂
  rw [← Sys.history_append first] at follows₂ grown
  have ordered₂ := (follows₂ i p₂ here₂).ordered few
  -- The first process table was ordered too, by fewer arrivals.
  rw [grown, List.length_append] at few
  have ordered₁ := (follows₁ i p₁ here₁).ordered (by omega)
  refine ⟨ordered₂, new, grown, fun v₁ v₂ chosen₁ chosen₂ => ?_⟩
  obtain ⟨-, resident₁, least⟩ := (ordered₁.victim v₁).mp chosen₁
  obtain ⟨tracked₂, resident₂, -⟩ := (ordered₂.victim v₂).mp chosen₂
  rw [grown]
  by_cases later : v₂ ∈ new
  · -- The second victim arrived after all that the first could be compared with.
    exact Or.inr (rank_le.trans_lt (lt_rank_append_of_mem later))
  · rw [rank_append_of_notMem later]
    by_cases same : v₁ = v₂
    · exact Or.inl ⟨same, same ▸ later⟩
    · exact Or.inr (least v₂ tracked₂ (before v₂ resident₂ later) (Ne.symm same))

def fetchAfterHeap : List SysEvent := [.page 0 someRoom (.fault 0 12)]

/-- A page of the heap and a page of text become resident one after the other. -/
theorem fifo_over_runs_fetch : initSys.Boot ∧ ∃ s₁ s₂ p₁ p₂,
    Trace.Run Sys.Steps initSys readHeap s₁ ∧ Trace.Run Sys.Steps s₁ fetchAfterHeap s₂ ∧
    s₁.procs 0 = some p₁ ∧ s₂.procs 0 = some p₂ ∧
    (p₂.paging.pages 0).state = .resident ∧ (p₂.paging.pages 3).state = .resident ∧
    p₂.paging.Ordered [0, 3] := by
  have ran : (Trace.steps Sys.step initSys readHeap).any fun s₁ => (s₁.procs 0).isSome &&
      (Trace.steps Sys.step s₁ fetchAfterHeap).any fun s₂ => (s₂.procs 0).any fun p =>
        (p.paging.pages 0).state = .resident && (p.paging.pages 3).state = .resident := by
    decide +kernel
  obtain ⟨s₁, computed₁, facts⟩ := (Option.any_eq_true _ _).mp ran
  rw [Bool.and_eq_true] at facts
  obtain ⟨p₁, here₁⟩ := Option.isSome_iff_exists.mp facts.1
  obtain ⟨s₂, computed₂, facts⟩ := (Option.any_eq_true _ _).mp facts.2
  obtain ⟨p₂, here₂, facts⟩ := (Option.any_eq_true _ _).mp facts
  simp only [Bool.and_eq_true, decide_eq_true_eq] at facts
  have first := Trace.Run.of_steps (fun _ _ _ stepped => stepped) computed₁
  have second := Trace.Run.of_steps (fun _ _ _ stepped => stepped) computed₂
  have arrivals : initSys.history (fun _ => []) (readHeap ++ fetchAfterHeap) 0 = [0, 3] := by
    decide +kernel
  have order := fifo_over_runs initSys_boot first second (by simp [fetchAfterHeap]) here₁ here₂
    (by rw [arrivals]; decide)
  rw [arrivals] at order
  exact ⟨initSys_boot, s₁, s₂, p₁, p₂, first, second, here₁, here₂, facts.1, facts.2, order.1⟩

end Xv6
