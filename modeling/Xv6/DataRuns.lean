import Xv6.ExecStart
import Xv6.UserRuns

/-! Stores to the data segment survive, as long as no modified data page is dropped. -/

namespace Xv6

open Prog

def Machine.image (m : Machine) (va : Nat) : UInt8 :=
  ((m.fresh (pgrounddown va)).getD fun _ => 0) (va % pgsize)

structure Machine.DataFresh (m : Machine) : Prop where
  steady : m.Steady
  aligned : m.proc.paging.segs.data.start % pgsize = 0
  vacant : ∀ va, m.proc.paging.segs.data.Has va → UserAddress va →
    m.proc.pagetable.lookup va = none
  /-- No entry of the table claims that a data page is in swap. -/
  unswapped : ∀ va, m.proc.paging.segs.data.Has va → ¬ m.Swapped va

def Machine.SparesData (m : Machine) (e : UserEvent) : Prop :=
  ∀ va, m.proc.paging.segs.data.Has va → m.RereadsAt va e → ∀ pte bytes,
    m.proc.pagetable.lookup va = some pte → m.fresh (pgrounddown va) = some bytes →
    m.kmem.ram pte.pa (va % pgsize) = bytes (va % pgsize)

theorem Machine.RereadsAt.not_swapped {m : Machine} {va : Nat} {e : UserEvent}
    (rereads : m.RereadsAt va e) : ¬ m.Swapped va := by
  intro swapped
  rcases e with _ | _ | (⟨env, op⟩ | n)
  · exact rereads
  · exact rereads
  · have resident := rereads.resident
    rw [(Machine.swapped_iff.mp swapped).2] at resident
    simp at resident
  · exact rereads

theorem Machine.keeps_image {m : Machine} {va : Nat} (absent : m.proc.pagetable.lookup va = none)
    (here : ¬ m.Swapped va) : m.Keeps va (m.image va) := by
  refine ⟨fun pte entry => by simp [absent] at entry, fun _ slot claims => ?_,
    fun _ _ bytes loaded => by simp [Machine.image, loaded]⟩
  obtain ⟨tracked, claims⟩ := claims
  exact absurd (Machine.swapped_iff.mpr ⟨tracked, (PagingInfo.claim_eq_some.mp claims).1⟩) here

/-- Loads from the data segment return what was stored last, or the byte of the program. -/
theorem data_survives_eviction {m₀ m : Machine} {es before after : List UserEvent} {va : Nat}
    {value : UInt8} (start : m₀.DataFresh)
    (run : Trace.Run (Trace.Guarded Machine.SparesData Machine.UserStep) m₀ es m)
    (events : es = before ++ .load va value :: after) (inData : m₀.proc.paging.segs.data.Has va) :
    value = (Flat.lastStore before va).getD (m₀.image va) := by
  -- The process mirrors a flat memory on its data segment, whose range never changes.
  have simulated : ∃ mem, Trace.Run (Flat.Step m₀.proc.paging.segs.data.Has) m₀.image es mem ∧
      m.Mirrors m₀.proc.paging.segs.data.Has mem ∧ m.proc.paging.segs = m₀.proc.paging.segs := by
    apply run.simulation fun m mem => m.Mirrors m₀.proc.paging.segs.data.Has mem ∧
      m.proc.paging.segs = m₀.proc.paging.segs
    · rintro m mem e m' ⟨mirrors, segs⟩ ⟨spares, step⟩
      have same : m'.proc.paging.segs = m.proc.paging.segs :=
        congrArg PagingContext.segs (step.context mirrors.steady.sound)
      obtain ⟨mem', flat, mirrors'⟩ := mirrors.step step fun va here user rereads bytes loaded => by
        have keeps := mirrors.keeps va here user
        -- A page that is reread is unmapped already, or unmodified by assumption.
        cases entry : m.proc.pagetable.lookup va with
        | none => exact keeps.fresh entry rereads.not_swapped bytes loaded
        | some pte =>
          rw [← spares va (segs ▸ here) rereads pte bytes entry loaded]
          exact keeps.mapped pte entry
      exact ⟨mem', flat, mirrors', same.trans segs⟩
    · exact ⟨⟨start.steady, fun va here user =>
        Machine.keeps_image (start.vacant va here user) (start.unswapped va here)⟩, rfl⟩
  obtain ⟨mem, flat, -⟩ := simulated
  subst events
  exact Flat.load_of_run flat inData

theorem Machine.Commits.dataFresh {m m' : Machine} {env : FsEnv} {path : List UInt8}
    {argv : List (List UInt8)} {ip f guard stack : Nat} {load : SegmentLoad} {page : Nat → UInt8}
    (commits : m.Commits env path argv m' ip load f guard stack page) (sound : m.Sound)
    (held : m.proc.paging.SlotsHeld) (apart : m.fs.Apart (swapName m.proc.pid) none ip)
    (low : load.segs.data.stop ≤ load.top)
    (unswapped : ∀ i, (m.proc.paging.pages i).state ≠ .swapped) : m'.DataFresh := by
  obtain ⟨segs, -, pages⟩ := commits.ranges
  have aligned := commits.aligned
  refine ⟨commits.steady sound held apart, ?_, fun va here user => ?_, fun va _ swapped => ?_⟩
  · rw [segs]
    obtain ⟨hdr, -, rfl⟩ := commits.loaded
    exact (loadSegments_aligned m.fs ip hdr.phnum (u32 hdr.phoff) 0 Segments.zero rfl rfl).2
  · rw [segs] at here
    have inside := here.2
    -- The data ends below the guard page.
    have below : va / pgsize < load.top / pgsize := by
      simp only [pgsize] at *
      omega
    exact commits.vacant user (by omega) (by omega)
  · obtain ⟨-, swapped⟩ := Machine.swapped_iff.mp swapped
    rw [pages] at swapped
    exact unswapped _ swapped

def dataRunning : Machine :=
  after (kexec someFiles initPath [initPath]) (initMachine 12 (elfFile 6 16))

theorem dataRunning_ran : kexec someFiles initPath [initPath] (initMachine 12 (elfFile 6 16)) =
    .ok (1, dataRunning) := eq_ok_of_valueOf (by decide +kernel)

theorem dataRunning_fresh : dataRunning.DataFresh := by
  -- The path names the second inode, whose segments end where the stack begins.
  obtain ⟨load, f, guard, stack, page, commits⟩ :=
    commits_init (by decide) dataRunning_ran
  obtain ⟨hdr, header, rfl⟩ := commits.loaded
  have low : ∀ hdr ∈ execHeader (initFs (elfFile 6 16)) 2,
      (execLoad (initFs (elfFile 6 16)) 2 hdr).segs.data.stop ≤
        (execLoad (initFs (elfFile 6 16)) 2 hdr).top := by decide
  exact commits.dataFresh (initMachine_sound _)
    (PagingInfo.slotsHeld_of_unswapped (initMachine_unswapped _ _))
    (initFs_apart (by simp [elfFile]) _) (low hdr header) (initMachine_unswapped _ _)

def storeLoad : List UserEvent :=
  [.other (.page someFiles (.fault 8 13)), .load 8 0, .other (.page someFiles .evict),
    .other (.page someFiles (.fault 8 15)), .store 8 42, .load 8 42]

def Machine.unmodified (m : Machine) : UserEvent → Bool
  | .other (.page _ _) => decide (∀ va < m.proc.paging.segs.data.stop,
      m.proc.paging.segs.data.Has va → ∀ pte ∈ m.proc.pagetable.lookup va,
        ∀ bytes ∈ m.fresh (pgrounddown va),
          m.kmem.ram pte.pa (va % pgsize) = bytes (va % pgsize))
  | _ => true

theorem Machine.sparesData_of_unmodified (m : Machine) (e : UserEvent)
    (unmodified : m.unmodified e = true) : m.SparesData e := by
  intro va here rereads pte bytes entry loaded
  rcases e with _ | _ | (⟨env, op⟩ | n)
  · exact rereads.elim
  · exact rereads.elim
  · exact of_decide_eq_true unmodified va here.2 here pte entry bytes loaded
  · exact rereads.elim

/-- The store is read back by the load that follows it. -/
theorem data_survives_storeLoad : dataRunning.DataFresh ∧
    ∃ m, Trace.Run (Trace.Guarded Machine.SparesData Machine.UserStep) dataRunning storeLoad m ∧
    (42 : UInt8) = (Flat.lastStore (storeLoad.take 5) 8).getD (dataRunning.image 8) := by
  have ran : (Trace.steps (Machine.amongStep (.one 0 (by decide)) Machine.unmodified) dataRunning
      storeLoad).isSome := by decide +kernel
  obtain ⟨m, computed⟩ := Option.isSome_iff_exists.mp ran
  have run := Machine.run_of_among Machine.sparesData_of_unmodified dataRunning_fresh.steady
    (among_init (by decide) dataRunning_ran _) computed
  exact ⟨dataRunning_fresh, m, run,
    data_survives_eviction dataRunning_fresh run rfl (by decide +kernel)⟩

def storeEvictLoad : List UserEvent :=
  [.other (.page someFiles (.fault 8 15)), .store 8 42, .other (.page someFiles .evict),
    .other (.page someFiles (.fault 8 13)), .load 8 0]

/-- A store to the data segment is lost when its page is evicted. -/
theorem eviction_loses_store : dataRunning.DataFresh ∧
    dataRunning.proc.paging.segs.data.Has 8 ∧
    (∃ m, Trace.Run Machine.UserStep dataRunning storeEvictLoad m) ∧
    Flat.lastStore (storeEvictLoad.take 4) 8 = some 42 := by
  refine ⟨dataRunning_fresh, by decide +kernel, ?_, by decide⟩
  have ran : (Trace.steps (Machine.amongStep (.one 0 (by decide)) fun _ _ => true) dataRunning
      storeEvictLoad).isSome := by decide +kernel
  obtain ⟨m, computed⟩ := Option.isSome_iff_exists.mp ran
  have run := Machine.run_of_among (fun _ _ _ => trivial) dataRunning_fresh.steady
    (among_init (by decide) dataRunning_ran _) computed
  exact ⟨m, run.unguarded⟩

end Xv6
