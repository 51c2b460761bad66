import Mathlib.Data.List.GetD
import Xv6.Disk.Log
import Xv6.Lib.Run

/-! Crashes during a commit and during recoveries leave all of a transaction or none of it. -/

namespace Xv6

open Function (update update_self update_of_ne)

theorem getHead_putHead {block : List Nat} (old : Block) (few : block.length ≤ logblocks)
    (small : ∀ b ∈ block, b < 2 ^ 32) : getHead (putHead block old) = block := by
  have bound : block.length < 2 ^ 31 := Nat.lt_of_le_of_lt few (by decide)
  have count : readLe (putHead block old) 0 4 = block.length := by
    rw [readLe_stored _ 4 0 block.length]
    · exact Nat.mod_eq_of_lt (by omega)
    · intro j inside
      rw [Nat.zero_add, putHead, if_pos inside]
  have entry : ∀ i (inside : i < block.length),
      readLe (putHead block old) (4 + 4 * i) 4 = block[i] := by
    intro i inside
    rw [readLe_stored _ 4 (4 + 4 * i) block[i]]
    · exact Nat.mod_eq_of_lt (small _ (List.getElem_mem inside))
    · -- Byte `j` of entry `i` lies in the part of the block that holds the numbers.
      intro j four
      rw [putHead, if_neg (by omega), if_pos (by omega),
        show (4 + 4 * i + j - 4) / 4 = i by omega, show (4 + 4 * i + j - 4) % 4 = j by omega]
      simp [inside]
  have whole : (intOfU64 block.length).toNat = block.length := by
    have same : u32 block.length = block.length := Nat.mod_eq_of_lt (by omega)
    rw [intOfU64, same, if_pos bound]
    exact Int.toNat_natCast _
  rw [getHead, count, whole]
  apply List.ext_getElem (by simp)
  intro i _ inside
  simp [entry i inside]

theorem writeHead_start (start : Nat) (block : List Nat) (d : Disk) :
    (writeHead start block).apply d start = putHead block (d start) :=
  update_self ..

variable {b count start : Nat} {t : Transaction} {d want : Disk}

theorem writeHead_other (other : b ≠ start) (block : List Nat) (d : Disk) :
    (writeHead start block).apply d b = d b :=
  update_of_ne other ..

def written (d : Disk) (tx : List (Nat × Block)) : Disk :=
  tx.foldl (fun d w => update d w.1 w.2) d

structure Transaction.Records (t : Transaction) (start : Nat) (d : Disk) : Prop where
  nodup : t.log.block.Nodup
  few : t.log.block.length ≤ logblocks
  home : ∀ b ∈ t.log.block, Home start b ∧ b < 2 ^ 32
  same : ∀ b, b ∉ t.log.block → t.cache b = d b

theorem Transaction.Records.logWrite {t' : Transaction} {data : Block} (records : t.Records start d)
    (home : Home start b ∧ b < 2 ^ 32) (done : t.logWrite b data = .ok t') :
    t'.Records start d ∧ t'.cache = update t.cache b data := by
  cases one : t.log.logWrite b with
  | error e => simp [Transaction.logWrite, one] at done
  | ok log =>
    simp only [Transaction.logWrite, one, Except.ok.injEq] at done
    subst done
    refine ⟨?_, rfl⟩
    -- An absorbed block is listed already; a new one was not among the untouched ones.
    have nodup := Log.logWrite_nodup records.nodup one
    obtain ⟨room, -, ⟨absorbed, rfl⟩ | ⟨fresh, rfl⟩⟩ := Log.logWrite_ok one
    · refine ⟨nodup, records.few, records.home, ?_⟩
      intro c missing
      have other : c ≠ b := fun same => missing (same ▸ absorbed)
      simp only [update_of_ne other]
      exact records.same c missing
    · refine ⟨nodup, ?_, ?_, ?_⟩
      · simp only [List.length_append, List.length_singleton]
        omega
      · intro c inside
        rcases List.mem_append.mp inside with old | new
        · exact records.home c old
        · rw [List.mem_singleton.mp new]
          exact home
      · intro c missing
        simp only [List.mem_append, List.mem_singleton, not_or] at missing
        simp only [update_of_ne missing.2]
        exact records.same c missing.1

theorem Transaction.Records.logWrites :
    ∀ (tx : List (Nat × Block)) {t t' : Transaction}, t.Records start d →
      (∀ w ∈ tx, Home start w.1 ∧ w.1 < 2 ^ 32) → t.logWrites tx = .ok t' →
      t'.Records start d ∧ t'.cache = written t.cache tx := by
  intro tx
  induction tx with
  | nil =>
    intro t t' records _ done
    cases done
    exact ⟨records, rfl⟩
  | cons w rest ih =>
    intro t t' records home done
    obtain ⟨b, data⟩ := w
    cases one : t.logWrite b data with
    | error e => simp [Transaction.logWrites, one] at done
    | ok next =>
      rw [Transaction.logWrites, one] at done
      obtain ⟨kept, cached⟩ := records.logWrite (home _ (List.mem_cons_self ..)) one
      obtain ⟨all, holds⟩ := ih kept (fun w inside => home w (List.mem_cons_of_mem _ inside)) done
      exact ⟨all, by rw [holds, cached]; rfl⟩

structure Settled (start : Nat) (want d : Disk) : Prop where
  empty : getHead (d start) = []
  home : ∀ b, Home start b → d b = want b

structure Committed (start : Nat) (before : Disk) (t : Transaction) (count : Nat) (d : Disk) :
    Prop where
  head : getHead (d start) = t.log.block
  logged : ∀ tail < t.log.block.length, d (start + tail + 1) = t.cache (t.log.block.getD tail 0)
  untouched : ∀ b, Home start b → b ∉ t.log.block → d b = before b
  either : ∀ b ∈ t.log.block, d b = before b ∨ d b = t.cache b
  installed : ∀ tail < count, d (t.log.block.getD tail 0) = t.cache (t.log.block.getD tail 0)

def Safe (start : Nat) (before : Disk) (t : Transaction) (d : Disk) : Prop :=
  Settled start before d ∨ (∃ count, Committed start before t count d) ∨ Settled start t.cache d

section

variable {start : Nat} {before : Disk} {t : Transaction} (records : t.Records start before)
include records

theorem Transaction.Records.apart {tail : Nat} (inside : tail < t.log.block.length)
    (low : start ≤ b) (high : b ≤ start + logblocks) : b ≠ t.log.block.getD tail 0 := by
  have home := (records.home _ (List.getElem_mem inside)).1
  rw [List.getD_eq_getElem _ _ inside]
  unfold Home at home
  omega

theorem Committed.install (inside : count < t.log.block.length)
    (committed : Committed start before t count d) : Committed start before t (count + 1)
      (DiskWrite.apply ⟨t.log.block.getD count 0, fun d => d (start + count + 1)⟩ d) := by
  -- The block installed is the transaction's own, since the log holds it.
  have few := records.few
  have data : d (start + count + 1) = t.cache (t.log.block.getD count 0) :=
    committed.logged count inside
  have self : t.log.block.getD count 0 ∈ t.log.block := by
    rw [List.getD_eq_getElem _ _ inside]
    exact List.getElem_mem inside
  simp only [DiskWrite.apply, data]
  refine ⟨?_, ?_, ?_, ?_, ?_⟩
  · rw [update_of_ne (records.apart inside (Nat.le_refl _) (by omega))]
    exact committed.head
  · intro tail low
    rw [update_of_ne (records.apart inside (by omega) (by omega))]
    exact committed.logged tail low
  · intro b home missing
    rw [update_of_ne (fun same => missing (by rw [same]; exact self))]
    exact committed.untouched b home missing
  · intro b logged
    by_cases same : b = t.log.block.getD count 0
    · exact Or.inr (by rw [same, update_self])
    · rw [update_of_ne same]
      exact committed.either b logged
  · intro tail low
    by_cases same : t.log.block.getD tail 0 = t.log.block.getD count 0
    · rw [same, update_self]
    · rw [update_of_ne same]
      apply committed.installed
      have other : tail ≠ count := fun equal => same (by rw [equal])
      omega

theorem Committed.clear (all : t.log.block.length ≤ count)
    (committed : Committed start before t count d) :
    Settled start t.cache ((writeHead start []).apply d) := by
  refine ⟨?_, ?_⟩
  · rw [writeHead_start]
    exact getHead_putHead _ (Nat.zero_le _) (by simp)
  · intro b home
    have other : b ≠ start := by unfold Home at home; omega
    rw [writeHead_other other]
    by_cases logged : b ∈ t.log.block
    · obtain ⟨tail, inside, rfl⟩ := List.getElem_of_mem logged
      rw [← List.getD_eq_getElem _ 0 inside]
      exact committed.installed tail (by omega)
    · rw [committed.untouched b home logged, records.same b logged]

theorem Committed.finish (committed : Committed start before t 0 d) :
    let writes := (installTrans start t.log.block ++ [writeHead start []]).map DiskWrite.apply
    (∀ k, Safe start before t (Crash.after writes k d)) ∧
      Settled start t.cache (Crash.all writes d) := by
  intro writes
  let install (tail : Nat) : Disk → Disk :=
    DiskWrite.apply ⟨t.log.block.getD tail 0, fun d => d (start + tail + 1)⟩
  have shape : writes =
      (List.range t.log.block.length).map install ++ [(writeHead start []).apply] := by
    simp only [writes, installTrans, List.map_append, List.map_map]
    rfl
  have step : ∀ count d, count < t.log.block.length → Committed start before t count d →
      Committed start before t (count + 1) (install count d) :=
    fun count d inside => Committed.install records inside
  have installed := Crash.all_loop (Committed start before t) step committed
  rw [shape]
  refine ⟨?_, ?_⟩
  · intro k
    rcases Crash.after_append ((List.range t.log.block.length).map install)
      [(writeHead start []).apply] k d with ⟨-, early⟩ | ⟨j, late⟩
    · rw [early]
      obtain ⟨count, -, reached⟩ :=
        Crash.exists_after_loop (Committed start before t) step committed k
      exact Or.inr (Or.inl ⟨count, reached⟩)
    · rw [late]
      rcases Crash.after_singleton (writeHead start []).apply j
        (Crash.all ((List.range t.log.block.length).map install) d) with same | cleared
      · rw [same]
        exact Or.inr (Or.inl ⟨_, installed⟩)
      · rw [cleared]
        exact Or.inr (Or.inr (installed.clear records (Nat.le_refl _)))
  · rw [Crash.all_append]
    exact installed.clear records (Nat.le_refl _)

end

theorem Settled.clear (settled : Settled start want d) :
    Settled start want ((writeHead start []).apply d) := by
  refine ⟨?_, ?_⟩
  · rw [writeHead_start]
    exact getHead_putHead _ (Nat.zero_le _) (by simp)
  · intro b home
    have other : b ≠ start := by unfold Home at home; omega
    rw [writeHead_other other]
    exact settled.home b home

theorem Settled.recover (settled : Settled start want d) :
    recoverFromLog start d = [writeHead start []] := by
  rw [recoverFromLog, settled.empty]
  rfl

section

variable {start : Nat} {before : Disk} {t : Transaction} (records : t.Records start before)
include records

theorem Safe.recover (safe : Safe start before t d) :
    (∀ k, Safe start before t (crashAfter (recoverFromLog start d) k d)) ∧
      (Settled start before (writeAll (recoverFromLog start d) d) ∨
        Settled start t.cache (writeAll (recoverFromLog start d) d)) := by
  -- A settled disk has its log cleared once more; a committed one has it installed again.
  have again : ∀ {want : Disk}, Settled start want d →
      (∀ k, Settled start want (crashAfter (recoverFromLog start d) k d)) ∧
        Settled start want (writeAll (recoverFromLog start d) d) := by
    intro want settled
    rw [settled.recover]
    refine ⟨?_, settled.clear⟩
    intro k
    rcases Crash.after_singleton (writeHead start []).apply k d with same | cleared
    · rw [crashAfter, List.map_singleton, same]
      exact settled
    · rw [crashAfter, List.map_singleton, cleared]
      exact settled.clear
  rcases safe with old | ⟨count, committed⟩ | new
  · exact ⟨fun k => Or.inl ((again old).1 k), Or.inl (again old).2⟩
  · have restart : Committed start before t 0 d :=
      { committed with installed := fun _ none => absurd none (Nat.not_lt_zero _) }
    rw [recoverFromLog, committed.head]
    obtain ⟨cut, whole⟩ := restart.finish records
    exact ⟨cut, Or.inr whole⟩
  · exact ⟨fun k => Or.inr (Or.inr ((again new).1 k)), Or.inr (again new).2⟩

structure Filling (start : Nat) (before : Disk) (t : Transaction) (count : Nat) (d : Disk) :
    Prop where
  settled : Settled start before d
  logged : ∀ tail < count, d (start + tail + 1) = t.cache (t.log.block.getD tail 0)

theorem Filling.step (inside : count < t.log.block.length)
    (filling : Filling start before t count d) : Filling start before t (count + 1)
      (DiskWrite.apply ⟨start + count + 1, fun _ => t.cache (t.log.block.getD count 0)⟩ d) := by
  have few := records.few
  simp only [DiskWrite.apply]
  refine ⟨⟨?_, ?_⟩, ?_⟩
  · rw [update_of_ne (by omega)]
    exact filling.settled.empty
  · intro b home
    have other : b ≠ start + count + 1 := by unfold Home at home; omega
    rw [update_of_ne other]
    exact filling.settled.home b home
  · intro tail low
    rcases Nat.lt_succ_iff_lt_or_eq.mp low with earlier | rfl
    · rw [update_of_ne (by omega)]
      exact filling.logged tail earlier
    · rw [update_self]

theorem Filling.commit (filling : Filling start before t t.log.block.length d) :
    Committed start before t 0 ((writeHead start t.log.block).apply d) := by
  have home : ∀ b, Home start b → (writeHead start t.log.block).apply d b = before b := by
    intro b outside
    have other : b ≠ start := by unfold Home at outside; omega
    rw [writeHead_other other]
    exact filling.settled.home b outside
  refine ⟨?_, ?_, ?_, ?_, ?_⟩
  · rw [writeHead_start]
    exact getHead_putHead _ records.few fun b inside => (records.home b inside).2
  · intro tail low
    rw [writeHead_other (by omega)]
    exact filling.logged tail low
  · exact fun b outside _ => home b outside
  · exact fun b inside => Or.inl (home b (records.home b inside).1)
  · exact fun _ none => absurd none (Nat.not_lt_zero _)

theorem Settled.commit (settled : Settled start before d) (k : Nat) :
    Safe start before t (crashAfter (commitWrites start t) k d) := by
  unfold commitWrites
  split_ifs with some
  · let copy (tail : Nat) : Disk → Disk :=
      DiskWrite.apply ⟨start + tail + 1, fun _ => t.cache (t.log.block.getD tail 0)⟩
    have shape : (writeLog start t).map DiskWrite.apply =
        (List.range t.log.block.length).map copy := by
      simp only [writeLog, List.map_map]
      rfl
    have first : Filling start before t 0 d :=
      ⟨settled, fun _ none => absurd none (Nat.not_lt_zero _)⟩
    have step : ∀ count d, count < t.log.block.length → Filling start before t count d →
        Filling start before t (count + 1) (copy count d) :=
      fun count d inside => Filling.step records inside
    have full := Crash.all_loop (Filling start before t) step first
    rw [crashAfter, List.map_append, shape]
    -- The crash falls into the log's writes, at the header, or after the commit point.
    rcases Crash.after_append ((List.range t.log.block.length).map copy) _ k d with
      ⟨-, early⟩ | ⟨j, late⟩
    · rw [early]
      obtain ⟨count, -, filling⟩ :=
        Crash.exists_after_loop (Filling start before t) step first k
      exact Or.inl filling.settled
    · rw [late, List.map_append]
      rcases Crash.after_append ([writeHead start t.log.block].map DiskWrite.apply) _ j
        (Crash.all ((List.range t.log.block.length).map copy) d) with ⟨-, head⟩ | ⟨i, rest⟩
      · rw [head]
        rcases Crash.after_singleton (writeHead start t.log.block).apply j
          (Crash.all ((List.range t.log.block.length).map copy) d) with same | committed
        · exact Or.inl (by rw [List.map_singleton, same]; exact full.settled)
        · exact Or.inr (Or.inl ⟨0, by
            rw [List.map_singleton, committed]; exact full.commit records⟩)
      · rw [rest]
        exact ((full.commit records).finish records).1 i
  · exact Or.inl (by simpa [crashAfter, Crash.after] using settled)

end

def CrashedRecovery (start : Nat) (d : Disk) (k : Nat) (d' : Disk) : Prop :=
  d' = crashAfter (recoverFromLog start d) k d

theorem Safe.recoveries {before : Disk} (records : t.Records start before) {d' : Disk}
    {ks : List Nat} (safe : Safe start before t d)
    (crashes : Trace.Run (CrashedRecovery start) d ks d') : Safe start before t d' := by
  refine crashes.invariant (Safe start before t) ?_ safe
  intro d k d' safe cut
  rw [show d' = _ from cut]
  exact (safe.recover records).1 k

/--
A transaction is atomic across crashes.

The commit is cut after any number of its block writes, and then any number of recoveries are.
The recovery that runs to its end leaves an empty log, and the home blocks are all as they were
before the transaction or all as it wrote them.
-/
theorem transaction_atomic {start : Nat} {before crashed : Disk} {log : Log}
    {tx : List (Nat × Block)} {t : Transaction} {ks : List Nat} (k : Nat)
    (empty : getHead (before start) = []) (fresh : log.block = [])
    (home : ∀ w ∈ tx, Home start w.1 ∧ w.1 < 2 ^ 32)
    (logged : Transaction.logWrites ⟨log, before⟩ tx = .ok t)
    (crashes : Trace.Run (CrashedRecovery start)
      (crashAfter (commitWrites start t) k before) ks crashed) :
    let recovered := writeAll (recoverFromLog start crashed) crashed
    getHead (recovered start) = [] ∧
      ((∀ b, Home start b → recovered b = before b) ∨
        (∀ b, Home start b → recovered b = written before tx b)) := by
  -- Before the first write the transaction lists no block and the cache agrees with the disk.
  have opening : Transaction.Records ⟨log, before⟩ start before := by
    refine ⟨?_, ?_, ?_, fun _ _ => rfl⟩
    · simp [fresh]
    · simp [fresh]
    · simp [fresh]
  obtain ⟨records, wrote⟩ := opening.logWrites tx home logged
  have cut := Settled.commit records ⟨empty, fun _ _ => rfl⟩ k
  rcases ((cut.recoveries records crashes).recover records).2 with old | new
  · exact ⟨old.empty, Or.inl old.home⟩
  · rw [wrote] at new
    exact ⟨new.empty, Or.inr new.home⟩

/-- A crash after the commit point and two more during recovery. -/
theorem transaction_atomic_crashes :
    let before : Disk := fun _ _ => 0
    let t : Transaction := ⟨⟨[50], 1, false⟩, update before 50 fun _ => 1⟩
    let first := crashAfter (commitWrites 2 t) 3 before
    let second := crashAfter (recoverFromLog 2 first) 0 first
    let crashed := crashAfter (recoverFromLog 2 second) 1 second
    let recovered := writeAll (recoverFromLog 2 crashed) crashed
    getHead (recovered 2) = [] ∧
      ((∀ b, Home 2 b → recovered b = before b) ∨
        (∀ b, Home 2 b → recovered b = written before [(50, fun _ => 1)] b)) := by
  intro before t first second crashed
  have home : ∀ w ∈ [((50 : Nat), (fun _ => 1 : Block))], Home 2 w.1 ∧ w.1 < 2 ^ 32 := by
    simp [Home, logblocks, maxopblocks]
  have logged : Transaction.logWrites ⟨⟨[], 1, false⟩, before⟩ [(50, fun _ => 1)] = .ok t := rfl
  have crashes : Trace.Run (CrashedRecovery 2) first [0, 1] crashed :=
    .cons rfl (.cons rfl (.nil _))
  exact transaction_atomic 3 (by decide) rfl home logged crashes

end Xv6
