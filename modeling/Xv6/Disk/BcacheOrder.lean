import Xv6.Disk.BcacheLaws

/-! Which buffer the cache recycles, whoever uses it at the same time. -/

namespace Xv6

open Prog

/-- What `bget` does under the cache's lock: find or recycle a buffer and count one more user. -/
def bgetLocked (dev blockno : Nat) : CacheM (Fin nbuf) := do
  let s ← get
  match Ring.seek s.links.next none
      (Option.any fun b => (s.buf b).dev = dev ∧ (s.buf b).blockno = blockno)
      (nbuf + 1) (s.links.next none) with
  | some b =>
    modify fun s => s.update b fun buf => { buf with refcnt := buf.refcnt + 1 }
    return b
  | none =>
    match Ring.seek s.links.prev none (Option.any fun b => (s.buf b).refcnt = 0)
        (nbuf + 1) (s.links.prev none) with
    | some b =>
      modify fun s => s.update b fun buf =>
        { buf with dev := dev, blockno := blockno, valid := false, refcnt := 1 }
      return b
    | none => throw .noBuffers

theorem bget_eq (dev blockno : Nat) :
    bget dev blockno = (do let b ← bgetLocked dev blockno; acquiresleep b; return b) := by
  unfold bget bgetLocked
  rw [bind_assoc]
  congr 1
  funext s
  -- Both paths that return a buffer go on to lock it, and nothing follows the panic.
  generalize Ring.seek s.links.next _ _ _ _ = cached
  generalize Ring.seek s.links.prev _ _ _ _ = idle
  cases cached <;> cases idle <;> rfl

/-- What `brelse` does under the cache's lock. -/
def brelseLocked (b : Fin nbuf) : CacheM Unit := do
  modify fun s => s.update b fun buf => { buf with refcnt := buf.refcnt - 1 }
  let s ← get
  if (s.buf b).refcnt = 0 then
    set { s with links := (s.links.unlink (some b)).pushFront none (some b) }

theorem brelse_eq (b : Fin nbuf) :
    brelse b = (do
      if !((← get).buf b).locked then throw .brelse
      modify fun s => s.update b fun buf => { buf with locked := false }
      brelseLocked b) := rfl

/-- What any process does to the cache in one go. -/
inductive CacheTurn where
  | bget (dev blockno : Nat)
  | brelse (b : Fin nbuf)
  | bpin (b : Fin nbuf)
  | bunpin (b : Fin nbuf)
  /-- Without the cache's lock a buffer's own lock and contents change, and the disk. -/
  | outside (b : Fin nbuf) (valid locked : Bool) (data : Block) (disk : Disk)

/-- Run a turn. -/
def CacheTurn.op : CacheTurn → CacheM Unit
  | .bget dev blockno => discard (bgetLocked dev blockno)
  | .brelse b => brelseLocked b
  | .bpin b => Xv6.bpin b
  | .bunpin b => Xv6.bunpin b
  | .outside b valid locked data disk => modify fun s =>
    { s.update b fun buf => { buf with valid, locked, data } with disk }

/-- Only a user of a buffer lets it go. -/
def CacheTurn.allowed (s : Storage) : CacheTurn → Bool
  | .brelse b | .bunpin b => 0 < (s.buf b).refcnt
  | _ => true

/-- The cache with a clock and the time when `brelse` last left each buffer without users. -/
structure AgedCache where
  storage : Storage
  time : Nat
  released : Fin nbuf → Nat

/-- Take a turn, and note the time if it releases a buffer. -/
def AgedCache.next (s : AgedCache) (turn : CacheTurn) : Option AgedCache :=
  if turn.allowed s.storage then
    match turn.op s.storage with
    | .error _ => none
    | .ok (_, storage) =>
      some ⟨storage, s.time + 1, match turn with
        | .brelse b =>
          if (storage.buf b).refcnt = 0 then Function.update s.released b (s.time + 1)
          else s.released
        | _ => s.released⟩
  else none

/-- Turns as a relation. -/
def AgedCache.Step (s : AgedCache) (turn : CacheTurn) (t : AgedCache) : Prop :=
  s.next turn = some t

/-- The cache at boot, with no buffer ever released. -/
def AgedCache.boot (disk : Disk) (start : Nat) : AgedCache := ⟨binit disk start, 0, fun _ => 0⟩

/-- The list of buffers is ordered by the time they were last released, newest first. -/
structure AgedCache.Ordered (s : AgedCache) (order : List (Fin nbuf)) : Prop where
  lists : s.storage.links.Lists none (order.map some)
  all : ∀ b, b ∈ order
  sorted : order.Pairwise fun b c => s.released c ≤ s.released b
  past : ∀ b, s.released b ≤ s.time

namespace AgedCache

variable {s : AgedCache} {order : List (Fin nbuf)}

theorem Ordered.keep (ordered : s.Ordered order) {storage : Storage}
    (links : storage.links = s.storage.links) :
    Ordered ⟨storage, s.time + 1, s.released⟩ order :=
  ⟨links ▸ ordered.lists, ordered.all, ordered.sorted, fun b => Nat.le_succ_of_le (ordered.past b)⟩

theorem Ordered.release (ordered : s.Ordered order) (b : Fin nbuf) {storage : Storage}
    (links : storage.links = (s.storage.links.unlink (some b)).pushFront none (some b)) :
    ∃ order, Ordered ⟨storage, s.time + 1, Function.update s.released b (s.time + 1)⟩ order := by
  obtain ⟨lists, all, sorted, past⟩ := ordered
  obtain ⟨ys, zs, rfl⟩ := List.append_of_mem (all b)
  have fresh : b ∉ ys ++ zs := by
    have nodup := (List.nodup_cons.mp lists.nodup).2.of_map some
    exact (List.nodup_cons.mp (List.nodup_middle.mp nodup)).1
  have newest : ∀ c, Function.update s.released b (s.time + 1) c ≤ s.time + 1 := by
    intro c
    by_cases same : c = b
    · rw [same, Function.update_self]
    · rw [Function.update_of_ne same]
      exact Nat.le_succ_of_le (past c)
  refine ⟨b :: (ys ++ zs), ?_, ?_, ?_, newest⟩
  · rw [List.map_append, List.map_cons] at lists
    rw [links]
    simpa using lists.moveFront
  · intro c
    have member := all c
    simp only [List.mem_append, List.mem_cons] at member ⊢
    tauto
  · -- The buffer in front is the newest, and the others keep their times and their order.
    refine List.pairwise_cons.mpr ⟨fun c _ => by simpa using newest c, ?_⟩
    have rest := sorted.sublist ((List.sublist_cons_self b zs).append_left ys)
    refine rest.imp_of_mem fun {c d} first second older => ?_
    dsimp only
    rwa [Function.update_of_ne (ne_of_mem_of_not_mem second fresh),
      Function.update_of_ne (ne_of_mem_of_not_mem first fresh)]

theorem wp_bgetLocked_links (dev blockno : Nat) (s : Storage) :
    wp (bgetLocked dev blockno) (fun _ t => t.links = s.links) (fun _ => True) s := by
  unfold bgetLocked
  simp only [wp_bind, wp_get]
  split
  · simp only [wp_bind, wp_modify, wp_pure, Storage.update]
  · split
    · simp only [wp_bind, wp_modify, wp_pure, Storage.update]
    · simp only [wp_throw]

theorem wp_brelseLocked_links (b : Fin nbuf) (s : Storage) :
    wp (brelseLocked b) (fun _ t => t.links = if (t.buf b).refcnt = 0 then
      (s.links.unlink (some b)).pushFront none (some b) else s.links) (fun _ => True) s := by
  unfold brelseLocked
  simp only [wp_bind, wp_modify, wp_get]
  split
  · rename_i idle
    simp only [wp_set, idle]
    rfl
  · rename_i used
    simp only [wp_pure, used]
    rfl

theorem Ordered.step (ordered : s.Ordered order) {turn : CacheTurn} {t : AgedCache}
    (step : s.Step turn t) : ∃ order, t.Ordered order := by
  unfold Step next at step
  split at step
  · split at step
    · cases step
    · rename_i result storage ran
      cases step
      cases turn with
      | bget dev blockno =>
        have links : wp (discard (bgetLocked dev blockno))
            (fun _ t => t.links = s.storage.links) (fun _ => True) s.storage :=
          (wp_discard ..).mpr (wp_bgetLocked_links ..)
        have same := wp_ok links ran
        exact ⟨order, ordered.keep same⟩
      | brelse b =>
        -- Only the release that leaves no user moves the buffer.
        have links := wp_ok (wp_brelseLocked_links b s.storage) ran
        dsimp only
        split
        · rename_i idle
          exact ordered.release b (links.trans (if_pos idle))
        · rename_i used
          exact ⟨order, ordered.keep (links.trans (if_neg used))⟩
      | bpin b | bunpin b | outside b valid locked data disk =>
        cases ran
        exact ⟨order, ordered.keep rfl⟩
  · cases step

theorem Ordered.oldest (ordered : s.Ordered order) (test : Fin nbuf → Bool)
    (passing : ∃ b, test b = true) :
    ∃ b, Ring.seek s.storage.links.prev none (Option.any test) (nbuf + 1)
        (s.storage.links.prev none) = some b ∧ test b = true ∧
      ∀ c, test c = true → s.released b ≤ s.released c := by
  have few := length_lt_of_lists ordered.lists
  have backwards : order.reverse.Pairwise fun b c => s.released b ≤ s.released c :=
    List.pairwise_reverse.mpr ordered.sorted
  obtain ⟨first, passes⟩ := passing
  obtain ⟨b, found⟩ := Option.isSome_iff_exists.mp
    (List.find?_isSome.mpr ⟨first, List.mem_reverse.mpr (ordered.all first), passes⟩)
  refine ⟨b, ?_, List.find?_some found, ?_⟩
  · rw [ordered.lists.seek_prev few, ← List.map_reverse, List.find?_map,
      show Option.any test ∘ some = test from rfl, found]
    rfl
  · intro c chosen
    obtain ⟨-, before, after, split, skipped⟩ := List.find?_eq_some_iff_append.mp found
    have member : c ∈ before ++ b :: after := split ▸ List.mem_reverse.mpr (ordered.all c)
    rw [split] at backwards
    rcases List.mem_append.mp member with early | late
    · have refused := skipped c early
      simp [chosen] at refused
    · rcases List.mem_cons.mp late with rfl | late
      · exact le_refl _
      · exact (List.pairwise_cons.mp (List.pairwise_append.mp backwards).2.1).1 c late

end AgedCache

/--
The cache recycles the least recently used buffer.

Whatever processes did to the cache since boot, `bget` of a block that has no buffer takes one
without users, if there is one, and no other buffer without users was released earlier.
-/
theorem bget_recycles_oldest {disk : Disk} {start : Nat} {turns : List CacheTurn} {s : AgedCache}
    (ran : Trace.Run AgedCache.Step (AgedCache.boot disk start) turns s) {dev blockno : Nat}
    (missed : ∀ c, ¬((s.storage.buf c).dev = dev ∧ (s.storage.buf c).blockno = blockno))
    (free : ∃ c, (s.storage.buf c).refcnt = 0) :
    ∃ b t, bgetLocked dev blockno s.storage = .ok (b, t) ∧ (s.storage.buf b).refcnt = 0 ∧
      ∀ c, (s.storage.buf c).refcnt = 0 → s.released b ≤ s.released c := by
  obtain ⟨order, ordered⟩ := ran.invariant (fun s => ∃ order, s.Ordered order)
    (fun _ _ _ before step => before.elim fun _ ordered => ordered.step step)
    (by
      obtain ⟨order, lists, all⟩ := binit_linked disk start
      exact ⟨order, lists, all, List.pairwise_of_forall fun _ _ => le_refl _, fun _ => le_refl _⟩)
  obtain ⟨⟨miss, -⟩, -⟩ := Storage.Linked.searched ⟨order, ordered.lists, ordered.all⟩
    fun b => (s.storage.buf b).dev = dev ∧ (s.storage.buf b).blockno = blockno
  obtain ⟨b, found, idle, oldest⟩ := ordered.oldest (fun b => (s.storage.buf b).refcnt = 0)
    (by simpa using free)
  have taken : wp (bgetLocked dev blockno) (fun c _ => c = b) (fun _ => False) s.storage := by
    unfold bgetLocked
    simp only [wp_bind, wp_get, found]
    split
    · rename_i c cached
      exact absurd (by simpa using miss c cached) (missed c)
    · simp only [wp_bind, wp_modify, wp_pure]
  obtain ⟨c, t, returned, rfl⟩ := exists_ok_of_wp taken
  exact ⟨c, t, returned, by simpa using idle, fun d unused => oldest d (by simpa using unused)⟩

/-- One buffer was used and released, so the next block gets one that never was. -/
theorem bget_recycles_oldest_second :
    ∃ s, Trace.Run AgedCache.Step (AgedCache.boot (fun _ _ => 0) 2)
        [.bget 1 5, .brelse ⟨0, by decide⟩] s ∧
      ∃ b t, bgetLocked 1 6 s.storage = .ok (b, t) ∧ s.released b = 0 := by
  have computed : ((Trace.steps AgedCache.next (AgedCache.boot (fun _ _ => 0) 2)
      [.bget 1 5, .brelse ⟨0, by decide⟩]).any fun s =>
        (∃ c, (s.storage.buf c).refcnt = 0 ∧ s.released c = 0) ∧
        ∀ c, ¬((s.storage.buf c).dev = 1 ∧ (s.storage.buf c).blockno = 6)) = true := by
    decide +kernel
  obtain ⟨s, reached, facts⟩ := (Option.any_eq_true _ _).mp computed
  obtain ⟨⟨c, idle, never⟩, missed⟩ := of_decide_eq_true facts
  have ran : Trace.Run AgedCache.Step (AgedCache.boot (fun _ _ => 0) 2) _ s :=
    Trace.Run.of_steps (fun _ _ _ one => one) reached
  obtain ⟨b, t, returned, -, oldest⟩ := bget_recycles_oldest ran missed ⟨c, idle⟩
  exact ⟨s, ran, b, t, returned, Nat.le_zero.mp (never ▸ oldest c idle)⟩

end Xv6
