import Mathlib.Data.Fintype.Card
import Mathlib.Data.List.GetD
import Xv6.Disk.Bcache

/-! The buffer cache refines a plain store of blocks. -/

namespace Xv6

open Prog
open Function (update_self update_of_ne update_eq_self)

def Storage.Holds (s : Storage) (n : Nat) (b : Fin nbuf) : Prop :=
  (s.buf b).dev = rootdev ∧ (s.buf b).blockno = n

structure Buf.Agrees (buf : Buf) (m disk : Disk) (pins unsaved : List Nat) : Prop where
  valid : buf.valid = true ↔ buf.dev = rootdev
  root : buf.locked = true → buf.dev = rootdev
  holds : buf.dev = rootdev → buf.data = m buf.blockno
  count : buf.refcnt = (if buf.locked then 1 else 0) +
    (if buf.dev = rootdev ∧ buf.blockno ∈ pins then 1 else 0)
  clean : buf.dev = rootdev → buf.blockno ∉ pins → buf.blockno ∉ unsaved →
    buf.data = disk buf.blockno
  changed : buf.dev = rootdev → buf.blockno ∈ unsaved → buf.locked = true

def Storage.Linked (s : Storage) : Prop :=
  ∃ order : List (Fin nbuf), s.links.Lists none (order.map some) ∧ ∀ b, b ∈ order

structure Storage.Caches (s : Storage) (m : Disk) (pins unsaved : List Nat) : Prop where
  linked : s.Linked
  bufs : ∀ b, (s.buf b).Agrees m s.disk pins unsaved
  unique : ∀ n b c, s.Holds n b → s.Holds n c → b = c
  missing : ∀ n, (∀ b, ¬s.Holds n b) → s.disk n = m n
  pinned : ∀ n ∈ pins, ∃ b, s.Holds n b
  unsaved : ∀ n ∈ unsaved, ∃ b, s.Holds n b

variable {buf : Buf} {m m' : Disk} {pins pins' unsaved : List Nat} {a c n : Nat}
  {post : Unit → Storage → Prop} {abort : CacheStop → Prop} {s t u : Storage} {α : Type}

theorem Buf.Agrees.elsewhere {disk disk' : Disk} {unsaved' : List Nat}
    (agrees : buf.Agrees m disk pins unsaved) (other : buf.dev = rootdev → buf.blockno ≠ n)
    (off : ∀ k ≠ n, m' k = m k ∧ disk' k = disk k ∧ (k ∈ pins' ↔ k ∈ pins) ∧
      (k ∈ unsaved' ↔ k ∈ unsaved)) : buf.Agrees m' disk' pins' unsaved' := by
  by_cases root : buf.dev = rootdev
  · obtain ⟨contents, stored, pinned, changed⟩ := off _ (other root)
    refine ⟨agrees.valid, agrees.root, ?_, ?_, ?_, ?_⟩
    · exact fun _ => (agrees.holds root).trans contents.symm
    · simpa [pinned] using agrees.count
    · intro _ loose saved
      rw [stored]
      exact agrees.clean root (fun inside => loose (pinned.mpr inside))
        fun inside => saved (changed.mpr inside)
    · exact fun _ inside => agrees.changed root (changed.mp inside)
  · refine ⟨agrees.valid, agrees.root, fun yes => absurd yes root, ?_,
      fun yes => absurd yes root, fun yes => absurd yes root⟩
    simpa [root] using agrees.count

/-- A buffer without users is unlocked and has nothing that is not on disk. -/
theorem Buf.Agrees.unused {disk : Disk} (agrees : buf.Agrees m disk pins unsaved)
    (idle : buf.refcnt = 0) : buf.locked ≠ true ∧ (buf.dev = rootdev → buf.blockno ∉ pins ∧
      buf.blockno ∉ unsaved ∧ buf.data = disk buf.blockno) := by
  have count := agrees.count
  have unlocked : buf.locked ≠ true := by
    intro locked
    rw [if_pos locked] at count
    omega
  refine ⟨unlocked, fun root => ?_⟩
  have loose : buf.blockno ∉ pins := by
    intro inside
    rw [if_pos (And.intro root inside)] at count
    omega
  have saved : buf.blockno ∉ unsaved := fun inside => unlocked (agrees.changed root inside)
  exact ⟨loose, saved, agrees.clean root loose saved⟩

namespace Storage.Caches

variable {s t : Storage} {m m' : Disk} {pins pins' unsaved unsaved' : List Nat} {n : Nat}
  {b : Fin nbuf}

theorem revise (caches : s.Caches m pins unsaved) (holds : s.Holds n b)
    (bufs : t.buf = Function.update s.buf b buf) (dev : buf.dev = rootdev)
    (blockno : buf.blockno = n) (linked : t.Linked) (agrees : buf.Agrees m' t.disk pins' unsaved')
    (off : ∀ k ≠ n, m' k = m k ∧ t.disk k = s.disk k ∧ (k ∈ pins' ↔ k ∈ pins) ∧
      (k ∈ unsaved' ↔ k ∈ unsaved)) : t.Caches m' pins' unsaved' := by
  -- Every buffer is still the buffer of the same block.
  have same : ∀ k c, t.Holds k c ↔ s.Holds k c := by
    intro k c
    by_cases self : c = b
    · subst self
      simp only [Holds, bufs, update_self, dev, blockno, holds.1, holds.2]
    · simp only [Holds, bufs, update_of_ne self]
  have found : ∀ {k}, (∃ c, s.Holds k c) → ∃ c, t.Holds k c :=
    fun ⟨c, has⟩ => ⟨c, (same _ c).mpr has⟩
  refine ⟨linked, ?_, ?_, ?_, ?_, ?_⟩
  · intro c
    by_cases self : c = b
    · rw [bufs, self, update_self]
      exact agrees
    · rw [bufs, update_of_ne self]
      refine (caches.bufs c).elsewhere ?_ off
      exact fun root equal => self (caches.unique n c b ⟨root, equal⟩ holds)
  · exact fun k c d one two =>
      caches.unique k c d ((same k c).mp one) ((same k d).mp two)
  · intro k nobody
    have other : k ≠ n := fun equal => nobody b ((same k b).mpr (equal ▸ holds))
    rw [(off k other).2.1, (off k other).1]
    exact caches.missing k fun c has => nobody c ((same k c).mpr has)
  · intro k inside
    by_cases self : k = n
    · exact found ⟨b, self ▸ holds⟩
    · exact found (caches.pinned k ((off k self).2.2.1.mp inside))
  · intro k inside
    by_cases self : k = n
    · exact found ⟨b, self ▸ holds⟩
    · exact found (caches.unsaved k ((off k self).2.2.2.mp inside))

theorem recycle (caches : s.Caches m pins unsaved) (idle : (s.buf b).refcnt = 0)
    (nobody : ∀ c, ¬s.Holds n c)
    (bufs : t.buf = Function.update s.buf b ⟨true, rootdev, n, true, 1, s.disk n⟩)
    (links : t.links = s.links) (disk : t.disk = s.disk) : t.Caches m pins unsaved := by
  obtain ⟨-, unused⟩ := (caches.bufs b).unused idle
  have notPinned : n ∉ pins := fun inside =>
    let ⟨c, has⟩ := caches.pinned n inside
    nobody c has
  have notUnsaved : n ∉ unsaved := fun inside =>
    let ⟨c, has⟩ := caches.unsaved n inside
    nobody c has
  have self : t.Holds n b := by simp [Holds, bufs]
  have others : ∀ {k c}, c ≠ b → (t.Holds k c ↔ s.Holds k c) := by
    intro k c other
    simp only [Holds, bufs, update_of_ne other]
  have kept : ∀ {k}, (∃ c, s.Holds k c) → ¬((s.buf b).dev = rootdev ∧ (s.buf b).blockno = k) →
      ∃ c, t.Holds k c := by
    rintro k ⟨c, has⟩ lost
    by_cases same : c = b
    · exact absurd (same ▸ has) lost
    · exact ⟨c, (others same).mpr has⟩
  refine ⟨?_, ?_, ?_, ?_, ?_, ?_⟩
  · obtain ⟨order, lists, all⟩ := caches.linked
    exact ⟨order, links ▸ lists, all⟩
  · intro c
    by_cases same : c = b
    · rw [bufs, same, update_self, disk]
      refine ⟨by simp, by simp, fun _ => caches.missing n nobody, by simp [notPinned],
        fun _ _ _ => rfl, fun _ inside => absurd inside notUnsaved⟩
    · rw [bufs, update_of_ne same, disk]
      exact caches.bufs c
  · intro k c d one two
    -- The recycled buffer is alone with its new block, and the others were alone before.
    by_cases first : c = b
    · by_cases second : d = b
      · rw [first, second]
      · have equal : k = n := by rw [first] at one; exact one.2.symm.trans self.2
        exact absurd (equal ▸ (others second).mp two) (nobody d)
    · by_cases second : d = b
      · have equal : k = n := by rw [second] at two; exact two.2.symm.trans self.2
        exact absurd (equal ▸ (others first).mp one) (nobody c)
      · exact caches.unique k c d ((others first).mp one) ((others second).mp two)
  · intro k free
    rw [disk]
    -- The block that lost its buffer was clean, so the disk has its contents.
    by_cases lost : s.Holds k b
    · obtain ⟨root, rfl⟩ := lost
      rw [← (caches.bufs b).holds root]
      exact (unused root).2.2.symm
    · refine caches.missing k fun c has => ?_
      by_cases same : c = b
      · exact lost (same ▸ has)
      · exact free c ((others same).mpr has)
  · exact fun k inside => kept (caches.pinned k inside) fun ⟨root, equal⟩ =>
      (unused root).1 (equal ▸ inside)
  · exact fun k inside => kept (caches.unsaved k inside) fun ⟨root, equal⟩ =>
      (unused root).2.1 (equal ▸ inside)

theorem withLog (caches : s.Caches m pins unsaved) (log : Log) :
    Storage.Caches { s with log } m pins unsaved :=
  ⟨caches.linked, caches.bufs, caches.unique, caches.missing, caches.pinned, caches.unsaved⟩

end Storage.Caches

/-- The outcome of a search through all buffers: one that passes the test, or none does. -/
def Searched (test : Fin nbuf → Bool) (found : Option (Fin nbuf)) : Prop :=
  (∀ b, found = some b → test b = true) ∧ (found = none → ∀ b, test b = false)

theorem searched_find? {order : List (Fin nbuf)} (all : ∀ b, b ∈ order) (test : Fin nbuf → Bool) :
    Searched test (((order.map some).find? (Option.any test)).getD none) := by
  have plain : ((order.map some).find? (Option.any test)).getD none = order.find? test := by
    rw [List.find?_map, show Option.any test ∘ some = test from rfl]
    cases order.find? test <;> rfl
  rw [plain]
  refine ⟨fun b found => List.find?_some found, ?_⟩
  intro none b
  simpa using List.find?_eq_none.mp none b (all b)

/-- A list of buffers is short enough for the search. -/
theorem length_lt_of_lists {order : List (Fin nbuf)}
    (lists : s.links.Lists none (order.map some)) : (order.map some).length < nbuf + 1 := by
  have nodup : order.Nodup := (List.nodup_cons.mp lists.nodup).2.of_map some
  simpa using Nat.lt_succ_of_le nodup.length_le_card

/-- Following the links forwards or backwards for long enough passes every buffer. -/
theorem Storage.Linked.searched (linked : s.Linked) (test : Fin nbuf → Bool) :
    Searched test (Ring.seek s.links.next none (Option.any test) (nbuf + 1) (s.links.next none)) ∧
    Searched test (Ring.seek s.links.prev none (Option.any test) (nbuf + 1) (s.links.prev none)) := by
  obtain ⟨order, lists, all⟩ := linked
  have few := length_lt_of_lists lists
  rw [lists.seek_next few, lists.seek_prev few, ← List.map_reverse]
  exact ⟨searched_find? all test, searched_find? (fun b => List.mem_reverse.mpr (all b)) test⟩

structure Storage.Reads (s t : Storage) (n : Nat) (b : Fin nbuf) : Prop where
  others : ∀ c, c ≠ b → t.buf c = s.buf c
  free : (s.buf b).locked = false
  holds : t.Holds n b
  locked : (t.buf b).locked = true
  log : t.log = s.log
  start : t.start = s.start

section

variable {s : Storage} {m : Disk} {pins unsaved : List Nat} {n : Nat} {b : Fin nbuf}

theorem wp_acquiresleep
    (locked : (s.buf b).locked = false →
      post () (s.update b fun buf => { buf with locked := true })) :
    wp (acquiresleep b) post (fun _ => True) s := by
  unfold acquiresleep
  simp only [wp_bind, wp_get]
  split
  · simp only [wp_bind, wp_throw]
  · rename_i free
    simp only [wp_modify]
    exact locked (by simpa using free)

theorem wp_bread (caches : s.Caches m pins unsaved) (n : Nat) :
    wp (bread rootdev n) (fun b t => t.Caches m pins unsaved ∧ s.Reads t n b) (fun _ => True) s := by
  unfold bread bget
  obtain ⟨⟨hit, miss⟩, -⟩ := caches.linked.searched
    fun b => (s.buf b).dev = rootdev ∧ (s.buf b).blockno = n
  obtain ⟨-, idle, -⟩ := caches.linked.searched fun b => (s.buf b).refcnt = 0
  simp only [wp_bind, wp_get]
  split
  · -- The block is cached, so its buffer is valid and only counts one more user.
    rename_i b found
    have holds : s.Holds n b := by simpa [Storage.Holds] using hit b found
    have agrees := caches.bufs b
    have valid : (s.buf b).valid = true := agrees.valid.mpr holds.1
    simp only [wp_bind, wp_modify]
    refine wp_acquiresleep fun free => ?_
    simp only [Storage.update, update_self] at free
    simp only [wp_pure, Storage.update, update_self, valid, Bool.not_true,
      Bool.false_eq_true, if_false, Function.update_idem]
    refine ⟨caches.revise holds rfl holds.1 holds.2 caches.linked ?_
      (fun _ _ => ⟨rfl, rfl, Iff.rfl, Iff.rfl⟩), ?_⟩
    · refine ⟨by simp [holds.1], fun _ => holds.1, agrees.holds, ?_, agrees.clean, fun _ _ => rfl⟩
      have count := agrees.count
      simp only [free] at count
      simp [count, Nat.add_comm]
    · refine ⟨?_, free, ?_, by simp, rfl, rfl⟩
      · exact fun c other => update_of_ne other ..
      · simpa [Storage.Holds] using holds
  · rename_i absent
    split
    · -- An unused buffer is taken over and the block is read from disk.
      rename_i b found
      have unused : (s.buf b).refcnt = 0 := by simpa using idle b found
      have nobody : ∀ c, ¬s.Holds n c := by
        intro c has
        simpa [has.1, has.2] using miss absent c
      simp only [wp_bind, wp_modify]
      refine wp_acquiresleep fun free => ?_
      simp only [Storage.update, update_self] at free
      simp only [wp_bind, wp_set, wp_pure, Storage.update, update_self,
        Bool.not_false, if_true, Function.update_idem]
      refine ⟨caches.recycle unused nobody rfl rfl rfl, ?_⟩
      refine ⟨?_, free, ?_, by simp, rfl, rfl⟩
      · exact fun c other => update_of_ne other ..
      · simp [Storage.Holds]
    · simp only [wp_throw]

theorem Storage.Caches.store (caches : s.Caches m pins unsaved) (holds : s.Holds n b)
    (locked : (s.buf b).locked = true) (data : Block) :
    (s.update b fun buf => { buf with data := data }).Caches (Function.update m n data) pins
      (n :: unsaved) := by
  have agrees := caches.bufs b
  refine caches.revise holds rfl holds.1 holds.2 caches.linked ?_ ?_
  · refine ⟨agrees.valid, agrees.root, ?_, agrees.count, ?_, fun _ _ => locked⟩
    · exact fun _ => by simp [holds.2]
    · exact fun _ _ saved => absurd (by simp [holds.2]) saved
  · intro k other
    simp [other, Storage.update]

theorem Storage.Caches.bwrite (caches : s.Caches m pins unsaved) (holds : s.Holds n b)
    (locked : (s.buf b).locked = true) :
    Storage.Caches { s with disk := Function.update s.disk (s.buf b).blockno (s.buf b).data }
      m pins (unsaved.filter (· ≠ n)) := by
  have agrees := caches.bufs b
  refine caches.revise holds (update_eq_self b s.buf).symm holds.1 holds.2 caches.linked ?_ ?_
  · refine ⟨agrees.valid, agrees.root, agrees.holds, agrees.count, ?_, fun _ _ => locked⟩
    exact fun _ _ _ => by simp
  · intro k other
    have elsewhere : k ≠ (s.buf b).blockno := by rw [holds.2]; exact other
    simp [other, elsewhere]

theorem Storage.Caches.saved (caches : s.Caches m pins unsaved) (pinned : n ∈ pins) :
    s.Caches m pins (unsaved.filter (· ≠ n)) := by
  obtain ⟨b, holds⟩ := caches.pinned n pinned
  have agrees := caches.bufs b
  refine caches.revise holds (update_eq_self b s.buf).symm holds.1 holds.2 caches.linked ?_ ?_
  · refine ⟨agrees.valid, agrees.root, agrees.holds, agrees.count, ?_, ?_⟩
    · exact fun _ loose => absurd (holds.2 ▸ pinned) loose
    · intro _ inside
      simp [holds.2] at inside
  · intro k other
    simp [other]

theorem Storage.Caches.pin (caches : s.Caches m pins unsaved) (holds : s.Holds n b)
    (fresh : n ∉ pins) :
    (s.update b fun buf => { buf with refcnt := buf.refcnt + 1 }).Caches m (pins ++ [n])
      unsaved := by
  have agrees := caches.bufs b
  refine caches.revise holds rfl holds.1 holds.2 caches.linked ?_ ?_
  · refine ⟨agrees.valid, agrees.root, agrees.holds, ?_, ?_, agrees.changed⟩
    · have count := agrees.count
      simp only [holds.2, fresh] at count
      simp [count, holds.1, holds.2]
    · exact fun _ loose => absurd (by simp [holds.2]) loose
  · intro k other
    simp [other, Storage.update]

theorem Storage.Caches.unpin (caches : s.Caches m (n :: pins) unsaved) (holds : s.Holds n b)
    (last : n ∉ pins) (clean : (s.buf b).data = s.disk n) :
    (s.update b fun buf => { buf with refcnt := buf.refcnt - 1 }).Caches m pins unsaved := by
  have agrees := caches.bufs b
  refine caches.revise holds rfl holds.1 holds.2 caches.linked ?_ ?_
  · refine ⟨agrees.valid, agrees.root, agrees.holds, ?_, ?_, agrees.changed⟩
    · have count := agrees.count
      simp [count, holds.1, holds.2, last]
    · intro _ _ _
      simpa [holds.2, Storage.update] using clean
  · intro k other
    simp [other, Storage.update]

def Storage.released (s : Storage) (b : Fin nbuf) : Storage :=
  let t := s.update b fun buf => { buf with locked := false, refcnt := buf.refcnt - 1 }
  if (t.buf b).refcnt = 0 then
    { t with links := (t.links.unlink (some b)).pushFront none (some b) }
  else t

theorem Storage.released_buf (s : Storage) (b : Fin nbuf) :
    (s.released b).buf =
      Function.update s.buf b { s.buf b with locked := false, refcnt := (s.buf b).refcnt - 1 } := by
  unfold Storage.released
  dsimp only
  split <;> rfl

theorem Storage.released_log (s : Storage) (b : Fin nbuf) :
    (s.released b).log = s.log ∧ (s.released b).start = s.start ∧ (s.released b).disk = s.disk := by
  unfold Storage.released
  dsimp only
  split <;> exact ⟨rfl, rfl, rfl⟩

theorem Storage.Linked.released (linked : s.Linked) (b : Fin nbuf) : (s.released b).Linked := by
  obtain ⟨order, lists, all⟩ := linked
  unfold Storage.released
  dsimp only
  split
  · obtain ⟨ys, zs, rfl⟩ := List.append_of_mem (all b)
    refine ⟨b :: (ys ++ zs), ?_, ?_⟩
    · rw [List.map_append, List.map_cons] at lists
      simpa [Storage.update] using lists.moveFront
    · intro c
      have member := all c
      simp only [List.mem_append, List.mem_cons] at member ⊢
      tauto
  · exact ⟨order, lists, all⟩

theorem Storage.Caches.release (caches : s.Caches m pins unsaved) (holds : s.Holds n b)
    (locked : (s.buf b).locked = true) (saved : n ∉ unsaved) :
    (s.released b).Caches m pins unsaved := by
  have agrees := caches.bufs b
  have disk := (s.released_log b).2.2
  refine caches.revise holds (s.released_buf b) holds.1 holds.2 (caches.linked.released b) ?_ ?_
  · refine ⟨agrees.valid, by simp, agrees.holds, ?_, ?_, ?_⟩
    · have count := agrees.count
      simp only [locked] at count
      simp [count]
    · rw [disk]
      exact agrees.clean
    · exact fun _ inside => absurd (holds.2 ▸ inside) saved
  · exact fun _ _ => ⟨rfl, by rw [disk], Iff.rfl, Iff.rfl⟩

theorem wp_brelse (locked : (s.buf b).locked = true) (released : post () (s.released b)) :
    wp (brelse b) post abort s := by
  unfold brelse
  unfold Storage.released at released
  simp only [wp_bind, wp_get, wp_modify, locked, Bool.not_true, Bool.false_eq_true, if_false,
    Storage.update, update_self, Function.update_idem] at released ⊢
  split
  · rename_i idle
    rw [if_pos idle] at released
    exact (wp_set ..).mpr released
  · rename_i used
    rw [if_neg used] at released
    exact (wp_pure ..).mpr released

theorem wp_bwrite (locked : (s.buf b).locked = true)
    (written : post () { s with disk := Function.update s.disk (s.buf b).blockno (s.buf b).data }) :
    wp (bwrite b) post abort s := by
  unfold bwrite
  simpa [locked] using written

end

structure Storage.Frame (s t : Storage) : Prop where
  held : ∀ c, (s.buf c).locked = true → t.buf c = s.buf c
  unlocked : ∀ c, (t.buf c).locked = true → (s.buf c).locked = true
  start : t.start = s.start

theorem Storage.Frame.refl (s : Storage) : s.Frame s := ⟨fun _ _ => rfl, fun _ same => same, rfl⟩

theorem Storage.Frame.trans (first : s.Frame t) (second : t.Frame u) : s.Frame u := by
  refine ⟨?_, fun c last => first.unlocked c (second.unlocked c last),
    second.start.trans first.start⟩
  intro c locked
  have same := first.held c locked
  rw [second.held c (by rw [same]; exact locked), same]

structure Storage.Pair (s t : Storage) (a : Nat) (x : Fin nbuf) (c : Nat) (y : Fin nbuf) :
    Prop where
  distinct : x ≠ y
  others : ∀ d, d ≠ x → d ≠ y → t.buf d = s.buf d
  free : (s.buf x).locked = false ∧ (s.buf y).locked = false
  first : t.Holds a x ∧ (t.buf x).locked = true
  second : t.Holds c y ∧ (t.buf y).locked = true
  log : t.log = s.log
  start : t.start = s.start

theorem Storage.Reads.pair {x y : Fin nbuf} (first : s.Reads t a x) (second : t.Reads u c y) :
    s.Pair u a x c y := by
  have distinct : x ≠ y := by
    rintro rfl
    have held := first.locked
    rw [second.free] at held
    cases held
  have kept := second.others x distinct
  refine ⟨distinct, ?_, ⟨first.free, ?_⟩, ⟨?_, by rw [kept]; exact first.locked⟩,
    ⟨second.holds, second.locked⟩, second.log.trans first.log, second.start.trans first.start⟩
  · intro d one two
    rw [second.others d two, first.others d one]
  · rw [← first.others y distinct.symm]
    exact second.free
  · simpa only [Storage.Holds, kept] using first.holds

/-- A client's unsaved changes keep their block locked, so such a block cannot be read. -/
theorem Storage.Reads.saved {b : Fin nbuf} (reads : s.Reads t n b) (before : s.Caches m pins unsaved)
    (after : t.Caches m pins unsaved) : n ∉ unsaved := by
  intro inside
  obtain ⟨c, root, rfl⟩ := before.unsaved n inside
  have locked := (before.bufs c).changed root inside
  have other : c ≠ b := by rintro rfl; rw [reads.free] at locked; cases locked
  -- The client's buffer would be a second one for the block.
  refine other (after.unique _ c b ?_ reads.holds)
  simpa [Storage.Holds, reads.others c other] using root

theorem filter_ne_cons_self {ns : List Nat} (absent : n ∉ ns) :
    (n :: ns).filter (· ≠ n) = ns := by
  rw [List.filter_cons_of_neg (by simp), List.filter_eq_self.mpr]
  intro b inside
  simpa using fun same : b = n => absent (same ▸ inside)

/-- Only buffers that were free before and are free again have changed. -/
theorem Storage.Frame.of_free (used : Fin nbuf → Prop) (others : ∀ d, ¬ used d → t.buf d = s.buf d)
    (before : ∀ d, used d → (s.buf d).locked = false)
    (after : ∀ d, used d → (t.buf d).locked = false) (start : t.start = s.start) : s.Frame t := by
  refine ⟨fun d locked => others d fun mine => ?_, fun d locked => ?_, start⟩
  · simp [before d mine] at locked
  · have other : ¬ used d := fun mine => by simp [after d mine] at locked
    rwa [others d other] at locked

namespace Storage.Pair

variable {s t : Storage} {a c : Nat} {x y : Fin nbuf} {m : Disk} {pins unsaved : List Nat}

theorem symm (pair : s.Pair t a x c y) : s.Pair t c y a x :=
  ⟨pair.distinct.symm, fun d one two => pair.others d two one, pair.free.symm, pair.second,
    pair.first, pair.log, pair.start⟩

def copied (t : Storage) (x y : Fin nbuf) : Storage :=
  let u := t.update x fun buf => { buf with data := (t.buf y).data }
  { u with disk := Function.update u.disk (u.buf x).blockno (u.buf x).data }

theorem copy (pair : s.Pair t a x c y) (caches : t.Caches m pins unsaved) (saved : a ∉ unsaved) :
    (copied t x y).Caches (Function.update m a (m c)) pins unsaved ∧
      s.Pair (copied t x y) a x c y ∧ ((copied t x y).buf x).data = (copied t x y).disk a := by
  obtain ⟨⟨first, held⟩, ⟨second, _⟩⟩ := And.intro pair.first pair.second
  have data : (t.buf y).data = m c := by rw [← second.2]; exact (caches.bufs y).holds second.1
  have stored := caches.store first held (m c)
  have whole := stored.bwrite (n := a) (b := x) (by simpa [Storage.update, Holds] using first)
    (by simpa [Storage.update] using held)
  rw [filter_ne_cons_self saved, ← data] at whole
  refine ⟨by rw [← data]; exact whole, ?_, ?_⟩
  · refine ⟨pair.distinct, ?_, pair.free, ?_, ?_, pair.log, pair.start⟩
    · intro d one two
      rw [← pair.others d one two]
      exact update_of_ne one ..
    · simpa [copied, Storage.update, Holds] using pair.first
    · have other := pair.distinct.symm
      simpa [copied, Storage.update, Holds, other] using pair.second
  · simp [copied, Storage.update, first.2]

theorem unpin (pair : s.Pair t a x c y) (caches : t.Caches m (a :: pins) unsaved)
    (last : a ∉ pins) (clean : (t.buf x).data = t.disk a) :
    (t.update x fun buf => { buf with refcnt := buf.refcnt - 1 }).Caches m pins unsaved ∧
      s.Pair (t.update x fun buf => { buf with refcnt := buf.refcnt - 1 }) a x c y := by
  refine ⟨caches.unpin pair.first.1 last clean, pair.distinct, ?_, pair.free, ?_, ?_, pair.log,
    pair.start⟩
  · intro d one two
    rw [← pair.others d one two]
    exact update_of_ne one ..
  · simpa [Storage.update, Holds] using pair.first
  · have other := pair.distinct.symm
    simpa [Storage.update, Holds, other] using pair.second

theorem release (pair : s.Pair t a x c y) (caches : t.Caches m pins unsaved)
    (savedA : a ∉ unsaved) (savedC : c ∉ unsaved) :
    (((t.released y).buf x).locked = true) ∧
      ((t.released y).released x).Caches m pins unsaved ∧
      s.Frame ((t.released y).released x) ∧ ((t.released y).released x).log = s.log := by
  have kept : (t.released y).buf x = t.buf x := by
    rw [released_buf, update_of_ne pair.distinct]
  have locked : ((t.released y).buf x).locked = true := by rw [kept]; exact pair.first.2
  have holds : (t.released y).Holds a x := by
    simpa only [Holds, kept] using pair.first.1
  have whole := (caches.release pair.second.1 pair.second.2 savedC).release holds locked savedA
  have start : ((t.released y).released x).start = s.start := by
    rw [(released_log _ x).2.1, (released_log _ y).2.1, pair.start]
  have others : ∀ d, d ≠ x → d ≠ y → ((t.released y).released x).buf d = s.buf d := by
    intro d one two
    rw [released_buf, update_of_ne one, released_buf, update_of_ne two,
      pair.others d one two]
  refine ⟨locked, whole, .of_free (fun d => d = x ∨ d = y) ?_ ?_ ?_ start, ?_⟩
  · intro d other
    rw [not_or] at other
    exact others d other.1 other.2
  · rintro d (rfl | rfl)
    · exact pair.free.1
    · exact pair.free.2
  · rintro d (rfl | rfl)
    · simp [released_buf]
    · simp [released_buf, pair.distinct.symm]
  · rw [(released_log _ x).1, (released_log _ y).1, pair.log]

end Storage.Pair

theorem writeAll_append (first second : List DiskWrite) (m : Disk) :
    writeAll (first ++ second) m = writeAll second (writeAll first m) := by
  rw [writeAll, List.map_append, Crash.all_append]
  rfl

theorem writeAll_range_succ (write : Nat → DiskWrite) (n : Nat) (m : Disk) :
    writeAll ((List.range (n + 1)).map write) m =
      (write n).apply (writeAll ((List.range n).map write) m) := by
  rw [List.range_succ, List.map_append, writeAll_append]
  rfl

def Storage.Commits (s t : Storage) (m : Disk) (pins unsaved : List Nat) : Prop :=
  t.Caches m pins unsaved ∧ s.Frame t ∧ t.log = s.log

section

variable {s : Storage} {m : Disk} {pins unsaved : List Nat}

theorem wp_commits {prog : CacheM α} (before : s.Commits t m pins unsaved)
    (part : ∀ t : Storage, t.Caches m pins unsaved → t.log = s.log → t.start = s.start →
      wp prog (fun _ u => t.Commits u m' pins' unsaved) (fun _ => True) t) :
    wp prog (fun _ u => s.Commits u m' pins' unsaved) (fun _ => True) t := by
  obtain ⟨caches, frame, log⟩ := before
  exact wp_imp (part t caches log frame.start) fun _ u ⟨kept, rest, same⟩ =>
    ⟨kept, frame.trans rest, same.trans log⟩

theorem wp_copyToLog (caches : s.Caches m pins unsaved) (a c : Nat) :
    wp (do
        let to_ ← bread rootdev a
        let from_ ← bread rootdev c
        store to_ ((← get).buf from_).data
        bwrite to_
        brelse from_
        brelse to_)
      (fun _ t => s.Commits t (Function.update m a (m c)) pins unsaved) (fun _ => True) s := by
  rw [wp_bind]
  refine wp_imp (wp_bread caches a) fun x t ⟨middle, first⟩ => ?_
  rw [wp_bind]
  refine wp_imp (wp_bread middle c) fun y u ⟨both, second⟩ => ?_
  have pair := first.pair second
  have savedA := first.saved caches middle
  have savedC := second.saved middle both
  obtain ⟨copied, kept, -⟩ := pair.copy both savedA
  obtain ⟨locked, done⟩ := kept.release copied savedA savedC
  simp only [wp_bind, wp_get, store, wp_modify]
  refine wp_bwrite (by simpa [Storage.update] using pair.first.2) ?_
  refine wp_brelse kept.second.2 ?_
  exact wp_brelse locked done

theorem wp_install (caches : s.Caches m (c :: pins) unsaved) (last : c ∉ pins) : wp (do
        let lbuf ← bread rootdev a
        let dbuf ← bread rootdev c
        store dbuf ((← get).buf lbuf).data
        bwrite dbuf
        bunpin dbuf
        brelse lbuf
        brelse dbuf)
      (fun _ t => s.Commits t (Function.update m c (m a)) pins unsaved) (fun _ => True) s := by
  rw [wp_bind]
  refine wp_imp (wp_bread caches a) fun x t ⟨middle, first⟩ => ?_
  rw [wp_bind]
  refine wp_imp (wp_bread middle c) fun y u ⟨both, second⟩ => ?_
  have pair := (first.pair second).symm
  have savedC := second.saved middle both
  have savedA := first.saved caches middle
  obtain ⟨copied, kept, clean⟩ := pair.copy both savedC
  obtain ⟨loose, still⟩ := kept.unpin copied last clean
  obtain ⟨locked, done⟩ := still.release loose savedC savedA
  simp only [wp_bind, wp_get, store, wp_modify]
  refine wp_bwrite (by simpa [Storage.update] using pair.first.2) ?_
  simp only [bunpin, wp_modify]
  refine wp_brelse still.second.2 ?_
  exact wp_brelse locked done

theorem wp_writeLogBufs (caches : s.Caches m pins unsaved) :
    wp writeLogBufs (fun _ t => s.Commits t (writeAll (logStores s.start s.log.block) m) pins
      unsaved) (fun _ => True) s := by
  unfold writeLogBufs logStores
  rw [wp_bind, wp_get]
  -- After each turn the contents are those after as many of the log's writes.
  refine wp_upto (fun tail t => s.Commits t (writeAll ((List.range tail).map fun tail =>
    ⟨s.start + tail + 1, fun d => d (s.log.block.getD tail 0)⟩) m) pins unsaved)
    _ s ⟨caches, Storage.Frame.refl s, rfl⟩ ?_
  intro tail inside t reached
  refine wp_commits reached fun t caches log start => ?_
  rw [writeAll_range_succ]
  exact wp_copyToLog caches _ _

theorem wp_installTransBufs (caches : s.Caches m s.log.block unsaved)
    (nodup : s.log.block.Nodup) :
    wp installTransBufs (fun _ t => s.Commits t
      (writeAll (installTrans s.start s.log.block) m) [] unsaved) (fun _ => True) s := by
  unfold installTransBufs installTrans
  rw [wp_bind, wp_get]
  -- After each turn only the blocks that are still to be installed are pinned.
  refine wp_imp (wp_upto (fun tail t => s.Commits t (writeAll ((List.range tail).map fun tail =>
    ⟨s.log.block.getD tail 0, fun d => d (s.start + tail + 1)⟩) m) (s.log.block.drop tail) unsaved)
    s.log.block.length s ⟨caches, Storage.Frame.refl s, rfl⟩ ?_)
    fun _ t done => by rwa [List.drop_length] at done
  intro tail inside t reached
  have head : s.log.block.drop tail = s.log.block.getD tail 0 :: s.log.block.drop (tail + 1) := by
    rw [List.drop_eq_getElem_cons inside, List.getD_eq_getElem _ _ inside]
  have fresh : s.log.block.getD tail 0 ∉ s.log.block.drop (tail + 1) := by
    have whole := nodup.drop (i := tail)
    rw [head] at whole
    exact (List.nodup_cons.mp whole).1
  rw [head] at reached
  refine wp_commits reached fun t caches log start => ?_
  rw [writeAll_range_succ]
  exact wp_install caches fresh

theorem wp_writeHeadBuf (caches : s.Caches m pins unsaved) :
    wp writeHeadBuf (fun _ t => s.Commits t
      (writeAll [writeHead s.start s.log.block] m) pins unsaved) (fun _ => True) s := by
  unfold writeHeadBuf
  rw [wp_bind, wp_get, wp_bind]
  refine wp_imp (wp_bread caches s.start) fun b t ⟨read, reads⟩ => ?_
  have saved := reads.saved caches read
  have data : (t.buf b).data = m s.start := by
    rw [← reads.holds.2]
    exact (read.bufs b).holds reads.holds.1
  have stored := read.store reads.holds reads.locked (putHead t.log.block (t.buf b).data)
  have held : (t.update b fun buf =>
      { buf with data := putHead t.log.block (t.buf b).data }).Holds s.start b := by
    simpa [Storage.update, Storage.Holds] using reads.holds
  have locked : ((t.update b fun buf =>
      { buf with data := putHead t.log.block (t.buf b).data }).buf b).locked = true := by
    simpa [Storage.update] using reads.locked
  have written := stored.bwrite held locked
  rw [filter_ne_cons_self saved] at written
  simp only [wp_bind, wp_get, store, wp_modify]
  refine wp_bwrite locked ?_
  refine wp_brelse locked ?_
  have released := written.release (n := s.start) (b := b) held locked saved
  refine ⟨?_, .of_free (· = b) (fun c other => ?_) ?_ ?_ ?_, ?_⟩
  · have same : writeAll [writeHead s.start s.log.block] m =
        Function.update m s.start (putHead t.log.block (t.buf b).data) := by
      rw [data, reads.log]
      rfl
    rw [same]
    exact released
  · rw [Storage.released_buf, update_of_ne other]
    exact (update_of_ne other ..).trans (reads.others c other)
  · rintro c rfl
    exact reads.free
  · rintro c rfl
    simp [Storage.released_buf]
  · rw [(Storage.released_log _ b).2.1]
    exact reads.start
  · rw [(Storage.released_log _ b).1]
    exact reads.log

theorem wp_commitBufs (caches : s.Caches m s.log.block unsaved) (nodup : s.log.block.Nodup) :
    wp commitBufs (fun _ t => t.Caches (writeAll (commitStores s.start s.log.block) m) [] unsaved ∧
      s.Frame t ∧ t.log = s.log.commit) (fun _ => True) s := by
  unfold commitBufs commitStores
  rw [wp_bind, wp_get]
  split
  · rw [writeAll_append, writeAll_append, writeAll_append, wp_bind]
    refine wp_imp (wp_writeLogBufs caches) fun _ t logged => ?_
    generalize writeAll (logStores s.start s.log.block) m = m₁ at logged ⊢
    rw [wp_bind]
    have head : wp writeHeadBuf (fun _ u => s.Commits u (writeAll [writeHead s.start s.log.block]
        m₁) s.log.block unsaved) (fun _ => True) t := by
      refine wp_commits logged fun t caches log start => ?_
      rw [← log] at caches ⊢
      rw [← start]
      exact wp_writeHeadBuf caches
    refine wp_imp head fun _ u committed => ?_
    have install : wp installTransBufs (fun _ v => s.Commits v (writeAll
        (installTrans s.start s.log.block) (writeAll [writeHead s.start s.log.block] m₁))
        [] unsaved) (fun _ => True) u := by
      refine wp_commits committed fun u caches log start => ?_
      rw [← start, ← log] at caches ⊢
      exact wp_installTransBufs caches (by rwa [log])
    rw [wp_bind]
    refine wp_imp install fun _ v ⟨installed, frame, log⟩ => ?_
    rw [wp_bind, wp_modify]
    -- The header is empty in memory by now, and the last write clears it on disk.
    refine wp_imp (wp_writeHeadBuf (installed.withLog v.log.commit)) fun _ w ⟨done, rest, same⟩ => ?_
    refine ⟨?_, ?_, ?_⟩
    · rw [frame.start] at done
      exact done
    · exact frame.trans ⟨rest.held, rest.unlocked, rest.start⟩
    · rw [same, log]
  · rename_i none
    have empty : s.log.block = [] := List.eq_nil_of_length_eq_zero (by omega)
    rw [wp_pure]
    refine ⟨?_, Storage.Frame.refl s, ?_⟩
    · rw [empty] at caches
      exact caches
    · simp only [Log.commit, ← empty]

end

structure CacheUse.Stands (start : Nat) (s : CacheUse) (m : BlockStore) : Prop where
  caches : s.storage.Caches m.contents m.log.block s.unsaved
  log : s.storage.log = m.log
  start : s.storage.start = start
  nodup : m.log.block.Nodup
  few : m.log.block.length ≤ logblocks
  held : ∀ n b, s.held n = some b ↔ s.storage.Holds n b ∧ (s.storage.buf b).locked = true

theorem binit_linked (disk : Disk) (start : Nat) : (binit disk start).Linked := by
  refine ⟨(List.finRange nbuf).reverse, ?_, by simp⟩
  -- Each turn of the loop puts the next buffer in front of those linked in before it.
  have loop : ∀ (bs order : List (Fin nbuf)) (l : Ring.Links (Option (Fin nbuf))),
      l.Lists none (order.map some) → (order.reverse ++ bs).Nodup →
      (bs.foldl (fun l b => l.pushFront none (some b)) l).Lists none
        ((bs.reverse ++ order).map some) := by
    intro bs
    induction bs with
    | nil => exact fun order l lists _ => lists
    | cons b bs ih =>
      intro order l lists nodup
      have fresh : b ∉ order := by
        intro inside
        exact (List.nodup_append.mp nodup).2.2 b (List.mem_reverse.mpr inside) b
          (List.mem_cons_self ..) rfl
      have front := lists.pushFront (b := some b) (by simpa using fresh)
      have rest := ih (b :: order) (l.pushFront none (some b)) front (by simpa using nodup)
      simpa using rest
  have empty : Ring.Links.Lists (⟨fun _ => none, fun _ => none⟩ : Ring.Links (Option (Fin nbuf)))
      none ([].map some) := ⟨⟨rfl, rfl⟩, by simp⟩
  simpa [binit] using loop (List.finRange nbuf) [] _ empty (by simpa using List.nodup_finRange nbuf)

theorem CacheUse.start_stands (disk : Disk) (start : Nat) :
    (CacheUse.start disk start).Stands start ⟨disk, ⟨[], 0, false⟩⟩ := by
  have unused : ∀ n b, ¬(binit disk start).Holds n b := by
    rintro n b ⟨root, -⟩
    cases root
  refine ⟨⟨binit_linked disk start, ?_, ?_, fun _ _ => rfl, by simp, by simp [CacheUse.start]⟩,
    rfl, rfl, List.nodup_nil, Nat.zero_le _, ?_⟩
  · intro b
    refine ⟨?_, ?_, ?_, ?_, ?_, ?_⟩ <;> simp [CacheUse.start, binit, rootdev]
  · exact fun n b c one => absurd one (unused n b)
  · intro n b
    simp [CacheUse.start, binit]

section

variable {start : Nat} {s t : CacheUse} {m : BlockStore}

theorem CacheUse.run_post {op : CacheM α} {a : α} {post : α → Storage → Prop}
    (rule : wp op post abort s.storage) (ran : s.run op = some (a, t)) :
    post a t.storage ∧ t.held = s.held ∧ t.unsaved = s.unsaved := by
  unfold CacheUse.run at ran
  cases outcome : op s.storage with
  | error e => simp [outcome] at ran
  | ok result =>
    simp only [outcome] at ran
    obtain ⟨rfl, rfl⟩ := ran
    exact ⟨wp_ok rule outcome, rfl, rfl⟩

theorem CacheUse.Stands.held_frame (stands : s.Stands start m) (frame : s.storage.Frame t.storage)
    (held : t.held = s.held) (n : Nat) (b : Fin nbuf) :
    t.held n = some b ↔ t.storage.Holds n b ∧ (t.storage.buf b).locked = true := by
  rw [held, stands.held]
  constructor
  · rintro ⟨holds, locked⟩
    have same := frame.held b locked
    exact ⟨by simpa only [Storage.Holds, same] using holds, by rw [same]; exact locked⟩
  · rintro ⟨holds, locked⟩
    have before := frame.unlocked b locked
    have same := frame.held b before
    exact ⟨by simpa only [Storage.Holds, same] using holds, before⟩

theorem CacheUse.Stands.beginOp (stands : s.Stands start m) (done : s.next .beginOp = some t) :
    ∃ m', m.next start .beginOp = some m' ∧ t.Stands start m' := by
  obtain ⟨⟨_, t'⟩, ran, rfl⟩ := Option.map_eq_some_iff.mp done
  have rule : wp Xv6.beginOp (fun _ u => ∃ log, s.storage.log.beginOp = some log ∧
      u = { s.storage with log }) (fun _ => True) s.storage := by
    unfold Xv6.beginOp
    rw [wp_bind, wp_get]
    cases began : s.storage.log.beginOp with
    | none => simp only [wp_throw]
    | some log => simpa only [wp_set] using ⟨log, rfl, rfl⟩
  obtain ⟨⟨log, began, after⟩, held, unsaved⟩ := CacheUse.run_post rule ran
  have block : log.block = m.log.block := by
    rw [stands.log] at began
    unfold Log.beginOp at began
    split_ifs at began
    cases began
    rfl
  refine ⟨{ m with log }, ?_, ?_⟩
  · rw [BlockStore.next, ← stands.log, began]
    rfl
  · refine ⟨?_, by simp [after], by simp [after, stands.start], by rw [block]; exact stands.nodup,
      by rw [block]; exact stands.few, ?_⟩
    · rw [after, unsaved, block]
      exact stands.caches.withLog log
    · refine stands.held_frame ?_ held
      rw [after]
      exact ⟨fun _ _ => rfl, fun _ same => same, rfl⟩

theorem CacheUse.Stands.endOp (stands : s.Stands start m) (done : s.next .endOp = some t) :
    ∃ m', m.next start .endOp = some m' ∧ t.Stands start m' := by
  obtain ⟨⟨_, t'⟩, ran, rfl⟩ := Option.map_eq_some_iff.mp done
  have rule : wp Xv6.endOp (fun _ u => ∃ m', m.next start .endOp = some m' ∧
      u.Caches m'.contents m'.log.block s.unsaved ∧ u.log = m'.log ∧ m'.log.block.Nodup ∧
      m'.log.block.length ≤ logblocks ∧ s.storage.Frame u) (fun _ => True) s.storage := by
    unfold Xv6.endOp
    rw [wp_bind, wp_get, stands.log]
    cases ended : m.log.endOp with
    | error e => simp only [wp_throw]
    | ok result =>
      obtain ⟨log, doCommit⟩ := result
      have block : log.block = m.log.block := Log.endOp_block ended
      simp only [wp_bind, wp_set]
      have caches : Storage.Caches { s.storage with log } m.contents log.block s.unsaved := by
        rw [block]
        exact stands.caches.withLog log
      have nodup : log.block.Nodup := by rw [block]; exact stands.nodup
      cases doCommit with
      | false =>
        simp only [Bool.false_eq_true, if_false, wp_pure]
        exact ⟨{ m with log }, by rw [BlockStore.next, ended], caches, rfl, nodup,
          by rw [block]; exact stands.few, fun _ _ => rfl, fun _ same => same, rfl⟩
      | true =>
        simp only [if_true, wp_bind, wp_modify]
        refine wp_imp (wp_commitBufs (s := { s.storage with log }) caches nodup)
          fun _ u after => ?_
        obtain ⟨committed, frame, same⟩ := after
        refine ⟨⟨writeAll (commitStores start log.block) m.contents, log.commit.endCommit⟩,
          by rw [BlockStore.next, ended], ?_, by simp [same], List.nodup_nil, Nat.zero_le _,
          ?_⟩
        · rw [← stands.start]
          exact committed.withLog _
        · exact ⟨frame.held, frame.unlocked, frame.start⟩
  obtain ⟨⟨m', next, caches, log, nodup, few, frame⟩, held, unsaved⟩ := CacheUse.run_post rule ran
  refine ⟨m', next, by rw [unsaved]; exact caches, log, ?_, nodup, few,
    stands.held_frame frame held⟩
  rw [frame.start, stands.start]

theorem CacheUse.Stands.held_same (stands : s.Stands start m)
    (same : ∀ c, (t.storage.buf c).dev = (s.storage.buf c).dev ∧
      (t.storage.buf c).blockno = (s.storage.buf c).blockno ∧
      (t.storage.buf c).locked = (s.storage.buf c).locked)
    (held : t.held = s.held) (n : Nat) (b : Fin nbuf) :
    t.held n = some b ↔ t.storage.Holds n b ∧ (t.storage.buf b).locked = true := by
  obtain ⟨dev, blockno, locked⟩ := same b
  rw [held, stands.held, Storage.Holds, Storage.Holds, dev, blockno, locked]

theorem CacheUse.Stands.bread (stands : s.Stands start m) (done : s.next (.bread n) = some t) :
    t.Stands start m := by
  obtain ⟨⟨b, u⟩, ran, rfl⟩ := Option.map_eq_some_iff.mp done
  obtain ⟨⟨caches, reads⟩, held, unsaved⟩ := CacheUse.run_post (wp_bread stands.caches n) ran
  refine ⟨by rw [← unsaved] at caches; exact caches, reads.log.trans stands.log,
    reads.start.trans stands.start, stands.nodup, stands.few, ?_⟩
  intro k c
  simp only [held]
  by_cases block : k = n
  · subst block
    rw [update_self, Option.some.injEq]
    constructor
    · rintro rfl
      exact ⟨reads.holds, reads.locked⟩
    · rintro ⟨has, -⟩
      exact caches.unique k b c reads.holds has
  · rw [update_of_ne block, stands.held]
    by_cases buffer : c = b
    · subst buffer
      constructor
      · rintro ⟨-, locked⟩
        rw [reads.free] at locked
        cases locked
      · rintro ⟨has, -⟩
        exact absurd (has.2.symm.trans reads.holds.2) block
    · simp only [Storage.Holds, reads.others c buffer]

theorem CacheUse.Stands.of_held {op : Fin nbuf → CacheM Unit} {f : CacheUse → CacheUse}
    (stands : s.Stands start m) (done : s.onHeld n op f = some t) :
    ∃ b u, s.storage.Holds n b ∧ (s.storage.buf b).locked = true ∧
      s.run (op b) = some ((), u) ∧ t = f u := by
  obtain ⟨b, holding, ran⟩ := Option.bind_eq_some_iff.mp done
  obtain ⟨⟨_, u⟩, ran, same⟩ := Option.map_eq_some_iff.mp ran
  obtain ⟨holds, locked⟩ := (stands.held n b).mp holding
  exact ⟨b, u, holds, locked, ran, same.symm⟩

theorem CacheUse.Stands.store {data : Block} (stands : s.Stands start m)
    (done : s.next (.store n data) = some t) :
    t.Stands start { m with contents := Function.update m.contents n data } := by
  rw [CacheUse.next] at done
  obtain ⟨b, u, holds, locked, ran, rfl⟩ := stands.of_held done
  have rule : wp (Xv6.store b data) (fun _ v => v = s.storage.update b fun buf =>
      { buf with data := data }) (fun _ => True) s.storage := by
    unfold Xv6.store
    rw [wp_modify]
  obtain ⟨after, held, unsaved⟩ := CacheUse.run_post rule ran
  refine ⟨?_, by simp only [after]; exact stands.log, by simp only [after]; exact stands.start,
    stands.nodup, stands.few, ?_⟩
  · simp only [after, unsaved]
    exact stands.caches.store holds locked data
  · refine stands.held_same ?_ held
    intro c
    by_cases same : c = b
    · subst same
      simp [after, Storage.update]
    · simp [after, Storage.update, same]

theorem CacheUse.Stands.bwrite (stands : s.Stands start m) (done : s.next (.bwrite n) = some t) :
    t.Stands start m := by
  rw [CacheUse.next] at done
  obtain ⟨b, u, holds, locked, ran, rfl⟩ := stands.of_held done
  have rule : wp (Xv6.bwrite b) (fun _ v => v = { s.storage with
      disk := Function.update s.storage.disk (s.storage.buf b).blockno (s.storage.buf b).data })
      (fun _ => True) s.storage := wp_bwrite locked rfl
  obtain ⟨after, held, unsaved⟩ := CacheUse.run_post rule ran
  refine ⟨?_, by simp only [after]; exact stands.log, by simp only [after]; exact stands.start,
    stands.nodup, stands.few, stands.held_same (fun c => by simp [after]) held⟩
  simp only [after, unsaved]
  exact stands.caches.bwrite holds locked

theorem CacheUse.Stands.brelse (stands : s.Stands start m) (done : s.next (.brelse n) = some t) :
    t.Stands start m := by
  simp only [CacheUse.next] at done
  split_ifs at done with changed
  obtain ⟨b, u, holds, locked, ran, rfl⟩ := stands.of_held done
  have rule : wp (Xv6.brelse b) (fun _ v => v = s.storage.released b) (fun _ => True) s.storage :=
    wp_brelse locked rfl
  obtain ⟨after, held, unsaved⟩ := CacheUse.run_post rule ran
  obtain ⟨log, at_, -⟩ := s.storage.released_log b
  refine ⟨?_, by simp only [after, log]; exact stands.log,
    by simp only [after, at_]; exact stands.start, stands.nodup, stands.few, ?_⟩
  · simp only [after, unsaved]
    exact stands.caches.release holds locked changed
  · intro k c
    simp only [after, held, Storage.Holds, Storage.released_buf]
    by_cases block : k = n
    · subst block
      rw [update_self]
      simp only [reduceCtorEq, false_iff, not_and]
      intro has
      -- Any other buffer would be a second one for the block.
      by_cases buffer : c = b
      · subst buffer
        simp
      · rw [update_of_ne buffer] at has
        exact absurd (stands.caches.unique k c b has holds) buffer
    · rw [update_of_ne block, stands.held]
      by_cases buffer : c = b
      · subst buffer
        have other : (s.storage.buf c).blockno ≠ k := fun same => block (same.symm.trans holds.2)
        simp [Storage.Holds, other]
      · rw [update_of_ne buffer, Storage.Holds]

theorem CacheUse.Stands.logWrite (stands : s.Stands start m)
    (done : s.next (.logWrite n) = some t) :
    ∃ m', m.next start (.logWrite n) = some m' ∧ t.Stands start m' := by
  rw [CacheUse.next] at done
  obtain ⟨b, u, holds, locked, ran, rfl⟩ := stands.of_held done
  have rule : wp (logWriteBuf b) (fun _ v => ∃ log, m.log.logWrite n = .ok log ∧
      v.Caches m.contents log.block (s.unsaved.filter (· ≠ n)) ∧ v.log = log ∧
      v.start = s.storage.start ∧ ∀ c, (v.buf c).dev = (s.storage.buf c).dev ∧
        (v.buf c).blockno = (s.storage.buf c).blockno ∧
        (v.buf c).locked = (s.storage.buf c).locked) (fun _ => True) s.storage := by
    unfold logWriteBuf
    rw [wp_bind, wp_get, holds.2, stands.log]
    cases wrote : m.log.logWrite n with
    | error e => simp only [wp_throw]
    | ok log =>
      obtain ⟨-, -, ⟨absorbed, rfl⟩ | ⟨fresh, rfl⟩⟩ := Log.logWrite_ok wrote
      · simp only [absorbed, not_true, if_false, wp_modify]
        exact ⟨m.log, rfl, (stands.caches.saved absorbed).withLog _, by simp⟩
      · simp only [fresh, not_false_eq_true, if_true, wp_bind, bpin, wp_modify]
        refine ⟨_, rfl, ?_, rfl, rfl, ?_⟩
        · exact ((stands.caches.pin holds fresh).saved (by simp)).withLog _
        · intro c
          by_cases same : c = b
          · subst same
            simp [Storage.update]
          · simp [Storage.update, same]
  obtain ⟨⟨log, wrote, caches, same, at_, bufs⟩, held, unsaved⟩ := CacheUse.run_post rule ran
  refine ⟨{ m with log }, by rw [BlockStore.next, wrote]; rfl, ?_⟩
  have few : log.block.length ≤ logblocks := by
    obtain ⟨room, -, ⟨-, rfl⟩ | ⟨-, rfl⟩⟩ := Log.logWrite_ok wrote
    · exact stands.few
    · rw [List.length_append]
      exact room
  exact ⟨by simp only [unsaved]; exact caches, same, at_.trans stands.start,
    Log.logWrite_nodup stands.nodup wrote, few, stands.held_same bufs held⟩

theorem CacheUse.Stands.step {e : CacheEvent} (stands : s.Stands start m) (done : s.Step e t) :
    ∃ m', m.next start e = some m' ∧ t.Stands start m' := by
  cases e with
  | beginOp => exact stands.beginOp done
  | endOp => exact stands.endOp done
  | bread n => exact ⟨m, rfl, stands.bread done⟩
  | store n data => exact ⟨_, rfl, stands.store done⟩
  | logWrite n => exact stands.logWrite done
  | bwrite n => exact ⟨m, rfl, stands.bwrite done⟩
  | brelse n => exact ⟨m, rfl, stands.brelse done⟩

end

structure LogCopies (start : Nat) (block : List Nat) (m : Disk) (count : Nat) (d : Disk) : Prop where
  home : ∀ b, Home start b → d b = m b
  logged : ∀ tail < count, d (start + tail + 1) = m (block.getD tail 0)

section

variable {start : Nat} {block : List Nat} {m : Disk} (few : block.length ≤ logblocks)
  (home : ∀ b ∈ block, Home start b)
include few home

theorem commitStores_home {b : Nat} (outside : Home start b) :
    writeAll (commitStores start block) m b = m b := by
  have listed : ∀ {tail}, tail < block.length → Home start (block.getD tail 0) := by
    intro tail inside
    rw [List.getD_eq_getElem _ _ inside]
    exact home _ (List.getElem_mem inside)
  have header : ∀ {list d}, LogCopies start block m block.length d →
      LogCopies start block m block.length ((writeHead start list).apply d) := by
    intro list d copies
    refine ⟨?_, ?_⟩
    · intro b home
      rw [← copies.home b home]
      exact update_of_ne (by unfold Home at home; simp only [writeHead]; omega) ..
    · intro tail low
      rw [← copies.logged tail low]
      exact update_of_ne (by simp only [writeHead]; omega) ..
  -- Filling the log copies the home blocks, one more with each turn.
  have filled : LogCopies start block m block.length (writeAll (logStores start block) m) := by
    rw [writeAll, logStores, List.map_map]
    refine Crash.all_loop (LogCopies start block m) ?_
      ⟨fun _ _ => rfl, fun _ none => absurd none (Nat.not_lt_zero _)⟩
    intro count d inside copies
    refine ⟨?_, ?_⟩
    · intro b home
      rw [← copies.home b home]
      exact update_of_ne (by unfold Home at home; dsimp only; omega) ..
    · intro tail low
      rcases Nat.lt_succ_iff_lt_or_eq.mp low with earlier | rfl
      · rw [← copies.logged tail earlier]
        exact update_of_ne (by dsimp only; omega) ..
      · rw [← copies.home _ (listed inside)]
        exact update_self ..
  -- Installing it stores in each home block the copy that was taken of it.
  have installed : ∀ {d}, LogCopies start block m block.length d →
      LogCopies start block m block.length (writeAll (installTrans start block) d) := by
    intro d copies
    rw [writeAll, installTrans, List.map_map]
    refine Crash.all_loop (fun _ => LogCopies start block m block.length) ?_ copies
    intro count d inside copies
    refine ⟨?_, ?_⟩
    · intro b home
      by_cases same : b = block.getD count 0
      · subst same
        rw [← copies.logged count inside]
        exact update_self ..
      · rw [← copies.home b home]
        exact update_of_ne same ..
    · intro tail low
      rw [← copies.logged tail low]
      refine update_of_ne ?_ ..
      have apart := listed inside
      unfold Home at apart
      dsimp only
      omega
  unfold commitStores
  split
  · simp only [writeAll_append]
    exact (header (installed (header filled))).home b outside
  · rfl

end

/--
The buffer cache is transparent.

Whatever calls clients make, their run is a run of a plain store of blocks. No block of the disk
has two buffers, the list links every buffer once, a buffer that differs from the disk is in use,
and a read returns what was stored last. The commits among the calls leave home blocks as they are.
-/
theorem cache_transparent {disk : Disk} {start : Nat} {es : List CacheEvent} {s : CacheUse}
    (ran : Trace.Run CacheUse.Step (CacheUse.start disk start) es s) :
    (∀ n b c, s.storage.Holds n b → s.storage.Holds n c → b = c) ∧
      s.storage.Linked ∧
      (∀ b, (s.storage.buf b).valid = true →
        (s.storage.buf b).data ≠ s.storage.disk (s.storage.buf b).blockno →
        0 < (s.storage.buf b).refcnt) ∧
      ∃ m, Trace.Run (BlockStore.Step start) ⟨disk, ⟨[], 0, false⟩⟩ es m ∧
        (∀ n b t, bread rootdev n s.storage = .ok (b, t) → (t.buf b).data = m.contents n) ∧
        ∀ m', m.next start .endOp = some m' → (∀ b ∈ m.log.block, Home start b) →
          ∀ b, Home start b → m'.contents b = m.contents b := by
  obtain ⟨m, matched, stands⟩ := ran.simulation (CacheUse.Stands start)
    (fun _ _ _ _ stands step => stands.step step) _ (CacheUse.start_stands disk start)
  have caches := stands.caches
  refine ⟨caches.unique, caches.linked, ?_, m, matched, ?_, ?_⟩
  · -- An unused buffer is neither locked nor pinned, so nothing about it is unsaved.
    intro b valid differs
    by_contra idle
    obtain ⟨-, unused⟩ := (caches.bufs b).unused (Nat.eq_zero_of_not_pos idle)
    exact differs (unused ((caches.bufs b).valid.mp valid)).2.2
  · intro n b t returned
    obtain ⟨after, reads⟩ := wp_ok (wp_bread caches n) returned
    rw [← reads.holds.2]
    exact (after.bufs b).holds reads.holds.1
  · intro m' next home b outside
    simp only [BlockStore.next] at next
    split at next
    · cases next
    · cases next
      rfl
    · rename_i log ended
      cases next
      have block : log.block = m.log.block := Log.endOp_block ended
      exact commitStores_home (by rw [block]; exact stands.few) (by rwa [block]) outside

/-- Two blocks are changed, one is logged and one is written, and the call commits. -/
theorem cache_transparent_commit :
    ∃ s, Trace.Run CacheUse.Step (CacheUse.start (fun _ _ => 0) 2)
        [.beginOp, .bread 50, .store 50 fun _ => 1, .logWrite 50, .brelse 50, .bread 60,
          .store 60 fun _ => 2, .bwrite 60, .brelse 60, .endOp] s ∧
      s.storage.Linked ∧ ∀ n b c, s.storage.Holds n b → s.storage.Holds n c → b = c := by
  have computed : (Trace.steps CacheUse.next (CacheUse.start (fun _ _ => 0) 2)
      [.beginOp, .bread 50, .store 50 fun _ => 1, .logWrite 50, .brelse 50, .bread 60,
        .store 60 fun _ => 2, .bwrite 60, .brelse 60, .endOp]).isSome = true := by
    decide +kernel
  obtain ⟨s, reached⟩ := Option.isSome_iff_exists.mp computed
  have ran : Trace.Run CacheUse.Step (CacheUse.start (fun _ _ => 0) 2) _ s :=
    Trace.Run.of_steps (fun _ _ _ one => one) reached
  obtain ⟨unique, linked, -⟩ := cache_transparent ran
  exact ⟨s, ran, linked, unique⟩

end Xv6
