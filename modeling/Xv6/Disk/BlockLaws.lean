import Xv6.Disk.BlockWrites

/-! Every block of a file has one owner, whatever is read, written, truncated or freed. -/

namespace Xv6.Blocks

open Prog
open Function (update update_self update_of_ne update_eq_self)

variable {b n : Nat} {post : Unit → Volume → Prop} {table : Nat → Nat} {after before : Nat → Bool}
  {ip : Dinode} {v' : Volume} {valid : Bool}

section Truncation

variable {v : Volume} {inum : Nat} {abort : BlockPanic → Prop}

theorem wp_bfree (used : v.used b = true)
    (done : post () { v with used := update v.used b false }) :
    wp (bfree b) post abort v := by
  simpa [bfree, used] using done

def Volume.remake (v : Volume) (inum : Nat) (used : Nat → Bool) (ip : Dinode) : Volume :=
  { v with used := used, inodes := update v.inodes inum ip }

def Cleared (table : Nat → Nat) (n : Nat) (before after : Nat → Bool) : Prop :=
  ∀ b, after b = true ↔ before b = true ∧ ∀ i < n, table i ≠ 0 → table i ≠ b

theorem Cleared.step (cleared : Cleared table n before after) (nonzero : table n ≠ 0) :
    Cleared table (n + 1) before (update after (table n) false) := by
  intro b
  by_cases same : b = table n
  · subst same
    rw [update_self]
    simp only [Bool.false_eq_true, false_iff, not_and, not_forall]
    exact fun _ => ⟨n, by omega, nonzero, fun apart => apart rfl⟩
  · rw [update_of_ne same, cleared b]
    refine and_congr_right fun _ => ⟨fun apart i below there => ?_, fun apart i below => ?_⟩
    · by_cases last : i = n
      · rw [last]
        exact Ne.symm same
      · exact apart i (by omega) there
    · exact apart i (by omega)

theorem Cleared.skip (cleared : Cleared table n before after) (empty : table n = 0) :
    Cleared table (n + 1) before after := by
  intro b
  rw [cleared b]
  refine and_congr_right fun _ => ⟨fun apart i below there => ?_, fun apart i below => ?_⟩
  · by_cases last : i = n
    · rw [last] at there
      exact absurd empty there
    · exact apart i (by omega) there
  · exact apart i (by omega)

theorem Cleared.marked (cleared : Cleared table n before after) (used : before b = true)
    (apart : ∀ i < n, table i ≠ 0 → table i ≠ b) : after b = true :=
  (cleared b).mpr ⟨used, apart⟩

def Dinode.emptied (ip : Dinode) (n : Nat) : Dinode :=
  { ip with addrs := fun i => if i < n then 0 else ip.addrs i }

theorem Dinode.emptied_setAddr (ip : Dinode) (n : Nat) :
    (ip.emptied n).setAddr n 0 = ip.emptied (n + 1) := by
  unfold Dinode.emptied Dinode.setAddr
  congr 1
  funext k
  by_cases same : k = n
  · simp [same]
  · have next : k < n + 1 ↔ k < n := by omega
    simp only [update_of_ne same, next]

theorem Dinode.emptied_of_empty (empty : ip.addrs n = 0) : ip.emptied n = ip.emptied (n + 1) := by
  unfold Dinode.emptied
  congr 1
  funext k
  by_cases same : k = n
  · simp [same, empty]
  · have next : k < n + 1 ↔ k < n := by omega
    simp only [next]

theorem wp_freeDirect (sound : v.Sound) (allocated : v.Allocated inum)
    (done : ∀ used, Cleared (v.inodes inum).addrs ndirect v.used used →
      post () (v.remake inum used ((v.inodes inum).emptied ndirect))) :
    wp (Prog.upto ndirect (freeDirect inum)) post abort v := by
  refine wp_imp (wp_upto (fun n v' => ∃ used, Cleared (v.inodes inum).addrs n v.used used ∧
    v' = v.remake inum used ((v.inodes inum).emptied n)) ndirect v ?_ ?_) ?_
  · refine ⟨v.used, fun b => by simp, ?_⟩
    have same : (v.inodes inum).emptied 0 = v.inodes inum := by simp [Dinode.emptied]
    rw [same, Volume.remake, update_eq_self]
  · rintro i below v' ⟨used, cleared, rfl⟩
    have addr : ((v.remake inum used ((v.inodes inum).emptied i)).inodes inum).addrs i =
        (v.inodes inum).addrs i := by
      simp [Volume.remake, Dinode.emptied]
    unfold freeDirect
    simp only [wp_bind, wp_get, addr]
    by_cases empty : (v.inodes inum).addrs i = 0
    · rw [if_neg (not_not_intro empty), wp_pure, Dinode.emptied_of_empty empty]
      exact ⟨used, cleared.skip empty, rfl⟩
    · -- No earlier place holds the same block, so it is still marked.
      have here : v.held (inum, .direct i) = some ((v.inodes inum).addrs i) :=
        Volume.held_eq_some.mpr ⟨allocated, by simp [Volume.number, below], empty⟩
      have marked : used ((v.inodes inum).addrs i) = true := by
        refine cleared.marked (sound.owned.marked here).1 fun k low there same => ?_
        have other : v.held (inum, .direct k) = some ((v.inodes inum).addrs i) :=
          Volume.held_eq_some.mpr
            ⟨allocated, by simp [Volume.number, Nat.lt_trans low below, same], empty⟩
        have slot := (Prod.mk.inj (sound.owned.once other here)).2
        injection slot
        omega
      rw [if_pos empty, wp_bind]
      refine wp_bfree marked ?_
      simp only [modifyInode, wp_modify]
      refine ⟨_, cleared.step empty, ?_⟩
      simp only [Volume.remake, update_self, Function.update_idem, Dinode.emptied_setAddr]
  · rintro _ v' ⟨used, cleared, rfl⟩
    exact done used cleared

theorem wp_freeEntries {table : Block}
    (marked : ∀ j < nindirect, readWord table j ≠ 0 → before (readWord table j) = true)
    (distinct : ∀ i < nindirect, ∀ j < nindirect, readWord table i ≠ 0 →
      readWord table i = readWord table j → i = j)
    (done : ∀ used, Cleared (readWord table) nindirect before used →
      post () (v.remake inum used ip)) :
    wp (Prog.upto nindirect (freeEntry table)) post abort (v.remake inum before ip) := by
  refine wp_imp (wp_upto (fun n v' => ∃ used, Cleared (readWord table) n before used ∧
    v' = v.remake inum used ip) nindirect _ ?_ ?_) ?_
  · exact ⟨before, fun b => by simp, rfl⟩
  · rintro j below v' ⟨used, cleared, rfl⟩
    unfold freeEntry
    by_cases empty : readWord table j = 0
    · rw [if_neg (not_not_intro empty), wp_pure]
      exact ⟨used, cleared.skip empty, rfl⟩
    · have still : used (readWord table j) = true := by
        refine cleared.marked (marked j below empty) fun k low there same => ?_
        have equal := distinct k (by omega) j below there same
        omega
      rw [if_pos empty]
      exact wp_bfree still ⟨_, cleared.step empty, rfl⟩
  · rintro _ v' ⟨used, cleared, rfl⟩
    exact done used cleared

structure Volume.Truncates (v : Volume) (inum : Nat) (v' : Volume) : Prop where
  size : v'.size = v.size
  nblocks : v'.nblocks = v.nblocks
  ninodes : v'.ninodes = v.ninodes
  blocks : v'.blocks = v.blocks
  others : ∀ i, i ≠ inum → v'.inodes i = v.inodes i ∧ v'.dinodes i = v.dinodes i
  saved : v'.dinodes inum = v'.inodes inum
  empty : (v'.inodes inum).size = 0 ∧ ∀ i ≤ ndirect, (v'.inodes inum).addrs i = 0
  used : ∀ b, v'.used b = true ↔ v.used b = true ∧ ∀ p, v.held (inum, p) ≠ some b

theorem Volume.Truncates.number (truncates : v.Truncates inum v') (p : Place) :
    v'.number inum p = 0 := by
  have empty := truncates.empty.2
  cases p with
  | direct i =>
    simp only [Volume.number]
    split
    · exact empty i (by omega)
    · rfl
  | indirect => exact empty ndirect (Nat.le_refl _)
  | entry j => simp [Volume.number, empty ndirect (Nat.le_refl _)]

theorem Volume.Truncates.consistent (truncates : v.Truncates inum v') (consistent : v.Consistent) :
    v'.Consistent := by
  have before : ∀ i, i ≠ inum → v'.Allocated i → v.Allocated i := by
    intro i other inUse
    unfold Volume.Allocated at inUse ⊢
    rwa [truncates.ninodes, (truncates.others i other).1] at inUse
  have numbers : ∀ i, i ≠ inum → ∀ p, v'.number i p = v.number i p := by
    intro i other p
    have same : (v'.inodes i).addrs = (v.inodes i).addrs := by rw [(truncates.others i other).1]
    exact Volume.number_congr same (fun _ => by rw [truncates.blocks]) p
  have held : ∀ slot b, v'.held slot = some b → slot.1 ≠ inum ∧ v.held slot = some b := by
    intro slot b here
    obtain ⟨inUse, number, isBlock⟩ := Volume.held_eq_some.mp here
    have other : slot.1 ≠ inum := by
      intro same
      rw [same, truncates.number] at number
      exact isBlock number.symm
    rw [numbers _ other] at number
    exact ⟨other, Volume.held_eq_some.mpr ⟨before _ other inUse, number, isBlock⟩⟩
  refine ⟨⟨?_, ?_, ?_, ?_, ?_, ?_⟩, ?_⟩
  · rw [truncates.size]
    exact consistent.fits
  · rw [truncates.size, truncates.nblocks]
    exact consistent.before
  · intro b low
    rw [truncates.size, truncates.nblocks] at low
    refine (truncates.used b).mpr ⟨consistent.metadata b low, fun p here => ?_⟩
    have data := (consistent.owned.marked here).2.1
    omega
  · refine consistent.owned.shrink fun {slot b} here => ?_
    obtain ⟨other, there⟩ := held slot b here
    obtain ⟨used, low, high⟩ := consistent.owned.marked there
    refine ⟨there, (truncates.used b).mpr ⟨used, fun p mine => ?_⟩, ?_, ?_⟩
    · exact other (congrArg Prod.fst (consistent.owned.once there mine))
    · rwa [truncates.size, truncates.nblocks]
    · rwa [truncates.size]
  · intro i inUse bn inside
    by_cases same : i = inum
    · rw [same, truncates.empty.1] at inside
      omega
    · rw [(truncates.others i same).1] at inside
      rw [numbers i same]
      exact consistent.whole i (before i same inUse) bn inside
  · intro i inUse
    by_cases same : i = inum
    · rw [same, truncates.empty.1]
      omega
    · rw [(truncates.others i same).1]
      exact consistent.limit i (before i same inUse)
  · intro i
    by_cases same : i = inum
    · rw [same, truncates.saved]
    · rw [(truncates.others i same).1, (truncates.others i same).2]
      exact consistent.saved i

theorem Volume.unheld_iff (allocated : v.Allocated inum) (b : Nat) :
    (∀ p, v.held (inum, p) ≠ some b) ↔
      (∀ i < ndirect, (v.inodes inum).addrs i ≠ 0 → (v.inodes inum).addrs i ≠ b) ∧
      ((v.inodes inum).addrs ndirect ≠ 0 → (v.inodes inum).addrs ndirect ≠ b ∧
        ∀ j < nindirect, readWord (v.blocks ((v.inodes inum).addrs ndirect)) j ≠ 0 →
          readWord (v.blocks ((v.inodes inum).addrs ndirect)) j ≠ b) := by
  constructor
  · intro apart
    refine ⟨fun i below there same => ?_, fun table => ⟨fun same => ?_, fun j inside there same => ?_⟩⟩
    · refine apart (.direct i) (Volume.held_eq_some.mpr ⟨allocated, ?_, same ▸ there⟩)
      simpa only [Volume.number, below, if_true] using same
    · exact apart .indirect (Volume.held_eq_some.mpr ⟨allocated, same, same ▸ table⟩)
    · refine apart (.entry j) (Volume.held_eq_some.mpr ⟨allocated, ?_, same ▸ there⟩)
      simpa only [Volume.number, inside, table, ne_eq, not_false_iff, and_self, if_true] using same
  · rintro ⟨directs, tables⟩ p here
    obtain ⟨-, number, isBlock⟩ := Volume.held_eq_some.mp here
    subst number
    cases p with
    | direct i =>
      by_cases below : i < ndirect
      · simp only [Volume.number, below] at directs isBlock
        exact directs i below isBlock rfl
      · simp only [Volume.number, below, if_false, ne_eq, not_true_eq_false] at isBlock
    | indirect => exact (tables isBlock).1 rfl
    | entry j =>
      by_cases present : j < nindirect ∧ (v.inodes inum).addrs ndirect ≠ 0
      · simp only [Volume.number, if_pos present] at tables isBlock
        exact (tables present.2).2 j present.1 isBlock rfl
      · simp only [Volume.number, if_neg present, ne_eq, not_true_eq_false] at isBlock

theorem wp_itrunc (sound : v.Sound) (allocated : v.Allocated inum)
    (done : ∀ v', v.Truncates inum v' → (v'.inodes inum).type = (v.inodes inum).type → post () v') :
    wp (itrunc inum) post abort v := by
  -- Once the inode is empty and its blocks are free, it is written back with size zero.
  have ends : ∀ used ip, ip.type = (v.inodes inum).type → (∀ i ≤ ndirect, ip.addrs i = 0) →
      (∀ b, used b = true ↔ v.used b = true ∧ ∀ p, v.held (inum, p) ≠ some b) →
      wp (do
        modifyInode inum fun ip => { ip with size := 0 }
        iupdate inum) post abort (v.remake inum used ip) := by
    intro used ip type empty free
    simp only [wp_bind, modifyInode, iupdate, wp_modify]
    have inode : (v.remake inum used ip).inodes inum = ip := update_self ..
    refine done _ ⟨rfl, rfl, rfl, rfl, fun i other => ⟨?_, ?_⟩, ?_, ?_, free⟩ ?_
    · simp only [Volume.remake, update_of_ne other]
    · simp only [Volume.remake, update_of_ne other]
    · simp only [update_self]
    · simp only [update_self, inode]
      exact ⟨trivial, empty⟩
    · simp only [update_self, inode, type]
  have numbered : ∀ p b, v.held (inum, p) = some b ↔ v.number inum p = b ∧ b ≠ 0 :=
    fun p b => Volume.held_eq_some.trans (and_iff_right allocated)
  unfold itrunc
  rw [wp_bind]
  refine wp_freeDirect sound allocated fun used cleared => ?_
  have addr : ((v.remake inum used ((v.inodes inum).emptied ndirect)).inodes inum).addrs ndirect =
      (v.inodes inum).addrs ndirect := by
    simp [Volume.remake, Dinode.emptied]
  simp only [wp_bind, wp_get, addr]
  by_cases none : (v.inodes inum).addrs ndirect = 0
  · rw [if_neg (not_not_intro none)]
    refine ends used _ rfl (fun i inside => ?_) fun b => ?_
    · by_cases last : i = ndirect
      · simp [Dinode.emptied, last, none]
      · simp [Dinode.emptied, Nat.lt_of_le_of_ne inside last]
    · rw [cleared b, Volume.unheld_iff allocated]
      simp [none]
  · rw [if_pos none]
    simp only [wp_bind, wp_get]
    have contents : (v.remake inum used ((v.inodes inum).emptied ndirect)).blocks =
      v.blocks := rfl
    rw [contents]
    have entry : ∀ j < nindirect, v.number inum (.entry j) =
        readWord (v.blocks ((v.inodes inum).addrs ndirect)) j := by
      intro j inside
      simp only [Volume.number, inside, none, ne_eq, not_false_iff, and_self, if_true]
    have held : ∀ j < nindirect, readWord (v.blocks ((v.inodes inum).addrs ndirect)) j ≠ 0 →
        v.held (inum, .entry j) = some (readWord (v.blocks ((v.inodes inum).addrs ndirect)) j) :=
      fun j inside there => (numbered _ _).mpr ⟨entry j inside, there⟩
    have direct : ∀ i < ndirect, ∀ b, b ≠ 0 → (v.inodes inum).addrs i = b →
        v.held (inum, .direct i) = some b := by
      intro i below b isBlock same
      exact (numbered _ _).mpr ⟨by simpa only [Volume.number, below, if_true] using same, isBlock⟩
    have self : v.held (inum, .indirect) = some ((v.inodes inum).addrs ndirect) :=
      (numbered _ _).mpr ⟨rfl, none⟩
    -- Blocks in other places than the direct ones are still marked.
    have marked : ∀ p b, v.held (inum, p) = some b → (∀ i, p ≠ .direct i) → used b = true := by
      intro p b here apart
      obtain ⟨-, isBlock⟩ := (numbered p b).mp here
      refine cleared.marked (sound.owned.marked here).1 fun i below _ same => ?_
      have slot := sound.owned.once here (direct i below b isBlock same)
      exact apart i (Prod.mk.inj slot).2
    refine wp_freeEntries (fun j inside there => ?_) (fun i below j inside there same => ?_)
      fun used₂ cleared₂ => ?_
    · exact marked _ _ (held j inside there) (by simp)
    · have slot := sound.owned.once (held i below there)
        (same ▸ held j inside (by rwa [← same]))
      injection (Prod.mk.inj slot).2
    · have still : used₂ ((v.inodes inum).addrs ndirect) = true := by
        refine cleared₂.marked (marked _ _ self (by simp)) fun j inside there same => ?_
        have slot := sound.owned.once self (same ▸ held j inside there)
        cases (Prod.mk.inj slot).2
      refine wp_bfree still ?_
      rw [modifyInode, wp_modify]
      have last := ends (update used₂ ((v.inodes inum).addrs ndirect) false)
        ((v.inodes inum).emptied (ndirect + 1)) rfl
        (fun i inside => if_pos (Nat.lt_succ_of_le inside)) fun b => ?_
      · simpa only [Volume.remake, update_self, Function.update_idem,
          Dinode.emptied_setAddr, wp_bind] using last
      · rw [Volume.unheld_iff allocated]
        by_cases isTable : b = (v.inodes inum).addrs ndirect
        · rw [isTable, update_self]
          simp [none]
        · rw [update_of_ne isTable, cleared₂ b, cleared b, and_assoc]
          simp [none, Ne.symm isTable]

end Truncation

section Events

variable {v : Volume} {inum : Nat} {abort : BlockPanic → Prop}

theorem wp_ilock (consistent : v.Consistent) (allocated : v.Allocated inum) (done : post () v) :
    wp (ilock inum valid) post abort v := by
  unfold ilock
  cases valid with
  | true => simpa using done
  | false =>
    have type : (v.dinodes inum).type ≠ none := by
      rw [consistent.saved]
      exact allocated.2.2
    have same : update v.inodes inum (v.dinodes inum) = v.inodes := by
      rw [consistent.saved, update_eq_self]
    simpa [modifyInode, type, same] using done

theorem wp_iput {last : Bool} (consistent : v.Consistent) (allocated : v.Allocated inum)
    (done : ∀ v', v'.Consistent → post () v') : wp (iput inum valid last) post abort v := by
  unfold iput
  simp only [wp_bind, wp_get]
  split
  · simp only [wp_bind]
    refine wp_itrunc consistent.toSound allocated fun v' truncates _ => ?_
    simp only [modifyInode, iupdate, wp_modify]
    -- The inode loses its type, and is written back once more.
    refine done _ (@Volume.Truncates.consistent _ v inum ?_ consistent)
    refine ⟨truncates.size, truncates.nblocks, truncates.ninodes, truncates.blocks, fun i other => ?_,
      ?_, ?_, truncates.used⟩
    · simpa only [update_of_ne other] using truncates.others i other
    · simp only [update_self]
    · simpa only [update_self] using truncates.empty
  · simpa using done v consistent

theorem firstFree_spec {dinodes : Nat → Dinode} {start found : Nat}
    (first : firstFree dinodes n start = some found) :
    start ≤ found ∧ found < start + n ∧ (dinodes found).type = none := by
  induction n generalizing start with
  | zero => simp [firstFree] at first
  | succ n ih =>
    unfold firstFree at first
    split at first
    · rename_i free
      obtain rfl := Option.some.inj first
      exact ⟨le_refl _, by omega, free⟩
    · obtain ⟨low, high, free⟩ := ih first
      exact ⟨by omega, by omega, free⟩

theorem wp_ialloc {type : InodeType} {post : Option Nat → Volume → Prop}
    (consistent : v.Consistent) (done : ∀ r v', v'.Consistent → post r v') :
    wp (ialloc type) post abort v := by
  unfold ialloc
  simp only [wp_bind, wp_get]
  cases found : firstFree v.dinodes (v.ninodes - 1) 1 with
  | none => simpa using done none v consistent
  | some inum =>
    obtain ⟨-, -, free⟩ := firstFree_spec found
    simp only [wp_bind, wp_set, wp_pure]
    refine done _ _ (@Volume.Truncates.consistent _ v inum ?_ consistent)
    refine ⟨rfl, rfl, rfl, rfl, fun i other => ?_, ?_, ?_, fun b => ?_⟩
    · simp only [update_of_ne other, and_self]
    · simp only [update_self]
    · simp only [update_self, implies_true, and_self]
    · -- A free inode held no block.
      refine (and_iff_left fun p here => ?_).symm
      have inUse := (Volume.held_eq_some.mp here).1.2.2
      rw [← consistent.saved] at inUse
      exact inUse free

theorem wp_runEvent {e : BlockEvent} (consistent : v.Consistent) (allows : v.Allows e) :
    wp (runEvent e) (fun _ v' => v'.Consistent) (fun _ => False) v := by
  cases e with
  | writei inum valid src got off n =>
    have allocated := allows inum rfl
    simp only [runEvent, wp_bind, wp_discard]
    apply wp_ilock consistent allocated
    exact wp_writei consistent allocated (fun _ => consistent) fun _ _ _ _ _ kept _ => kept
  | readi inum valid got off n =>
    have allocated := allows inum rfl
    simp only [runEvent, wp_bind]
    exact wp_ilock consistent allocated (wp_readi consistent.toSound allocated consistent)
  | itrunc inum valid =>
    have allocated := allows inum rfl
    simp only [runEvent, wp_bind]
    refine wp_ilock consistent allocated ?_
    exact wp_itrunc consistent.toSound allocated fun _ truncates _ => truncates.consistent consistent
  | iput inum valid last => exact wp_iput consistent (allows inum rfl) fun _ kept => kept
  | ialloc type =>
    simp only [runEvent, wp_discard]
    exact wp_ialloc consistent fun _ _ kept => kept
  | relink inum valid nlink =>
    have allocated := allows inum rfl
    simp only [runEvent, wp_bind]
    refine wp_ilock consistent allocated ?_
    simp only [modifyInode, iupdate, wp_modify, update_self]
    refine consistent.saveInode (.refl v inum) consistent.toSound allocated rfl rfl ?_ ?_
    · exact consistent.whole inum allocated
    · exact consistent.limit inum allocated

theorem Volume.Consistent.run {es : List BlockEvent} (consistent : v.Consistent)
    (run : Trace.Run Volume.Steps v es v') : v'.Consistent := by
  refine run.invariant Volume.Consistent (fun v e v' kept stepped => ?_) consistent
  have next := wp_ok (wp_runEvent kept stepped.1) stepped.2
  exact next

end Events

/-- After any calls on a consistent volume, the numbers in the files are marked blocks, each in one
place; no file has a hole; reading changes nothing; and no call panics. -/
theorem blocks_owned_once {v v' : Volume} {es : List BlockEvent} (start : v.Consistent)
    (run : Trace.Run Volume.Steps v es v') :
    (∀ inum p, v'.Allocated inum → v'.number inum p ≠ 0 → v'.used (v'.number inum p) = true) ∧
    (∀ inum p inum' p', v'.Allocated inum → v'.Allocated inum' → v'.number inum p ≠ 0 →
      v'.number inum p = v'.number inum' p' → inum = inum' ∧ p = p') ∧
    (∀ inum, v'.Allocated inum → ∀ bn, bn * bsize < (v'.inodes inum).size →
      v'.number inum (place bn) ≠ 0) ∧
    (∀ inum, v'.dinodes inum = v'.inodes inum) ∧
    (∀ inum valid got off n, v'.Allocated inum →
      runEvent (.readi inum valid got off n) v' = .ok ((), v')) ∧
    ∀ e, v'.Allows e → ∃ v'', runEvent e v' = .ok ((), v'') := by
  have consistent := start.run run
  refine ⟨fun inum p allocated there => ?_, fun inum p inum' p' allocated allocated' there same => ?_,
    consistent.whole, consistent.saved, fun inum valid got off n allocated => ?_, fun e allows => ?_⟩
  · exact (consistent.owned.marked (Volume.held_number allocated there)).1
  · have first := Volume.held_number allocated there
    have second := Volume.held_number allocated' (same ▸ there)
    rw [← same] at second
    exact Prod.mk.inj (consistent.owned.once first second)
  · have reads : wp (runEvent (.readi inum valid got off n)) (fun _ w => w = v') (fun _ => False)
        v' := by
      simp only [runEvent, wp_bind]
      exact wp_ilock consistent allocated (wp_readi consistent.toSound allocated rfl)
    obtain ⟨_, w, ran, rfl⟩ := exists_ok_of_wp reads
    exact ran
  · obtain ⟨_, w, ran, -⟩ := exists_ok_of_wp (wp_runEvent consistent allows)
    exact ⟨w, ran⟩

def emptyVolume : Volume where
  size := 40
  nblocks := 20
  ninodes := 4
  used := fun b => b < 20
  dinodes := fun _ => ⟨none, 0, 0, fun _ => 0⟩
  inodes := fun _ => ⟨none, 0, 0, fun _ => 0⟩
  blocks := fun _ _ => 0

theorem emptyVolume_consistent : emptyVolume.Consistent := by
  have none_allocated : ∀ inum, ¬ emptyVolume.Allocated inum := fun inum inUse => inUse.2.2 rfl
  have nothing_held : ∀ slot b, emptyVolume.held slot ≠ some b := fun slot b here =>
    none_allocated slot.1 (Volume.held_eq_some.mp here).1
  exact {
    fits := by decide
    before := by decide
    metadata := fun b low => decide_eq_true (show b < 20 from low)
    owned := ⟨fun here => (nothing_held _ _ here).elim, fun here => (nothing_held _ _ here).elim⟩
    whole := fun inum inUse => (none_allocated inum inUse).elim
    limit := fun inum inUse => (none_allocated inum inUse).elim
    saved := fun _ => rfl }

def Volume.step (v : Volume) (e : BlockEvent) : Option Volume :=
  if ∀ inum ∈ e.inum?, v.Allocated inum then
    match runEvent e v with
    | .ok (_, v') => some v'
    | .error _ => none
  else none

theorem Volume.steps_of_step (v : Volume) (e : BlockEvent) (v' : Volume)
    (stepped : v.step e = some v') : v.Steps e v' := by
  unfold Volume.step at stepped
  split at stepped
  · rename_i allows
    split at stepped
    · rename_i ran
      obtain rfl := Option.some.inj stepped
      exact ⟨allows, ran⟩
    · cases stepped
  · cases stepped

def fillAndTruncate : List BlockEvent :=
  [.ialloc .file, .writei 1 false (fun _ _ => 7) (fun _ => bsize) 0 20000, .itrunc 1 true]

theorem blocks_owned_once_fill : ∃ v', Trace.Run Volume.Steps emptyVolume fillAndTruncate v' ∧
    ∀ e, v'.Allows e → ∃ v'', runEvent e v' = .ok ((), v'') := by
  have ran : (Trace.steps Volume.step emptyVolume fillAndTruncate).isSome := by decide +kernel
  obtain ⟨v', computed⟩ := Option.isSome_iff_exists.mp ran
  have run : Trace.Run Volume.Steps emptyVolume fillAndTruncate v' :=
    Trace.Run.of_steps Volume.steps_of_step computed
  obtain ⟨-, -, -, -, -, returns⟩ := blocks_owned_once emptyVolume_consistent run
  exact ⟨v', run, returns⟩

end Xv6.Blocks