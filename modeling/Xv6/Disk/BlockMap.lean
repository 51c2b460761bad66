import Xv6.Disk.Blocks
import Xv6.SwapLaws

/-! Finding and adding the blocks of a file: a new block goes into one place that was empty. -/

namespace Xv6.Blocks

open Prog
open Function (update update_self update_of_ne)

section Words

theorem readLe_congr {bytes bytes' : Nat → UInt8} : ∀ width off,
    (∀ j < width, bytes (off + j) = bytes' (off + j)) →
      readLe bytes off width = readLe bytes' off width := by
  intro width
  induction width with
  | zero => exact fun _ _ => rfl
  | succ width ih =>
    intro off same
    have first : bytes off = bytes' off := same 0 (by omega)
    have rest : readLe bytes (off + 1) width = readLe bytes' (off + 1) width := by
      apply ih
      intro j inside
      rw [show off + 1 + j = off + (j + 1) by omega]
      exact same (j + 1) (by omega)
    rw [readLe, readLe, first, rest]

theorem readWord_putWord_self (block : Block) (j : Nat) {value : Nat} (fits : value < 2 ^ 32) :
    readWord (putWord block j value) j = value := by
  have stored : ∀ k < 4, putWord block j value (4 * j + k) = byteLe value k := by
    intro k inside
    rw [putWord, if_pos ⟨by omega, by omega⟩, Nat.add_sub_cancel_left]
  rw [readWord, readLe_stored _ 4 _ _ stored]
  exact Nat.mod_eq_of_lt (by omega)

variable {b bn i j : Nat} {post : Nat → Volume → Prop}

theorem readWord_putWord_of_ne (block : Block) {j' : Nat} (value : Nat) (other : j' ≠ j) :
    readWord (putWord block j value) j' = readWord block j' := by
  refine readLe_congr 4 _ fun k inside => ?_
  rw [putWord, if_neg (by omega)]

theorem readWord_zero (j : Nat) : readWord (fun _ => 0) j = 0 := rfl

end Words

section Held

variable {v v' : Volume} {inum : Nat}

theorem Volume.held_eq_some {slot : Nat × Place} :
    v.held slot = some b ↔ v.Allocated slot.1 ∧ v.number slot.1 slot.2 = b ∧ b ≠ 0 := by
  unfold Volume.held
  split
  · rename_i here
    rw [Option.some.injEq]
    constructor
    · rintro rfl
      exact ⟨here.1, rfl, here.2⟩
    · exact fun there => there.2.1
  · rename_i gone
    simp only [reduceCtorEq, false_iff]
    intro ⟨allocated, same, nonzero⟩
    exact gone ⟨allocated, by rwa [same]⟩

theorem Volume.held_number (allocated : v.Allocated inum) {place : Place}
    (nonzero : v.number inum place ≠ 0) : v.held (inum, place) = some (v.number inum place) :=
  Volume.held_eq_some.mpr ⟨allocated, rfl, nonzero⟩

theorem Volume.held_congr (allocated : ∀ inum, v'.Allocated inum ↔ v.Allocated inum)
    (same : ∀ inum, v.Allocated inum → ∀ place, v'.number inum place = v.number inum place) :
    v'.held = v.held := by
  funext slot
  unfold Volume.held
  by_cases here : v.Allocated slot.1
  · simp only [allocated, same _ here]
  · simp only [allocated, here, false_and, if_false]

theorem Volume.number_congr (addrs : (v'.inodes inum).addrs = (v.inodes inum).addrs)
    (table : (v.inodes inum).addrs ndirect ≠ 0 →
      v'.blocks ((v.inodes inum).addrs ndirect) = v.blocks ((v.inodes inum).addrs ndirect))
    (place : Place) : v'.number inum place = v.number inum place := by
  cases place with
  | direct i => simp only [Volume.number, addrs]
  | indirect => simp only [Volume.number, addrs]
  | entry j =>
    simp only [Volume.number, addrs]
    split
    · rename_i here
      rw [table here.2]
    · rfl

end Held

/-- A change of a volume that only adds blocks to one inode and to the free map. -/
structure Volume.Grows (v : Volume) (inum : Nat) (v' : Volume) : Prop where
  size : v'.size = v.size
  nblocks : v'.nblocks = v.nblocks
  ninodes : v'.ninodes = v.ninodes
  dinodes : v'.dinodes = v.dinodes
  others : ∀ i, i ≠ inum → v'.inodes i = v.inodes i
  type : (v'.inodes inum).type = (v.inodes inum).type
  length : (v'.inodes inum).size = (v.inodes inum).size
  kept : ∀ i place, v.Allocated i → v.number i place ≠ 0 → v'.number i place = v.number i place

namespace Volume.Grows

variable {v v' v'' : Volume} {inum : Nat}

theorem refl (v : Volume) (inum : Nat) : v.Grows inum v :=
  ⟨rfl, rfl, rfl, rfl, fun _ _ => rfl, rfl, rfl, fun _ _ _ _ => rfl⟩

theorem allocated (grows : v.Grows inum v') (i : Nat) : v'.Allocated i ↔ v.Allocated i := by
  unfold Volume.Allocated
  rw [grows.ninodes]
  by_cases same : i = inum
  · rw [same, grows.type]
  · rw [grows.others i same]

theorem sizes (grows : v.Grows inum v') (i : Nat) :
    (v'.inodes i).size = (v.inodes i).size := by
  by_cases same : i = inum
  · rw [same, grows.length]
  · rw [grows.others i same]

theorem trans (first : v.Grows inum v') (second : v'.Grows inum v'') : v.Grows inum v'' where
  size := second.size.trans first.size
  nblocks := second.nblocks.trans first.nblocks
  ninodes := second.ninodes.trans first.ninodes
  dinodes := second.dinodes.trans first.dinodes
  others := fun i other => (second.others i other).trans (first.others i other)
  type := second.type.trans first.type
  length := second.length.trans first.length
  kept := fun i place allocated nonzero => by
    have before := first.kept i place allocated nonzero
    rw [second.kept i place ((first.allocated i).mpr allocated) (by rwa [before]), before]

theorem nonzero (grows : v.Grows inum v') {place : Place} (allocated : v.Allocated i)
    (there : v.number i place ≠ 0) : v'.number i place ≠ 0 := by
  rw [grows.kept i place allocated there]
  exact there

theorem sound (grows : v.Grows inum v') (sound : v.Sound)
    (used : ∀ b, v.used b = true → v'.used b = true) (owned : Owned.Once v'.held v'.Marked) :
    v'.Sound where
  fits := by rw [grows.size]; exact sound.fits
  before := by rw [grows.size, grows.nblocks]; exact sound.before
  metadata := by
    intro b below
    rw [grows.size, grows.nblocks] at below
    exact used b (sound.metadata b below)
  owned := owned
  whole := by
    intro i allocated bn inside
    rw [grows.sizes] at inside
    have before := (grows.allocated i).mp allocated
    exact grows.nonzero before (sound.whole i before bn inside)
  limit := by
    intro i allocated
    rw [grows.sizes]
    exact sound.limit i ((grows.allocated i).mp allocated)

end Volume.Grows

/-- A zeroed block that is marked and not in any file. -/
structure Volume.Fresh (v : Volume) (b : Nat) : Prop where
  marked : v.Marked b
  loose : ∀ slot, v.held slot ≠ some b
  zero : v.blocks b = fun _ => 0

section Allocation

variable {v : Volume} {inum b : Nat}

/-- The volume with a block marked and zeroed. -/
def Volume.allocate (v : Volume) (b : Nat) : Volume :=
  { v with
    used := update v.used b true
    blocks := update v.blocks b fun _ => 0 }

theorem Volume.Fresh.ne_zero (fresh : v.Fresh b) (sound : v.Sound) : b ≠ 0 := by
  have first := fresh.marked.2.1
  have before := sound.before
  omega

theorem Volume.Fresh.lt (fresh : v.Fresh b) (sound : v.Sound) : b < 2 ^ 32 := by
  have last := fresh.marked.2.2
  have fits := sound.fits
  omega

theorem Volume.Sound.allocate (sound : v.Sound) (inum : Nat) (clear : v.used b = false)
    (inside : b < v.size) :
    (v.allocate b).Sound ∧ v.Grows inum (v.allocate b) ∧ (v.allocate b).Fresh b ∧
      ∀ i, v.Allocated i → ∀ place, (v.allocate b).number i place = v.number i place := by
  have data : v.size - v.nblocks ≤ b := by
    by_contra below
    rw [sound.metadata b (by omega)] at clear
    exact Bool.noConfusion clear
  have unheld : ∀ slot, v.held slot ≠ some b := by
    intro slot here
    rw [(sound.owned.marked here).1] at clear
    exact Bool.noConfusion clear
  -- The block is no indirect block, so zeroing it changes no number.
  have numbers : ∀ i, v.Allocated i → ∀ place, (v.allocate b).number i place = v.number i place := by
    intro i allocated place
    have addrs : ((v.allocate b).inodes i).addrs = (v.inodes i).addrs := rfl
    refine Volume.number_congr addrs (fun table => ?_) place
    refine update_of_ne (fun same => unheld (i, .indirect) ?_) _ _
    exact Volume.held_eq_some.mpr ⟨allocated, same, by rwa [same] at table⟩
  have held : (v.allocate b).held = v.held := Volume.held_congr (fun _ => Iff.rfl) numbers
  have used : ∀ c, v.used c = true → (v.allocate b).used c = true := by
    intro c here
    by_cases same : c = b
    · rw [same]
      exact update_self ..
    · exact (update_of_ne same _ _).trans here
  have grows : v.Grows inum (v.allocate b) :=
    ⟨rfl, rfl, rfl, rfl, fun _ _ => rfl, rfl, rfl, fun i place here _ => numbers i here place⟩
  refine ⟨grows.sound sound used ?_, grows, ⟨?_, ?_, ?_⟩, numbers⟩
  · rw [held]
    exact sound.owned.mono fun c marked => ⟨used c marked.1, marked.2⟩
  · exact ⟨update_self .., data, inside⟩
  · rw [held]
    exact unheld
  · exact update_self ..

theorem Volume.Fresh.install {v' : Volume} {place : Place} (fresh : v.Fresh b) (sound : v.Sound)
    (allocated : v.Allocated inum) (grows : v.Grows inum v') (used : v'.used = v.used)
    (put : v'.number inum place = b)
    (same : ∀ i p, v.Allocated i → (i, p) ≠ (inum, place) → v'.number i p = v.number i p) :
    v'.Sound := by
  refine grows.sound sound (fun c here => by rwa [used]) ?_
  have held : v'.held = update v.held (inum, place) (some b) := by
    funext slot
    by_cases here : slot = (inum, place)
    · rw [here, update_self]
      exact Volume.held_eq_some.mpr
        ⟨(grows.allocated inum).mpr allocated, put, fresh.ne_zero sound⟩
    · rw [update_of_ne here]
      unfold Volume.held
      by_cases inUse : v.Allocated slot.1
      · rw [same slot.1 slot.2 inUse here]
        simp only [grows.allocated]
      · simp only [grows.allocated, inUse, false_and, if_false]
  have marked : v'.Marked = v.Marked := by
    funext c
    unfold Volume.Marked
    rw [used, grows.size, grows.nblocks]
  rw [held, marked]
  exact sound.owned.take fresh.loose fresh.marked

end Allocation

section Bmap

variable {v : Volume} {inum : Nat} {abort : BlockPanic → Prop}

theorem wp_balloc (inum : Nat) (sound : v.Sound) (full : post 0 v)
    (fresh : ∀ b v', v'.Sound → v.Grows inum v' → v'.inodes = v.inodes → v'.Fresh b →
      (∀ i, v.Allocated i → ∀ place, v'.number i place = v.number i place) → post b v') :
    wp balloc post abort v := by
  unfold balloc
  simp only [wp_bind, wp_get]
  cases found : firstClear v.used v.size 0 with
  | none => simpa using full
  | some b =>
    obtain ⟨-, inside, clear⟩ := firstClear_spec found
    obtain ⟨sound', grows, isFresh, numbers⟩ := sound.allocate (b := b) inum clear (by omega)
    simp only [wp_bind, wp_set, modifyBlock, wp_modify, wp_pure]
    exact fresh b (v.allocate b) sound' grows rfl isFresh numbers

theorem Volume.number_addr (v : Volume) (inum : Nat) (inside : i ≤ ndirect) :
    v.number inum (if i < ndirect then .direct i else .indirect) = (v.inodes inum).addrs i := by
  by_cases below : i < ndirect
  · simp [below, Volume.number]
  · obtain rfl : i = ndirect := by omega
    simp [Volume.number]

/-- The volume with a block number set in an inode. -/
def Volume.setAddr (v : Volume) (inum i b : Nat) : Volume :=
  { v with inodes := update v.inodes inum ((v.inodes inum).setAddr i b) }

theorem Volume.Fresh.setAddr (fresh : v.Fresh b) (sound : v.Sound) (allocated : v.Allocated inum)
    (inside : i ≤ ndirect) (empty : (v.inodes inum).addrs i = 0) :
    (v.setAddr inum i b).Sound ∧ v.Grows inum (v.setAddr inum i b) ∧
      ((v.setAddr inum i b).inodes inum).addrs i = b := by
  have inode : (v.setAddr inum i b).inodes inum = (v.inodes inum).setAddr i b :=
    update_self ..
  have other : ∀ j, j ≠ inum → (v.setAddr inum i b).inodes j = v.inodes j :=
    fun j apart => update_of_ne apart _ _
  have addr : ((v.setAddr inum i b).inodes inum).addrs i = b := by
    rw [inode]
    exact update_self ..
  have addrs : ∀ j, j ≠ i → ((v.setAddr inum i b).inodes inum).addrs j = (v.inodes inum).addrs j := by
    intro j apart
    rw [inode]
    exact update_of_ne apart _ _
  -- Only the place itself changes: a new indirect block is still zero.
  have same : ∀ j p, v.Allocated j → (j, p) ≠ (inum, if i < ndirect then .direct i else .indirect) →
      (v.setAddr inum i b).number j p = v.number j p := by
    intro j p _ apart
    by_cases here : j = inum
    · subst here
      cases p with
      | direct k =>
        by_cases below : k < ndirect
        · have ne : k ≠ i := by
            rintro rfl
            simp [below] at apart
          simp only [Volume.number, addrs k ne]
        · simp only [Volume.number, below, if_false]
      | indirect =>
        have ne : ndirect ≠ i := by
          rintro rfl
          simp at apart
        exact addrs ndirect ne
      | entry k =>
        by_cases last : i = ndirect
        · subst last
          have blocks : (v.setAddr j ndirect b).blocks b = fun _ => 0 := fresh.zero
          simp [Volume.number, addr, empty, blocks, readWord_zero]
        · simp only [Volume.number, addrs ndirect (Ne.symm last)]
          rfl
    · exact Volume.number_congr (congrArg Dinode.addrs (other j here)) (fun _ => rfl) p
  have place := v.number_addr inum inside
  have put := (v.setAddr inum i b).number_addr inum inside
  have grows : v.Grows inum (v.setAddr inum i b) := by
    refine ⟨rfl, rfl, rfl, rfl, other, by rw [inode]; rfl, by rw [inode]; rfl, ?_⟩
    intro j p inUse nonzero
    refine same j p inUse fun slot => nonzero ?_
    obtain ⟨rfl, rfl⟩ := Prod.mk.inj slot
    rw [place, empty]
  exact ⟨fresh.install sound allocated grows rfl (put.trans addr) same, grows, addr⟩

theorem wp_bmapAddr (sound : v.Sound) (allocated : v.Allocated inum) (inside : i ≤ ndirect)
    (there : (v.inodes inum).addrs i ≠ 0 → post ((v.inodes inum).addrs i) v)
    (full : (v.inodes inum).addrs i = 0 → post 0 v)
    (added : ∀ b v', (v.inodes inum).addrs i = 0 → v'.Sound → v.Grows inum v' →
      (v'.inodes inum).addrs i = b → b ≠ 0 → post b v') : wp (bmapAddr inum i) post abort v := by
  unfold bmapAddr
  simp only [wp_bind, wp_get]
  by_cases empty : (v.inodes inum).addrs i = 0
  · rw [if_neg (not_not_intro empty), wp_bind]
    refine wp_balloc inum sound (by simpa using full empty) fun b v' sound' grows inodes fresh _ => ?_
    rw [← inodes] at empty
    obtain ⟨sound'', grows', put⟩ :=
      fresh.setAddr sound' ((grows.allocated inum).mpr allocated) inside empty
    rw [inodes] at empty
    rw [if_neg (fresh.ne_zero sound')]
    simp only [wp_bind, modifyInode, wp_modify, wp_pure]
    exact added b _ empty sound'' (grows.trans grows') put (fresh.ne_zero sound')
  · rw [if_pos empty]
    simpa using there empty

/-- The volume with a number set in an indirect block. -/
def Volume.setEntry (v : Volume) (table j b : Nat) : Volume :=
  { v with blocks := update v.blocks table (putWord (v.blocks table) j b) }

theorem Volume.Fresh.setEntry {table : Nat} (fresh : v.Fresh b) (sound : v.Sound)
    (allocated : v.Allocated inum) (inside : j < nindirect)
    (indirect : (v.inodes inum).addrs ndirect = table) (exists_ : table ≠ 0)
    (empty : v.number inum (.entry j) = 0) :
    (v.setEntry table j b).Sound ∧ v.Grows inum (v.setEntry table j b) ∧
      (v.setEntry table j b).number inum (.entry j) = b := by
  have inode : ∀ i, (v.setEntry table j b).inodes i = v.inodes i := fun _ => rfl
  have block : (v.setEntry table j b).blocks table = putWord (v.blocks table) j b :=
    update_self ..
  have put : (v.setEntry table j b).number inum (.entry j) = b := by
    simp only [Volume.number, inode, indirect, block, inside, exists_, ne_eq]
    exact readWord_putWord_self _ _ (fresh.lt sound)
  -- The indirect block belongs to this inode alone.
  have alone : ∀ i, v.Allocated i → (v.inodes i).addrs ndirect = table → i = inum := by
    intro i inUse shared
    have first : v.held (i, .indirect) = some table :=
      Volume.held_eq_some.mpr ⟨inUse, shared, exists_⟩
    have second : v.held (inum, .indirect) = some table :=
      Volume.held_eq_some.mpr ⟨allocated, indirect, exists_⟩
    exact (Prod.mk.inj (sound.owned.once first second)).1
  have same : ∀ i p, v.Allocated i → (i, p) ≠ (inum, .entry j) →
      (v.setEntry table j b).number i p = v.number i p := by
    intro i p inUse apart
    by_cases mine : (v.inodes i).addrs ndirect = table
    · obtain rfl := alone i inUse mine
      cases p with
      | direct k => rfl
      | indirect => rfl
      | entry k =>
        have ne : k ≠ j := by
          rintro rfl
          exact apart rfl
        simp only [Volume.number, inode, mine, block, readWord_putWord_of_ne _ _ ne]
    · exact Volume.number_congr (congrArg Dinode.addrs (inode i))
        (fun _ => update_of_ne mine _ _) p
  have grows : v.Grows inum (v.setEntry table j b) := by
    refine ⟨rfl, rfl, rfl, rfl, fun i _ => inode i, rfl, rfl, fun i p inUse nonzero => ?_⟩
    refine same i p inUse fun slot => nonzero ?_
    obtain ⟨rfl, rfl⟩ := Prod.mk.inj slot
    exact empty
  exact ⟨fresh.install sound allocated grows rfl put same, grows, put⟩

theorem wp_bmap (sound : v.Sound) (allocated : v.Allocated inum) (inside : bn < maxfile)
    (there : v.number inum (place bn) ≠ 0 → post (v.number inum (place bn)) v)
    (full : ∀ v', v.number inum (place bn) = 0 → v'.Sound → v.Grows inum v' → post 0 v')
    (added : ∀ b v', v.number inum (place bn) = 0 → v'.Sound → v.Grows inum v' →
      v'.number inum (place bn) = b → b ≠ 0 → post b v') : wp (bmap inum bn) post abort v := by
  unfold bmap
  unfold place at there full added
  by_cases below : bn < ndirect
  · simp only [if_pos below, Volume.number] at there full added ⊢
    refine wp_bmapAddr sound allocated (Nat.le_of_lt below) there (fun empty => ?_) added
    exact full v empty sound (.refl v inum)
  have small : bn - ndirect < nindirect := by
    simp only [maxfile, nindirect, ndirect] at *
    omega
  simp only [if_neg below] at there full added ⊢
  simp only [if_pos small, wp_bind]
  -- With the indirect block in place, the number is read from it or added to it.
  have entry : ∀ v₁ table, v₁.Sound → v.Grows inum v₁ →
      (v₁.inodes inum).addrs ndirect = table → table ≠ 0 →
      (v.number inum (.entry (bn - ndirect)) ≠ 0 → v₁ = v) →
      wp (do
        if table = 0 then return 0
        let addr := readWord ((← get).blocks table) (bn - ndirect)
        if addr ≠ 0 then return addr
        let addr ← balloc
        if addr ≠ 0 then modifyBlock table fun block => putWord block (bn - ndirect) addr
        return addr) post abort v₁ := by
    intro v₁ table sound₁ grows indirect isBlock same
    have inUse := (grows.allocated inum).mpr allocated
    have number : v₁.number inum (.entry (bn - ndirect)) =
        readWord (v₁.blocks table) (bn - ndirect) := by
      simp only [Volume.number, indirect, small, true_and, ne_eq, isBlock, not_false_iff, if_true]
    rw [if_neg isBlock]
    simp only [wp_bind, wp_get]
    by_cases empty : readWord (v₁.blocks table) (bn - ndirect) = 0
    · rw [if_neg (not_not_intro empty), wp_bind]
      have absent : v.number inum (.entry (bn - ndirect)) = 0 := by
        by_contra present
        have unchanged := same present
        rw [unchanged] at number empty
        exact present (number.trans empty)
      refine wp_balloc inum sound₁ ?_ fun b v₂ sound₂ grows₂ inodes fresh numbers => ?_
      · simpa using full v₁ absent sound₁ grows
      · have indirect₂ : (v₂.inodes inum).addrs ndirect = table := by rw [inodes, indirect]
        have isEmpty : v₂.number inum (.entry (bn - ndirect)) = 0 := by
          rw [numbers inum inUse, number, empty]
        obtain ⟨sound₃, grows₃, put⟩ := fresh.setEntry sound₂
          ((grows₂.allocated inum).mpr inUse) small indirect₂ isBlock isEmpty
        have nonzero := fresh.ne_zero sound₂
        simp only [if_pos nonzero, wp_bind, modifyBlock, wp_modify, wp_pure]
        exact added b _ absent sound₃ ((grows.trans grows₂).trans grows₃) put nonzero
    · rw [if_pos empty]
      simp only [wp_pure]
      by_cases present : v.number inum (.entry (bn - ndirect)) = 0
      · exact added _ v₁ present sound₁ grows number empty
      · have unchanged := same present
        subst unchanged
        rw [← number]
        exact there present
  refine wp_bmapAddr sound allocated (Nat.le_refl _) (fun isBlock => ?_) (fun none => ?_)
    (fun b v' none sound' grows put isBlock => ?_)
  · exact entry v _ sound (.refl v inum) rfl isBlock fun _ => rfl
  · have absent : v.number inum (.entry (bn - ndirect)) = 0 := by simp [Volume.number, none]
    simpa using full v absent sound (.refl v inum)
  · have absent : v.number inum (.entry (bn - ndirect)) = 0 := by simp [Volume.number, none]
    exact entry v' b sound' grows put isBlock fun present => absurd absent present

end Bmap

section Frames

variable {v v' v'' : Volume} {but but' : Nat} {abort : BlockPanic → Prop}

/-- A change that leaves the blocks in use alone, but for one. -/
def Volume.Spares (v : Volume) (but : Nat) (v' : Volume) : Prop :=
  ∀ b, v.used b = true → v'.used b = true ∧ (b ≠ but → v'.blocks b = v.blocks b)

theorem Volume.Spares.refl (v : Volume) (but : Nat) : v.Spares but v :=
  fun _ used => ⟨used, fun _ => rfl⟩

theorem Volume.Spares.trans (first : v.Spares but v') (second : v'.Spares but' v'')
    (free : but' = but ∨ v.used but' = false) : v.Spares but v'' := by
  intro b used
  obtain ⟨used', kept⟩ := first b used
  obtain ⟨used'', kept'⟩ := second b used'
  refine ⟨used'', fun apart => ?_⟩
  have apart' : b ≠ but' := by
    rcases free with rfl | free
    · exact apart
    · rintro rfl
      rw [used] at free
      exact Bool.noConfusion free
  rw [kept' apart', kept apart]

theorem wp_balloc_spares (v : Volume) (but : Nat) :
    wp balloc (fun b v' => v.Spares but v' ∧ v'.inodes = v.inodes ∧ (b = 0 ∨ v.used b = false))
      abort v := by
  unfold balloc
  simp only [wp_bind, wp_get]
  cases found : firstClear v.used v.size 0 with
  | none =>
    rw [wp_pure]
    exact ⟨.refl v but, rfl, .inl rfl⟩
  | some b =>
    obtain ⟨-, -, clear⟩ := firstClear_spec found
    simp only [wp_bind, wp_set, modifyBlock, wp_modify, wp_pure]
    refine ⟨fun c used => ?_, trivial, .inr clear⟩
    -- A block in use is not the one that was clear.
    have apart : c ≠ b := by
      rintro rfl
      rw [used] at clear
      exact Bool.noConfusion clear
    exact ⟨(update_of_ne apart _ _).trans used, fun _ => update_of_ne apart _ _⟩

theorem wp_bmapAddr_spares (v : Volume) (inum i but : Nat) :
    wp (bmapAddr inum i)
      (fun b v' => v.Spares but v' ∧ (b = (v.inodes inum).addrs i ∨ v.used b = false)) abort v := by
  unfold bmapAddr
  simp only [wp_bind, wp_get]
  by_cases empty : (v.inodes inum).addrs i = 0
  · rw [if_neg (not_not_intro empty), wp_bind]
    refine wp_imp (wp_balloc_spares v but) fun b v' taken => ?_
    obtain ⟨spares, -, origin⟩ := taken
    split
    · rw [wp_pure]
      exact ⟨spares, .inl empty.symm⟩
    · rename_i isBlock
      simp only [wp_bind, modifyInode, wp_modify, wp_pure]
      exact ⟨spares, .inr (origin.resolve_left isBlock)⟩
  · rw [if_pos empty, wp_pure]
    exact ⟨.refl v but, .inl rfl⟩

theorem wp_bmap_spares (v : Volume) (inum : Nat) (inside : bn < maxfile) :
    wp (bmap inum bn) (fun _ v' => v.Spares ((v.inodes inum).addrs ndirect) v') abort v := by
  unfold bmap
  by_cases below : bn < ndirect
  · rw [if_pos below]
    exact wp_imp (wp_bmapAddr_spares v inum bn _) fun _ _ spares => spares.1
  have small : bn - ndirect < nindirect := by
    simp only [maxfile, nindirect, ndirect] at *
    omega
  simp only [if_neg below, if_pos small, wp_bind]
  have indirect := @wp_bmapAddr_spares abort v inum ndirect ((v.inodes inum).addrs ndirect)
  refine wp_imp indirect fun table v₁ found => ?_
  obtain ⟨spares, origin⟩ := found
  split
  · rwa [wp_pure]
  simp only [wp_bind, wp_get]
  split
  · rwa [wp_pure]
  rw [wp_bind]
  refine wp_imp (wp_balloc_spares v₁ table) fun b v₂ taken => ?_
  -- The number goes into the table, which is the inode's own or was just taken.
  have both := spares.trans taken.1 origin
  split
  · simp only [wp_bind, modifyBlock, wp_modify, wp_pure]
    refine both.trans (fun c used => ⟨used, fun apart => ?_⟩) origin
    exact update_of_ne apart _ _
  · rwa [wp_pure]

theorem wp_bmap_found {inum : Nat} (sound : v.Sound) (allocated : v.Allocated inum)
    (inside : bn < maxfile)
    (done : ∀ b v', v'.Sound → v.Grows inum v' → v.Spares ((v.inodes inum).addrs ndirect) v' →
      (b = 0 → v.number inum (place bn) = 0) → (b ≠ 0 → v'.number inum (place bn) = b) →
      post b v') : wp (bmap inum bn) post abort v := by
  have found : wp (bmap inum bn) (fun b v' => v'.Sound ∧ v.Grows inum v' ∧
      (b = 0 → v.number inum (place bn) = 0) ∧ (b ≠ 0 → v'.number inum (place bn) = b)) abort v := by
    apply wp_bmap sound allocated inside
    · exact fun there => ⟨sound, .refl v inum, fun none => none, fun _ => rfl⟩
    · exact fun v' empty sound' grows => ⟨sound', grows, fun _ => empty, fun some => absurd rfl some⟩
    · exact fun b v' empty sound' grows put _ => ⟨sound', grows, fun _ => empty, fun _ => put⟩
  refine wp_imp (wp_and found (wp_bmap_spares v inum inside)) fun b v' ⟨facts, spares⟩ => ?_
  exact done b v' facts.1 facts.2.1 spares facts.2.2.1 facts.2.2.2

end Frames

end Xv6.Blocks
