import Xv6.Disk.BlockMap

/-! Reading and writing files: which bytes change, and that block numbers stay. -/

namespace Xv6.Blocks

open Prog
open Function (update update_self update_of_ne)

/-- Every part of a file before an offset has a block. -/
def Volume.Covers (v : Volume) (inum off : Nat) : Prop :=
  ∀ bn, bn * bsize < off → v.number inum (place bn) ≠ 0

section Transfers

variable {v : Volume} {inum : Nat} {abort : BlockPanic → Prop}

variable {v' : Volume} {b bn n off pos : Nat} {src : Nat → Nat → UInt8} {got : Nat → Nat}
  {ip : Dinode}

theorem Volume.Covers.mono (covers : v.Covers inum off) (allocated : v.Allocated inum)
    (grows : v.Grows inum v') : v'.Covers inum off :=
  fun bn inside => grows.nonzero allocated (covers bn inside)

theorem Volume.Covers.next {m : Nat} (covers : v.Covers inum off)
    (here : v.number inum (place (off / bsize)) ≠ 0) (short : m ≤ bsize - off % bsize) :
    v.Covers inum (off + m) := by
  intro bn inside
  by_cases earlier : bn * bsize < off
  · exact covers bn earlier
  · obtain rfl : bn = off / bsize := by
      simp only [bsize] at *
      omega
    exact here

/-- The volume with other contents of a block. -/
def Volume.setBlock (v : Volume) (b : Nat) (data : Block) : Volume :=
  { v with blocks := update v.blocks b data }

theorem Volume.Sound.write (sound : v.Sound) (allocated : v.Allocated inum)
    (here : v.number inum (place bn) = b) (isBlock : b ≠ 0) (data : Block) :
    (v.setBlock b data).Sound ∧ v.Grows inum (v.setBlock b data) := by
  have mine : v.held (inum, place bn) = some b :=
    Volume.held_eq_some.mpr ⟨allocated, here, isBlock⟩
  -- A block of file data is no indirect block.
  have apart : ∀ i, v.Allocated i → (v.inodes i).addrs ndirect ≠ 0 →
      (v.inodes i).addrs ndirect ≠ b := by
    intro i inUse table same
    have other : v.held (i, .indirect) = some b :=
      Volume.held_eq_some.mpr ⟨inUse, same, isBlock⟩
    have slot := (Prod.mk.inj (sound.owned.once mine other)).2
    unfold place at slot
    split at slot <;> cases slot
  have numbers : ∀ i, v.Allocated i → ∀ p, (v.setBlock b data).number i p = v.number i p := by
    intro i inUse p
    have addrs : ((v.setBlock b data).inodes i).addrs = (v.inodes i).addrs := rfl
    exact Volume.number_congr addrs
      (fun table => update_of_ne (apart i inUse table) _ _) p
  have held : (v.setBlock b data).held = v.held := Volume.held_congr (fun _ => Iff.rfl) numbers
  have grows : v.Grows inum (v.setBlock b data) :=
    ⟨rfl, rfl, rfl, rfl, fun _ _ => rfl, rfl, rfl, fun i p inUse _ => numbers i inUse p⟩
  refine ⟨grows.sound sound (fun _ here => here) ?_, grows⟩
  rw [held]
  exact sound.owned

/-- A byte of a file. -/
def Volume.byteAt (v : Volume) (inum pos : Nat) : UInt8 :=
  v.blocks (v.number inum (place (pos / bsize))) (pos % bsize)

theorem place_injective {bn' : Nat} (same : place bn = place bn') : bn = bn' := by
  unfold place at same
  grind

theorem Volume.Spares.byteAt (spares : v.Spares ((v.inodes inum).addrs ndirect) v')
    (sound : v.Sound) (grows : v.Grows inum v') (allocated : v.Allocated inum) {i : Nat}
    (inUse : v.Allocated i) (there : v.number i (place (pos / bsize)) ≠ 0) :
    v'.byteAt i pos = v.byteAt i pos := by
  have held := Volume.held_number inUse there
  -- The block is no indirect block, since a block is in one place.
  have apart : v.number i (place (pos / bsize)) ≠ (v.inodes inum).addrs ndirect := by
    intro same
    have table : v.held (inum, .indirect) = some (v.number i (place (pos / bsize))) :=
      Volume.held_eq_some.mpr ⟨allocated, same.symm, there⟩
    have slot := (Prod.mk.inj (sound.owned.once held table)).2
    unfold place at slot
    split at slot <;> cases slot
  have kept := (spares _ (sound.owned.marked held).1).2 apart
  rw [Volume.byteAt, Volume.byteAt, grows.kept i _ inUse there, kept]

/-- Bytes of one file were written in a range; all other bytes that were there stay. -/
structure Volume.Wrote (v : Volume) (inum : Nat) (byte : Nat → UInt8) (first last : Nat)
    (v' : Volume) : Prop where
  there : ∀ pos, first ≤ pos → pos < last → v'.number inum (place (pos / bsize)) ≠ 0
  inside : ∀ pos, first ≤ pos → pos < last → v'.byteAt inum pos = byte pos
  outside : ∀ i pos, v.Allocated i → v.number i (place (pos / bsize)) ≠ 0 →
    (i = inum → pos < first ∨ last ≤ pos) → v'.byteAt i pos = v.byteAt i pos

namespace Volume.Wrote

variable {v' v'' : Volume} {byte : Nat → UInt8} {first mid last : Nat}

theorem of_spares (spares : v.Spares ((v.inodes inum).addrs ndirect) v') (sound : v.Sound)
    (grows : v.Grows inum v') (allocated : v.Allocated inum) (byte : Nat → UInt8) (off : Nat) :
    v.Wrote inum byte off off v' where
  there := fun pos low high => by omega
  inside := fun pos low high => by omega
  outside := fun _ _ inUse there _ => spares.byteAt sound grows allocated inUse there

theorem congr {byte' : Nat → UInt8} (wrote : v.Wrote inum byte first last v')
    (same : ∀ pos, first ≤ pos → pos < last → byte pos = byte' pos) :
    v.Wrote inum byte' first last v' :=
  ⟨wrote.there, fun pos low high => (wrote.inside pos low high).trans (same pos low high),
    wrote.outside⟩

theorem trans (wrote : v.Wrote inum byte first mid v') (next : v'.Wrote inum byte mid last v'')
    (grows : v.Grows inum v') (grows' : v'.Grows inum v'') (allocated : v.Allocated inum)
    (low : first ≤ mid) (high : mid ≤ last) : v.Wrote inum byte first last v'' where
  there := by
    intro pos above below
    by_cases early : pos < mid
    · exact grows'.nonzero ((grows.allocated inum).mpr allocated) (wrote.there pos above early)
    · exact next.there pos (by omega) below
  inside := by
    intro pos above below
    by_cases early : pos < mid
    · -- The second part leaves alone what the first one wrote.
      rw [next.outside inum pos ((grows.allocated inum).mpr allocated)
        (wrote.there pos above early) fun _ => .inl early]
      exact wrote.inside pos above early
    · exact next.inside pos (by omega) below
  outside := by
    intro i pos inUse there apart
    have kept := wrote.outside i pos inUse there fun same => by
      omega
    rw [next.outside i pos ((grows.allocated i).mpr inUse) (grows.nonzero inUse there) fun same => by
      omega, kept]

end Volume.Wrote

/-- The byte a transfer puts at a position, when its chunk `k` starts at an offset: later chunks
start at blocks. -/
def chunkByte (src : Nat → Nat → UInt8) (k off pos : Nat) : UInt8 :=
  src (k + (pos / bsize - off / bsize)) (pos - max off (pos / bsize * bsize))

theorem chunkByte_next (src : Nat → Nat → UInt8) {k : Nat}
    (beyond : off + (bsize - off % bsize) ≤ pos) :
    chunkByte src (k + 1) (off + (bsize - off % bsize)) pos = chunkByte src k off pos := by
  unfold chunkByte
  simp only [bsize] at *
  congr 1 <;> omega

theorem Volume.Sound.wroteChunk (src : Nat → Nat → UInt8) (k : Nat) {count : Nat} (sound : v.Sound)
    (allocated : v.Allocated inum) (here : v.number inum (place (off / bsize)) = b)
    (isBlock : b ≠ 0) (short : count ≤ bsize - off % bsize) :
    v.Wrote inum (chunkByte src k off) off (off + count)
      (v.setBlock b (overwrite (v.blocks b) (off % bsize) count (src k))) := by
  obtain ⟨_, grows⟩ := sound.write allocated here isBlock
    (overwrite (v.blocks b) (off % bsize) count (src k))
  have mine : v.number inum (place (off / bsize)) ≠ 0 := by rwa [here]
  have written : (v.setBlock b (overwrite (v.blocks b) (off % bsize) count (src k))).blocks b =
      overwrite (v.blocks b) (off % bsize) count (src k) := update_self ..
  have samePart : ∀ pos, off ≤ pos → pos < off + count → pos / bsize = off / bsize := by
    simp only [bsize] at *
    omega
  refine ⟨fun pos low high => ?_, fun pos low high => ?_, fun i pos inUse there apart => ?_⟩
  · rw [samePart pos low high]
    exact grows.nonzero allocated mine
  · have part := samePart pos low high
    have inBlock : off % bsize ≤ pos % bsize ∧ pos % bsize < off % bsize + count := by
      simp only [bsize] at *
      omega
    rw [Volume.byteAt, part, grows.kept inum _ allocated mine, here, written, overwrite,
      if_pos inBlock, chunkByte, part]
    simp only [bsize] at *
    congr 1 <;> omega
  · rw [Volume.byteAt, Volume.byteAt, grows.kept i _ inUse there]
    by_cases same : v.number i (place (pos / bsize)) = b
    · -- The block is in one place, so this is another part of the same block.
      have held : v.held (inum, place (off / bsize)) = some (v.number i (place (pos / bsize))) :=
        Volume.held_eq_some.mpr ⟨allocated, here.trans same.symm, there⟩
      have slots := sound.owned.once (Volume.held_number inUse there) held
      obtain ⟨rfl, samePlace⟩ := Prod.mk.inj slots
      have part := place_injective samePlace
      have outside : ¬ (off % bsize ≤ pos % bsize ∧ pos % bsize < off % bsize + count) := by
        have := apart rfl
        simp only [bsize] at *
        omega
      rw [same, written, overwrite, if_neg outside]
    · exact congrFun (update_of_ne same _ _) _

/-- What stopped a write after a chunk that is not complete: so many bytes of it were copied. -/
def Stuck (got : Nat → Nat) (k off reached last stuck : Nat) : Prop :=
  stuck = 0 ∨ reached < last ∧ stuck = got (k + (reached / bsize - off / bsize)) ∧
    stuck < bsize - reached % bsize

theorem wp_writeBlocks (fuel : Nat) :
    ∀ {v : Volume} {k off left : Nat} {post : Nat → Volume → Prop}, v.Sound → v.Allocated inum →
      off + left ≤ maxfile * bsize → v.Covers inum off →
      (∀ reached stuck v', v'.Sound → v.Grows inum v' → off ≤ reached → reached ≤ off + left →
        v'.Covers inum reached → v.Wrote inum (chunkByte src k off) off (reached + stuck) v' →
        Stuck got k off reached (off + left) stuck → post reached v') →
      wp (writeBlocks inum src got k fuel off left) post abort v := by
  induction fuel with
  | zero =>
    intro v k off left post sound allocated limit covers done
    simp only [writeBlocks, wp_pure]
    exact done off 0 v sound (.refl v inum) (le_refl _) (by omega) covers
      (.of_spares (.refl v _) sound (.refl v inum) allocated _ _) (.inl rfl)
  | succ fuel ih =>
    intro v k off left post sound allocated limit covers done
    unfold writeBlocks
    -- Where the loop ends before a chunk, no byte was written in this turn.
    have stop : ∀ v', v'.Sound → v.Grows inum v' → v.Spares ((v.inodes inum).addrs ndirect) v' →
        post off v' := fun v' sound' grows spares =>
      done off 0 v' sound' grows (le_refl _) (by omega) (covers.mono allocated grows)
        (.of_spares spares sound grows allocated _ _) (.inl rfl)
    by_cases none : left = 0
    · rw [if_pos none]
      simpa using stop v sound (.refl v inum) (.refl v _)
    rw [if_neg none, wp_bind]
    have inside : off / bsize < maxfile := by
      simp only [bsize] at *
      omega
    apply wp_bmap_found sound allocated inside
    intro b v₁ sound₁ grows₁ spares _ here
    by_cases full : b = 0
    · rw [if_pos full, wp_pure]
      exact stop v₁ sound₁ grows₁ spares
    -- The block is written, and the next one follows unless the buffer is bad.
    have inUse := (grows₁.allocated inum).mpr allocated
    have before := Volume.Wrote.of_spares spares sound grows₁ allocated (chunkByte src k off) off
    rw [if_neg full]
    simp only [wp_bind, modifyBlock, wp_modify]
    generalize reach : min (got k) (min left (bsize - off % bsize)) = count
    obtain ⟨sound₂, grows₂⟩ := sound₁.write inUse (here full) full
      (overwrite (v₁.blocks b) (off % bsize) count (src k))
    have grows := grows₁.trans grows₂
    have wrote := before.trans (sound₁.wroteChunk src k inUse (here full) full (by omega))
      grows₁ grows₂ allocated (le_refl _) (by omega)
    have there := grows₂.nonzero inUse (by rwa [here full])
    split
    · rename_i failed
      obtain rfl : count = got k := by omega
      rw [wp_pure]
      refine done off (got k) _ sound₂ grows (le_refl _) (by omega) (covers.mono allocated grows)
        wrote (.inr ⟨by omega, ?_, by omega⟩)
      rw [Nat.sub_self, Nat.add_zero]
    · rename_i copied
      obtain rfl : count = min left (bsize - off % bsize) := by omega
      refine ih sound₂ ((grows.allocated inum).mpr allocated) (by omega) ?_ ?_
      · exact (covers.mono allocated grows).next there (Nat.min_le_right _ _)
      intro reached stuck v' sound' grows' low high covers' wrote' ended
      -- A chunk follows only where this one ended with its block.
      have follows : ∀ pos, off + min left (bsize - off % bsize) ≤ pos → pos < reached + stuck →
          min left (bsize - off % bsize) = bsize - off % bsize := by
        rcases ended with rfl | ⟨short, -, -⟩ <;> omega
      refine done reached stuck v' sound' (grows.trans grows') (by omega) (by omega) covers' ?_ ?_
      · refine wrote.trans (wrote'.congr fun pos above below => ?_) grows grows' allocated
          (by omega) (by omega)
        have full := follows pos above below
        rw [full] at above ⊢
        exact chunkByte_next src above
      · rcases ended with none | ⟨short, part, room⟩
        · exact .inl none
        · refine .inr ⟨by omega, ?_, room⟩
          rw [part]
          have whole : min left (bsize - off % bsize) = bsize - off % bsize := by omega
          simp only [bsize] at *
          congr 1
          omega

theorem wp_readBlocks (fuel : Nat) :
    ∀ {k off left : Nat} {post : Unit → Volume → Prop}, v.Sound → v.Allocated inum →
      off + left ≤ maxfile * bsize → v.Covers inum (off + left) → post () v →
      wp (readBlocks inum got k fuel off left) post abort v := by
  induction fuel with
  | zero =>
    simpa [readBlocks] using done
  | succ fuel ih =>
    intro k off left post sound allocated limit covers done
    unfold readBlocks
    by_cases none : left = 0
    · rw [if_pos none]
      simpa using done
    rw [if_neg none, wp_bind]
    have inside : off / bsize < maxfile := by
      simp only [bsize] at *
      omega
    have here : v.number inum (place (off / bsize)) ≠ 0 := by
      apply covers
      simp only [bsize] at *
      omega
    refine wp_bmap sound allocated inside (fun _ => ?_) (fun _ empty => absurd empty here)
      (fun _ _ empty => absurd empty here)
    rw [if_neg here]
    dsimp only
    split
    · simpa using done
    · refine ih sound allocated (by omega) ?_ done
      rw [show off + min left (bsize - off % bsize) + (left - min left (bsize - off % bsize)) =
        off + left by omega]
      exact covers

theorem wp_readi {post : Unit → Volume → Prop} (sound : v.Sound) (allocated : v.Allocated inum)
    (done : post () v) : wp (readi inum got off n) post abort v := by
  unfold readi
  simp only [wp_bind, wp_get]
  have limit := sound.limit inum allocated
  split
  · simpa using done
  split
  · refine wp_readBlocks _ sound allocated (by omega) (fun bn low => ?_) done
    exact sound.whole inum allocated bn (by omega)
  · refine wp_readBlocks _ sound allocated (by omega) (fun bn low => ?_) done
    exact sound.whole inum allocated bn (by omega)

/-- The volume with an inode changed in memory and written back. -/
def Volume.saveInode (v : Volume) (inum : Nat) (ip : Dinode) : Volume :=
  { v with
    inodes := update v.inodes inum ip
    dinodes := update v.dinodes inum ip }

theorem Volume.allocated_saveInode (v : Volume) (type : ip.type = (v.inodes inum).type) (i : Nat) :
    (v.saveInode inum ip).Allocated i ↔ v.Allocated i := by
  have inode : (v.saveInode inum ip).inodes inum = ip := update_self ..
  have other : i ≠ inum → (v.saveInode inum ip).inodes i = v.inodes i :=
    fun apart => update_of_ne apart _ _
  unfold Volume.Allocated
  by_cases here : i = inum
  · rw [here, inode, type]
    rfl
  · rw [other here]
    rfl

theorem Volume.number_saveInode (v : Volume) (addrs : ip.addrs = (v.inodes inum).addrs) (i : Nat)
    (p : Place) : (v.saveInode inum ip).number i p = v.number i p := by
  have inode : (v.saveInode inum ip).inodes inum = ip := update_self ..
  have same : ((v.saveInode inum ip).inodes i).addrs = (v.inodes i).addrs := by
    by_cases here : i = inum
    · rw [here, inode, addrs]
    · exact congrArg Dinode.addrs (update_of_ne here _ _)
  exact Volume.number_congr same (fun _ => rfl) p

theorem Volume.Consistent.saveInode (consistent : v.Consistent) (grows : v.Grows inum v')
    (sound : v'.Sound) (allocated : v.Allocated inum) (type : ip.type = (v'.inodes inum).type)
    (addrs : ip.addrs = (v'.inodes inum).addrs) (covers : v'.Covers inum ip.size)
    (limit : ip.size ≤ maxfile * bsize) : (v'.saveInode inum ip).Consistent := by
  have inode : (v'.saveInode inum ip).inodes inum = ip := update_self ..
  have other : ∀ i, i ≠ inum → (v'.saveInode inum ip).inodes i = v'.inodes i :=
    fun i apart => update_of_ne apart _ _
  have inUse := v'.allocated_saveInode type
  have numbers := v'.number_saveInode addrs
  have held : (v'.saveInode inum ip).held = v'.held :=
    Volume.held_congr inUse fun i _ p => numbers i p
  refine ⟨⟨sound.fits, sound.before, sound.metadata, ?_, ?_, ?_⟩, ?_⟩
  · rw [held]
    exact sound.owned
  · intro i there bn inside
    rw [numbers]
    by_cases here : i = inum
    · subst here
      rw [inode] at inside
      exact covers bn inside
    · rw [other i here] at inside
      exact sound.whole i ((inUse i).mp there) bn inside
  · intro i there
    by_cases here : i = inum
    · rwa [here, inode]
    · rw [other i here]
      exact sound.limit i ((inUse i).mp there)
  · intro i
    by_cases here : i = inum
    · rw [here, inode]
      exact update_self ..
    · rw [other i here, grows.others i here, ← consistent.saved i, ← grows.dinodes]
      exact update_of_ne here _ _

/-- The volume after a write of some bytes of one file, and what came of the write. -/
structure Volume.Written (v : Volume) (inum : Nat) (src : Nat → Nat → UInt8) (got : Nat → Nat)
    (off n reached stuck : Nat) (v' : Volume) : Prop where
  low : off ≤ reached
  high : reached ≤ off + n
  ended : Stuck got 0 off reached (off + n) stuck
  wrote : v.Wrote inum (chunkByte src 0 off) off (reached + stuck) v'
  /-- The file grows as far as the write got. -/
  size : (v'.inodes inum).size = max (v.inodes inum).size reached
  others : ∀ i, i ≠ inum → v'.inodes i = v.inodes i
  allocated : ∀ i, v'.Allocated i ↔ v.Allocated i

theorem Volume.byteAt_saveInode {v : Volume} (addrs : ip.addrs = (v.inodes inum).addrs)
    (i pos : Nat) : (v.saveInode inum ip).byteAt i pos = v.byteAt i pos := by
  rw [Volume.byteAt, Volume.byteAt, v.number_saveInode addrs]
  rfl

theorem wp_writei {post : Int → Volume → Prop} (consistent : v.Consistent)
    (allocated : v.Allocated inum)
    (refused : (v.inodes inum).size < u32 off ∨ 2 ^ 32 ≤ u32 off + u32 n ∨
      maxfile * bsize < u32 off + u32 n → post (-1) v)
    (done : ∀ reached stuck v', u32 off ≤ (v.inodes inum).size →
      u32 off + u32 n ≤ maxfile * bsize → v'.Consistent →
      v.Written inum src got (u32 off) (u32 n) reached stuck v' → post (reached - u32 off) v') :
    wp (writei inum src got off n) post abort v := by
  unfold writei
  simp only [wp_bind, wp_get]
  have limit := consistent.limit inum allocated
  split
  · rename_i beyond
    rw [wp_pure]
    exact refused (by omega)
  split
  · rename_i beyond
    rw [wp_pure]
    exact refused (by omega)
  have covers : v.Covers inum (u32 off) := fun bn low =>
    consistent.whole inum allocated bn (by omega)
  rw [wp_bind]
  apply wp_writeBlocks _ consistent.toSound allocated (by omega) covers
  intro reached stuck v' sound grows low high covers' wrote ended
  simp only [wp_bind, modifyInode, iupdate, wp_modify, wp_pure, update_self]
  have length := grows.length
  have inUse := (grows.allocated inum).mpr allocated
  have whole : v'.Covers inum (v'.inodes inum).size := fun bn below => sound.whole inum inUse bn below
  -- The inode that is written back has the same block numbers and covers its new size.
  have saved : ∀ ip : Dinode, ip.type = (v'.inodes inum).type → ip.addrs = (v'.inodes inum).addrs →
      ip.size = max (v.inodes inum).size reached → v'.Covers inum ip.size →
      post (reached - u32 off) (v'.saveInode inum ip) := by
    intro ip type addrs size covered
    have kept := consistent.saveInode grows sound allocated type addrs covered (by omega)
    refine done reached stuck _ (by omega) (by omega) kept ⟨low, high, ended, ?_, ?_, ?_, ?_⟩
    · refine ⟨fun pos above below => ?_, fun pos above below => ?_, fun i pos there some apart => ?_⟩
      · rw [v'.number_saveInode addrs]
        exact wrote.there pos above below
      · rw [Volume.byteAt_saveInode addrs]
        exact wrote.inside pos above below
      · rw [Volume.byteAt_saveInode addrs]
        exact wrote.outside i pos there some apart
    · rw [← size]
      exact congrArg Dinode.size (update_self ..)
    · intro i other
      exact (update_of_ne other _ _).trans (grows.others i other)
    · intro i
      rw [v'.allocated_saveInode type, grows.allocated]
  by_cases grown : (v'.inodes inum).size < reached
  · rw [if_pos grown]
    exact saved { v'.inodes inum with size := reached } rfl rfl (by dsimp only; omega) covers'
  · rw [if_neg grown]
    exact saved (v'.inodes inum) rfl rfl (by omega) whole

end Transfers

end Xv6.Blocks
