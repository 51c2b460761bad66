import Xv6.Disk.BlockLaws
import Xv6.Lib.Overlay

/-! File contents: what a write puts into a file is what reads return. -/

namespace Xv6.Blocks

open Prog Overlay

/-- The contents of a file. -/
def Volume.contents (v : Volume) (inum : Nat) : List UInt8 :=
  (List.range (v.inodes inum).size).map (v.byteAt inum)

/-- A source of bytes in the chunks of a transfer: the first one starts at an offset of the file,
the others at its blocks. -/
def sourceChunks (d : Nat → UInt8) (off k i : Nat) : UInt8 :=
  d ((if k = 0 then 0 else (off / bsize + k) * bsize - off) + i)

/-- Copy blocks until the count is reached, a block is missing or the buffer is bad; whether it
was good, and the bytes copied. -/
def readLoop (inum : Nat) (got : Nat → Nat) :
    Nat → Nat → Nat → Nat → BlockOp (Bool × List UInt8)
  | _, 0, _, _ => return (true, [])
  | k, fuel + 1, off, left => do
    if left = 0 then return (true, [])
    let addr ← bmap inum (off / bsize)
    if addr = 0 then return (true, [])
    let m := min left (bsize - off % bsize)
    let block := (← get).blocks addr
    let bytes := (List.range (min (got k) m)).map fun i => block (off % bsize + i)
    if got k < m then return (false, bytes)
    let (good, rest) ← readLoop inum got (k + 1) fuel (off + m) (left - m)
    return (good, bytes ++ rest)

/-- Read from an inode, with the bytes: the count, or minus one, and what was copied. -/
def readData (inum : Nat) (got : Nat → Nat) (off n : Nat) : BlockOp (Int × List UInt8) := do
  let ip := (← get).inodes inum
  if ip.size < u32 off ∨ 2 ^ 32 ≤ u32 off + u32 n then return (0, [])
  let n := if ip.size < u32 off + u32 n then ip.size - u32 off else u32 n
  let (good, bytes) ← readLoop inum got 0 n (u32 off) n
  return (if good then bytes.length else -1, bytes)

/-- What a read returns with the bytes it copied. -/
def returned (bytes : List UInt8) : Int × List UInt8 := (bytes.length, bytes)

section Reads

variable {v : Volume} {inum : Nat} {abort : BlockPanic → Prop} {got : Nat → Nat}

theorem map_readLoop (fuel : Nat) : ∀ k off left,
    (fun _ => ()) <$> readLoop inum got k fuel off left = readBlocks inum got k fuel off left := by
  induction fuel with
  | zero => exact fun k off left => rfl
  | succ fuel ih =>
    intro k off left
    unfold readLoop readBlocks
    by_cases none : left = 0
    · simp [none]
    simp only [none, if_false, map_bind]
    apply bind_congr
    intro addr
    by_cases full : addr = 0
    · simp [full]
    by_cases bad : got k < min left (bsize - off % bsize)
    · simp only [full, bad]
      rfl
    · simp only [full, bad, if_false, map_bind, ← ih]
      rfl

theorem map_readData (off n : Nat) :
    (fun _ => ()) <$> readData inum got off n = readi inum got off n := by
  unfold readData readi
  simp only [map_bind]
  apply bind_congr
  intro v
  by_cases beyond : (v.inodes inum).size < u32 off ∨ 2 ^ 32 ≤ u32 off + u32 n
  · simp only [if_pos beyond, map_pure]
  · simp only [if_neg beyond, map_bind, ← map_readLoop]
    rfl

theorem wp_readLoop (fuel : Nat) :
    ∀ {k off left : Nat} {post : Bool × List UInt8 → Volume → Prop}, v.Sound → v.Allocated inum →
      (∀ k, bsize ≤ got k) → off + left ≤ maxfile * bsize → v.Covers inum (off + left) →
      left ≤ fuel → post (true, (List.range left).map fun i => v.byteAt inum (off + i)) v →
      wp (readLoop inum got k fuel off left) post abort v := by
  induction fuel with
  | zero =>
    intro k off left post _ _ _ _ _ enough done
    obtain rfl : left = 0 := by omega
    simpa [readLoop] using done
  | succ fuel ih =>
    intro k off left post sound allocated good limit covers enough done
    unfold readLoop
    by_cases none : left = 0
    · subst none
      simpa using done
    rw [if_neg none, wp_bind]
    have inside : off / bsize < maxfile := by
      simp only [bsize] at *
      omega
    have here : v.number inum (place (off / bsize)) ≠ 0 := by
      apply covers
      simp only [bsize] at *
      omega
    refine wp_bmap sound allocated inside (fun _ => ?_) (fun _ empty => absurd empty here)
      (fun _ _ empty => absurd empty here)
    -- A chunk ends with its block or with the count, and the rest follows.
    have room : ¬ got k < min left (bsize - off % bsize) := by
      have := good k
      omega
    have count : min (got k) (min left (bsize - off % bsize)) =
        min left (bsize - off % bsize) := by omega
    simp only [if_neg here, if_neg room, count, wp_bind, wp_get]
    generalize reach : min left (bsize - off % bsize) = m
    have positive : 0 < m := by
      simp only [bsize] at *
      omega
    refine ih sound allocated good (by omega) ?_ (by omega) ?_
    · rwa [show off + m + (left - m) = off + left by omega]
    · simp only [wp_pure]
      -- The bytes of the block are those of the file from the offset on.
      have chunk : ∀ i < m, v.blocks (v.number inum (place (off / bsize))) (off % bsize + i) =
          v.byteAt inum (off + i) := by
        intro i below
        have part : (off + i) / bsize = off / bsize ∧ (off + i) % bsize = off % bsize + i := by
          simp only [bsize] at *
          omega
        rw [Volume.byteAt, part.1, part.2]
      have joined : (List.range m).map (fun i =>
            v.blocks (v.number inum (place (off / bsize))) (off % bsize + i)) ++
          (List.range (left - m)).map (fun i => v.byteAt inum (off + m + i)) =
          (List.range left).map fun i => v.byteAt inum (off + i) := by
        rw [show left = m + (left - m) by omega, List.range_add, List.map_append, List.map_map,
          show m + (left - m) - m = left - m by omega]
        congr 1
        · exact List.map_congr_left fun i below => chunk i (List.mem_range.mp below)
        · exact List.map_congr_left fun i _ => congrArg _ (Nat.add_assoc _ _ _)
      rw [joined]
      exact done

theorem readData_eq {off n : Nat} (sound : v.Sound) (allocated : v.Allocated inum)
    (good : ∀ k, bsize ≤ got k) (range : off + n < 2 ^ 32) :
    readData inum got off n v = .ok (returned (((v.contents inum).drop off).take n), v) := by
  have limit := sound.limit inum allocated
  have low : u32 off = off := Nat.mod_eq_of_lt (by omega)
  have high : u32 n = n := Nat.mod_eq_of_lt (by omega)
  have reads : wp (readData inum got off n)
      (fun r v' => r = returned (((v.contents inum).drop off).take n) ∧ v' = v)
      (fun _ => False) v := by
    unfold readData Volume.contents
    simp only [wp_bind, wp_get, low, high, take_drop_map_range]
    split
    · rename_i beyond
      rw [show min n ((v.inodes inum).size - off) = 0 by omega, wp_pure]
      exact ⟨rfl, rfl⟩
    · rename_i inside
      -- The count is cut where the file ends.
      have count : (if (v.inodes inum).size < off + n then (v.inodes inum).size - off else n) =
          min n ((v.inodes inum).size - off) := by
        split <;> omega
      rw [count, wp_bind]
      refine wp_readLoop _ sound allocated good (by omega) (fun bn below => ?_) (le_refl _) ?_
      · exact sound.whole inum allocated bn (by omega)
      · rw [wp_pure]
        exact ⟨rfl, rfl⟩
  obtain ⟨r, w, ran, rfl, rfl⟩ := exists_ok_of_wp reads
  exact ran

end Reads

section Writes

variable {v v' : Volume} {inum : Nat} {got : Nat → Nat}

theorem chunkByte_sourceChunks (d : Nat → UInt8) {off pos : Nat} (low : off ≤ pos) :
    chunkByte (sourceChunks d off) 0 off pos = d (pos - off) := by
  unfold chunkByte sourceChunks
  congr 1
  by_cases first : pos / bsize = off / bsize
  · rw [if_pos (by omega)]
    simp only [bsize] at *
    omega
  · have later := Nat.div_le_div_right (c := bsize) low
    rw [if_neg (by omega)]
    simp only [bsize] at *
    omega

theorem Volume.Written.contents_other {src : Nat → Nat → UInt8} {off n reached stuck : Nat}
    (written : v.Written inum src got off n reached stuck v') (sound : v.Sound) {i : Nat}
    (inUse : v.Allocated i) (other : i ≠ inum) : v'.contents i = v.contents i := by
  unfold Volume.contents
  rw [written.others i other]
  refine List.map_congr_left fun pos below => ?_
  have inside := List.mem_range.mp below
  refine written.wrote.outside i pos inUse ?_ fun same => absurd same other
  apply sound.whole i inUse
  have := Nat.div_mul_le_self pos bsize
  omega

theorem Volume.Written.contents_eq {d : Nat → UInt8} {off n reached stuck : Nat}
    (written : v.Written inum (sourceChunks d off) got off n reached stuck v') (sound : v.Sound)
    (allocated : v.Allocated inum) (inside : off ≤ (v.inodes inum).size)
    (harmless : ∀ pos, reached ≤ pos → pos < reached + stuck → pos < (v.inodes inum).size →
      d (pos - off) = v.byteAt inum pos) :
    v'.contents inum = overlay (v.contents inum) off ((List.range (reached - off)).map d) := by
  obtain ⟨k, rfl⟩ := Nat.exists_eq_add_of_le written.low
  have length : ((List.range k).map d).length = k := by simp
  unfold Volume.contents
  rw [written.size, Nat.add_sub_cancel_left]
  nth_rewrite 1 [← length]
  apply map_range_eq_overlay inside
  · intro i here
    rw [written.wrote.inside (off + i) (by omega) (by omega),
      chunkByte_sourceChunks d (by omega)]
    simp
  · intro pos below apart
    by_cases copied : off + k ≤ pos ∧ pos < off + k + stuck
    · -- The chunk that failed put the byte that was there.
      rw [written.wrote.inside pos (by omega) copied.2, chunkByte_sourceChunks d (by omega)]
      exact harmless pos copied.1 copied.2 below
    · refine written.wrote.outside inum pos allocated ?_ fun _ => by omega
      apply sound.whole inum allocated
      have := Nat.div_mul_le_self pos bsize
      omega

end Writes

/-- A write that returns the whole count puts its bytes over the contents of the file, which is
then what reads return; other files stay as they are. A write that begins beyond the end of the
file, wraps around or ends beyond the largest file is refused and changes nothing. -/
theorem writes_read_back {v : Volume} {inum : Nat} (consistent : v.Consistent)
    (allocated : v.Allocated inum) :
    (∀ off (d : List UInt8) got v', off ≤ (v.inodes inum).size →
      off + d.length ≤ maxfile * bsize →
      writei inum (sourceChunks (d.getD · 0) off) got off d.length v = .ok (d.length, v') →
      v'.Consistent ∧
      (v'.inodes inum).size = max (v.inodes inum).size (off + d.length) ∧
      v'.contents inum = overlay (v.contents inum) off d ∧
      (∀ i, i ≠ inum → v.Allocated i → v'.inodes i = v.inodes i ∧ v'.contents i = v.contents i) ∧
      ∀ i got' off' n', v.Allocated i → (∀ k, bsize ≤ got' k) → off' + n' < 2 ^ 32 →
        readData i got' off' n' v' =
          .ok (returned ((((if i = inum then overlay (v.contents inum) off d else v.contents i).drop
            off').take n')), v')) ∧
    ∀ src got off n, off < 2 ^ 32 → n < 2 ^ 32 →
      (v.inodes inum).size < off ∨ 2 ^ 32 ≤ off + n ∨ maxfile * bsize < off + n →
      writei inum src got off n v = .ok (-1, v) := by
  have largest : maxfile * bsize < 2 ^ 32 := by decide
  constructor
  · intro off d got v' inside fits ran
    have low : u32 off = off := Nat.mod_eq_of_lt (by omega)
    have high : u32 d.length = d.length := Nat.mod_eq_of_lt (by omega)
    have wrote : wp (writei inum (sourceChunks (d.getD · 0) off) got off d.length)
        (fun r w => r = d.length → w.Consistent ∧
          v.Written inum (sourceChunks (d.getD · 0) off) got off d.length (off + d.length) 0 w)
        (fun _ => False) v := by
      apply wp_writei consistent allocated
      · intro _ whole
        omega
      · intro reached stuck w _ _ kept written whole
        rw [low, high] at written
        obtain rfl : reached = off + d.length := by omega
        -- Nothing failed, since the last chunk was reached.
        have none : stuck = 0 := by
          rcases written.ended with none | ⟨short, -, -⟩
          · exact none
          · omega
        rw [none] at written
        exact ⟨kept, written⟩
    have after := wp_ok wrote ran
    obtain ⟨consistent', written⟩ := after rfl
    have bytes : (List.range d.length).map (d.getD · 0) = d := by
      apply List.ext_getElem
      · simp
      · intro i _ here
        simp [here]
    have mine := written.contents_eq consistent.toSound allocated inside fun _ _ _ => by omega
    rw [Nat.add_sub_cancel_left, bytes] at mine
    have others : ∀ i, i ≠ inum → v.Allocated i → v'.contents i = v.contents i :=
      fun i apart inUse => written.contents_other consistent.toSound inUse apart
    refine ⟨consistent', written.size, mine, fun i apart inUse => ?_,
      fun i got' off' n' inUse good range => ?_⟩
    · exact ⟨written.others i apart, others i apart inUse⟩
    · rw [readData_eq consistent'.toSound ((written.allocated i).mpr inUse) good range]
      by_cases same : i = inum
      · rw [if_pos same, same, mine]
      · rw [if_neg same, others i same inUse]
  · intro src got off n small small' beyond
    have low : u32 off = off := Nat.mod_eq_of_lt small
    have high : u32 n = n := Nat.mod_eq_of_lt small'
    have refused : wp (writei inum src got off n) (fun r w => r = -1 ∧ w = v) (fun _ => False) v := by
      apply wp_writei consistent allocated
      · exact fun _ => ⟨rfl, rfl⟩
      · intro reached stuck w within fits
        omega
    obtain ⟨r, w, ran, rfl, rfl⟩ := exists_ok_of_wp refused
    exact ran

/-- A volume with a file that ends one byte before the end of its first block. -/
def shortFile : Volume :=
  after (do
    discard (ialloc .file)
    discard (writei 1 (fun _ _ => 7) (fun _ => bsize) 0 1023)) emptyVolume

theorem shortFile_consistent : shortFile.Consistent := by
  have made : Trace.Run Volume.Steps emptyVolume
      [.ialloc .file, .writei 1 true (fun _ _ => 7) (fun _ => bsize) 0 1023] shortFile :=
    Trace.Run.of_steps Volume.steps_of_step rfl
  exact emptyVolume_consistent.run made

set_option maxRecDepth 10000 in
/-- Three bytes are written across the end of a block of the file. -/
theorem writes_read_back_boundary :
    ∃ v', writei 1 (sourceChunks ([1, 2, 3].getD · 0) 1022) (fun _ => bsize) 1022 3 shortFile =
        .ok (3, v') ∧ (v'.inodes 1).size = 1025 ∧
      readData 1 (fun _ => bsize) 1021 4 v' = .ok ((4, [7, 1, 2, 3]), v') := by
  have allocated : shortFile.Allocated 1 := by decide
  have value : valueOf (writei 1 (sourceChunks ([1, 2, 3].getD · 0) 1022) (fun _ => bsize) 1022 3
      shortFile) = some 3 := by decide
  have ran := eq_ok_of_valueOf value
  obtain ⟨-, size, -, -, reads⟩ := (writes_read_back shortFile_consistent allocated).1
    1022 [1, 2, 3] (fun _ => bsize) _ (by decide) (by decide) ran
  have bytes : ((overlay (shortFile.contents 1) 1022 [1, 2, 3]).drop 1021).take 4 =
      [7, 1, 2, 3] := by decide
  have back := reads 1 _ 1021 4 allocated (fun _ => le_refl _) (by decide)
  exact ⟨_, ran, size.trans (by decide), back⟩

end Xv6.Blocks
