import Xv6.Swap
import Mathlib.Data.List.TakeWhile

/-! What opening, writing and reading a swap file leaves alone and what it guarantees. -/

namespace Xv6

structure Fs.Apart (fs : Fs) (name : List UInt8) (swap : Option Nat) (e : Nat) : Prop where
  allocated : (fs.inodes e).type ≠ none
  unnamed : ∀ d, fs.dirlookup d name ≠ some e
  other : swap ≠ some e

def Fs.SlotHas (fs : Fs) (f slot : Nat) (page : Nat → UInt8) : Prop :=
  slot * pgsize + pgsize ≤ (fs.inodes f).size ∧
    ∀ k, k < pgsize → (fs.inodes f).data (slot * pgsize + k) = page k

structure Fs.SwapStep (fs fs' : Fs) (name : List UInt8) (swap swap' : Option Nat)
    (held : Nat → Bool) : Prop where
  spares : ∀ e, fs.Apart name swap e → fs'.Apart name swap' e ∧ fs'.inodes e = fs.inodes e
  keeps : ∀ f, swap = some f → swap' = some f ∧
    ∀ slot page, held slot = true → fs.SlotHas f slot page → fs'.SlotHas f slot page

theorem Fs.SwapStep.refl (fs : Fs) (name : List UInt8) (swap : Option Nat) (held : Nat → Bool) :
    fs.SwapStep fs name swap swap held :=
  ⟨fun _ apart => ⟨apart, rfl⟩, fun _ same => ⟨same, fun _ _ _ has => has⟩⟩

variable {fs fs' : Fs} {name : List UInt8} {held : Nat → Bool} {f pid slot : Nat}

theorem Fs.SwapStep.trans {fs'' : Fs} {swap swap' swap'' : Option Nat}
    (first : fs.SwapStep fs' name swap swap' held)
    (second : fs'.SwapStep fs'' name swap' swap'' held) :
    fs.SwapStep fs'' name swap swap'' held := by
  refine ⟨fun e apart => ?_, fun f same => ?_⟩
  · obtain ⟨apart', before⟩ := first.spares e apart
    obtain ⟨apart'', after⟩ := second.spares e apart'
    exact ⟨apart'', after.trans before⟩
  · obtain ⟨same', kept⟩ := first.keeps f same
    obtain ⟨same'', kept'⟩ := second.keeps f same'
    exact ⟨same'', fun slot page isHeld has =>
      kept' slot page isHeld (kept slot page isHeld has)⟩

theorem swapName_ne_slash {c : UInt8} (member : c ∈ swapName pid) : (c != slash) = true := by
  have digit : ∀ d, d < 10 → (UInt8.ofNat (48 + d) != slash) = true := by decide
  simp only [swapName, List.map_cons, List.map_nil, List.cons_append, List.nil_append,
    List.mem_cons, List.not_mem_nil, or_false] at member
  rcases member with rfl | rfl | rfl | rfl | rfl | rfl | rfl | rfl | rfl | rfl
  iterate 5 decide
  all_goals exact digit _ (Nat.mod_lt _ (by decide))

theorem skipelem_swapName (pid : Nat) : skipelem (swapName pid) = some ([], swapName pid) := by
  have whole : (swapName pid).takeWhile (· != slash) = swapName pid :=
    List.takeWhile_eq_self_iff.mpr fun c member => swapName_ne_slash member
  have rest : (swapName pid).dropWhile (· != slash) = [] :=
    List.dropWhile_eq_nil_iff.mpr fun c member => swapName_ne_slash member
  have start : (swapName pid).dropWhile (· == slash) = swapName pid := by
    simp [swapName, slash]
  have short : (swapName pid).take dirsiz = swapName pid := by
    simp [swapName, dirsiz]
  have shape : ∃ c cs, swapName pid = c :: cs := ⟨_, _, rfl⟩
  obtain ⟨c, cs, nonempty⟩ := shape
  unfold skipelem
  rw [start, nonempty]
  simp only [← nonempty, whole, rest, short, List.dropWhile_nil]

theorem pathElems_swapName (pid : Nat) :
    pathElems ((swapName pid).length + 1) (swapName pid) = [swapName pid] := by
  have length : (swapName pid).length = 10 := rfl
  rw [length, pathElems, skipelem_swapName]
  rfl

theorem pathStart_swapName (cwd pid : Nat) : pathStart cwd (swapName pid) = cwd := by
  simp [pathStart, swapName, slash]

theorem nameiparent_swapName (fs : Fs) (cwd pid : Nat) : nameiparent fs cwd (swapName pid) =
    if (fs.inodes cwd).type = some .dir then some (cwd, swapName pid) else none := by
  rw [nameiparent, pathElems_swapName, pathStart_swapName, nameiparentFrom]
  by_cases directory : (fs.inodes cwd).type = some .dir <;> simp

def Fs.made (fs : Fs) (dp : Nat) (name : List UInt8) (ip : Nat) : Fs where
  inodes := Function.update fs.inodes ip ⟨some .file, 0, fun _ => 0⟩
  dirlookup d n := if d = dp ∧ n = name then some ip else fs.dirlookup d n

def Fs.entry (fs : Fs) (env : FsEnv) (dp : Nat) (name : List UInt8) : Option (Nat × Fs) :=
  if (fs.inodes dp).type ≠ some .dir then none
  else match fs.dirlookup dp name with
    | some ip =>
      if (fs.inodes ip).type = some .file ∨ (fs.inodes ip).type = some .device then some (ip, fs)
      else none
    | none =>
      match env.ialloc with
      | none => none
      | some ip =>
        if (fs.inodes ip).type = none ∧ env.dirlink = true then some (ip, fs.made dp name ip)
        else none

/-- Opening a swap file finds the entry of its name in the current directory, or makes it. -/
theorem create_swapName (fs : Fs) (env : FsEnv) (cwd pid : Nat) :
    create fs env cwd (swapName pid) = match fs.entry env cwd (swapName pid) with
      | none => (none, fs)
      | some (ip, fs') => (some ip, fs') := by
  unfold create Fs.entry
  rw [nameiparent_swapName]
  by_cases directory : (fs.inodes cwd).type = some .dir
  · simp only [directory, if_true, ne_eq, not_true_eq_false, if_false]
    cases fs.dirlookup cwd (swapName pid) with
    | some ip =>
      rcases type : (fs.inodes ip).type with _ | _ | _ | _ <;> simp [type]
    | none =>
      cases env.ialloc with
      | none => rfl
      | some ip =>
        by_cases usable : (fs.inodes ip).type = none ∧ env.dirlink = true
        · simp [usable, Fs.made]
        · simp [usable]
  · simp [directory]

theorem Fs.entry_cases {fs fs' : Fs} {env : FsEnv} {dp ip : Nat} {name : List UInt8}
    (found : fs.entry env dp name = some (ip, fs')) :
    (fs.dirlookup dp name = some ip ∧ (fs.inodes ip).type ≠ none ∧ fs' = fs) ∨
    (fs.dirlookup dp name = none ∧ (fs.inodes ip).type = none ∧ fs' = fs.made dp name ip) := by
  unfold Fs.entry at found
  split at found
  · simp at found
  split at found
  · rename_i named
    split at found
    · rename_i regular
      obtain ⟨rfl, rfl⟩ := Prod.mk.inj (Option.some.inj found)
      exact Or.inl ⟨named, by rcases regular with type | type <;> simp [type], rfl⟩
    · simp at found
  · rename_i unnamed
    split at found
    · simp at found
    split at found
    · rename_i usable
      obtain ⟨rfl, rfl⟩ := Prod.mk.inj (Option.some.inj found)
      exact Or.inr ⟨unnamed, usable.1, rfl⟩
    · simp at found

theorem Fs.entry_named {fs fs' : Fs} {env : FsEnv} {dp ip : Nat} {name : List UInt8}
    (found : fs.entry env dp name = some (ip, fs')) (named : fs.dirlookup dp name = some ip) :
    (fs.inodes dp).type = some .dir ∧
      ((fs.inodes ip).type = some .file ∨ (fs.inodes ip).type = some .device) := by
  unfold Fs.entry at found
  split at found
  · simp at found
  · rename_i directory
    rw [named] at found
    dsimp only at found
    split at found
    · exact ⟨not_not.mp directory, ‹_›⟩
    · simp at found

theorem Fs.entry_step {fs fs' : Fs} {env : FsEnv} {dp ip : Nat} {name : List UInt8}
    (held : Nat → Bool) (found : fs.entry env dp name = some (ip, fs')) :
    fs.SwapStep fs' name none (some ip) held := by
  rcases Fs.entry_cases found with ⟨named, -, rfl⟩ | ⟨-, free, rfl⟩
  · -- An existing file is reached by the name, so it is not one of the spared ones.
    refine ⟨fun e apart => ⟨⟨apart.allocated, apart.unnamed, fun same => ?_⟩, rfl⟩, by simp⟩
    exact apart.unnamed dp (named.trans same)
  · -- The new inode was unallocated, so it is not one of the spared ones either.
    refine ⟨fun e apart => ?_, by simp⟩
    have other : e ≠ ip := fun same => apart.allocated (same ▸ free)
    refine ⟨⟨?_, fun d => ?_, ?_⟩, ?_⟩
    · simpa [Fs.made, other] using apart.allocated
    · simp only [Fs.made]
      split
      · simpa using other.symm
      · exact apart.unnamed d
    · simpa using other.symm
    · simp [Fs.made, other]

theorem dropUnlinked_step {ip : Nat} (env : FsEnv)
    (opened : fs.SwapStep fs' name none (some ip) held) :
    fs.SwapStep (dropUnlinked fs' env ip) name none none held := by
  refine ⟨fun e apart => ?_, by simp⟩
  obtain ⟨apart', same⟩ := opened.spares e apart
  have other : e ≠ ip := fun equal => apart'.other (by rw [equal])
  unfold dropUnlinked
  split
  · refine ⟨⟨by simpa [other] using apart'.allocated, apart'.unnamed, by simp⟩, ?_⟩
    simpa [other] using same
  · exact ⟨⟨apart'.allocated, apart'.unnamed, by simp⟩, same⟩

theorem u32_slot (inside : slot < maxSwapPages) :
    u32 (slot * pgsize) = slot * pgsize ∧ u32 pgsize = pgsize := by
  refine ⟨Nat.mod_eq_of_lt ?_, Nat.mod_eq_of_lt (by decide)⟩
  simp only [pgsize, maxSwapPages] at *
  omega

theorem writei_step {room : Nat} {src : Nat → UInt8} {n : Int} (name : List UInt8)
    (inside : slot < maxSwapPages) (unheld : held slot = false)
    (ran : writei fs f src (slot * pgsize) pgsize room = (n, fs')) :
    fs.SwapStep fs' name (some f) (some f) held ∧ (n = pgsize → fs'.SlotHas f slot src) := by
  obtain ⟨offset, length⟩ := u32_slot inside
  have unchanged : fs.SwapStep fs name (some f) (some f) held := Fs.SwapStep.refl _ _ _ _
  have short : ¬ (-1 : Int) = (pgsize : Int) := by decide
  simp only [writei, offset, length] at ran
  split at ran
  · simp only [Prod.mk.injEq] at ran
    obtain ⟨rfl, rfl⟩ := ran
    exact ⟨unchanged, fun full => absurd full short⟩
  split at ran
  · simp only [Prod.mk.injEq] at ran
    obtain ⟨rfl, rfl⟩ := ran
    exact ⟨unchanged, fun full => absurd full short⟩
  obtain ⟨rfl, rfl⟩ := ran
  refine ⟨⟨fun e apart => ?_, fun g same => ⟨same, fun other page isHeld has => ?_⟩⟩,
    fun full => ?_⟩
  · have differs : e ≠ f := fun equal => apart.other (by rw [equal])
    exact ⟨⟨by simpa [differs] using apart.allocated, apart.unnamed, apart.other⟩,
      by simp [differs]⟩
  · -- A held slot is a different one, so its bytes lie outside the range written.
    obtain rfl : f = g := by simpa using same
    have differs : other ≠ slot := fun equal => by simp [equal, unheld] at isHeld
    refine ⟨?_, fun k inPage => ?_⟩
    · simp only [Function.update_self]
      exact le_trans has.1 (le_max_left _ _)
    · simp only [Function.update_self]
      rw [if_neg ?_]
      · exact has.2 k inPage
      · have apart : other < slot ∨ slot < other := by omega
        simp only [pgsize] at *
        omega
  · have whole : min pgsize room = pgsize := by exact_mod_cast full
    refine ⟨?_, fun k inPage => ?_⟩
    · simp only [Function.update_self, whole]
      exact le_max_right _ _
    · simp only [Function.update_self]
      rw [if_pos (by omega), Nat.add_sub_cancel_left]

theorem readi_slot {page dst : Nat → UInt8} (inside : slot < maxSwapPages)
    (has : fs.SlotHas f slot page) :
    ∃ bytes, readi fs f dst (slot * pgsize) pgsize = (pgsize, bytes) ∧
      ∀ k, k < pgsize → bytes k = page k := by
  obtain ⟨offset, length⟩ := u32_slot inside
  obtain ⟨fits, stored⟩ := has
  refine ⟨fun k => if k < pgsize then (fs.inodes f).data (slot * pgsize + k) else dst k, ?_,
    fun k inPage => ?_⟩
  · unfold readi
    rw [offset, length, if_neg ?_]
    · simp only [if_neg (show ¬ (fs.inodes f).size < slot * pgsize + pgsize by omega)]
    · simp only [pgsize, maxSwapPages] at *
      omega
  · simpa only [if_pos inPage] using stored k inPage

end Xv6
