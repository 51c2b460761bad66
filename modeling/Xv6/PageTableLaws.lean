import Xv6.Lib.Sums
import Xv6.PageTable

/-! Laws of page tables: what each function does to lookups and to the frames in use. -/

namespace Xv6

open Prog

def vpnOf (i j k : Nat) : Nat := (i * 512 + j) * 512 + k

def kernelPage (vpn : Nat) : Bool := vpn == trapframeVa / pgsize || vpn == trampolineVa / pgsize

def Dir.frames {β : Type} (behind : Nat → β → Multiset Nat) (d : Dir β) : Multiset Nat :=
  {d.pa} + ∑ i ∈ Finset.range 512, (d.slot i).elim 0 (behind i)

def leafFrame (vpn : Nat) (pte : Pte) : Multiset Nat := if kernelPage vpn then 0 else {pte.pa}

def PageTable.frames (pt : PageTable) : Multiset Nat :=
  Dir.frames (fun i => Dir.frames fun j => Dir.frames fun k => leafFrame (vpnOf i j k)) pt

def Kmem.free (k : Kmem) : Multiset Nat := (k.freelist : Multiset Nat)

def vaSpan : Nat := 2 ^ 39

variable {i va vb : Nat} {pt : PageTable}

theorem lt_vaSpan (below : va < maxva) : va < vaSpan := by
  simp only [maxva, vaSpan] at *
  omega

theorem px_lt (level va : Nat) : px level va < 512 := Nat.mod_lt _ (by decide)

theorem vpnOf_px (below : va < vaSpan) : vpnOf (px 2 va) (px 1 va) (px 0 va) = va / pgsize := by
  -- The indices are consecutive groups of nine bits above the page offset.
  simp only [vpnOf, px, vaSpan, pgsize] at *
  omega

theorem px_ne (aBelow : va < vaSpan) (bBelow : vb < vaSpan) (pages : va / pgsize ≠ vb / pgsize) :
    ¬ (px 2 va = px 2 vb ∧ px 1 va = px 1 vb ∧ px 0 va = px 0 vb) := by
  rintro ⟨high, middle, low⟩
  exact pages (by rw [← vpnOf_px aBelow, ← vpnOf_px bBelow, high, middle, low])

theorem px_congr (same : va / pgsize = vb / pgsize) (level : Nat) : px level va = px level vb := by
  -- Every level discards the page offset before selecting its bits.
  have split : ∀ a, px level a = a / pgsize / 2 ^ (9 * level) % 512 := by
    intro a
    rw [px, pgsize, Nat.div_div_eq_div_mul, Nat.pow_add]
  rw [split, split, same]

theorem lookup_congr (pt : PageTable) (same : va / pgsize = vb / pgsize) :
    pt.lookup va = pt.lookup vb := by
  simp only [PageTable.lookup, px_congr same]

namespace Dir

variable {β : Type}

@[simp] theorem slot_set_self (d : Dir β) (i : Nat) (entry : Option β) :
    (d.set i entry).slot i = entry := by
  simp [Dir.set]

theorem slot_set_of_ne (d : Dir β) {j : Nat} (entry : Option β) (other : j ≠ i) :
    (d.set i entry).slot j = d.slot j := by
  simp [Dir.set, other]

theorem slot_set (d : Dir β) (i j : Nat) (entry : Option β) :
    (d.set i entry).slot j = if j = i then entry else d.slot j := by
  simp [Dir.set, Function.update_apply]

@[simp] theorem set_slot (d : Dir β) (i : Nat) : d.set i (d.slot i) = d := by
  simp [Dir.set]

@[simp] theorem set_set (d : Dir β) (i : Nat) (first second : Option β) :
    (d.set i first).set i second = d.set i second := by
  simp [Dir.set]

@[simp] theorem slot_empty (pa i : Nat) : (Dir.empty pa : Dir β).slot i = none := rfl

theorem frames_eq (behind : Nat → β → Multiset Nat) (d : Dir β) :
    Dir.frames behind d = {d.pa} + ∑ i ∈ Finset.range 512, (d.slot i).elim 0 (behind i) := rfl

-- The sum is never meant to be evaluated slot by slot.
attribute [irreducible] Dir.frames

@[simp] theorem frames_empty (behind : Nat → β → Multiset Nat) (pa : Nat) :
    Dir.frames behind (Dir.empty pa) = {pa} := by
  simp [frames_eq, Dir.empty]

theorem frames_set (behind : Nat → β → Multiset Nat) (d : Dir β) (inside : i < 512)
    (entry : Option β) : Dir.frames behind (d.set i entry) + (d.slot i).elim 0 (behind i) =
      Dir.frames behind d + entry.elim 0 (behind i) := by
  have exchange := Sums.sum_exchange (f := fun j => ((d.set i entry).slot j).elim 0 (behind j))
    (g := fun j => (d.slot j).elim 0 (behind j)) (Finset.mem_range.mpr inside)
    (fun j _ other => by simp only [slot_set_of_ne d entry other])
  simp only [slot_set_self] at exchange
  simp only [frames_eq, add_assoc]
  rw [exchange]
  rfl

end Dir

def PageTable.lowDir (pt : PageTable) (va : Nat) : Option (Dir Pte) :=
  (pt.slot (px 2 va)).bind fun mid => mid.slot (px 1 va)

theorem lookup_eq_lowDir (pt : PageTable) (va : Nat) :
    pt.lookup va = (pt.lowDir va).bind fun low => low.slot (px 0 va) := by
  simp only [PageTable.lookup, PageTable.lowDir, Option.bind_assoc]

theorem lowDir_isSome_of_lookup {pte : Pte} (found : pt.lookup va = some pte) :
    (pt.lowDir va).isSome := by
  rw [lookup_eq_lowDir] at found
  cases present : pt.lowDir va with
  | none => simp [present] at found
  | some low => rfl

theorem lookup_setPte_self (path : (pt.lowDir va).isSome) (pte : Option Pte) :
    (pt.setPte va pte).lookup va = pte := by
  -- The path exists, so the store reaches its leaf page.
  unfold PageTable.lowDir at path
  cases high : pt.slot (px 2 va) with
  | none => simp [high] at path
  | some mid =>
    cases middle : mid.slot (px 1 va) with
    | none => simp [high, middle] at path
    | some low => simp [PageTable.lookup, PageTable.setPte, high, middle]

theorem lookup_setPte_of_ne (pt : PageTable) (pte : Option Pte)
    (other : ¬ (px 2 vb = px 2 va ∧ px 1 vb = px 1 va ∧ px 0 vb = px 0 va)) :
    (pt.setPte va pte).lookup vb = pt.lookup vb := by
  cases high : pt.slot (px 2 va) with
  | none => simp [PageTable.setPte, high]
  | some mid =>
    cases middle : mid.slot (px 1 va) with
    | none => simp [PageTable.setPte, high, middle]
    | some low =>
      -- The two paths part at the first index in which they differ.
      have stored : pt.setPte va pte =
          pt.set (px 2 va) (some (mid.set (px 1 va) (some (low.set (px 0 va) pte)))) := by
        simp [PageTable.setPte, high, middle]
      rw [stored]
      by_cases sameHigh : px 2 vb = px 2 va
      · by_cases sameMiddle : px 1 vb = px 1 va
        · have differLow : px 0 vb ≠ px 0 va := fun same => other ⟨sameHigh, sameMiddle, same⟩
          simp [PageTable.lookup, sameHigh, sameMiddle, high, middle, Dir.slot_set_of_ne _ _ differLow]
        · simp [PageTable.lookup, sameHigh, high, Dir.slot_set_of_ne _ _ sameMiddle]
      · simp [PageTable.lookup, Dir.slot_set_of_ne _ _ sameHigh]

theorem lookup_setPte (path : (pt.lowDir va).isSome) (pte : Option Pte) (aBelow : va < vaSpan)
    (bBelow : vb < vaSpan) :
    (pt.setPte va pte).lookup vb = if vb / pgsize = va / pgsize then pte else pt.lookup vb := by
  by_cases same : vb / pgsize = va / pgsize
  · rw [if_pos same, lookup_congr _ same, lookup_setPte_self path]
  · rw [if_neg same, lookup_setPte_of_ne pt pte (px_ne bBelow aBelow same)]

theorem frames_setPte (below : va < vaSpan) (path : (pt.lowDir va).isSome) (pte : Option Pte) :
    (pt.setPte va pte).frames + (pt.lookup va).elim 0 (leafFrame (va / pgsize)) =
      pt.frames + pte.elim 0 (leafFrame (va / pgsize)) := by
  unfold PageTable.lowDir at path
  cases high : pt.slot (px 2 va) with
  | none => simp [high] at path
  | some mid =>
    cases middle : mid.slot (px 1 va) with
    | none => simp [high, middle] at path
    | some low =>
      -- The exchange at the leaf page is carried up through the two pages above it.
      have leaf := Dir.frames_set
        (fun k => leafFrame (vpnOf (px 2 va) (px 1 va) k)) low (px_lt 0 va) pte
      have mids := Dir.frames_set
        (fun j => Dir.frames fun k => leafFrame (vpnOf (px 2 va) j k)) mid (px_lt 1 va)
        (some (low.set (px 0 va) pte))
      have root := Dir.frames_set
        (fun i => Dir.frames fun j => Dir.frames fun k => leafFrame (vpnOf i j k)) pt (px_lt 2 va)
        (some (mid.set (px 1 va) (some (low.set (px 0 va) pte))))
      simp only [high, middle, vpnOf_px below] at leaf mids root
      have whole : (pt.setPte va pte).frames = Dir.frames
          (fun i => Dir.frames fun j => Dir.frames fun k => leafFrame (vpnOf i j k))
          (pt.set (px 2 va) (some (mid.set (px 1 va) (some (low.set (px 0 va) pte))))) := by
        simp [PageTable.frames, PageTable.setPte, high, middle]
      have entry : pt.lookup va = low.slot (px 0 va) := by
        simp [PageTable.lookup, high, middle]
      rw [whole, entry]
      -- Cancelling the frames of the replaced pages leaves the exchange at the leaf.
      exact Sums.exchange_trans root (Sums.exchange_trans mids leaf)

end Xv6
