import Mathlib.Data.Nat.Bitwise
import Xv6.PageTableLaws
import Xv6.Sv39

/-! A page table in memory is a finite map from pages to physical pages and flags. -/

namespace Xv6.Sv39

open Prog
open Function (update update_of_ne)

variable {perm : Word} {a i pa pagetable va : Nat} {abort : Panic → Prop} {p : List Nat}
  {post : Option (Nat × Nat) → Phys → Prop} {alloc doFree : Bool} {pte : Nat × Nat} {s : Phys}

theorem getLsbD_of_flags (flags : perm.toNat < 1024) (high : 10 ≤ i) : perm.getLsbD i = false := by
  -- A bit that is set makes the number at least its power of two.
  apply Nat.testBit_lt_two_pow
  calc perm.toNat < 2 ^ 10 := flags
    _ ≤ 2 ^ i := Nat.pow_le_pow_right (by decide) high

theorem getLsbD_mask (i : Nat) : (0x3FF#64).getLsbD i = decide (i < 10) :=
  Nat.testBit_two_pow_sub_one 10 i

theorem pte2pa_pack (pa : Nat) (flags : perm.toNat < 1024) :
    pte2pa (pa2pte pa ||| perm ||| pteV) = pgrounddown (u64 pa) := by
  have same : ((pa2pte pa ||| perm ||| pteV) >>> 10) <<< 12 =
      (BitVec.ofNat 64 pa >>> 12) <<< 12 := by
    ext i inside
    simp only [pa2pte, pteV]
    -- The page number starts at bit ten of an entry and at bit twelve of an address.
    by_cases low : i < 12
    · simp [low]
    · have gone := getLsbD_of_flags flags (show 10 ≤ 10 + (i - 12) by omega)
      have one : (1#64).getLsbD (10 + (i - 12)) = false := by
        apply getLsbD_of_flags (by decide) (by omega)
      simp [low, gone]
      omega
  rw [pte2pa, same]
  simp only [BitVec.toNat_shiftLeft, BitVec.toNat_ushiftRight, BitVec.toNat_ofNat, pgrounddown,
    u64, pgsize]
  omega

theorem pteFlags_pack (pa : Nat) (flags : perm.toNat < 1024) :
    pteFlags (pa2pte pa ||| perm ||| pteV) = perm ||| pteV := by
  -- The page number has no bit below the tenth, and the flags have none above it.
  apply BitVec.eq_of_getLsbD_eq
  intro i inside
  have small : (perm ||| pteV).toNat < 1024 := by
    exact Nat.or_lt_two_pow (n := 10) flags (by decide)
  simp only [pteFlags, BitVec.getLsbD_and, getLsbD_mask]
  by_cases low : i < 10
  · simp [low, pa2pte]
  · rw [getLsbD_of_flags small (by omega)]
    simp [low]

theorem valid_pack (w : Word) : (w ||| pteV) &&& pteV ≠ 0 := by
  -- The valid bit of the entry is set, and zero has no bit.
  intro zero
  have bit := congrArg (fun v => BitVec.getLsbD v 0) zero
  simp [pteV] at bit

theorem leaf_clear (w : Word) :
    leaf (w &&& ~~~pteU) = (leaf w).map fun m => (m.1, m.2 &&& ~~~pteU) := by
  have valid : (w &&& ~~~pteU) &&& pteV = w &&& pteV := by
    rw [BitVec.and_assoc]
    rfl
  have page : pte2pa (w &&& ~~~pteU) = pte2pa w := by
    unfold pte2pa
    congr 1
    ext i inside
    have kept : (w &&& ~~~pteU).getLsbD (10 + (i - 12)) = w.getLsbD (10 + (i - 12)) := by
      by_cases top : 10 + (i - 12) < 64
      · have small : pteU.toNat < 1024 := by decide
        have clear := getLsbD_of_flags small (Nat.le_add_right 10 (i - 12))
        rw [BitVec.getLsbD_and, BitVec.getLsbD_not, clear]
        simp [top]
      · simp [BitVec.getLsbD_of_ge _ _ (Nat.le_of_not_lt top)]
    simp only [BitVec.getElem_shiftLeft, BitVec.getElem_ushiftRight, kept]
  have flags : pteFlags (w &&& ~~~pteU) = pteFlags w &&& ~~~pteU := by
    simp only [pteFlags, BitVec.and_assoc, BitVec.and_comm (~~~pteU)]
  unfold leaf
  rw [valid, page, flags]
  split <;> rfl

theorem link_pack {page : Nat} (aligned : page % pgsize = 0) (small : page < 2 ^ 64) :
    link (pa2pte page ||| pteV) = some page := by
  -- Without flags this is a packed entry, and an aligned page is its own round number.
  have packed := pte2pa_pack page (show (0#64).toNat < 1024 by decide)
  rw [BitVec.or_zero] at packed
  have whole : pgrounddown (u64 page) = page := by
    simp only [pgrounddown, u64, pgsize] at aligned ⊢
    omega
  rw [link, if_pos (valid_pack _), packed, whole]

theorem leaf_pack (pa : Nat) (flags : perm.toNat < 1024) :
    leaf (pa2pte pa ||| perm ||| pteV) = some (pgrounddown (u64 pa), perm ||| pteV) := by
  rw [leaf, if_pos (valid_pack _), pte2pa_pack pa flags, pteFlags_pack pa flags]

/-- The indices that lead to the page of an address's entry. -/
abbrev trail (va : Nat) : List Nat := [px 2 va, px 1 va]

structure Phys.Tables (s : Phys) (root : Nat) : Prop where
  separated : Radix.Separated link s.word root 2
  apart : ∀ q t, q.length ≤ 2 → Radix.node link s.word root q = some t → t ∉ s.freelist
  nodup : s.freelist.Nodup
  frames : ∀ t ∈ s.freelist, t % pgsize = 0 ∧ t < 2 ^ 64

def Phys.Outside (s : Phys) (root page : Nat) : Prop :=
  ∀ q, q.length ≤ 2 → Radix.node link s.word root q ≠ some page

def Phys.SameMap (s t : Phys) (root : Nat) : Prop := ∀ va, t.mapped root va = s.mapped root va

/-- The same paths lead to the same pages of the table. -/
def Phys.SamePaths (s t : Phys) (root : Nat) : Prop :=
  ∀ q, q.length ≤ 2 → Radix.node link t.word root q = Radix.node link s.word root q

section

variable {s t : Phys} {root page : Nat}

theorem node_outside (outside : s.Outside root page)
    (same : ∀ q, q ≠ page → t.word q = s.word q) : s.SamePaths t root := by
  -- A path goes through pages of the table only, and those are not written.
  apply Radix.node_congr
  intro q v shorter reached
  exact same v fun equal => outside q (by omega) (equal ▸ reached)

theorem sameMap_outside (outside : s.Outside root page)
    (same : ∀ q, q ≠ page → t.word q = s.word q) : s.SameMap t root := by
  intro va
  rw [Phys.mapped, Phys.mapped, node_outside outside same _ (by simp)]
  cases reached : Radix.node link s.word root (trail va) with
  | none => rfl
  | some low =>
    have other : low ≠ page := fun equal => outside _ (by simp) (equal ▸ reached)
    simp [same low other]

theorem Phys.Tables.free_outside (tables : s.Tables root) (free : page ∈ s.freelist) :
    s.Outside root page :=
  fun q short reached => tables.apart q page short reached free

theorem Phys.Tables.of_paths (tables : s.Tables root) (paths : s.SamePaths t root)
    (fewer : t.freelist.Sublist s.freelist) : t.Tables root := by
  refine ⟨?_, ?_, tables.nodup.sublist fewer, fun u free => tables.frames u (fewer.subset free)⟩
  · intro p q u short shorter one two
    rw [paths p short] at one
    rw [paths q shorter] at two
    exact tables.separated p q u short shorter one two
  · intro q u short reached free
    rw [paths q short] at reached
    exact tables.apart q u short reached (fewer.subset free)

theorem Phys.Tables.elsewhere (tables : s.Tables root) (outside : s.Outside root page)
    (same : ∀ q, q ≠ page → t.word q = s.word q) (fewer : t.freelist.Sublist s.freelist) :
    t.Tables root :=
  tables.of_paths (node_outside outside same) fewer

theorem wp_kalloc {post : Option Nat → Phys → Prop} (tables : s.Tables root)
    (none_ : s.freelist = [] → post none s)
    (some_ : ∀ page t, t.Tables root → s.SameMap t root → t.Outside root page →
      page ∉ t.freelist → page % pgsize = 0 → page < 2 ^ 64 →
      (∀ q, q ≠ page → t.word q = s.word q) → post (some page) t) : wp kalloc post abort s := by
  unfold kalloc memset
  rw [wp_bind, wp_get]
  split
  · rename_i empty
    exact (wp_pure ..).mpr (none_ empty)
  · rename_i page rest list
    simp only [wp_bind, wp_set, wp_modify, wp_pure]
    have free : page ∈ s.freelist := by rw [list]; exact List.mem_cons_self ..
    have outside := tables.free_outside free
    have fewer : rest.Sublist s.freelist := by rw [list]; exact List.sublist_cons_self ..
    have nodup := tables.nodup
    rw [list] at nodup
    have same : ∀ q, q ≠ page →
        update s.word page (fun _ => 0x0505050505050505#64) q = s.word q :=
      fun q other => update_of_ne other ..
    refine some_ page _ (tables.elsewhere outside same fewer) (sameMap_outside outside same) ?_
      (List.nodup_cons.mp nodup).1 (tables.frames page free).1 (tables.frames page free).2 same
    intro q short reached
    rw [node_outside outside same q short] at reached
    exact outside q short reached

theorem Phys.Tables.linkIn (tables : s.Tables root) (outside : s.Outside root page)
    (taken : page ∉ s.freelist) (aligned : page % pgsize = 0) (small : page < 2 ^ 64)
    (short : p.length < 2) (reached : Radix.node link s.word root p = some pagetable)
    (empty : link (s.word pagetable i) = none)
    (words : t.word = Radix.put (update s.word page fun _ => 0) pagetable i
      (pa2pte page ||| pteV)) (list : t.freelist = s.freelist) : t.Tables root ∧ s.SameMap t root ∧
      Radix.node link t.word root (p ++ [i]) = some page := by
  -- First the page is zeroed, which the table does not see.
  have same : ∀ q, q ≠ page → update s.word page (fun _ => 0) q = s.word q :=
    fun q other => update_of_ne other ..
  let zeroed : Phys := { s with word := update s.word page fun _ => 0 }
  have paths : s.SamePaths zeroed root := node_outside outside same
  have clean : zeroed.Tables root := tables.elsewhere outside same (List.Sublist.refl _)
  have self : pagetable ≠ page := fun equal => outside p (by omega) (equal ▸ reached)
  have start : Radix.node link zeroed.word root p = some pagetable := by
    rw [paths p (by omega), reached]
  have invalid : link (zeroed.word pagetable i) = none := by
    simpa [zeroed, update_of_ne self] using empty
  have fresh : ∀ q : List Nat, q.length ≤ 2 → Radix.node link zeroed.word root q ≠ some page := by
    intro q low equal
    rw [paths q low] at equal
    exact outside q low equal
  have blank : ∀ j, link (zeroed.word page j) = none := by
    simp [zeroed, link]
  -- Then the entry is written, which adds one path and changes no other.
  have linked := link_pack aligned small
  have added := Radix.node_put_link clean.separated short start invalid linked fresh blank
  have separated := clean.separated.put_link short start invalid linked fresh blank
  have final : t.word = Radix.put zeroed.word pagetable i (pa2pte page ||| pteV) := words
  refine ⟨⟨?_, ?_, by rw [list]; exact tables.nodup, by rw [list]; exact tables.frames⟩, ?_, ?_⟩
  · rw [final]
    exact separated
  · intro q u low found free
    rw [list] at free
    rw [final, added q low] at found
    split at found
    · cases found
      exact taken free
    · rw [paths q low] at found
      exact tables.apart q u low found free
  · intro va
    rw [Phys.mapped, Phys.mapped, final, added _ (by simp)]
    split
    · -- The path to the new page was missing, and the page itself maps nothing.
      rename_i new
      have gone : Radix.node link s.word root (trail va) = none := by
        rw [← paths _ (by simp), show trail va = p ++ [i] from new, Radix.node_snoc, start]
        exact invalid
      rw [gone]
      simp [Radix.put_apply, self.symm, zeroed, leaf]
    · rw [paths _ (by simp)]
      cases found : Radix.node link s.word root (trail va) with
      | none => rfl
      | some low =>
        have notNew : low ≠ page := fun equal => outside _ (by simp) (equal ▸ found)
        have notAbove : low ≠ pagetable := by
          rintro rfl
          have equal := tables.separated _ p low (by simp) (by omega) found reached
          rw [← equal] at short
          simp at short
        simp [Radix.put_apply, notAbove, zeroed, update_of_ne notNew]
  · rw [final, added _ (by simp; omega), if_pos rfl]

theorem wp_walkFrom_succ {level : Nat} (tables : s.Tables root) (short : p.length < 2)
    (reached : Radix.node link s.word root p = some pagetable)
    (follow : ∀ page t, t.Tables root → s.SameMap t root → (alloc = false → t = s) →
      Radix.node link t.word root (p ++ [px (level + 1) va]) = some page →
      wp (walkFrom va alloc level page) post abort t)
    (missing : (alloc = false →
      Radix.node link s.word root (p ++ [px (level + 1) va]) = none) → post none s) :
    wp (walkFrom va alloc (level + 1) pagetable) post abort s := by
  rw [walkFrom, wp_bind, wp_get]
  have step : Radix.node link s.word root (p ++ [px (level + 1) va]) =
      link (s.word pagetable (px (level + 1) va)) := by
    rw [Radix.node_snoc, reached]
    rfl
  by_cases valid : s.word pagetable (px (level + 1) va) &&& pteV ≠ 0
  · -- The entry is valid, so the walk goes on in the page it points to.
    rw [if_pos valid]
    refine follow _ s tables (fun _ => rfl) (fun _ => rfl) ?_
    rw [step, link, if_pos valid]
  · have empty : link (s.word pagetable (px (level + 1) va)) = none := by
      rw [link, if_neg valid]
    rw [if_neg valid]
    cases alloc with
    | false => exact (wp_pure ..).mpr (missing fun _ => by rw [step, empty])
    | true =>
      simp only [Bool.not_true, Bool.false_eq_true, if_false, wp_bind]
      refine wp_kalloc tables ?_ ?_
      · exact fun _ => (wp_pure ..).mpr (missing fun off => by cases off)
      · -- A free page is zeroed and linked in below the entry.
        intro page t fresh same outside taken aligned small words
        simp only [memset, store, wp_bind, wp_modify]
        have before := node_outside outside (fun q other => (words q other).symm) p (by omega)
        have self : pagetable ≠ page := by
          rintro rfl
          exact outside p (by omega) (before ▸ reached)
        obtain ⟨kept, still, new⟩ := fresh.linkIn (t := { t with
            word := Radix.put (update t.word page fun _ => 0) pagetable
              (px (level + 1) va) (pa2pte page ||| pteV) })
          outside taken aligned small short (before ▸ reached)
          (by rw [words _ self]; exact empty) rfl rfl
        refine follow page _ kept ?_ (fun off => by cases off) new
        exact fun va => (still va).trans (same va)

def Phys.Entry (s : Phys) (root va : Nat) (pte : Nat × Nat) : Prop :=
  Radix.node link s.word root (trail va) = some pte.1 ∧ pte.2 = px 0 va

theorem wp_walk (tables : s.Tables root) (high : maxva ≤ va → abort .walk)
    (found : va < maxva → ∀ pte t, t.Tables root → s.SameMap t root → (alloc = false → t = s) →
      t.Entry root va pte → post (some pte) t)
    (missing : va < maxva → ∀ t, t.Tables root → s.SameMap t root → (alloc = false → t = s) →
      (alloc = false → s.mapped root va = none) → post none t) :
    wp (walk root va alloc) post abort s := by
  unfold walk
  by_cases below : va < maxva
  · rw [if_neg (by omega)]
    have gone : Radix.node link s.word root (trail va) = none → s.mapped root va = none := by
      intro none
      rw [Phys.mapped, none]
      rfl
    -- The walk takes two turns from the root, and each may find its entry missing.
    refine wp_walkFrom_succ (p := []) tables (by simp) rfl ?_ ?_
    · intro mid t first same still reached
      refine wp_walkFrom_succ (p := [px 2 va]) first (by simp) reached ?_ ?_
      · intro low u second again kept arrived
        rw [walkFrom, wp_pure]
        refine found below _ u second (fun va => (again va).trans (same va)) ?_ ⟨arrived, rfl⟩
        exact fun off => (kept off).trans (still off)
      · intro none
        refine missing below t first same still fun off => gone ?_
        have equal := still off
        subst equal
        exact none off
    · intro none
      refine missing below s tables (fun _ => rfl) (fun _ => rfl) fun off => gone ?_
      rw [show trail va = [px 2 va] ++ [px 1 va] from rfl, Radix.node_snoc,
        show [px 2 va] = [] ++ [px 2 va] from rfl, none off]
      rfl
  · rw [if_pos (by omega), wp_bind, wp_throw]
    exact high (by omega)

/-- A walk that creates nothing finds the entry of the address, or nothing is mapped there. -/
theorem wp_walk_false (tables : s.Tables root) (high : maxva ≤ va → abort .walk)
    (found : va < maxva → ∀ pte, s.Entry root va pte → post (some pte) s)
    (missing : va < maxva → s.mapped root va = none → post none s) :
    wp (walk root va false) post abort s := by
  refine wp_walk tables high (fun below pte t _ _ still entry => ?_)
    fun below t _ _ still none => ?_
  · obtain rfl := still rfl
    exact found below pte entry
  · obtain rfl := still rfl
    exact missing below (none rfl)

theorem Phys.Entry.mapped (entry : s.Entry root va pte) :
    s.mapped root va = leaf (s.word pte.1 pte.2) := by
  rw [Phys.mapped, entry.1, entry.2]
  rfl

theorem Phys.mapped_congr {vb : Nat} (same : va / pgsize = vb / pgsize) :
    s.mapped root va = s.mapped root vb := by
  simp only [Phys.mapped, px_congr same]

theorem wp_store {w : Word} {post : Unit → Phys → Prop} (tables : s.Tables root)
    (entry : s.Entry root va pte) (below : va < maxva)
    (after : ∀ t, t.Tables root → t.freelist = s.freelist →
      s.SamePaths t root → (∀ b < maxva,
        t.mapped root b = if b / pgsize = va / pgsize then leaf w else s.mapped root b) →
      post () t) : wp (store pte w) post abort s := by
  unfold store
  rw [wp_modify]
  have paths := Radix.node_put_leaf (i := pte.2) (w := w) tables.separated (by simp) entry.1
  refine after _ (tables.of_paths paths (List.Sublist.refl _)) rfl paths fun b small => ?_
  -- The entry read for an address is the one written exactly when the pages agree.
  by_cases same : b / pgsize = va / pgsize
  · rw [if_pos same, Phys.mapped_congr same, Phys.mapped, paths _ (by simp), entry.1]
    simp [Radix.put_apply, entry.2]
  · rw [if_neg same, Phys.mapped, Phys.mapped, paths _ (by simp)]
    cases reached : Radix.node link s.word root (trail b) with
    | none => rfl
    | some low =>
      have other : ¬(low = pte.1 ∧ px 0 b = pte.2) := by
        rintro ⟨rfl, index⟩
        have equal := tables.separated _ _ pte.1 (by simp) (by simp) reached entry.1
        simp only [List.cons.injEq, and_true] at equal
        exact px_ne (lt_vaSpan small) (lt_vaSpan below) same
          ⟨equal.1, equal.2, index.trans entry.2⟩
      simp [Radix.put_apply, other]

def mapRange (map : Nat → Option (Nat × Word)) (va count pa : Nat) (flags : Word) (a : Nat) :
    Option (Nat × Word) :=
  if va ≤ a ∧ a < va + count * pgsize then some (pgrounddown (u64 (pa + (a - va))), flags)
  else map a

theorem mapRange_succ (map : Nat → Option (Nat × Word)) (count : Nat) (flags : Word)
    (aligned : va % pgsize = 0) (page : a % pgsize = 0) :
    mapRange (fun b => if b / pgsize = va / pgsize then some (pgrounddown (u64 pa), flags)
        else map b) (va + pgsize) count (u64 (pa + pgsize)) flags a =
      mapRange map va (count + 1) pa flags a := by
  -- An aligned address lies in the first page exactly when it is its start.
  have first : a / pgsize = va / pgsize ↔ a = va := by
    simp only [pgsize] at *
    omega
  unfold mapRange
  rw [Nat.succ_mul]
  by_cases start : a = va
  · subst start
    rw [if_neg (by simp only [pgsize]; omega), if_pos (by simp only [pgsize]; omega)]
    simp
  · by_cases later : va + pgsize ≤ a ∧ a < va + pgsize + count * pgsize
    · have shifted : u64 (u64 (pa + pgsize) + (a - (va + pgsize))) = u64 (pa + (a - va)) := by
        have sum : pa + pgsize + (a - (va + pgsize)) = pa + (a - va) := by omega
        rw [u64, u64, Nat.mod_add_mod, sum, u64]
      rw [if_pos later, if_pos (by omega), shifted]
    · have outside : ¬(va ≤ a ∧ a < va + (count * pgsize + pgsize)) := by
        simp only [pgsize] at *
        omega
      rw [if_neg later, if_neg outside]
      exact if_neg fun same => start (first.mp same)

theorem wp_mappagesFrom {last : Nat} (flags : perm.toNat < 1024) :
    ∀ (turns a pa : Nat) (s : Phys), s.Tables root → a % pgsize = 0 →
      (∀ j, j < turns → a + j * pgsize < 2 ^ 64 → (a + j * pgsize = last ↔ j + 1 = turns)) →
      wp (mappagesFrom root last perm turns a pa) (fun r t => t.Tables root ∧
        ∃ count, (r = 0 ∧ count = turns ∨ r = -1 ∧ count < turns) ∧
          ∀ b < maxva, b % pgsize = 0 →
            t.mapped root b = mapRange (s.mapped root) a count pa (perm ||| pteV) b)
        (fun _ => True) s := by
  intro turns
  induction turns with
  | zero =>
    intro a pa s tables _ _
    rw [mappagesFrom, wp_pure]
    refine ⟨tables, 0, Or.inl ⟨rfl, rfl⟩, fun b _ _ => ?_⟩
    rw [mapRange, if_neg (by omega)]
  | succ turns ih =>
    intro a pa s tables aligned stops
    rw [mappagesFrom, wp_bind]
    refine wp_walk tables (fun _ => trivial) ?_ ?_
    · intro below pte t kept same _ entry
      rw [wp_bind, wp_get]
      dsimp only
      split
      · rw [wp_bind, wp_throw]
        trivial
      · rw [wp_bind]
        refine wp_store kept entry below fun u next _ _ mapped => ?_
        have ends := stops 0 (by omega) (by simp only [maxva] at below; omega)
        -- After this turn the first page is mapped and everything else is as it was.
        have now : ∀ b < maxva, b % pgsize = 0 → u.mapped root b =
            mapRange (s.mapped root) a 1 pa (perm ||| pteV) b := by
          intro b small page
          rw [mapped b small, leaf_pack pa flags, same b, ← mapRange_succ _ 0 _ aligned page,
            mapRange, if_neg (show ¬(a + pgsize ≤ b ∧ b < a + pgsize + 0 * pgsize) by omega)]
        split
        · rename_i final
          rw [wp_pure]
          refine ⟨next, 1, Or.inl ⟨rfl, by have := ends.mp final; omega⟩, now⟩
        · rename_i more
          have onward : u64 (a + pgsize) = a + pgsize := by
            simp only [u64, pgsize, maxva] at *
            omega
          rw [onward]
          have rest := ih (a + pgsize) (u64 (pa + pgsize)) _ next
            (by simp only [pgsize] at *; omega) ?_
          · refine wp_imp rest fun r v mapped => ?_
            obtain ⟨final, count, ending, range⟩ := mapped
            refine ⟨final, count + 1, ?_, ?_⟩
            · rcases ending with ⟨ok, all⟩ | ⟨failed, some⟩
              · exact Or.inl ⟨ok, by omega⟩
              · exact Or.inr ⟨failed, by omega⟩
            · intro b small page
              rw [range b small page, ← mapRange_succ _ _ _ aligned page]
              unfold mapRange
              rw [mapped b small, leaf_pack pa flags, same b]
          · intro j inside low
            have later := stops (j + 1) (by omega) (by rw [Nat.succ_mul]; omega)
            rw [Nat.succ_mul] at later
            omega
    · intro _ t kept same _ _
      rw [wp_pure]
      refine ⟨kept, 0, Or.inr ⟨rfl, by omega⟩, fun b _ _ => ?_⟩
      rw [mapRange, if_neg (by omega), same b]

theorem wp_mappages {size : Nat} (tables : s.Tables root) (vaWord : va < 2 ^ 64)
    (sizeWord : size < 2 ^ 64) (flags : perm.toNat < 1024) :
    wp (mappages root va size pa perm) (fun r t => t.Tables root ∧
      ∃ count, (r = 0 ∧ count * pgsize = size ∨ r = -1 ∧ count * pgsize < size) ∧
        ∀ b < maxva, b % pgsize = 0 →
          t.mapped root b = mapRange (s.mapped root) va count pa (perm ||| pteV) b)
      (fun _ => True) s := by
  unfold mappages
  dsimp only
  split
  · rw [wp_bind, wp_throw]
    trivial
  · rename_i aligned
    split
    · rw [wp_bind, wp_throw]
      trivial
    · rename_i whole
      split
      · rw [wp_bind, wp_throw]
        trivial
      · rename_i some
        -- The last page is reached with the last turn, or not at all when the range wraps.
        have stops : ∀ j, j < size / pgsize → va + j * pgsize < 2 ^ 64 →
            (va + j * pgsize = u64 (va + size - pgsize) ↔ j + 1 = size / pgsize) := by
          simp only [u64, pgsize] at *
          omega
        refine wp_imp (wp_mappagesFrom flags _ va pa s tables (by omega) stops)
          fun r t mapped => ?_
        obtain ⟨kept, count, ending, range⟩ := mapped
        refine ⟨kept, count, ?_, range⟩
        have exactly_ : size / pgsize * pgsize = size := Nat.div_mul_cancel
          (Nat.dvd_of_mod_eq_zero (by omega))
        rcases ending with ⟨ok, all⟩ | ⟨failed, part⟩
        · exact Or.inl ⟨ok, by rw [all, exactly_]⟩
        · refine Or.inr ⟨failed, ?_⟩
          calc count * pgsize < size / pgsize * pgsize :=
                Nat.mul_lt_mul_of_pos_right part (by decide)
            _ = size := exactly_

theorem wp_kfree {post : Unit → Phys → Prop} (tables : s.Tables root) (outside : s.Outside root pa)
    (used : pa ∉ s.freelist)
    (after : ∀ t, t.Tables root → s.SameMap t root → t.freelist = pa :: s.freelist →
      s.SamePaths t root → post () t) : wp (kfree pa) post (fun _ => True) s := by
  unfold kfree memset
  rw [wp_bind, wp_get]
  split
  · rw [wp_bind, wp_throw]
    trivial
  · rename_i managed
    simp only [wp_bind, wp_modify]
    have same : ∀ q, q ≠ pa →
        update s.word pa (fun _ => 0x0101010101010101#64) q = s.word q :=
      fun q other => update_of_ne other ..
    have kept := tables.elsewhere (t := { s with
      word := update s.word pa fun _ => 0x0101010101010101#64 }) outside same
      (List.Sublist.refl _)
    refine after _ ⟨kept.separated, ?_, List.nodup_cons.mpr ⟨used, tables.nodup⟩, ?_⟩
      (sameMap_outside outside same) rfl (node_outside outside same)
    · intro q u short reached free
      rcases List.mem_cons.mp free with rfl | free
      · rw [node_outside outside same q short] at reached
        exact outside q short reached
      · exact kept.apart q u short reached free
    · intro u free
      rcases List.mem_cons.mp free with rfl | free
      · simp only [phystop] at managed
        omega
      · exact tables.frames u free

def Phys.Freeable (s : Phys) (root a stop : Nat) : Prop :=
  ∀ b pa flags, a ≤ b → b < stop → b < maxva → b % pgsize = 0 →
    s.mapped root b = some (pa, flags) → s.Outside root pa ∧ pa ∉ s.freelist ∧
      ∀ c flags', a ≤ c → c < stop → c < maxva → c % pgsize = 0 →
        s.mapped root c = some (pa, flags') → c = b

/-- The page of an address is no longer mapped; it may have been freed. -/
structure Phys.Unmaps (s t : Phys) (root a : Nat) (doFree : Bool) : Prop where
  tables : t.Tables root
  below : a < maxva
  paths : s.SamePaths t root
  freed : ∀ page ∈ t.freelist, page ∈ s.freelist ∨
    doFree = true ∧ ∃ flags, s.mapped root a = some (page, flags)
  mapped : ∀ b < maxva,
    t.mapped root b = if b / pgsize = a / pgsize then none else s.mapped root b

theorem wp_unmapPage (tables : s.Tables root)
    (loose : doFree = true → a < maxva → ∀ pa flags, s.mapped root a = some (pa, flags) →
      s.Outside root pa ∧ pa ∉ s.freelist) :
    wp (unmapPage root a doFree) (fun _ t => s.Unmaps t root a doFree) (fun _ => True) s := by
  -- Where nothing is mapped nothing changes.
  have nothing : a < maxva → s.mapped root a = none → s.Unmaps s root a doFree := by
    intro below none
    refine ⟨tables, below, fun _ _ => rfl, fun _ free => Or.inl free, fun b _ => ?_⟩
    split
    · rename_i same
      rw [Phys.mapped_congr same, none]
    · rfl
  unfold unmapPage
  rw [wp_bind]
  refine wp_walk_false tables (fun _ => trivial) (fun below pte entry => ?_) fun below none =>
    (wp_pure ..).mpr (nothing below none)
  rw [wp_bind, wp_get]
  dsimp only
  have stands := entry.mapped
  split
  · rename_i invalid
    rw [wp_pure]
    exact nothing below (by rw [stands, leaf, if_neg (by simp [invalid])])
  · rename_i valid
    rw [leaf, if_pos valid] at stands
    have zero : leaf 0 = none := by simp [leaf]
    split
    · -- The page is freed first, which leaves the entry where it is.
      rename_i freeing
      rw [wp_bind]
      obtain ⟨outside, used⟩ := loose freeing below _ _ stands
      refine wp_kfree tables outside used fun u kept same list paths => ?_
      have again : u.Entry root a pte := ⟨by rw [paths _ (by simp)]; exact entry.1, entry.2⟩
      refine wp_store kept again below fun v final sameList samePaths mapped => ?_
      refine ⟨final, below, ?_, ?_, ?_⟩
      · exact fun q short => (samePaths q short).trans (paths q short)
      · intro page free
        rw [sameList, list] at free
        rcases List.mem_cons.mp free with rfl | free
        · exact Or.inr ⟨freeing, _, stands⟩
        · exact Or.inl free
      · intro b small
        rw [mapped b small, zero, same b]
    · refine wp_store tables entry below fun v final sameList samePaths mapped => ?_
      refine ⟨final, below, samePaths, ?_, ?_⟩
      · exact fun page free => Or.inl (sameList ▸ free)
      · intro b small
        rw [mapped b small, zero]

theorem wp_uvmunmapFrom {stop : Nat} (stopAligned : stop % pgsize = 0) :
    ∀ (turns a : Nat) (s : Phys), s.Tables root → a % pgsize = 0 → stop ≤ a + turns * pgsize →
      (doFree = true → s.Freeable root a stop) →
      wp (uvmunmapFrom root stop doFree turns a) (fun _ t => t.Tables root ∧
        ∀ b < maxva, b % pgsize = 0 →
          t.mapped root b = if a ≤ b ∧ b < stop then none else s.mapped root b)
        (fun _ => True) s := by
  intro turns
  induction turns with
  | zero =>
    intro a s tables _ beyond _
    rw [uvmunmapFrom, wp_pure]
    exact ⟨tables, fun b _ _ => by rw [if_neg (by omega)]⟩
  | succ turns ih =>
    intro a s tables aligned beyond freeable
    rw [uvmunmapFrom]
    split
    · rename_i more
      rw [wp_bind]
      refine wp_imp (wp_unmapPage tables ?_) fun _ t unmapped => ?_
      · intro freeing below pa flags stands
        obtain ⟨outside, used, -⟩ :=
          freeable freeing a pa flags (Nat.le_refl a) more below aligned stands
        exact ⟨outside, used⟩
      · obtain ⟨kept, below, paths, list, mapped⟩ := unmapped
        have onward : u64 (a + pgsize) = a + pgsize := by
          simp only [u64, pgsize, maxva] at *
          omega
        rw [onward]
        have later : ∀ b, b < maxva → b % pgsize = 0 → a + pgsize ≤ b →
            t.mapped root b = s.mapped root b := by
          intro b small page above
          rw [mapped b small, if_neg (by simp only [pgsize] at *; omega)]
        refine wp_imp (ih (a + pgsize) t kept (by simp only [pgsize] at *; omega)
          (by rw [Nat.succ_mul] at beyond; omega) ?_) fun _ u cleared => ⟨cleared.1, ?_⟩
        · -- The page just freed was mapped nowhere else in the range.
          intro freeing b pa flags above inside small page stands
          rw [later b small page above] at stands
          obtain ⟨outside, used, once⟩ :=
            freeable freeing b pa flags (by omega) inside small page stands
          refine ⟨fun q short reached => outside q short (paths q short ▸ reached), ?_, ?_⟩
          · intro free
            rcases list pa free with old | ⟨-, flags', here⟩
            · exact used old
            · have same := once a flags' (Nat.le_refl a) more below aligned here
              simp only [pgsize] at *
              omega
          · intro c flags' cAbove cInside cSmall cPage cStands
            rw [later c cSmall cPage cAbove] at cStands
            exact once c flags' (by omega) cInside cSmall cPage cStands
        · intro b small page
          rw [cleared.2 b small page, mapped b small]
          -- An aligned address of the range is its start or lies a page above it.
          have split_ : (a ≤ b ∧ b < stop) ↔
              (a + pgsize ≤ b ∧ b < stop) ∨ b / pgsize = a / pgsize := by
            simp only [pgsize] at *
            omega
          by_cases inside : a + pgsize ≤ b ∧ b < stop
          · rw [if_pos inside, if_pos (split_.mpr (Or.inl inside))]
          · rw [if_neg inside]
            by_cases first : b / pgsize = a / pgsize
            · rw [if_pos first, if_pos (split_.mpr (Or.inr first))]
            · rw [if_neg first, if_neg fun whole => (split_.mp whole).elim inside first]
    · rename_i done
      rw [wp_pure]
      exact ⟨tables, fun b _ _ => by rw [if_neg (by omega)]⟩

theorem wp_uvmunmap {npages : Nat} (tables : s.Tables root)
    (freeable : doFree = true → s.Freeable root va (u64 (va + npages * pgsize))) :
    wp (uvmunmap root va npages doFree) (fun _ t => t.Tables root ∧
      ∀ b < maxva, b % pgsize = 0 → t.mapped root b =
        if va ≤ b ∧ b < u64 (va + npages * pgsize) then none else s.mapped root b)
      (fun _ => True) s := by
  unfold uvmunmap
  split
  · rw [wp_bind, wp_throw]
    trivial
  · rename_i aligned
    refine wp_uvmunmapFrom ?_ npages va s tables (by omega) ?_ freeable
    · simp only [u64, pgsize] at *
      omega
    · exact Nat.mod_le _ _

theorem wp_uvmclear (tables : s.Tables root) : wp (uvmclear root va) (fun _ t => t.Tables root ∧
      ∀ b < maxva, t.mapped root b = if b / pgsize = va / pgsize
        then (s.mapped root b).map fun m => (m.1, m.2 &&& ~~~pteU) else s.mapped root b)
      (fun _ => True) s := by
  unfold uvmclear
  rw [wp_bind]
  refine wp_walk_false tables (fun _ => trivial) (fun below pte entry => ?_) fun _ _ => ?_
  · rw [wp_bind, wp_get]
    refine wp_store tables entry below fun u final _ _ mapped => ⟨final, fun b small => ?_⟩
    rw [mapped b small]
    split
    · rename_i same
      rw [Phys.mapped_congr same, entry.mapped, leaf_clear]
    · rfl
  · rw [wp_throw]
    trivial

def Phys.userPage (s : Phys) (root va : Nat) : Nat :=
  if va < maxva then
    match s.mapped root va with
    | some (pa, flags) => if flags &&& pteU = 0 then 0 else pa
    | none => 0
  else 0

theorem wp_walkaddr (tables : s.Tables root) :
    wp (walkaddr root va) (fun pa t => pa = s.userPage root va ∧ t = s) (fun _ => False) s := by
  unfold walkaddr
  dsimp only
  split
  · rename_i above
    rw [wp_pure, Phys.userPage, if_neg (by omega)]
    exact ⟨rfl, rfl⟩
  · rename_i low
    have below : va < maxva := by omega
    rw [wp_bind]
    refine wp_walk_false tables low (fun _ pte entry => ?_) fun _ none => ?_
    · rw [wp_bind, wp_get]
      have stands := entry.mapped
      unfold leaf at stands
      rw [Phys.userPage, if_pos below, stands]
      split
      · rename_i invalid
        rw [wp_pure, if_neg (by simp [invalid])]
        exact ⟨rfl, rfl⟩
      · have user : pteFlags (s.word pte.1 pte.2) &&& pteU = s.word pte.1 pte.2 &&& pteU := by
          rw [pteFlags, BitVec.and_assoc]
          rfl
        simp only [user]
        split
        · rw [wp_pure]
          exact ⟨rfl, rfl⟩
        · rw [wp_pure]
          exact ⟨rfl, rfl⟩
    · rw [wp_pure, Phys.userPage, if_pos below, none]
      exact ⟨rfl, rfl⟩

end

/-- What happens in memory while a page table is in use. -/
inductive TableEvent where
  /-- Somebody takes a free page. -/
  | kalloc
  /-- Somebody returns a page. -/
  | kfree (pa : Nat)
  /-- Somebody stores into a page of their own. -/
  | store (pte : Nat × Nat) (value : Word)
  | mappages (va size pa : Nat) (perm : Word)
  | uvmunmap (va npages : Nat) (doFree : Bool)
  | uvmclear (va : Nat)

/--
One event on the memory of a page table.

Pages that others return or store into, and pages that an unmapping frees, are no pages of the
table, and what is freed is not free already.
-/
def TableStep (root : Nat) (s : Phys) : TableEvent → Phys → Prop
  | .kalloc, t => ∃ page, kalloc s = .ok (page, t)
  | .kfree pa, t => s.Outside root pa ∧ pa ∉ s.freelist ∧ kfree pa s = .ok ((), t)
  | .store pte value, t => s.Outside root pte.1 ∧ store pte value s = .ok ((), t)
  | .mappages va size pa perm, t =>
    va < 2 ^ 64 ∧ size < 2 ^ 64 ∧ perm.toNat < 1024 ∧
      ∃ r, mappages root va size pa perm s = .ok (r, t)
  | .uvmunmap va npages doFree, t =>
    (doFree = true → s.Freeable root va (u64 (va + npages * pgsize))) ∧
      uvmunmap root va npages doFree s = .ok ((), t)
  | .uvmclear va, t => uvmclear root va s = .ok ((), t)

theorem Phys.Tables.step {root : Nat} {t : Phys} {e : TableEvent} (tables : s.Tables root)
    (step : TableStep root s e t) : t.Tables root := by
  cases e with
  | kalloc =>
    obtain ⟨page, ran⟩ := step
    exact of_ran page t ran
      (wp_kalloc tables (fun _ => tables) fun _ _ kept _ _ _ _ _ _ => kept)
  | kfree pa =>
    obtain ⟨outside, used, ran⟩ := step
    exact of_ran () t ran (wp_kfree tables outside used fun _ kept _ _ _ => kept)
  | store pte value =>
    obtain ⟨outside, ran⟩ := step
    refine of_ran () t ran ?_
    unfold store
    rw [wp_modify]
    refine tables.elsewhere outside ?_ (List.Sublist.refl _)
    exact fun q other => update_of_ne other ..
  | mappages va size pa perm =>
    obtain ⟨vaWord, sizeWord, flags, r, ran⟩ := step
    exact (wp_ok (wp_mappages tables vaWord sizeWord flags) ran).1
  | uvmunmap va npages doFree =>
    obtain ⟨freeable, ran⟩ := step
    exact (wp_ok (wp_uvmunmap tables freeable) ran).1
  | uvmclear va => exact (wp_ok (wp_uvmclear tables) step).1

theorem wp_uvmcreate (nodup : s.freelist.Nodup)
    (frames : ∀ t ∈ s.freelist, t % pgsize = 0 ∧ t < 2 ^ 64) :
    wp uvmcreate (fun root t => ∀ page, root = some page → t.Tables page ∧
      ∀ va, t.mapped page va = none) (fun _ => True) s := by
  unfold uvmcreate kalloc memset
  simp only [wp_bind, wp_get]
  split
  · rw [wp_pure]
    simp only [wp_pure]
    intro page none
    cases none
  · rename_i page rest list
    simp only [wp_bind, wp_set, wp_modify, wp_pure]
    intro root same
    cases same
    -- The zeroed root links nowhere, so the table has one page.
    have blank : ∀ q : List Nat, q ≠ [] → Radix.node link (update (update s.word
        page fun _ => 0x0505050505050505#64) page fun _ => 0) page q = none := by
      intro q some
      cases q with
      | nil => exact absurd rfl some
      | cons i rest => simp [Radix.node, link]
    rw [list] at nodup frames
    refine ⟨⟨?_, ?_, (List.nodup_cons.mp nodup).2,
      fun u free => frames u (List.mem_cons_of_mem _ free)⟩, ?_⟩
    · intro p q u _ _ one two
      cases p with
      | nil =>
        cases q with
        | nil => rfl
        | cons j rest => rw [blank _ (List.cons_ne_nil _ _)] at two; cases two
      | cons i rest => rw [blank _ (List.cons_ne_nil _ _)] at one; cases one
    · intro q u _ reached
      cases q with
      | nil =>
        cases reached
        exact (List.nodup_cons.mp nodup).1
      | cons i rest => rw [blank _ (List.cons_ne_nil _ _)] at reached; cases reached
    · intro va
      rw [Phys.mapped, blank _ (List.cons_ne_nil _ _)]
      rfl

/--
A page table refines a finite map.

The table is built by `uvmcreate` and then used in any way. In every state reached, a call that
maps pages changes the map at the pages of its range and nowhere else, to consecutive physical
pages, or fails after a part of the range from its front. Unmapping removes exactly its range,
clearing changes one page's flags, and `walkaddr` returns exactly the mapped user pages.
-/
theorem page_table_refines {s₀ s₁ s : Phys} {root : Nat} {es : List TableEvent}
    (nodup : s₀.freelist.Nodup) (frames : ∀ t ∈ s₀.freelist, t % pgsize = 0 ∧ t < 2 ^ 64)
    (built : uvmcreate s₀ = .ok (some root, s₁)) (ran : Trace.Run (TableStep root) s₁ es s) :
    (∀ va, s₁.mapped root va = none) ∧
      (∀ va size pa perm r t, va < 2 ^ 64 → size < 2 ^ 64 → perm.toNat < 1024 →
        mappages root va size pa perm s = .ok (r, t) →
        ∃ count, (r = 0 ∧ count * pgsize = size ∨ r = -1 ∧ count * pgsize < size) ∧
          ∀ b < maxva, b % pgsize = 0 → t.mapped root b =
            if va ≤ b ∧ b < va + count * pgsize
            then some (pgrounddown (u64 (pa + (b - va))), perm ||| pteV)
            else s.mapped root b) ∧
      (∀ va npages doFree t,
        (doFree = true → s.Freeable root va (u64 (va + npages * pgsize))) →
        uvmunmap root va npages doFree s = .ok ((), t) →
        ∀ b < maxva, b % pgsize = 0 → t.mapped root b =
          if va ≤ b ∧ b < u64 (va + npages * pgsize) then none else s.mapped root b) ∧
      (∀ va t, uvmclear root va s = .ok ((), t) →
        ∀ b < maxva, t.mapped root b = if b / pgsize = va / pgsize
          then (s.mapped root b).map fun m => (m.1, m.2 &&& ~~~pteU) else s.mapped root b) ∧
      ∀ va, walkaddr root va s = .ok (s.userPage root va, s) := by
  obtain ⟨first, empty⟩ := wp_ok (wp_uvmcreate nodup frames) built root rfl
  have tables : s.Tables root :=
    ran.invariant (Phys.Tables · root) (fun _ _ _ kept step => kept.step step) first
  refine ⟨empty, ?_, ?_, ?_, ?_⟩
  · intro va size pa perm r t vaWord sizeWord flags mapping
    exact (wp_ok (wp_mappages tables vaWord sizeWord flags) mapping).2
  · intro va npages doFree t freeable unmapping
    exact (wp_ok (wp_uvmunmap tables freeable) unmapping).2
  · intro va t clearing
    exact (wp_ok (wp_uvmclear tables) clearing).2
  · intro va
    obtain ⟨pa, t, returned, rfl, rfl⟩ := exists_ok_of_wp (wp_walkaddr tables)
    exact returned

def smallMemory : Phys :=
  ⟨0x80000000, [0x80100000, 0x80101000, 0x80102000, 0x80103000], fun _ _ => 0⟩

/-- Two pages are mapped in a new table, and the second is found at its physical page. -/
theorem page_table_refines_two :
    ∃ s t, uvmcreate smallMemory = .ok (some 0x80100000, s) ∧
      mappages 0x80100000 0 8192 0x80500000 22#64 s = .ok (0, t) ∧
      t.mapped 0x80100000 4096 = some (0x80501000, 23#64) := by
  let s := after uvmcreate smallMemory
  have built : uvmcreate smallMemory = .ok (some 0x80100000, s) :=
    eq_ok_of_valueOf (by decide)
  have mapping : mappages 0x80100000 0 8192 0x80500000 22#64 s = .ok (0, after _ s) :=
    eq_ok_of_valueOf (by decide)
  obtain ⟨-, maps, -⟩ := page_table_refines (by decide) (by decide) built (.nil s)
  obtain ⟨count, ⟨-, all⟩ | ⟨failed, -⟩, range⟩ :=
    maps _ _ _ _ _ _ (by decide) (by decide) (by decide) mapping
  · refine ⟨s, _, built, mapping, ?_⟩
    decide
  · cases failed

end Xv6.Sv39
