import Xv6.PageTableLaws

/-! What walking, mapping and unmapping do to the free list, the frames and the lookups. -/

namespace Xv6

open Prog

def Kmem.Manages (k : Kmem) (pa : Nat) : Prop :=
  pa % pgsize = 0 ∧ k.kend ≤ pa ∧ pa < phystop

instance (k : Kmem) (pa : Nat) : Decidable (k.Manages pa) :=
  inferInstanceAs (Decidable (_ ∧ _ ∧ _))

def Kmem.give (k : Kmem) (pa : Nat) : Kmem :=
  { k with ram := Function.update k.ram pa fun _ => 1, freelist := pa :: k.freelist }

def Kmem.take (k : Kmem) (pa : Nat) (rest : List Nat) : Kmem :=
  { k with freelist := rest, ram := Function.update k.ram pa fun _ => 5 }

def Kmem.takeZero (k : Kmem) (pa : Nat) (rest : List Nat) : Kmem :=
  { k.take pa rest with ram := Function.update (k.take pa rest).ram pa fun _ => 0 }

variable {k l m : Kmem} {a first i j n pa va : Nat} {rest : List Nat} {abort : Panic → Prop}
  {α : Type} {pt : PageTable} {mid : Dir (Dir Pte)} {s t u : Vm} {post : Bool → Vm → Prop}
  {perm : Perm}

theorem kalloc_nil (empty : k.freelist = []) : kalloc k = .ok (none, k) := by
  cases k
  cases empty
  rfl

theorem kalloc_cons (front : k.freelist = pa :: rest) :
    kalloc k = .ok (some pa, k.take pa rest) := by
  cases k
  cases front
  rfl

theorem wp_kalloc {post : Option Nat → Kmem → Prop} (full : k.freelist = [] → post none k)
    (free : ∀ pa rest, k.freelist = pa :: rest → post (some pa) (k.take pa rest)) :
    wp kalloc post abort k := by
  cases list : k.freelist with
  | nil => simpa only [wp, kalloc_nil list] using full list
  | cons pa rest => simpa only [wp, kalloc_cons list] using free pa rest list

theorem wp_kfree {post : Unit → Kmem → Prop} (foreign : ¬ k.Manages pa → abort .kfree)
    (managed : k.Manages pa → post () (k.give pa)) : wp (kfree pa) post abort k := by
  unfold kfree
  simp only [wp_bind, wp_get]
  split
  · rename_i bad
    simp only [wp_bind, wp_throw]
    refine foreign ?_
    rintro ⟨aligned, above, below⟩
    omega
  · rename_i good
    have holds : k.Manages pa := by
      refine ⟨?_, ?_, ?_⟩ <;> omega
    simpa [memset, Kmem.give] using managed holds

@[simp] theorem wp_onTable (pt : PageTable) (op : VmOp α) (post : α × PageTable → Kmem → Prop)
    (abort : Panic → Prop) (k : Kmem) : wp (onTable pt op) post abort k ↔
      wp op (fun a s => post (a, s.pt) s.kmem) abort ⟨k, pt⟩ := by
  simp only [wp, onTable]
  cases op ⟨k, pt⟩ <;> rfl

@[simp] theorem wp_onKmem (op : MemOp α) (post : α → Vm → Prop) (abort : Panic → Prop) (s : Vm) :
    wp (onKmem op) post abort s ↔
      wp op (fun a k => post a { s with kmem := k }) abort s.kmem := by
  simp only [onKmem, wp_focus]

structure Kmem.Draws (k l : Kmem) : Prop where
  kend : l.kend = k.kend
  trampoline : l.trampoline = k.trampoline
  suffix : l.freelist <:+ k.freelist
  ram : ∀ f, f ∉ k.freelist → l.ram f = k.ram f

theorem Kmem.Draws.refl (k : Kmem) : k.Draws k :=
  ⟨rfl, rfl, List.suffix_refl _, fun _ _ => rfl⟩

theorem Kmem.Draws.trans (first : k.Draws l) (second : l.Draws m) : k.Draws m := by
  refine ⟨second.kend.trans first.kend, second.trampoline.trans first.trampoline,
    second.suffix.trans first.suffix, fun f notFree => ?_⟩
  rw [second.ram f fun member => notFree (first.suffix.subset member), first.ram f notFree]

theorem Kmem.draws_take (front : k.freelist = pa :: rest) (bytes : Nat → UInt8) :
    k.Draws { k.take pa rest with ram := Function.update (k.take pa rest).ram pa bytes } := by
  refine ⟨rfl, rfl, front ▸ List.suffix_cons pa rest, fun f notFree => ?_⟩
  have other : f ≠ pa := fun same => notFree (by simp [front, same])
  simp [Kmem.take, other]

theorem Kmem.free_take (front : k.freelist = pa :: rest) :
    (k.take pa rest).free + {pa} = k.free := by
  simp only [Kmem.free, Kmem.take, front]
  rw [add_comm, Multiset.singleton_add, Multiset.cons_coe]

@[simp] theorem Kmem.free_give (k : Kmem) (pa : Nat) : (k.give pa).free = k.free + {pa} := by
  simp only [Kmem.free, Kmem.give]
  rw [add_comm, Multiset.singleton_add, Multiset.cons_coe]

structure Vm.Grows (s t : Vm) : Prop where
  draws : s.kmem.Draws t.kmem
  total : t.kmem.free + t.pt.frames = s.kmem.free + s.pt.frames
  lookup : ∀ va, t.pt.lookup va = s.pt.lookup va
  /-- Without a free page nothing grows. -/
  still : s.kmem.freelist = [] → t = s

theorem Vm.Grows.refl (s : Vm) : s.Grows s :=
  ⟨Kmem.Draws.refl _, rfl, fun _ => rfl, fun _ => rfl⟩

theorem wp_descend {β : Type} (d : Dir (Dir β)) (i : Nat) (alloc : Bool)
    {post : Option (Dir β) → Kmem → Prop}
    (present : ∀ below, d.slot i = some below → post (some below) k)
    (refused : d.slot i = none → alloc = false → post none k)
    (full : d.slot i = none → alloc = true → k.freelist = [] → post none k)
    (fresh : ∀ pa rest, d.slot i = none → alloc = true → k.freelist = pa :: rest →
      post (some (Dir.empty pa)) (k.takeZero pa rest)) : wp (descend d i alloc) post abort k := by
  unfold descend
  cases entry : d.slot i with
  | some below => simpa only [wp_pure] using present below entry
  | none =>
    cases alloc with
    | false => simpa using refused entry rfl
    | true =>
      simp only [Bool.not_true, Bool.false_eq_true, if_false, wp_bind]
      refine wp_kalloc (fun empty => ?_) (fun pa rest front => ?_)
      · simpa only [wp_pure] using full entry rfl empty
      · simp only [wp_bind, memset, wp_modify, wp_pure]
        exact fresh pa rest entry rfl front

theorem lookup_set_empty_mid (absent : pt.slot i = none) (pa va : Nat) :
    PageTable.lookup (pt.set i (some (Dir.empty pa))) va = pt.lookup va := by
  by_cases same : px 2 va = i
  · simp [PageTable.lookup, same, absent]
  · simp [PageTable.lookup, Dir.slot_set_of_ne _ _ same]

theorem lookup_set_empty_low (here : pt.slot i = some mid) (absent : mid.slot j = none)
    (pa va : Nat) :
    PageTable.lookup (pt.set i (some (mid.set j (some (Dir.empty pa))))) va = pt.lookup va := by
  by_cases same : px 2 va = i
  · by_cases below : px 1 va = j
    · simp [PageTable.lookup, same, below, here, absent]
    · simp [PageTable.lookup, same, here, Dir.slot_set_of_ne _ _ below]
  · simp [PageTable.lookup, Dir.slot_set_of_ne _ _ same]

theorem frames_set_empty_mid (inside : i < 512) (absent : pt.slot i = none) (pa : Nat) :
    PageTable.frames (pt.set i (some (Dir.empty pa))) = pt.frames + {pa} := by
  have exchange := Dir.frames_set
    (fun i => Dir.frames fun j => Dir.frames fun k => leafFrame (vpnOf i j k)) pt inside
    (some (Dir.empty pa))
  simpa [absent, PageTable.frames] using exchange

theorem frames_set_empty_low (iInside : i < 512) (jInside : j < 512) (here : pt.slot i = some mid)
    (absent : mid.slot j = none) (pa : Nat) :
    PageTable.frames (pt.set i (some (mid.set j (some (Dir.empty pa))))) = pt.frames + {pa} := by
  have inner := Dir.frames_set (fun j => Dir.frames fun k => leafFrame (vpnOf i j k)) mid jInside
    (some (Dir.empty pa))
  have outer := Dir.frames_set
    (fun i => Dir.frames fun j => Dir.frames fun k => leafFrame (vpnOf i j k)) pt iInside
    (some (mid.set j (some (Dir.empty pa))))
  simp only [absent, here] at inner outer
  have whole := Sums.exchange_trans outer inner
  simpa [PageTable.frames] using whole

theorem Vm.Grows.trans (first : s.Grows t) (second : t.Grows u) : s.Grows u :=
  ⟨first.draws.trans second.draws, second.total.trans first.total,
    fun va => (second.lookup va).trans (first.lookup va), fun empty => by
      obtain rfl := first.still empty
      exact second.still empty⟩

theorem Vm.grows_mid (inside : i < 512) (absent : s.pt.slot i = none)
    (front : s.kmem.freelist = pa :: rest) :
    s.Grows ⟨s.kmem.takeZero pa rest, s.pt.set i (some (Dir.empty pa))⟩ := by
  refine ⟨Kmem.draws_take front _, ?_, lookup_set_empty_mid absent pa, by simp [front]⟩
  rw [frames_set_empty_mid inside absent, ← Kmem.free_take front]
  simp only [Kmem.takeZero, Kmem.free]
  abel

theorem Vm.grows_low (iInside : i < 512) (jInside : j < 512) (here : s.pt.slot i = some mid)
    (absent : mid.slot j = none) (front : s.kmem.freelist = pa :: rest) :
    s.Grows ⟨s.kmem.takeZero pa rest,
      s.pt.set i (some (mid.set j (some (Dir.empty pa))))⟩ := by
  refine ⟨Kmem.draws_take front _, ?_, lookup_set_empty_low here absent pa, by simp [front]⟩
  rw [frames_set_empty_low iInside jInside here absent, ← Kmem.free_take front]
  simp only [Kmem.takeZero, Kmem.free]
  abel

theorem wp_walk_false (above : maxva ≤ va → abort .walk)
    (below : va < maxva → post (s.pt.lowDir va).isSome s) : wp (walk va false) post abort s := by
  unfold walk
  by_cases limit : maxva ≤ va
  · simpa [limit] using above limit
  · have found := below (by omega)
    simp only [if_neg limit, wp_bind, wp_get, wp_onKmem]
    -- A missing page at either level ends the walk with the state as it was.
    refine wp_descend _ _ _ (fun mid high => ?_) (fun high _ => ?_) (by simp) (by simp)
    · simp only [wp_bind, wp_modify, wp_onKmem, ← high, Dir.set_slot]
      refine wp_descend _ _ _ (fun low middle => ?_) (fun middle _ => ?_) (by simp) (by simp)
      · simp only [← middle, Dir.set_slot, ← high]
        simpa [PageTable.lowDir, high, middle] using found
      · simpa [PageTable.lowDir, high, middle] using found
    · simpa [PageTable.lowDir, high] using found

theorem wp_walk_present {alloc : Bool} (below : va < maxva) (path : (s.pt.lowDir va).isSome)
    (found : post true s) : wp (walk va alloc) post abort s := by
  unfold PageTable.lowDir at path
  cases high : s.pt.slot (px 2 va) with
  | none => simp [high] at path
  | some mid =>
    cases middle : mid.slot (px 1 va) with
    | none => simp [high, middle] at path
    | some low =>
      unfold walk
      rw [if_neg (by omega)]
      simp only [wp_bind, wp_get, wp_onKmem]
      refine wp_descend _ _ _ (fun other isMid => ?_) (by simp [high]) (by simp [high])
        (by simp [high])
      obtain rfl : mid = other := by simpa [high] using isMid
      simp only [wp_bind, wp_modify, wp_onKmem]
      refine wp_descend _ _ _ (fun other isLow => ?_) (by simp [middle]) (by simp [middle])
        (by simp [middle])
      obtain rfl : low = other := by simpa [middle] using isLow
      simp only [wp_bind, wp_modify, wp_pure]
      rw [← middle, Dir.set_slot, ← high, Dir.set_slot]
      exact found

def PageTable.missing (pt : PageTable) (va : Nat) : Nat :=
  match pt.slot (px 2 va) with
  | none => 2
  | some mid => if (mid.slot (px 1 va)).isSome then 0 else 1

def growMissing (missing : Nat → Nat) (va vb : Nat) : Nat :=
  if px 2 vb = px 2 va then if px 1 vb = px 1 va then 0 else min 1 (missing vb) else missing vb

theorem missing_eq_zero : pt.missing va = 0 ↔ (pt.lowDir va).isSome := by
  unfold PageTable.missing PageTable.lowDir
  cases high : pt.slot (px 2 va) with
  | none => simp
  | some mid => cases middle : mid.slot (px 1 va) <;> simp [middle]

theorem missing_grow_present (path : (pt.lowDir va).isSome) (vb : Nat) :
    pt.missing vb = growMissing pt.missing va vb := by
  unfold growMissing
  unfold PageTable.lowDir at path
  cases high : pt.slot (px 2 va) with
  | none => simp [high] at path
  | some mid =>
    rw [high, Option.bind_some] at path
    by_cases sameHigh : px 2 vb = px 2 va
    · by_cases sameMiddle : px 1 vb = px 1 va
      · simp [PageTable.missing, sameHigh, sameMiddle, high, path]
      · simp only [PageTable.missing, sameHigh, high, if_true]
        split <;> rfl
    · simp [sameHigh]

theorem missing_grow_low (high : pt.slot (px 2 va) = some mid) (vb : Nat) :
    PageTable.missing (pt.set (px 2 va) (some (mid.set (px 1 va) (some (Dir.empty pa))))) vb =
      growMissing pt.missing va vb := by
  unfold growMissing
  by_cases sameHigh : px 2 vb = px 2 va
  · by_cases sameMiddle : px 1 vb = px 1 va
    · simp [PageTable.missing, sameHigh, sameMiddle]
    · simp only [PageTable.missing, sameHigh, high, if_true,
        Dir.slot_set_self, Dir.slot_set_of_ne _ _ sameMiddle]
      split <;> rfl
  · simp [PageTable.missing, sameHigh, Dir.slot_set_of_ne _ _ sameHigh]

theorem missing_grow_mid {pb : Nat} (high : pt.slot (px 2 va) = none) (vb : Nat) :
    PageTable.missing (pt.set (px 2 va)
      (some ((Dir.empty pa).set (px 1 va) (some (Dir.empty pb))))) vb =
      growMissing pt.missing va vb := by
  unfold growMissing
  by_cases sameHigh : px 2 vb = px 2 va
  · by_cases sameMiddle : px 1 vb = px 1 va
    · simp [PageTable.missing, sameHigh, sameMiddle]
    · simp [PageTable.missing, sameHigh, sameMiddle, high, Dir.slot_set_of_ne _ _ sameMiddle]
  · simp [PageTable.missing, sameHigh, Dir.slot_set_of_ne _ _ sameHigh]

theorem missing_setPte (pt : PageTable) (va vb : Nat) (pte : Option Pte) :
    (pt.setPte va pte).missing vb = pt.missing vb := by
  cases high : pt.slot (px 2 va) with
  | none => simp [PageTable.setPte, high]
  | some mid =>
    cases middle : mid.slot (px 1 va) with
    | none => simp [PageTable.setPte, high, middle]
    | some low =>
      have stored : pt.setPte va pte =
          pt.set (px 2 va) (some (mid.set (px 1 va) (some (low.set (px 0 va) pte)))) := by
        simp [PageTable.setPte, high, middle]
      rw [stored]
      by_cases sameHigh : px 2 vb = px 2 va
      · by_cases sameMiddle : px 1 vb = px 1 va
        · simp [PageTable.missing, sameHigh, sameMiddle, high, middle]
        · simp [PageTable.missing, sameHigh, high, Dir.slot_set_of_ne _ _ sameMiddle]
      · simp [PageTable.missing, Dir.slot_set_of_ne _ _ sameHigh]

structure Vm.Spends (s t : Vm) (va : Nat) : Prop where
  free : t.kmem.freelist.length + s.pt.missing va = s.kmem.freelist.length
  missing : ∀ vb, t.pt.missing vb = growMissing s.pt.missing va vb

theorem wp_walk_true (above : maxva ≤ va → abort .walk)
    (found : ∀ t, va < maxva → s.Grows t → s.Spends t va → (t.pt.lowDir va).isSome → post true t)
    (full : ∀ t, va < maxva → s.Grows t → t.kmem.freelist = [] → s.pt.lookup va = none →
      s.kmem.freelist.length < s.pt.missing va → post false t) :
    wp (walk va true) post abort s := by
  by_cases limit : maxva ≤ va
  · unfold walk
    simpa [limit] using above limit
  by_cases path : (s.pt.lowDir va).isSome
  · refine wp_walk_present (by omega) path (found s (by omega) (Vm.Grows.refl s) ?_ path)
    exact ⟨by rw [missing_eq_zero.mpr path, Nat.add_zero], missing_grow_present path⟩
  have missing : s.pt.lowDir va = none := by simpa using path
  have absent : s.pt.lookup va = none := by rw [lookup_eq_lowDir, missing]; rfl
  unfold walk
  rw [if_neg limit]
  simp only [wp_bind, wp_get, wp_onKmem]
  refine wp_descend _ _ _ (fun mid high => ?_) (by simp) (fun high _ empty => ?_)
    (fun pa rest high _ front => ?_)
  · -- The middle page exists, so only the leaf page can be new.
    have middle : mid.slot (px 1 va) = none := by simpa [PageTable.lowDir, high] using missing
    have one : s.pt.missing va = 1 := by simp [PageTable.missing, high, middle]
    simp only [wp_bind, wp_modify, wp_onKmem, ← high, Dir.set_slot]
    refine wp_descend _ _ _ (by simp [middle]) (by simp) (fun _ _ empty => ?_)
      (fun pa rest _ _ front => ?_)
    · simpa only [wp_pure] using full s (by omega) (Vm.Grows.refl s) empty absent
        (by simp [empty, one])
    · simp only [wp_bind, wp_modify, wp_pure]
      refine found _ (by omega) (Vm.grows_low (px_lt 2 va) (px_lt 1 va) high middle front)
        ⟨?_, missing_grow_low high⟩ ?_
      · simp [one, front, Kmem.takeZero, Kmem.take]
      · simp [PageTable.lowDir]
  · have two : s.pt.missing va = 2 := by simp [PageTable.missing, high]
    simpa only [wp_pure] using full s (by omega) (Vm.Grows.refl s) empty absent
      (by simp [empty, two])
  · -- A new middle page is empty, so the leaf page below it is new as well.
    have grown := Vm.grows_mid (px_lt 2 va) high front
    have two : s.pt.missing va = 2 := by simp [PageTable.missing, high]
    simp only [wp_bind, wp_modify, wp_onKmem]
    refine wp_descend _ _ _ (by simp) (by simp) (fun _ _ empty => ?_)
      (fun pa' rest' _ _ front' => ?_)
    · have only : rest = [] := empty
      simpa only [wp_pure] using full _ (by omega) grown empty absent (by simp [front, only, two])
    · have again := Vm.grows_low (s := ⟨s.kmem.takeZero pa rest,
        s.pt.set (px 2 va) (some (Dir.empty pa))⟩) (px_lt 2 va) (px_lt 1 va)
        (Dir.slot_set_self _ _ _) (Dir.slot_empty pa (px 1 va)) front'
      rw [Dir.set_set] at again
      simp only [wp_bind, wp_modify, wp_pure]
      have more : rest = pa' :: rest' := front'
      refine found _ (by omega) (grown.trans again) ⟨?_, missing_grow_mid high⟩ ?_
      · simp [two, front, more, Kmem.takeZero, Kmem.take]
      · simp [PageTable.lowDir]

structure Vm.Maps (s t : Vm) (va pa : Nat) (perm : Perm) : Prop where
  below : va < maxva
  absent : s.pt.lookup va = none
  draws : s.kmem.Draws t.kmem
  total : t.kmem.free + t.pt.frames =
    s.kmem.free + s.pt.frames + leafFrame (va / pgsize) ⟨pa, perm⟩
  lookup : ∀ vb, vb < vaSpan → t.pt.lookup vb =
    if vb / pgsize = va / pgsize then some ⟨pa, perm⟩ else s.pt.lookup vb

theorem Vm.Grows.maps (grown : s.Grows u) (below : va < maxva) (absent : s.pt.lookup va = none)
    (path : (u.pt.lowDir va).isSome) :
    s.Maps ⟨u.kmem, u.pt.setPte va (some ⟨pa, perm⟩)⟩ va pa perm := by
  have free : u.pt.lookup va = none := by rw [grown.lookup, absent]
  have exchange := frames_setPte (lt_vaSpan below) path (some ⟨pa, perm⟩)
  simp only [free, Option.elim_none, Option.elim_some, add_zero] at exchange
  refine ⟨below, absent, grown.draws, ?_, fun vb bBelow => ?_⟩
  · rw [exchange, ← add_assoc, grown.total]
  · rw [lookup_setPte path _ (lt_vaSpan below) bBelow, grown.lookup]

theorem wp_mappages_count {post : Int → Vm → Prop} (aligned : va % pgsize = 0)
    (above : maxva ≤ va → abort .walk) (taken : va < maxva → (s.pt.lookup va).isSome → abort .remap)
    (full : ∀ t, va < maxva → s.Grows t → t.kmem.freelist = [] → s.pt.lookup va = none →
      s.kmem.freelist.length < s.pt.missing va → post (-1) t)
    (mapped : ∀ t, s.Maps t va pa perm → s.Spends t va → post 0 t) :
    wp (mappages va pgsize pa perm) post abort s := by
  unfold mappages
  rw [if_neg (by omega), if_neg (by decide), if_neg (by decide)]
  simp only [Nat.div_self (show 0 < pgsize by decide), mappagesFrom, wp_bind]
  refine wp_walk_true above (fun t below grown spent path => ?_)
    (fun t below grown empty absent few => ?_)
  · simp only [Bool.not_true, Bool.false_eq_true, if_false, wp_bind, wp_get, grown.lookup]
    -- The entry found by the walk decides between a panic and a store.
    split
    · simpa only [wp_bind, wp_throw] using taken below ‹_›
    · rename_i vacant
      have absent : s.pt.lookup va = none := by simpa using vacant
      have spends : s.Spends ⟨t.kmem, t.pt.setPte va (some ⟨pa, perm⟩)⟩ va :=
        ⟨spent.free, fun vb => by rw [missing_setPte, spent.missing]⟩
      simpa [storePte] using mapped _ (grown.maps below absent path) spends
  · simpa using full t below grown empty absent few

theorem wp_mappages {post : Int → Vm → Prop} (aligned : va % pgsize = 0)
    (above : maxva ≤ va → abort .walk) (taken : va < maxva → (s.pt.lookup va).isSome → abort .remap)
    (full : ∀ t, s.Grows t → t.kmem.freelist = [] → s.pt.lookup va = none → post (-1) t)
    (mapped : ∀ t, s.Maps t va pa perm → post 0 t) : wp (mappages va pgsize pa perm) post abort s :=
  wp_mappages_count aligned above taken (fun t _ grown empty absent _ => full t grown empty absent)
    fun t maps _ => mapped t maps

theorem wp_unmapPage {doFree : Bool} {post : Unit → Vm → Prop} (above : maxva ≤ a → abort .walk)
    (absent : a < maxva → s.pt.lookup a = none → post () s)
    (kept : ∀ pte, a < maxva → s.pt.lookup a = some pte → doFree = false →
      post () ⟨s.kmem, s.pt.setPte a none⟩)
    (foreign : ∀ pte, a < maxva → s.pt.lookup a = some pte → doFree = true →
      ¬ s.kmem.Manages pte.pa → abort .kfree)
    (freed : ∀ pte, a < maxva → s.pt.lookup a = some pte → doFree = true →
      s.kmem.Manages pte.pa → post () ⟨s.kmem.give pte.pa, s.pt.setPte a none⟩) :
    wp (unmapPage a doFree) post abort s := by
  unfold unmapPage
  simp only [wp_bind]
  refine wp_walk_false above fun below => ?_
  cases entry : s.pt.lookup a with
  | none =>
    have unchanged := absent below entry
    cases (s.pt.lowDir a).isSome <;> simpa [entry] using unchanged
  | some pte =>
    rw [lowDir_isSome_of_lookup entry]
    simp only [Bool.not_true, Bool.false_eq_true, if_false, wp_bind, wp_get, entry]
    cases doFree with
    | false => simpa [storePte] using kept pte below entry rfl
    | true =>
      simp only [if_true, wp_bind, wp_onKmem]
      refine wp_kfree (foreign pte below entry rfl) fun managed => ?_
      simpa [storePte] using freed pte below entry rfl managed

theorem wp_uvmunmap_kernel {post : Unit → Vm → Prop} (aligned : va % pgsize = 0)
    (below : va < maxva)
    (done : ∀ t, t.kmem = s.kmem → t.pt.lookup va = none →
      (∀ vb, vb < vaSpan → vb / pgsize ≠ va / pgsize → t.pt.lookup vb = s.pt.lookup vb) →
      (kernelPage (va / pgsize) → t.pt.frames = s.pt.frames) → post () t) :
    wp (uvmunmap va 1 false) post abort s := by
  unfold uvmunmap
  rw [if_neg (by omega)]
  simp only [upto, pure_bind, Nat.zero_mul, Nat.add_zero]
  refine wp_unmapPage (by omega) (fun _ absent => ?_) (fun pte _ entry _ => ?_) (by simp) (by simp)
  · exact done s rfl absent (fun _ _ _ => rfl) fun _ => rfl
  · have path := lowDir_isSome_of_lookup entry
    refine done _ rfl (lookup_setPte_self path none) (fun vb bBelow other => ?_) fun kernel => ?_
    · rw [lookup_setPte path none (lt_vaSpan below) bBelow, if_neg other]
    · -- Kernel pages are not counted among the frames, so none is lost.
      have exchange := frames_setPte (lt_vaSpan below) path none
      simpa [entry, leafFrame, kernel] using exchange

structure Kmem.Returns (k l : Kmem) : Prop where
  kend : l.kend = k.kend
  trampoline : l.trampoline = k.trampoline
  suffix : k.freelist <:+ l.freelist
  ram : ∀ f, f ∉ l.freelist → l.ram f = k.ram f

theorem Kmem.Returns.refl (k : Kmem) : k.Returns k :=
  ⟨rfl, rfl, List.suffix_refl _, fun _ _ => rfl⟩

theorem Kmem.Returns.trans (first : k.Returns l) (second : l.Returns m) : k.Returns m := by
  refine ⟨second.kend.trans first.kend, second.trampoline.trans first.trampoline,
    first.suffix.trans second.suffix, fun f notFree => ?_⟩
  rw [second.ram f notFree, first.ram f fun member => notFree (second.suffix.subset member)]

theorem Kmem.returns_give (k : Kmem) (pa : Nat) : k.Returns (k.give pa) := by
  refine ⟨rfl, rfl, List.suffix_cons _ _, fun f notFree => ?_⟩
  have other : f ≠ pa := fun same => notFree (by simp [Kmem.give, same])
  simp [Kmem.give, other]

structure Vm.Unmaps (s t : Vm) (first n : Nat) : Prop where
  returns : s.kmem.Returns t.kmem
  total : t.kmem.free + t.pt.frames = s.kmem.free + s.pt.frames
  lookup : ∀ vb, vb < vaSpan → t.pt.lookup vb =
    if first ≤ vb / pgsize ∧ vb / pgsize < first + n then none else s.pt.lookup vb

theorem Vm.Unmaps.refl (s : Vm) (first : Nat) : s.Unmaps s first 0 := by
  refine ⟨Kmem.Returns.refl _, rfl, fun vb _ => ?_⟩
  rw [if_neg (by omega)]

theorem Vm.Unmaps.skip (unmapped : s.Unmaps t first n) (page : a / pgsize = first + n)
    (absent : t.pt.lookup a = none) : s.Unmaps t first (n + 1) := by
  refine ⟨unmapped.returns, unmapped.total, fun vb below => ?_⟩
  by_cases last : vb / pgsize = first + n
  · rw [if_pos (by omega), lookup_congr t.pt (last.trans page.symm), absent]
  · rw [unmapped.lookup vb below]
    exact if_congr (by omega) rfl rfl

theorem Vm.Unmaps.free {pte : Pte} (unmapped : s.Unmaps t first n) (page : a / pgsize = first + n)
    (below : a < maxva) (entry : t.pt.lookup a = some pte)
    (user : kernelPage (a / pgsize) = false) :
    s.Unmaps ⟨t.kmem.give pte.pa, t.pt.setPte a none⟩ first (n + 1) := by
  have path := lowDir_isSome_of_lookup entry
  have exchange := frames_setPte (lt_vaSpan below) path none
  simp only [entry, Option.elim_some, Option.elim_none, leafFrame, user, Bool.false_eq_true,
    if_false, add_zero] at exchange
  refine ⟨unmapped.returns.trans (Kmem.returns_give _ _), ?_, fun vb bBelow => ?_⟩
  · rw [← unmapped.total, ← exchange, Kmem.free_give]
    abel
  · rw [lookup_setPte path none (lt_vaSpan below) bBelow]
    by_cases last : vb / pgsize = first + n
    · rw [if_pos (last.trans page.symm), if_pos (by omega)]
    · rw [if_neg (fun same => last (same.trans page)), unmapped.lookup vb bBelow]
      exact if_congr (by omega) rfl rfl

structure Vm.Releases (s t : Vm) (first n : Nat) : Prop extends s.Unmaps t first n where
  freed : ∀ vb pte, vb < vaSpan → first ≤ vb / pgsize → vb / pgsize < first + n →
    s.pt.lookup vb = some pte → pte.pa ∈ t.kmem.freelist

theorem Vm.Releases.refl (s : Vm) (first : Nat) : s.Releases s first 0 :=
  ⟨Vm.Unmaps.refl s first, fun _ _ _ _ _ => by omega⟩

theorem Vm.Releases.next (released : s.Releases t first n) (unmapped : s.Unmaps u first (n + 1))
    (kept : t.kmem.freelist ⊆ u.kmem.freelist) (page : a / pgsize = first + n)
    (freed : ∀ pte, s.pt.lookup a = some pte → pte.pa ∈ u.kmem.freelist) :
    s.Releases u first (n + 1) := by
  refine ⟨unmapped, fun vb pte below low high entry => ?_⟩
  by_cases last : vb / pgsize = first + n
  · rw [lookup_congr s.pt (last.trans page.symm)] at entry
    exact freed pte entry
  · exact kept (released.freed vb pte below low (by omega) entry)

theorem wp_uvmunmap {post : Unit → Vm → Prop} (aligned : va % pgsize = 0)
    (user : ∀ vb, vb < vaSpan → kernelPage (vb / pgsize) → va / pgsize ≤ vb / pgsize →
      vb / pgsize < va / pgsize + n → s.pt.lookup vb = none)
    (above : maxva < va + n * pgsize → abort .walk)
    (foreign : ∀ vb pte, vb < vaSpan → s.pt.lookup vb = some pte →
      kernelPage (vb / pgsize) = false → ¬ s.kmem.Manages pte.pa → abort .kfree)
    (done : ∀ t, (0 < n → va + n * pgsize ≤ maxva) → s.Releases t (va / pgsize) n → post () t) :
    wp (uvmunmap va n true) post abort s := by
  unfold uvmunmap
  rw [if_neg (by omega)]
  refine wp_imp (wp_upto
    (fun i t => (0 < i → va + i * pgsize ≤ maxva) ∧ s.Releases t (va / pgsize) i) n s
    ⟨by simp, Vm.Releases.refl s _⟩ ?_) fun _ t reached => done t reached.1 reached.2
  rintro i turn t ⟨_, reached⟩
  have page : (va + i * pgsize) / pgsize = va / pgsize + i :=
    Nat.add_mul_div_right va i (by decide)
  -- The page of this turn has not been reached before, so its entry is still the original one.
  have original : va + i * pgsize < maxva →
      t.pt.lookup (va + i * pgsize) = s.pt.lookup (va + i * pgsize) := by
    intro below
    rw [reached.lookup _ (lt_vaSpan below), if_neg (by omega)]
  have mine : ∀ pte, va + i * pgsize < maxva → t.pt.lookup (va + i * pgsize) = some pte →
      kernelPage ((va + i * pgsize) / pgsize) = false := by
    intro pte below entry
    by_contra kernel
    rw [original below] at entry
    have gone := user _ (lt_vaSpan below) (by simpa using kernel) (by omega) (by omega)
    simp [gone] at entry
  have room : va + i * pgsize < maxva → 0 < i + 1 → va + (i + 1) * pgsize ≤ maxva := by
    simp only [pgsize, maxva] at *
    omega
  refine wp_unmapPage (fun limit => above ?_) (fun below absent => ⟨room below, ?_⟩)
    (by simp) (fun pte below entry _ unmanaged => ?_)
    (fun pte below entry _ _ => ⟨room below, ?_⟩)
  · simp only [pgsize] at *
    omega
  · refine reached.next (reached.skip page absent) (List.Subset.refl _) page fun pte entry => ?_
    rw [← original below, absent] at entry
    simp at entry
  · have user := mine pte below entry
    rw [original below] at entry
    refine foreign _ pte (lt_vaSpan below) entry user fun managed => unmanaged ?_
    simpa only [Kmem.Manages, reached.returns.kend] using managed
  · have freed := reached.free page below entry (mine pte below entry)
    refine reached.next freed (List.subset_cons_self _ _) page fun pte' before => ?_
    rw [← original below, entry] at before
    obtain rfl := Option.some.inj before
    exact List.mem_cons_self

end Xv6
