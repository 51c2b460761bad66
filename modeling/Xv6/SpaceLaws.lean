import Xv6.MappingLaws

/-! What building, copying and freeing whole address spaces do to frames and lookups. -/

namespace Xv6

open Prog

structure Kmem.Trades (k l : Kmem) (own own' : Multiset Nat) : Prop where
  kend : l.kend = k.kend
  trampoline : l.trampoline = k.trampoline
  total : l.free + own' = k.free + own
  ram : ∀ f, f ∉ k.free + own → l.ram f = k.ram f

variable {first i n pa root sz va vb : Nat} {s t : Vm} {pt : PageTable} {abort : Panic → Prop}
  {k : Kmem} {perm : Perm} {post : Option PageTable → Kmem → Prop}

namespace Kmem

variable {k l m : Kmem} {a b c : Multiset Nat}

theorem Trades.refl (k : Kmem) (own : Multiset Nat) : k.Trades k own own :=
  ⟨rfl, rfl, rfl, fun _ _ => rfl⟩

theorem Trades.trans (first : k.Trades l a b) (second : l.Trades m b c) : k.Trades m a c := by
  refine ⟨second.kend.trans first.kend, second.trampoline.trans first.trampoline,
    second.total.trans first.total, fun f outside => ?_⟩
  -- The two trades move frames within one total.
  rw [second.ram f (by rwa [first.total]), first.ram f outside]

theorem Trades.manages (traded : k.Trades l a b) (managed : ∀ f, f ∈ k.free + a → k.Manages f) :
    ∀ f, f ∈ l.free + b → l.Manages f := by
  intro f member
  rw [traded.total] at member
  simpa only [Kmem.Manages, traded.kend] using managed f member

theorem Trades.frame (traded : k.Trades l a b) (rest : Multiset Nat) :
    k.Trades l (a + rest) (b + rest) := by
  refine ⟨traded.kend, traded.trampoline, ?_, fun f outside => traded.ram f fun inside => ?_⟩
  · rw [← add_assoc, traded.total, add_assoc]
  · exact outside (by rw [← add_assoc]; exact Multiset.mem_add.mpr (Or.inl inside))

theorem Draws.trades (drawn : k.Draws l) (total : l.free + b = k.free + a) : k.Trades l a b := by
  refine ⟨drawn.kend, drawn.trampoline, total, fun f outside => drawn.ram f fun free => ?_⟩
  exact outside (Multiset.mem_add.mpr (Or.inl (by simpa [Kmem.free] using free)))

theorem Returns.trades (returned : k.Returns l) (total : l.free + b = k.free + a) :
    k.Trades l a b := by
  refine ⟨returned.kend, returned.trampoline, total, fun f outside => returned.ram f fun free => ?_⟩
  rw [← total] at outside
  exact outside (Multiset.mem_add.mpr (Or.inl (by simpa [Kmem.free] using free)))

theorem trades_take {rest : List Nat} (front : k.freelist = pa :: rest) (bytes : Nat → UInt8) :
    k.Trades
      { k.take pa rest with ram := Function.update (k.take pa rest).ram pa bytes } 0 {pa} := by
  refine (draws_take front bytes).trades ?_
  rw [← free_take front, add_zero]
  rfl

theorem trades_give (k : Kmem) (pa : Nat) : k.Trades (k.give pa) {pa} 0 :=
  (returns_give k pa).trades (by rw [free_give, add_zero])

theorem trades_write (mine : pa ∈ a) (bytes : Nat → UInt8) :
    k.Trades { k with ram := Function.update k.ram pa bytes } a a := by
  refine ⟨rfl, rfl, rfl, fun f outside => ?_⟩
  have other : f ≠ pa := fun same => outside (by simp [same, mine])
  simp [other]

end Kmem

theorem Vm.Grows.trades (grown : s.Grows t) : s.kmem.Trades t.kmem s.pt.frames t.pt.frames :=
  grown.draws.trades grown.total

theorem Vm.Unmaps.trades (unmapped : s.Unmaps t first n) :
    s.kmem.Trades t.kmem s.pt.frames t.pt.frames :=
  unmapped.returns.trades unmapped.total

namespace Dir

variable {β : Type} {behind : Nat → β → Multiset Nat} {d : Dir β}

theorem mem_frames_self : d.pa ∈ Dir.frames behind d := by
  simp [frames_eq]

theorem mem_frames_behind {f : Nat} {entry : β} (inside : i < 512) (present : d.slot i = some entry)
    (owned : f ∈ behind i entry) : f ∈ Dir.frames behind d := by
  rw [frames_eq, Multiset.mem_add]
  right
  rw [Multiset.mem_sum]
  refine ⟨i, Finset.mem_range.mpr inside, ?_⟩
  rw [present]
  exact owned

end Dir

section

variable {β : Type} {free : β → MemOp Unit} {behind : Nat → β → Multiset Nat} {d : Dir β}
  {abort : Panic → Prop} {k : Kmem}

theorem wp_freeSlots
    (each : ∀ i entry, i < 512 → d.slot i = some entry → ∀ l, k.Returns l →
      wp (free entry) (fun _ m => l.Returns m ∧ m.free = l.free + behind i entry) abort l)
    (within : n ≤ 512) : wp (upto n (freeSlot free d))
      (fun _ l => k.Returns l ∧ l.free =
        k.free + ∑ i ∈ Finset.range n, (d.slot i).elim 0 (behind i)) abort k := by
  refine wp_upto (fun n l => k.Returns l ∧ l.free =
    k.free + ∑ i ∈ Finset.range n, (d.slot i).elim 0 (behind i)) n k ?_ ?_
  · simpa using Kmem.Returns.refl k
  · rintro i inside l ⟨returned, gained⟩
    rw [Finset.sum_range_succ]
    unfold freeSlot
    cases entry : d.slot i with
    | none => simpa using ⟨returned, gained⟩
    | some value =>
      refine wp_imp (each i value (by omega) entry l returned) ?_
      rintro _ m ⟨again, more⟩
      refine ⟨returned.trans again, ?_⟩
      rw [more, gained, add_assoc, Option.elim_some]

theorem wp_freeDir
    (each : ∀ i entry, i < 512 → d.slot i = some entry → ∀ l, k.Returns l →
      wp (free entry) (fun _ m => l.Returns m ∧ m.free = l.free + behind i entry) abort l)
    (foreign : ¬ k.Manages d.pa → abort .kfree) :
    wp (freeDir free d) (fun _ l => k.Returns l ∧ l.free = k.free + Dir.frames behind d)
      abort k := by
  have slots := wp_freeSlots (n := 512) each (Nat.le_refl _)
  unfold freeDir
  rw [wp_bind]
  refine wp_imp slots ?_
  rintro _ l ⟨returned, gained⟩
  refine wp_kfree (fun bad => foreign ?_) (fun _ => ?_)
  · simpa only [Kmem.Manages, returned.kend] using bad
  · refine ⟨returned.trans (Kmem.returns_give l d.pa), ?_⟩
    rw [Kmem.free_give, gained, Dir.frames_eq, add_assoc, add_comm ({d.pa} : Multiset Nat)]

end

theorem px_vpnOf {j k : Nat} (iInside : i < 512) (jInside : j < 512) (kInside : k < 512) :
    px 2 (vpnOf i j k * pgsize) = i ∧ px 1 (vpnOf i j k * pgsize) = j ∧
      px 0 (vpnOf i j k * pgsize) = k ∧ vpnOf i j k * pgsize < vaSpan := by
  simp only [px, vpnOf, pgsize, vaSpan]
  omega

theorem wp_freewalk (user : ∀ va, va < vaSpan → kernelPage (va / pgsize) → pt.lookup va = none)
    (odd : ∀ va pte, va < vaSpan → pt.lookup va = some pte →
      (pte.perm.r || pte.perm.w || pte.perm.x) = false → abort .freewalk)
    (foreign : ∀ f, f ∈ pt.frames → ¬ k.Manages f → abort .kfree) :
    wp (freewalk pt) (fun _ l => k.Returns l ∧ l.free = k.free + pt.frames) abort k := by
  have manages : ∀ {l m : Kmem} {f : Nat}, l.Returns m → ¬ m.Manages f → ¬ l.Manages f := by
    intro l m f returned bad
    simpa only [Kmem.Manages, returned.kend] using bad
  have root : pt.pa ∈ pt.frames := Dir.mem_frames_self
  refine wp_freeDir (fun i mid iInside high k₁ first => ?_) (foreign _ root)
  refine wp_freeDir (fun j low jInside middle k₂ second => ?_) (fun bad => ?_)
  · refine wp_freeDir (fun l pte lInside leaf k₃ third => ?_) (fun bad => ?_)
    · -- The entry is the one its address looks up, so it is not a kernel mapping.
      obtain ⟨atHigh, atMiddle, atLow, below⟩ := px_vpnOf iInside jInside lInside
      have entry : pt.lookup (vpnOf i j l * pgsize) = some pte := by
        simp only [PageTable.lookup, atHigh, atMiddle, atLow, high, middle, leaf,
          Option.bind_some]
      have page : vpnOf i j l * pgsize / pgsize = vpnOf i j l :=
        Nat.mul_div_cancel _ (by decide)
      have mine : kernelPage (vpnOf i j l) = false := by
        by_contra kernel
        have gone := user _ below (by rw [page]; simpa using kernel)
        simp [gone] at entry
      have owned : pte.pa ∈ pt.frames :=
        Dir.mem_frames_behind iInside high (Dir.mem_frames_behind jInside middle
          (Dir.mem_frames_behind lInside leaf (by simp [leafFrame, mine])))
      unfold freeLeaf
      split
      · rename_i bits
        simp only [wp_bind, wp_throw]
        exact odd _ pte below entry (by simpa using bits)
      · refine wp_kfree (fun bad => foreign _ owned ?_) (fun _ => ?_)
        · exact manages first (manages second (manages third bad))
        · exact ⟨Kmem.returns_give _ _, by simp [leafFrame, mine]⟩
    · refine foreign _ ?_ (manages first (manages second bad))
      exact Dir.mem_frames_behind iInside high
        (Dir.mem_frames_behind jInside middle Dir.mem_frames_self)
  · refine foreign _ ?_ (manages first bad)
    exact Dir.mem_frames_behind iInside high Dir.mem_frames_self

theorem Vm.Unmaps.frames_le (unmapped : s.Unmaps t first n) : t.pt.frames ≤ s.pt.frames := by
  obtain ⟨returned, list⟩ := unmapped.returns.suffix
  have free : t.kmem.free = s.kmem.free + (returned : Multiset Nat) := by
    simp only [Kmem.free, ← list, ← Multiset.coe_add]
    exact add_comm _ _
  have total := unmapped.total
  rw [free, add_assoc, add_left_cancel_iff] at total
  exact total ▸ Multiset.le_add_left _ _

theorem mem_frames_of_lookup {pte : Pte} (below : va < vaSpan) (entry : pt.lookup va = some pte)
    (user : kernelPage (va / pgsize) = false) : pte.pa ∈ pt.frames := by
  have exchange := frames_setPte below (lowDir_isSome_of_lookup entry) none
  simp only [entry, Option.elim_some, Option.elim_none, leafFrame, user, add_zero] at exchange
  rw [← exchange]
  exact Multiset.mem_add.mpr (Or.inr (Multiset.mem_singleton_self _))

def PageTable.Managed (pt : PageTable) (k : Kmem) : Prop := ∀ f, f ∈ pt.frames → k.Manages f

def PageTable.Leaves (pt : PageTable) : Prop := ∀ va pte, va < vaSpan →
  pt.lookup va = some pte → (pte.perm.r || pte.perm.w || pte.perm.x) = true

def PageTable.Bare (pt : PageTable) : Prop := ∀ va, va < vaSpan →
  kernelPage (va / pgsize) → pt.lookup va = none

def PageTable.Kernel (pt : PageTable) : Prop := ∀ va, va < vaSpan →
  kernelPage (va / pgsize) → ∃ pte, pt.lookup va = some pte ∧ pte.perm.u = false

theorem wp_uvmfree {post : Unit → Vm → Prop} (user : s.pt.Bare)
    (above : maxva < pgroundup sz → abort .walk) (odd : ¬ s.pt.Leaves → abort .freewalk)
    (foreign : ¬ s.pt.Managed s.kmem → abort .kfree)
    (done : ∀ t, pgroundup sz ≤ maxva → s.kmem.Trades t.kmem s.pt.frames 0 → post () t) :
    wp (uvmfree sz) post abort s := by
  -- Once the range is unmapped, the walk frees the table with whatever is still mapped.
  have rest : ∀ t first n, pgroundup sz ≤ maxva → s.Unmaps t first n →
      wp (do onKmem (freewalk (← get).pt)) post abort t := by
    intro t first n within unmapped
    have entries : ∀ va pte, va < vaSpan → t.pt.lookup va = some pte →
        s.pt.lookup va = some pte := by
      intro va pte below entry
      rw [unmapped.lookup va below] at entry
      split at entry
      · simp at entry
      · exact entry
    simp only [wp_bind, wp_get, wp_onKmem]
    refine wp_imp (wp_freewalk (fun va below kernel => ?_) (fun va pte below entry bits => ?_)
      (fun f owned bad => ?_)) ?_
    · by_contra present
      obtain ⟨pte, entry⟩ := Option.ne_none_iff_exists'.mp present
      have original := entries va pte below entry
      simp [user va below kernel] at original
    · refine odd fun leaves => ?_
      simp [leaves va pte below (entries va pte below entry)] at bits
    · refine foreign fun managed => bad ?_
      have held := managed f (Multiset.mem_of_le unmapped.frames_le owned)
      simpa only [Kmem.Manages, unmapped.returns.kend] using held
    · rintro _ l ⟨returned, gained⟩
      refine done _ within (unmapped.trades.trans (returned.trades ?_))
      rw [gained, add_zero]
  unfold uvmfree
  split
  · rw [wp_bind]
    refine wp_uvmunmap (by decide) (fun vb below kernel _ _ => user vb below kernel)
      (fun limit => above ?_) (fun vb pte below entry mine bad => foreign fun managed => bad ?_)
      (fun t within unmapped => rest t _ _ ?_ unmapped.toUnmaps)
    · simp only [pgsize] at *
      omega
    · exact managed _ (mem_frames_of_lookup below entry mine)
    · simp only [pgroundup, pgsize] at *
      omega
  · rename_i none
    refine rest s 0 0 ?_ (Vm.Unmaps.refl s 0)
    rw [show sz = 0 by omega]
    decide

theorem wp_procFreepagetable {post : Unit → Kmem → Prop}
    (above : maxva < pgroundup sz → abort .walk) (odd : ¬ pt.Leaves → abort .freewalk)
    (foreign : ¬ pt.Managed k → abort .kfree)
    (done : ∀ l, pgroundup sz ≤ maxva → k.Trades l pt.frames 0 → post () l) :
    wp (procFreepagetable pt sz) post abort k := by
  unfold procFreepagetable
  simp only [wp_discard, wp_onTable, wp_bind]
  refine wp_uvmunmap_kernel (by decide) (by decide) fun s sameMem gone others frames => ?_
  refine wp_uvmunmap_kernel (by decide) (by decide) fun t sameMem' gone' others' frames' => ?_
  have total : t.pt.frames = pt.frames := (frames' (by decide)).trans (frames (by decide))
  have memory : t.kmem = k := sameMem'.trans sameMem
  -- A surviving entry is one of the original entries, and none of the kernel's.
  have entries : ∀ va pte, va < vaSpan → t.pt.lookup va = some pte →
      pt.lookup va = some pte ∧ kernelPage (va / pgsize) = false := by
    intro va pte below entry
    have notFrame : va / pgsize ≠ trapframeVa / pgsize := by
      intro same
      rw [lookup_congr t.pt same, gone'] at entry
      simp at entry
    rw [others' va below notFrame] at entry
    have notTrampoline : va / pgsize ≠ trampolineVa / pgsize := by
      intro same
      rw [lookup_congr s.pt same, gone] at entry
      simp at entry
    rw [others va below notTrampoline] at entry
    exact ⟨entry, by simp [kernelPage, notFrame, notTrampoline]⟩
  refine wp_uvmfree (fun va below kernel => ?_) above (fun odder => odd fun leaves => odder ?_)
    (fun stranger => foreign fun managed => stranger ?_) (fun u within traded => done _ within ?_)
  · by_contra present
    obtain ⟨pte, entry⟩ := Option.ne_none_iff_exists'.mp present
    simp [(entries va pte below entry).2] at kernel
  · exact fun va pte below entry => leaves va pte below (entries va pte below entry).1
  · intro f owned
    rw [total] at owned
    simpa only [memory] using managed f owned
  · simpa only [memory, total] using traded

theorem wp_mappages_present {post : Int → Vm → Prop} (aligned : va % pgsize = 0)
    (below : va < maxva) (path : (s.pt.lowDir va).isSome)
    (taken : (s.pt.lookup va).isSome → abort .remap)
    (mapped : s.pt.lookup va = none → post 0 ⟨s.kmem, s.pt.setPte va (some ⟨pa, perm⟩)⟩) :
    wp (mappages va pgsize pa perm) post abort s := by
  unfold mappages
  rw [if_neg (by omega), if_neg (by decide), if_neg (by decide)]
  simp only [Nat.div_self (show 0 < pgsize by decide), mappagesFrom, wp_bind]
  refine wp_walk_present below path ?_
  simp only [Bool.not_true, Bool.false_eq_true, if_false, wp_bind, wp_get]
  split
  · simpa only [wp_bind, wp_throw] using taken ‹_›
  · rename_i vacant
    simpa [storePte] using mapped (by simpa using vacant)

theorem wp_walk_fresh {post : Bool → Vm → Prop} (below : va < maxva)
    (short : ∀ t, k.freelist.length < 2 → Vm.Grows ⟨k, Dir.empty root⟩ t → post false t)
    (found : ∀ mid low rest, k.freelist = mid :: low :: rest →
      post true ⟨(k.takeZero mid (low :: rest)).takeZero low rest,
        (Dir.empty root).set (px 2 va)
          (some ((Dir.empty mid).set (px 1 va) (some (Dir.empty low))))⟩) :
    wp (walk va true) post abort ⟨k, Dir.empty root⟩ := by
  unfold walk
  rw [if_neg (by omega)]
  simp only [wp_bind, wp_get, wp_onKmem]
  refine wp_descend _ _ _ (by simp) (by simp) (fun _ _ empty => ?_) (fun mid rest _ _ front => ?_)
  · simpa only [wp_pure] using short _ (by simp [empty]) (Vm.Grows.refl _)
  · simp only [wp_bind, wp_modify, wp_onKmem]
    refine wp_descend _ _ _ (by simp) (by simp) (fun _ _ empty => ?_)
      (fun low rest' _ _ front' => ?_)
    · have only : rest = [] := empty
      simp only [wp_pure]
      refine short _ (by simp [front, only]) ?_
      exact Vm.grows_mid (s := ⟨k, Dir.empty root⟩) (px_lt 2 va) (Dir.slot_empty _ _) front
    · have more : rest = low :: rest' := front'
      subst more
      simpa only [wp_bind, wp_modify, wp_pure] using found mid low rest' front

def kernelTable (root mid low trampoline trapframe : Nat) : PageTable :=
  PageTable.setPte (PageTable.setPte
    ((Dir.empty root).set (px 2 trampolineVa)
      (some ((Dir.empty mid).set (px 1 trampolineVa) (some (Dir.empty low)))))
    trampolineVa (some ⟨trampoline, ⟨true, false, true, false⟩⟩))
    trapframeVa (some ⟨trapframe, ⟨true, true, false, false⟩⟩)

section

variable (root mid low trampoline trapframe : Nat)

theorem lookup_spine (va vb : Nat) : PageTable.lookup ((Dir.empty root).set (px 2 va)
    (some ((Dir.empty mid).set (px 1 va) (some (Dir.empty low))))) vb = none := by
  by_cases high : px 2 vb = px 2 va
  · by_cases middle : px 1 vb = px 1 va
    · simp [PageTable.lookup, high, middle]
    · simp [PageTable.lookup, high, Dir.slot_set_of_ne _ _ middle]
  · simp [PageTable.lookup, Dir.slot_set_of_ne _ _ high]

theorem lowDir_spine (va : Nat) : (PageTable.lowDir ((Dir.empty root).set (px 2 va)
    (some ((Dir.empty mid).set (px 1 va) (some (Dir.empty low))))) va).isSome := by
  simp [PageTable.lowDir]

theorem lowDir_setPte {pte : Option Pte} (path : (pt.lowDir vb).isSome) :
    ((pt.setPte va pte).lowDir vb).isSome := by
  cases high : pt.slot (px 2 va) with
  | none => simpa [PageTable.setPte, high] using path
  | some mid =>
    cases middle : mid.slot (px 1 va) with
    | none => simpa [PageTable.setPte, high, middle] using path
    | some low =>
      have stored : pt.setPte va pte =
          pt.set (px 2 va) (some (mid.set (px 1 va) (some (low.set (px 0 va) pte)))) := by
        simp [PageTable.setPte, high, middle]
      unfold PageTable.lowDir at path ⊢
      rw [stored, Dir.slot_set]
      by_cases sameHigh : px 2 vb = px 2 va
      · rw [sameHigh, high, Option.bind_some] at path
        rw [if_pos sameHigh, Option.bind_some, Dir.slot_set]
        by_cases sameMiddle : px 1 vb = px 1 va
        · simp [sameMiddle]
        · simpa [sameMiddle] using path
      · rwa [if_neg sameHigh]

theorem frames_setPte_kernel (below : va < vaSpan) (path : (pt.lowDir va).isSome)
    (kernel : kernelPage (va / pgsize)) (pte : Option Pte) :
    (pt.setPte va pte).frames = pt.frames := by
  have uncounted : ∀ entry : Option Pte, entry.elim 0 (leafFrame (va / pgsize)) = 0 := by
    intro entry
    cases entry <;> simp [leafFrame, kernel]
  simpa only [uncounted, add_zero] using frames_setPte below path pte

theorem lowDir_trapframe (trampoline : Option Pte) :
    ((PageTable.setPte ((Dir.empty root).set (px 2 trampolineVa)
      (some ((Dir.empty mid).set (px 1 trampolineVa) (some (Dir.empty low)))))
      trampolineVa trampoline).lowDir trapframeVa).isSome := by
  refine lowDir_setPte ?_
  exact lowDir_spine root mid low trampolineVa

theorem lookup_kernelTable (below : vb < vaSpan) :
    (kernelTable root mid low trampoline trapframe).lookup vb =
      if vb / pgsize = trapframeVa / pgsize then
        some ⟨trapframe, ⟨true, true, false, false⟩⟩
      else if vb / pgsize = trampolineVa / pgsize then
        some ⟨trampoline, ⟨true, false, true, false⟩⟩
      else none := by
  have spine := lowDir_spine root mid low trampolineVa
  rw [kernelTable, lookup_setPte (lowDir_trapframe root mid low _) _ (by decide) below,
    lookup_setPte spine _ (by decide) below, lookup_spine]

theorem frames_kernelTable :
    (kernelTable root mid low trampoline trapframe).frames = {root} + {mid} + {low} := by
  have first := frames_set_empty_mid (px_lt 2 trampolineVa)
    (Dir.slot_empty root (px 2 trampolineVa)) mid
  have second := frames_set_empty_low (px_lt 2 trampolineVa) (px_lt 1 trampolineVa)
    (Dir.slot_set_self (Dir.empty root) (px 2 trampolineVa) (some (Dir.empty mid)))
    (Dir.slot_empty mid (px 1 trampolineVa)) low
  rw [Dir.set_set] at second
  rw [kernelTable, frames_setPte_kernel (by decide) (lowDir_trapframe root mid low _) (by decide),
    frames_setPte_kernel (by decide) (lowDir_spine root mid low trampolineVa) (by decide),
    second, first]
  simp [PageTable.frames]

end

theorem wp_uvmcreate (full : k.freelist = [] → post none k)
    (made : ∀ root rest, k.freelist = root :: rest →
      post (some (Dir.empty root)) (k.takeZero root rest)) : wp uvmcreate post abort k := by
  unfold uvmcreate
  rw [wp_bind]
  refine wp_kalloc (fun empty => ?_) (fun root rest front => ?_)
  · simpa only [wp_pure] using full empty
  · simp only [memset, wp_bind, wp_modify, wp_pure]
    exact made root rest front

theorem wp_mappages_fresh {post : Int → Vm → Prop} (aligned : va % pgsize = 0) (below : va < maxva)
    (short : ∀ t, k.freelist.length < 2 → Vm.Grows ⟨k, Dir.empty root⟩ t → post (-1) t)
    (mapped : ∀ mid low rest, k.freelist = mid :: low :: rest →
      post 0 ⟨(k.takeZero mid (low :: rest)).takeZero low rest,
        PageTable.setPte ((Dir.empty root).set (px 2 va)
          (some ((Dir.empty mid).set (px 1 va) (some (Dir.empty low)))))
          va (some ⟨pa, perm⟩)⟩) :
    wp (mappages va pgsize pa perm) post abort ⟨k, Dir.empty root⟩ := by
  unfold mappages
  rw [if_neg (by omega), if_neg (by decide), if_neg (by decide)]
  simp only [Nat.div_self (show 0 < pgsize by decide), mappagesFrom, wp_bind]
  refine wp_walk_fresh below (fun t few grown => ?_) (fun mid low rest front => ?_)
  · simpa using short t few grown
  · simpa [storePte, lookup_spine] using mapped mid low rest front

theorem wp_uvmfree_blank {post : Unit → Vm → Prop} (blank : ∀ va, s.pt.lookup va = none)
    (foreign : ¬ s.pt.Managed s.kmem → abort .kfree)
    (done : ∀ t, s.kmem.Trades t.kmem s.pt.frames 0 → post () t) : wp (uvmfree 0) post abort s := by
  refine wp_uvmfree (fun va _ _ => blank va) (fun above => ?_) (fun odd => ?_) foreign
    fun t _ traded => done t traded
  · exact absurd above (by decide)
  · exact absurd (fun va pte _ entry => by simp [blank va] at entry) odd

theorem wp_procPagetable {trapframe : Nat}
    (foreign : ¬ (∀ f, f ∈ k.freelist → k.Manages f) → abort .kfree)
    (short : ∀ l, k.freelist.length < 3 → k.Trades l 0 0 → post none l)
    (made : ∀ root mid low rest l, k.freelist = root :: mid :: low :: rest →
      l.freelist = rest → k.Draws l → k.Trades l 0 ({root} + {mid} + {low}) →
      post (some (kernelTable root mid low k.trampoline trapframe)) l) :
    wp (procPagetable trapframe) post abort k := by
  unfold procPagetable
  simp only [wp_bind]
  refine wp_uvmcreate (fun empty => ?_) (fun root rest front => ?_)
  · simpa only [wp_pure] using short k (by simp [empty]) (Kmem.Trades.refl k 0)
  have first : k.Trades (k.takeZero root rest) 0 {root} := Kmem.trades_take front _
  simp only [wp_bind, wp_get, wp_onTable]
  refine wp_mappages_fresh (by decide) (by decide) (fun t few grown => ?_)
    (fun mid low rest' front' => ?_)
  · -- Out of memory: the pages of the empty table go back.
    have drawn : k.Trades t.kmem 0 t.pt.frames := by
      have more := grown.trades
      simp only [PageTable.frames, Dir.frames_empty] at more
      exact first.trans more
    simp only [show (-1 : Int) < 0 by decide, if_true, wp_bind, wp_discard, wp_onTable]
    refine wp_uvmfree_blank (fun va => ?_) (fun stranger => foreign fun managed => stranger ?_)
      (fun u traded => ?_)
    · rw [grown.lookup va]
      rfl
    · intro f owned
      have member : f ∈ k.free := by
        have total := drawn.total
        rw [add_zero] at total
        exact total ▸ Multiset.mem_add.mpr (Or.inr owned)
      simpa only [Kmem.Manages, drawn.kend] using managed f (by simpa [Kmem.free] using member)
    · simp only [wp_pure]
      refine short _ ?_ (drawn.trans traded)
      simp only [front, List.length_cons]
      have fewer : rest.length < 2 := few
      omega
  · have more : rest = mid :: low :: rest' := front'
    subst more
    have absent : ∀ trampoline, PageTable.lookup (PageTable.setPte
        ((Dir.empty root).set (px 2 trampolineVa)
          (some ((Dir.empty mid).set (px 1 trampolineVa) (some (Dir.empty low)))))
        trampolineVa trampoline) trapframeVa = none := by
      intro trampoline
      rw [lookup_setPte (lowDir_spine root mid low trampolineVa) _ (by decide) (by decide),
        if_neg (by decide), lookup_spine]
    simp only [show ¬ (0 : Int) < 0 by decide, if_false, wp_bind, wp_onTable]
    refine wp_mappages_present (by decide) (by decide) (lowDir_trapframe root mid low _)
      (by simp [absent]) (fun _ => ?_)
    simp only [show ¬ (0 : Int) < 0 by decide, if_false, wp_pure]
    -- The three pages left the free list one after the other.
    have last : ((k.takeZero root (mid :: low :: rest')).takeZero mid (low :: rest')).freelist =
        low :: rest' := rfl
    have drawn := (Kmem.draws_take front fun _ => 0).trans
      ((Kmem.draws_take (k := k.takeZero root _) front' fun _ => 0).trans
        (Kmem.draws_take last fun _ => 0))
    refine made root mid low rest' _ front rfl drawn (drawn.trades ?_)
    simp only [Kmem.free, front, Kmem.take, ← Multiset.cons_coe, ← Multiset.singleton_add]
    abel

end Xv6
