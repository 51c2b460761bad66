import Xv6.Programs.UmallocLaws

/-! Sequences of allocations and frees: blocks stay apart, and lie in memory that was obtained. -/

namespace Xv6.Umalloc

open Linked

section Growing

variable {lay : Layout} {h : Heap} {cycle : List Nat} {used : List (Nat × Nat)} {nu nunits : Nat}

def Heap.grow (h : Heap) (nu : Nat) : Heap :=
  { mem := Function.update h.mem h.brk { h.mem h.brk with size := nu }
    freep := h.freep
    brk := h.brk + nu * headerSize
    obtained := (h.brk, nu * headerSize) :: h.obtained }

theorem Arena.grow (arena : Arena lay h cycle used) (positive : 0 < nu)
    (fits : h.brk + nu * headerSize ≤ trapframeVa) :
    Arena lay (h.grow nu) cycle ((h.brk, nu) :: used) := by
  have size : ((h.grow nu).mem h.brk).size = nu := by simp [Heap.grow]
  have keeps : ∀ a, Below h.mem a h.brk → (h.grow nu).mem a = h.mem a := fun a below =>
    Function.update_of_ne (Nat.ne_of_lt below.lt) ..
  have ring : ∀ a ∈ cycle, (h.grow nu).mem a = h.mem a := fun a member =>
    keeps a (arena.top a member)
  have others : ∀ u ∈ used, (h.grow nu).mem u.1 = h.mem u.1 := fun u member =>
    keeps u.1 (arena.held u member).2.2
  have higher : ∀ {a}, Below (h.grow nu).mem a h.brk → Below (h.grow nu).mem a (h.grow nu).brk :=
    fun below => ⟨Nat.le_trans below.1 (Nat.le_add_right ..),
      Nat.le_trans below.2 (Nat.le_add_right ..)⟩
  have baseIn := List.mem_of_mem_head? arena.first
  refine { first := arena.first, nodes := arena.nodes.congr fun a member => by rw [ring a member],
           freep := arena.freep, order := order_congr arena.order ring,
           zero := by rw [ring _ baseIn, arena.zero], low := arena.low,
           top := fun a member => higher ((arena.top a member).congr (ring a member)), held := ?_,
           apart := ?_, disjoint := ?_, started := Nat.le_trans arena.started (Nat.le_add_right ..),
           within := fits, covered := ?_ }
  · intro u member
    rcases List.mem_cons.mp member with rfl | old
    · refine ⟨size, arena.started, ?_, ?_⟩
      · simp only [Heap.grow, headerSize]
        omega
      · simp only [ends, size]
        simp only [Heap.grow, headerSize]
        omega
    · obtain ⟨units, above, below⟩ := arena.held u old
      exact ⟨by rw [others u old, units], above, higher (below.congr (others u old))⟩
  · intro a member u inUse
    rcases List.mem_cons.mp inUse with rfl | old
    · exact Or.inl ((arena.top a member).congr (ring a member))
    · exact (arena.apart a member u old).congr (ring a member) (others u old)
  · refine List.pairwise_cons.mpr ⟨fun u member => ?_, ?_⟩
    · exact Or.inr ((arena.held u member).2.2.congr (others u member))
    · exact arena.disjoint.imp_of_mem fun mine yours apart =>
        apart.congr (others _ mine) (others _ yours)
  · -- An address below the new size was obtained before, or just now.
    intro x low high
    by_cases old : x < h.brk
    · obtain ⟨r, member, inside⟩ := arena.covered x low old
      exact ⟨r, List.mem_cons_of_mem _ member, inside⟩
    · exact ⟨(h.brk, nu * headerSize), List.mem_cons_self .., Nat.le_of_not_lt old, high⟩

theorem sbrk_grows (within : h.brk ≤ trapframeVa) (positive : 0 < nu)
    (small : nu * headerSize < 2 ^ 31) :
    sbrk (intOfU64 (nu * headerSize)) h = (sbrkError, h) ∨
      h.brk + nu * headerSize ≤ trapframeVa ∧ sbrk (intOfU64 (nu * headerSize)) h =
        (h.brk, { h with
          brk := h.brk + nu * headerSize
          obtained := (h.brk, nu * headerSize) :: h.obtained }) := by
  have whole : intOfU64 (nu * headerSize) = ((nu * headerSize : Nat) : Int) := by
    have same : u32 (nu * headerSize) = nu * headerSize := Nat.mod_eq_of_lt (by omega)
    rw [intOfU64, same, if_pos small]
  have more : (0 : Int) < ((nu * headerSize : Nat) : Int) := by
    simp only [headerSize]
    omega
  have sum : u64 (h.brk + u64OfInt ((nu * headerSize : Nat) : Int)) = h.brk + nu * headerSize := by
    simp only [u64, u64OfInt, trapframeVa, trampolineVa, maxva, pgsize] at *
    omega
  rw [whole]
  simp only [sbrk, sum, if_pos more]
  by_cases fits : h.brk + nu * headerSize ≤ trapframeVa
  · refine Or.inr ⟨fits, ?_⟩
    rw [if_neg (by omega)]
    rfl
  · exact Or.inl (by rw [if_pos (by omega)])

theorem Arena.morecore (arena : Arena lay h cycle used) (small : nunits * headerSize < 2 ^ 31) :
    ∃ r h', ((r = 0 ∧ h' = h) ∨ r = h'.freep ∧ h.brk < h'.brk ∧ ∃ cycle', Arena lay h' cycle' used) ∧
      ∃ need, ∀ fuel, need ≤ fuel → Umalloc.morecore fuel nunits h = some (r, h') := by
  generalize asked : (if nunits < 4096 then 4096 else nunits) = nu
  have positive : 0 < nu := by split at asked <;> omega
  have fitsInt : nu * headerSize < 2 ^ 31 := by
    simp only [headerSize] at *
    split at asked <;> omega
  rcases sbrk_grows arena.within positive fitsInt with refused | ⟨fits, grown⟩
  · refine ⟨0, h, Or.inl ⟨rfl, rfl⟩, 0, fun fuel _ => ?_⟩
    simp only [Umalloc.morecore, asked, refused, if_true]
  · obtain ⟨h', cycle', freed, kept, need, ends⟩ := (arena.grow positive fits).free
    refine ⟨h'.freep, h', Or.inr ⟨rfl, ?_, cycle', freed⟩, need, fun fuel enough => ?_⟩
    · rw [kept]
      simp only [Heap.grow, headerSize]
      omega
    · have valid : h.brk ≠ sbrkError := by
        have top : trapframeVa < sbrkError := by decide
        omega
      simp only [Umalloc.morecore, asked, grown, if_neg valid]
      have freeing := ends fuel enough
      simp only [Heap.grow] at freeing
      rw [freeing]
      rfl

theorem Arena.retry (arena : Arena lay h cycle used) (small : nunits * headerSize < 2 ^ 31)
    (short : ¬ nunits ≤ (h.mem h.freep).size) (prevp : Nat)
    (again : ∀ {h' : Heap} {cycle' : List Nat}, Arena lay h' cycle' used → h.brk < h'.brk →
      ∃ r t, Allocated lay used nunits r t ∧ ∃ need, ∀ fuel, need ≤ fuel →
        mallocLoop nunits fuel h'.freep (h'.mem h'.freep).ptr h' = some (r, t)) :
    ∃ r t, Allocated lay used nunits r t ∧ ∃ need, ∀ fuel, need ≤ fuel →
      mallocLoop nunits fuel prevp h.freep h = some (r, t) := by
  obtain ⟨r, h', outcome, need, ran⟩ := arena.morecore small
  rcases outcome with ⟨rfl, rfl⟩ | ⟨rfl, grown, cycle', more⟩
  · refine ⟨0, h', Or.inl ⟨rfl, cycle, arena⟩, need + 1, fun fuel enough => ?_⟩
    obtain ⟨fuel, rfl⟩ := Nat.exists_eq_add_of_le' (Nat.le_trans (Nat.le_add_left ..) enough)
    rw [mallocLoop, if_neg short, if_pos rfl, ran fuel (by omega)]
    rfl
  · obtain ⟨r, t, allocated, later, ends⟩ := again more grown
    refine ⟨r, t, allocated, need + later + 1, fun fuel enough => ?_⟩
    obtain ⟨fuel, rfl⟩ := Nat.exists_eq_add_of_le' (Nat.le_trans (Nat.le_add_left ..) enough)
    have valid : h'.freep ≠ 0 := more.freep_ne_zero
    rw [mallocLoop, if_neg short, if_pos rfl, ran fuel (by omega), ← ends fuel (by omega)]
    change (if h'.freep = 0 then _ else _) = _
    rw [if_neg valid]

theorem Arena.search (positive : 0 < nunits) (small : nunits * headerSize < 2 ^ 31) (room : Nat) :
    ∀ {h : Heap} {cycle : List Nat}, Arena lay h cycle used → trapframeVa - h.brk ≤ room →
    ∀ {prevp : Nat}, prevp ∈ cycle → ∃ r t, Allocated lay used nunits r t ∧ ∃ need, ∀ fuel,
      need ≤ fuel → mallocLoop nunits fuel prevp (h.mem prevp).ptr h = some (r, t) := by
  -- Each time around the ring the process grows, which it can only do up to the trapframe.
  induction room using Nat.strong_induction_on with
  | _ room again =>
    intro h cycle arena left prevp before
    have retry (prevp : Nat) (short : ¬ nunits ≤ (h.mem h.freep).size) :=
      arena.retry small short prevp fun {h'} {cycle'} more grown =>
        again (trapframeVa - h'.brk) (by have := more.within; omega) more (Nat.le_refl _) more.freep
    obtain ⟨path, leads, inside⟩ := arena.nodes.between arena.first before arena.freep
    -- Along the ring the search stops at the first block that is large enough.
    induction path generalizing prevp with
    | nil =>
      have last : (h.mem prevp).ptr = h.freep := leads.1
      by_cases large : nunits ≤ (h.mem (h.mem prevp).ptr).size
      · exact arena.found positive before large
      · rw [last] at large ⊢
        exact retry prevp large
    | cons p path ih =>
      have next : (h.mem prevp).ptr = p := leads.1
      by_cases large : nunits ≤ (h.mem (h.mem prevp).ptr).size
      · exact arena.found positive before large
      rw [next] at large ⊢
      by_cases around : p = h.freep
      · rw [around] at large ⊢
        exact retry prevp large
      · obtain ⟨r, t, allocated, need, ends⟩ := ih (inside p (List.mem_cons_self ..)) leads.2
          fun y member => inside y (List.mem_cons_of_mem _ member)
        refine ⟨r, t, allocated, need + 1, fun fuel enough => ?_⟩
        obtain ⟨fuel, rfl⟩ := Nat.exists_eq_add_of_le' (Nat.le_trans (Nat.le_add_left ..) enough)
        rw [mallocLoop, if_neg large, if_neg around]
        exact ends fuel (by omega)

end Growing

def blockOf (b : Nat × Nat) : Nat × Nat := (b.1 - headerSize, unitsFor b.2)

def Session.Sound (lay : Layout) (s : Session) : Prop :=
  (s.heap.freep = 0 ∧ s.heap.brk = lay.start ∧ s.live = []) ∨
    ∃ cycle, Arena lay s.heap cycle (s.live.map blockOf) ∧ ∀ b ∈ s.live, headerSize ≤ b.1

def Heap.FreeList (h : Heap) (cycle : List Nat) : Prop :=
  (h.freep = 0 ∧ cycle = []) ∨
    h.freep ∈ cycle ∧ Nodes (fun p => (h.mem p).ptr) cycle (cycle.headD 0) ∧
      cycle.Pairwise (Before h.mem)

structure Session.Safe (s : Session) : Prop where
  /-- Every byte of a block was returned by a growing `sbrk`. -/
  obtained : ∀ b ∈ s.live, ∀ x, b.1 ≤ x → x < b.1 + b.2 →
    ∃ r ∈ s.heap.obtained, r.1 ≤ x ∧ x < r.1 + r.2
  /-- Two blocks do not even touch: there is a header between them. -/
  disjoint : s.live.Pairwise fun b c =>
    b.1 + b.2 + headerSize ≤ c.1 ∨ c.1 + c.2 + headerSize ≤ b.1
  ring : ∃ cycle, s.heap.FreeList cycle ∧
    ∀ a ∈ cycle, ∀ b ∈ s.live, a + headerSize ≤ b.1 ∨ b.1 + b.2 ≤ a

section Sessions

variable {lay : Layout} {s : Session} {cycle : List Nat}

theorem le_unitsFor (n : Nat) : n + headerSize ≤ headerSize * unitsFor n := by
  simp only [unitsFor, headerSize]
  omega

theorem arena_begin {h : Heap} (fresh : h.brk = lay.start) :
    Arena lay (h.begin lay.base) [lay.base] [] := by
  have base := lay.base_below
  have zero : ((h.begin lay.base).mem lay.base).size = 0 := by simp [Heap.begin]
  refine { first := rfl, nodes := ⟨by simp [Heap.begin], trivial⟩, freep := List.mem_cons_self ..,
           order := List.pairwise_singleton .., zero := zero, low := by simp, top := ?_,
           held := by simp, apart := by simp, disjoint := List.Pairwise.nil,
           started := Nat.le_of_eq fresh.symm, within := fresh.trans_le lay.start_le,
           covered := fun x low high => ?_ }
  · intro a member
    obtain rfl := List.mem_singleton.mp member
    refine ⟨fresh.symm ▸ base, ?_⟩
    rw [ends, zero]
    exact fresh.symm ▸ Nat.le_trans (Nat.le_add_right ..) base
  · have high : x < h.brk := high
    omega

theorem Session.Sound.malloc (sound : s.Sound lay) {n : Nat} (small : n ≤ 2 ^ 31 - 32) :
    ∃ r h, (Session.mk h (if r = 0 then s.live else (r, n) :: s.live)).Sound lay ∧
      ∃ need, ∀ fuel, need ≤ fuel → Umalloc.malloc lay.base fuel n s.heap = some (r, h) := by
  have positive : 0 < unitsFor n := Nat.succ_pos _
  have fits : unitsFor n * headerSize < 2 ^ 31 := by
    simp only [unitsFor, headerSize]
    omega
  obtain ⟨h, made, cycle, arena, named⟩ : ∃ h,
      (if s.heap.freep = 0 then s.heap.begin lay.base else s.heap) = h ∧
      ∃ cycle, Arena lay h cycle (s.live.map blockOf) ∧ ∀ b ∈ s.live, headerSize ≤ b.1 := by
    rcases sound with ⟨null, fresh, none⟩ | ⟨cycle, arena, named⟩
    · rw [if_pos null, none]
      exact ⟨_, rfl, _, arena_begin fresh, by simp⟩
    · rw [if_neg arena.freep_ne_zero]
      exact ⟨_, rfl, cycle, arena, named⟩
  obtain ⟨r, t, allocated, need, ends⟩ :=
    Arena.search positive fits _ arena (Nat.le_refl _) arena.freep
  refine ⟨r, t, Or.inr ?_, need, fun fuel enough => ?_⟩
  · rcases allocated with ⟨rfl, cycle', still⟩ | ⟨q, cycle', rfl, more⟩
    · exact ⟨cycle', still, named⟩
    · rw [if_neg (by simp [headerSize])]
      refine ⟨cycle', ?_, fun b member => ?_⟩
      · rw [List.map_cons, blockOf, Nat.add_sub_cancel]
        exact more
      · rcases List.mem_cons.mp member with rfl | old
        · exact Nat.le_add_left ..
        · exact named b old
  · simp only [Umalloc.malloc, made]
    exact ends fuel enough

theorem Session.Sound.free (sound : s.Sound lay) {ap : Nat} (mine : ap ∈ s.live.map Prod.fst) :
    ∃ h, (Session.mk h (s.live.eraseP fun b => b.1 = ap)).Sound lay ∧
      ∃ need, ∀ fuel, need ≤ fuel → Umalloc.free fuel ap s.heap = some h := by
  rcases sound with ⟨-, -, none⟩ | ⟨cycle, arena, named⟩
  · simp [none] at mine
  obtain ⟨b, member, rfl⟩ := List.mem_map.mp mine
  obtain ⟨c, before, after, -, same, split, left⟩ :=
    List.exists_of_eraseP (p := fun c => decide (c.1 = b.1)) member (by simp)
  rw [decide_eq_true_eq] at same
  have order : (s.live.map blockOf).Perm (blockOf c :: (before ++ after).map blockOf) := by
    rw [split, ← List.map_cons]
    exact List.Perm.map _ List.perm_middle
  have named' := named b member
  obtain ⟨h, cycle', freed, -, need, ends⟩ := (arena.perm order).free
  refine ⟨h, Or.inr ⟨cycle', ?_, fun d kept => named d ?_⟩, need, fun fuel enough => ?_⟩
  · rw [left]
    exact freed
  · exact List.mem_of_mem_eraseP kept
  · have ran := ends fuel enough
    rw [same, Nat.sub_add_cancel named'] at ran
    exact ran

theorem Session.Sound.store (sound : s.Sound lay) {b : Nat × Nat} (mine : b ∈ s.live) {unit : Nat}
    (inside : headerSize * unit < b.2) (value : Header) :
    (Session.mk { s.heap with
      mem := Function.update s.heap.mem (b.1 + headerSize * unit) value } s.live).Sound lay := by
  rcases sound with ⟨-, -, none⟩ | ⟨cycle, arena, named⟩
  · simp [none] at mine
  have block : blockOf b ∈ s.live.map blockOf := List.mem_map_of_mem mine
  obtain ⟨size, -, -⟩ := arena.held _ block
  have room := le_unitsFor b.2
  have named' := named b mine
  -- The place lies behind the header of the block and before its end.
  have inner : (blockOf b).1 < b.1 + headerSize * unit ∧
      b.1 + headerSize * unit < ends s.heap.mem (blockOf b).1 := by
    rw [ends, size]
    simp only [blockOf, headerSize] at *
    omega
  have other : ∀ a, Apart s.heap.mem a (blockOf b).1 → a ≠ b.1 + headerSize * unit := by
    intro a apart
    rcases apart with low | high
    · have := low.lt
      omega
    · have := high.2
      omega
  refine Or.inr ⟨cycle, arena.congr (fun a member => ?_) (fun u member => ?_), named⟩
  · exact Function.update_of_ne (other a (arena.apart a member _ block)) ..
  · have symmetric : Std.Symm fun u v : Nat × Nat => Apart s.heap.mem u.1 v.1 :=
      ⟨fun _ _ apart => apart.symm⟩
    refine Function.update_of_ne ?_ ..
    by_cases same : u = blockOf b
    · rw [same]
      exact Nat.ne_of_lt inner.1
    · exact other u.1 (arena.disjoint.forall member block same)

theorem Session.Sound.step (sound : s.Sound lay) (call : Call)
    (small : ∀ n, call = .malloc n → n.toNat ≤ 2 ^ 31 - 32) :
    ∃ t, t.Sound lay ∧ ∃ need, ∀ fuel, need ≤ fuel → s.step lay.base fuel call = some t := by
  cases call with
  | malloc nbytes =>
    obtain ⟨r, h, after, need, ran⟩ := sound.malloc (small nbytes rfl)
    refine ⟨_, after, need, fun fuel enough => ?_⟩
    rw [Session.step, ran fuel enough]
    rfl
  | free ap =>
    by_cases mine : ap ∈ s.live.map Prod.fst
    · obtain ⟨h, after, need, ran⟩ := sound.free mine
      refine ⟨_, after, need, fun fuel enough => ?_⟩
      rw [Session.step, if_pos mine, ran fuel enough]
      rfl
    · exact ⟨s, sound, 0, fun fuel _ => by rw [Session.step, if_neg mine]⟩
  | store ap unit value =>
    by_cases mine : ∃ b ∈ s.live, b.1 = ap ∧ headerSize * unit < b.2
    · obtain ⟨b, member, rfl, inside⟩ := mine
      refine ⟨_, sound.store member inside value, 0, fun fuel _ => ?_⟩
      rw [Session.step, if_pos ⟨b, member, rfl, inside⟩]
    · exact ⟨s, sound, 0, fun fuel _ => by rw [Session.step, if_neg mine]⟩

theorem Session.Sound.run (calls : List Call)
    (small : ∀ n, .malloc n ∈ calls → n.toNat ≤ 2 ^ 31 - 32) : ∀ {s : Session}, s.Sound lay →
    ∃ t, t.Sound lay ∧ ∃ need, ∀ fuel, need ≤ fuel →
      calls.foldlM (fun s call => s.step lay.base fuel call) s = some t := by
  induction calls with
  | nil => exact fun {s} sound => ⟨s, sound, 0, fun _ _ => rfl⟩
  | cons call calls ih =>
    intro s sound
    obtain ⟨t, middle, need, ran⟩ := sound.step call fun n same =>
      small n (same ▸ List.mem_cons_self ..)
    obtain ⟨u, last, later, ends⟩ := ih (fun n member => small n (List.mem_cons_of_mem _ member))
      middle
    refine ⟨u, last, need + later, fun fuel enough => ?_⟩
    rw [List.foldlM_cons, ran fuel (by omega)]
    exact ends fuel (by omega)

theorem Session.Sound.safe (sound : s.Sound lay) : s.Safe := by
  rcases sound with ⟨null, -, none⟩ | ⟨cycle, arena, named⟩
  · exact ⟨by simp [none], by simp [none], [], Or.inl ⟨null, rfl⟩, by simp⟩
  have held : ∀ b ∈ s.live, ends s.heap.mem (blockOf b).1 =
      b.1 - headerSize + headerSize * unitsFor b.2 ∧ lay.start ≤ b.1 - headerSize ∧
      ends s.heap.mem (blockOf b).1 ≤ s.heap.brk := fun b member => by
    obtain ⟨size, above, below⟩ := arena.held _ (List.mem_map_of_mem member)
    exact ⟨by rw [ends, size]; rfl, above, below.2⟩
  refine ⟨fun b member x low high => ?_, ?_, cycle, Or.inr ⟨arena.freep, ?_, arena.order⟩,
    fun a free b member => ?_⟩
  · obtain ⟨extent, above, below⟩ := held b member
    have room := le_unitsFor b.2
    exact arena.covered x (by omega) (by omega)
  · refine (List.pairwise_map.mp arena.disjoint).imp_of_mem fun {b c} mine yours apart => ?_
    obtain ⟨extent, -, -⟩ := held b mine
    obtain ⟨extent', -, -⟩ := held c yours
    have room := le_unitsFor b.2
    have room' := le_unitsFor c.2
    rcases apart with below | below
    · have reach : _ ≤ c.1 - headerSize := below.2
      omega
    · have reach : _ ≤ b.1 - headerSize := below.2
      omega
  · have head : cycle.headD 0 = lay.base := by
      obtain ⟨rest, rfl⟩ := List.head?_eq_some_iff.mp arena.first
      rfl
    rw [head]
    exact arena.nodes
  · obtain ⟨extent, -, -⟩ := held b member
    have room := le_unitsFor b.2
    have above := named b member
    rcases arena.apart a free _ (List.mem_map_of_mem member) with below | below
    · have reach : a + headerSize ≤ b.1 - headerSize := below.1
      exact Or.inl (by omega)
    · exact Or.inr (Nat.le_trans (by omega) below.2)

end Sessions

/-- Whatever a program allocates and frees, every call ends, its blocks lie in memory that was
obtained and stay apart, and the free blocks form one ring in order. -/
theorem malloc_blocks_obtained (lay : Layout) (calls : List Call)
    (small : ∀ n, .malloc n ∈ calls → n.toNat ≤ 2 ^ 31 - 32) :
    ∃ s need, (∀ fuel, need ≤ fuel → lay.run fuel calls = some s) ∧ s.Safe := by
  have start : lay.initial.Sound lay := Or.inl ⟨rfl, rfl, rfl⟩
  obtain ⟨s, sound, need, ran⟩ := Session.Sound.run calls small start
  exact ⟨s, need, ran, sound.safe⟩

def smallLayout : Layout := ⟨0x1000, 0x4000, by decide, by decide, by decide⟩

/-- Two blocks of which the first is freed, and a third one of no bytes. -/
theorem malloc_blocks_small :
    (∀ n, .malloc n ∈ [Call.malloc 100, .malloc 20, .free 81808, .malloc 0] →
      n.toNat ≤ 2 ^ 31 - 32) ∧
    ∃ s need, (∀ fuel, need ≤ fuel →
      smallLayout.run fuel [.malloc 100, .malloc 20, .free 81808, .malloc 0] = some s) ∧ s.Safe := by
  have small : ∀ n, .malloc n ∈ [Call.malloc 100, .malloc 20, .free 81808, .malloc 0] →
      n.toNat ≤ 2 ^ 31 - 32 := by
    intro n member
    simp only [List.mem_cons, Call.malloc.injEq, reduceCtorEq, List.not_mem_nil, or_false,
      false_or] at member
    rcases member with rfl | rfl | rfl <;> decide
  exact ⟨small, malloc_blocks_obtained smallLayout _ small⟩

/-- A request for all but one of the numbers of bytes: sixteen bytes are obtained for it. -/
theorem malloc_large_not_obtained :
    ¬ ∃ s need, (∀ fuel, need ≤ fuel → smallLayout.run fuel [.malloc 0xFFFFFFFF] = some s) ∧
      s.Safe := by
  rintro ⟨s, need, ran, safe⟩
  have live : (smallLayout.run (need + 4) [.malloc 0xFFFFFFFF]).map (fun s =>
      (s.live, s.heap.obtained)) = some ([(0x4010, 0xFFFFFFFF)], [(0x4000, 16)]) := by rfl
  rw [ran (need + 4) (by omega)] at live
  simp only [Option.map_some, Option.some.injEq, Prod.mk.injEq] at live
  obtain ⟨r, member, low, high⟩ := safe.obtained (0x4010, 0xFFFFFFFF) (by simp [live.1]) 0x4010
    (by omega) (by omega)
  rw [live.2] at member
  obtain rfl := List.mem_singleton.mp member
  exact absurd high (by decide)

end Xv6.Umalloc
