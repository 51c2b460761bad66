import Mathlib.Data.List.Perm.Basic
import Xv6.Programs.Umalloc

/-! The ring of free blocks and the blocks in use: what each operation of the allocator keeps. -/

namespace Xv6.Umalloc

open Linked
open Function (update update_self update_of_ne)

def ends (mem : Nat → Header) (a : Nat) : Nat := a + headerSize * (mem a).size

def Below (mem : Nat → Header) (a b : Nat) : Prop := a + headerSize ≤ b ∧ ends mem a ≤ b

def Before (mem : Nat → Header) (a b : Nat) : Prop := a + headerSize ≤ b ∧ ends mem a < b

def Apart (mem : Nat → Header) (a b : Nat) : Prop := Below mem a b ∨ Below mem b a

section Blocks

variable {mem mem' : Nat → Header} {a b c x z : Nat} {list : List Nat}

theorem Below.lt (below : Below mem a b) : a < b := by
  simp only [Below, headerSize] at below
  omega

theorem Before.lt (before : Before mem a b) : a < b := by
  simp only [Before, headerSize] at before
  omega

theorem Before.below (before : Before mem a b) : Below mem a b :=
  ⟨before.1, Nat.le_of_lt before.2⟩

theorem Before.trans_le (before : Before mem a b) (more : b ≤ c) : Before mem a c :=
  ⟨Nat.le_trans before.1 more, Nat.lt_of_lt_of_le before.2 more⟩

theorem Below.mono (below : Below mem a b) (less : (mem' a).size ≤ (mem a).size) :
    Below mem' a b := by
  have smaller : ends mem' a ≤ ends mem a := Nat.add_le_add_left (Nat.mul_le_mul_left _ less) _
  exact ⟨below.1, Nat.le_trans smaller below.2⟩

theorem Before.mono (before : Before mem a b) (less : (mem' a).size ≤ (mem a).size) :
    Before mem' a b := by
  have smaller : ends mem' a ≤ ends mem a := Nat.add_le_add_left (Nat.mul_le_mul_left _ less) _
  exact ⟨before.1, Nat.lt_of_le_of_lt smaller before.2⟩

theorem Apart.mono (apart : Apart mem a b) (less : (mem' a).size ≤ (mem a).size)
    (too : (mem' b).size ≤ (mem b).size) : Apart mem' a b :=
  apart.imp (fun below => below.mono less) fun below => below.mono too

theorem Below.congr (below : Below mem a b) (same : mem' a = mem a) : Below mem' a b :=
  below.mono (by rw [same])

theorem Before.congr (before : Before mem a b) (same : mem' a = mem a) : Before mem' a b :=
  before.mono (by rw [same])

theorem Apart.congr (apart : Apart mem a b) (same : mem' a = mem a) (too : mem' b = mem b) :
    Apart mem' a b :=
  apart.mono (by rw [same]) (by rw [too])

theorem Apart.symm (apart : Apart mem a b) : Apart mem b a := Or.symm apart

theorem Apart.ne (apart : Apart mem a b) : a ≠ b := by
  rcases apart with below | below
  · exact Nat.ne_of_lt below.lt
  · exact (Nat.ne_of_lt below.lt).symm

theorem Apart.below (apart : Apart mem a b) (less : a < b) : Below mem a b := by
  rcases apart with below | below
  · exact below
  · exact absurd below.lt (Nat.lt_asymm less)

theorem order_congr (order : list.Pairwise (Before mem)) (same : ∀ a ∈ list, mem' a = mem a) :
    list.Pairwise (Before mem') :=
  order.imp_of_mem fun mine _ before => before.congr (same _ mine)

structure Joined (mem mem' : Nat → Header) (x z : Nat) (list rest : List Nat) : Prop where
  frame : ∀ a, a ≠ x → mem' a = mem a
  nodes : Nodes (fun p => (mem' p).ptr) (x :: rest) z
  order : (x :: rest).Pairwise (Before mem')
  subset : ∀ a ∈ rest, a ∈ list
  size : (mem' x).size = (mem x).size ∨ ends mem x ∈ list
  /-- Nothing is taken that did not belong to one of the blocks. -/
  covers : ∀ b, (∀ a ∈ x :: list, Apart mem a b) → Apart mem' x b
  limit : ∀ top, (∀ a ∈ x :: list, ends mem a ≤ top) → ends mem' x ≤ top

theorem joined_link (nodes : Nodes (fun p => (mem p).ptr) list z)
    (order : list.Pairwise (Before mem)) (below : ∀ a ∈ list, Below mem x a)
    (apart : ends mem x ≠ list.headD z) :
    Joined mem (update mem x { mem x with ptr := list.headD z }) x z list list := by
  have frame : ∀ a, a ≠ x → update mem x { mem x with ptr := list.headD z } a = mem a :=
    fun a other => update_of_ne other ..
  have later : ∀ a ∈ list, a ≠ x := fun a member => (Nat.ne_of_lt (below a member).lt).symm
  have extent : ends (update mem x { mem x with ptr := list.headD z }) x = ends mem x := by
    simp [ends]
  refine ⟨frame, ⟨by simp, nodes.congr fun a member => by rw [frame a (later a member)]⟩,
    List.pairwise_cons.mpr ⟨fun a member => ?_, order_congr order fun a member =>
      frame a (later a member)⟩, fun _ member => member, Or.inl (by simp), fun b others => ?_,
    fun top limits => ?_⟩
  · -- The first block is not reached, and the others start behind it.
    refine ⟨(below a member).1, extent ▸ Nat.lt_of_le_of_ne (below a member).2 ?_⟩
    cases list with
    | nil => simp at member
    | cons y ys =>
      rcases List.mem_cons.mp member with rfl | late
      · exact apart
      · have next := (below y (List.mem_cons_self ..)).2
        have behind := ((List.pairwise_cons.mp order).1 a late).lt
        omega
  · have old := others x (List.mem_cons_self ..)
    have same : update mem x { mem x with ptr := list.headD z } b = mem b :=
      frame b old.ne.symm
    rcases old with low | high
    · exact Or.inl ⟨low.1, extent ▸ low.2⟩
    · exact Or.inr (high.congr same)
  · exact extent ▸ limits x (List.mem_cons_self ..)

theorem joined_merge {y : Nat} (nodes : Nodes (fun p => (mem p).ptr) (y :: list) z)
    (order : (y :: list).Pairwise (Before mem)) (below : ∀ a ∈ y :: list, Below mem x a)
    (meets : ends mem x = y) :
    Joined mem (update mem x ⟨(mem y).ptr, u32 ((mem x).size + (mem y).size)⟩) x z
      (y :: list) list := by
  generalize made : update mem x _ = mem'
  have frame : ∀ a, a ≠ x → mem' a = mem a := fun a other => by
    rw [← made, update_of_ne other]
  have here : mem' x = ⟨(mem y).ptr, u32 ((mem x).size + (mem y).size)⟩ := by
    rw [← made, update_self]
  have later : ∀ a ∈ y :: list, a ≠ x := fun a member => (Nat.ne_of_lt (below a member).lt).symm
  obtain ⟨behind, others⟩ := List.pairwise_cons.mp order
  -- The sum may wrap around, and then only part of the two blocks is recorded.
  have extent : ends mem' x ≤ ends mem y := by
    have wraps : u32 ((mem x).size + (mem y).size) ≤ (mem x).size + (mem y).size := Nat.mod_le ..
    simp only [ends, here, headerSize] at *
    omega
  refine ⟨frame, ⟨(congrArg Header.ptr here).trans nodes.1, nodes.2.congr fun a member => by
      rw [frame a (later a (List.mem_cons_of_mem _ member))]⟩,
    List.pairwise_cons.mpr ⟨fun a member => ?_, order_congr others fun a member =>
      frame a (later a (List.mem_cons_of_mem _ member))⟩,
    fun _ member => List.mem_cons_of_mem _ member, Or.inr (meets ▸ List.mem_cons_self ..),
    fun b apart => ?_, fun top limits => ?_⟩
  · have reach := behind a member
    exact ⟨(below a (List.mem_cons_of_mem _ member)).1, Nat.lt_of_le_of_lt extent reach.2⟩
  · have mine := apart x (List.mem_cons_self ..)
    have theirs := apart y (List.mem_cons_of_mem _ (List.mem_cons_self ..))
    have same := frame b mine.ne.symm
    -- What lies behind the first block starts where the second one does, so it lies behind both.
    rcases mine with low | high
    · have both : Below mem y b := by
        rcases theirs with below | above
        · exact below
        · have := above.lt
          have := low.2
          omega
      exact Or.inl ⟨low.1, Nat.le_trans extent both.2⟩
    · exact Or.inr (high.congr same)
  · exact Nat.le_trans extent (limits y (List.mem_cons_of_mem _ (List.mem_cons_self ..)))

theorem exists_joined (nodes : Nodes (fun p => (mem p).ptr) list z)
    (order : list.Pairwise (Before mem)) (below : ∀ a ∈ list, Below mem x a)
    (last : list = [] → z < x) :
    ∃ rest, Joined mem (join mem x (list.headD z)) x z list rest := by
  by_cases meets : x + headerSize * (mem x).size = list.headD z
  · rw [join, if_pos meets]
    cases list with
    | nil =>
      have before := last rfl
      have same : x + headerSize * (mem x).size = z := meets
      omega
    | cons y ys => exact ⟨ys, joined_merge nodes order below meets⟩
  · rw [join, if_neg meets]
    exact ⟨list, joined_link nodes order below meets⟩

end Blocks

structure Arena (lay : Layout) (h : Heap) (cycle : List Nat) (used : List (Nat × Nat)) : Prop where
  first : cycle.head? = some lay.base
  nodes : Nodes (fun p => (h.mem p).ptr) cycle lay.base
  freep : h.freep ∈ cycle
  order : cycle.Pairwise (Before h.mem)
  zero : (h.mem lay.base).size = 0
  low : ∀ a ∈ cycle, a = lay.base ∨ lay.start ≤ a
  top : ∀ a ∈ cycle, Below h.mem a h.brk
  held : ∀ u ∈ used, (h.mem u.1).size = u.2 ∧ lay.start ≤ u.1 ∧ Below h.mem u.1 h.brk
  apart : ∀ a ∈ cycle, ∀ u ∈ used, Apart h.mem a u.1
  disjoint : used.Pairwise fun u v => Apart h.mem u.1 v.1
  started : lay.start ≤ h.brk
  within : h.brk ≤ trapframeVa
  /-- Everything above the program was obtained from the kernel. -/
  covered : ∀ x, lay.start ≤ x → x < h.brk → ∃ r ∈ h.obtained, r.1 ≤ x ∧ x < r.1 + r.2

section Freeing

variable {lay : Layout} {h : Heap} {cycle front back : List Nat} {used used' : List (Nat × Nat)}
  {bp p n : Nat}

theorem Arena.perm (arena : Arena lay h cycle used) (same : used.Perm used') :
    Arena lay h cycle used' :=
  { arena with
    held := fun u member => arena.held u (same.mem_iff.mpr member)
    apart := fun a mine u member => arena.apart a mine u (same.mem_iff.mpr member)
    disjoint := (same.pairwise_iff fun apart => apart.symm).mp arena.disjoint }

theorem Arena.congr (arena : Arena lay h cycle used) {mem : Nat → Header}
    (same : ∀ a ∈ cycle, mem a = h.mem a) (too : ∀ u ∈ used, mem u.1 = h.mem u.1) :
    Arena lay { h with mem } cycle used :=
  { arena with
    nodes := arena.nodes.congr fun a member => congrArg Header.ptr (same a member)
    order := order_congr arena.order same
    zero := (congrArg Header.size (same _ (List.mem_of_mem_head? arena.first))).trans arena.zero
    top := fun a member => (arena.top a member).congr (same a member)
    held := fun u member => by
      obtain ⟨size, above, below⟩ := arena.held u member
      exact ⟨(congrArg Header.size (too u member)).trans size, above, below.congr (too u member)⟩
    apart := fun a mine u member => (arena.apart a mine u member).congr (same a mine) (too u member)
    disjoint := arena.disjoint.imp_of_mem fun mine yours apart =>
      apart.congr (too _ mine) (too _ yours) }

theorem exists_belongs {mem : Nat → Header} {z : Nat} {list : List Nat} : ∀ {a : Nat},
    Nodes (fun p => (mem p).ptr) (a :: list) z → (a :: list).Pairwise (Before mem) → z ≤ a →
    a < bp → bp ∉ list → ∃ p ∈ a :: list, belongs mem bp p = true := by
  induction list with
  | nil =>
    intro a nodes order small less fresh
    have last : (mem a).ptr = z := nodes.1
    exact ⟨a, List.mem_cons_self .., by simp [belongs, last, small, less]⟩
  | cons b list ih =>
    intro a nodes order small less fresh
    have next : (mem a).ptr = b := nodes.1
    obtain ⟨behind, others⟩ := List.pairwise_cons.mp order
    have ordered := (behind b (List.mem_cons_self ..)).lt
    by_cases here : bp < b
    · exact ⟨a, List.mem_cons_self .., by simp [belongs, next, less, here]⟩
    · have other : b ≠ bp := fun same => fresh (same ▸ List.mem_cons_self ..)
      obtain ⟨p, member, found⟩ := ih nodes.2 others (by omega) (by omega)
        fun inside => fresh (List.mem_cons_of_mem _ inside)
      exact ⟨p, List.mem_cons_of_mem _ member, found⟩

theorem Arena.base_le (arena : Arena lay h cycle used) {a : Nat} (member : a ∈ cycle) :
    lay.base ≤ a := by
  have below := lay.base_below
  rcases arena.low a member with same | more
  · exact Nat.le_of_eq same.symm
  · omega

theorem Arena.freep_ne_zero (arena : Arena lay h cycle used) : h.freep ≠ 0 := by
  have least := arena.base_le arena.freep
  have positive := lay.base_pos
  omega

theorem Arena.exists_spot (arena : Arena lay h cycle ((bp, n) :: used)) :
    ∃ p ∈ cycle, belongs h.mem bp p = true ∧ ∃ need, ∀ fuel, need ≤ fuel →
      Linked.walk (belongs h.mem bp) (fun p => (h.mem p).ptr) fuel h.freep = some p := by
  have start := (arena.held (bp, n) (List.mem_cons_self ..)).2.1
  have below := lay.base_below
  have fresh : bp ∉ cycle := fun inside =>
    (arena.apart bp inside (bp, n) (List.mem_cons_self ..)).ne rfl
  obtain ⟨target, member, good⟩ : ∃ p ∈ cycle, belongs h.mem bp p = true := by
    obtain ⟨others, rfl⟩ := List.head?_eq_some_iff.mp arena.first
    exact exists_belongs arena.nodes arena.order (Nat.le_refl _)
      (by simp only [headerSize] at below; omega) fun inside =>
        fresh (List.mem_cons_of_mem _ inside)
  obtain ⟨path, leads, inside⟩ := arena.nodes.between arena.first arena.freep member
  obtain ⟨p, passed, found, ran⟩ := walk_ends leads good
  refine ⟨p, ?_, found, _, ran⟩
  simp only [List.mem_cons, List.mem_append, List.not_mem_nil, or_false] at passed
  rcases passed with rfl | mid | rfl
  · exact arena.freep
  · exact inside p mid
  · exact member

theorem Arena.parts (arena : Arena lay h (front ++ p :: back) ((bp, n) :: used))
    (spot : belongs h.mem bp p = true) : p < bp ∧ ∀ a ∈ back, bp < a := by
  have start := (arena.held (bp, n) (List.mem_cons_self ..)).2.1
  have below := lay.base_below
  obtain ⟨next, -⟩ := (nodes_append.mp arena.nodes).2
  have behind := (List.pairwise_cons.mp (List.pairwise_append.mp arena.order).2.1)
  simp only [belongs, Bool.or_eq_true, decide_eq_true_eq] at spot
  cases back with
  | nil =>
    have last : (h.mem p).ptr = lay.base := next
    exact ⟨by omega, by simp⟩
  | cons b back =>
    have follows : (h.mem p).ptr = b := next
    have ordered := (behind.1 b (List.mem_cons_self ..)).lt
    refine ⟨by omega, fun a member => ?_⟩
    rcases List.mem_cons.mp member with rfl | late
    · omega
    · have := ((List.pairwise_cons.mp behind.2).1 a late).lt
      omega

theorem Arena.insert (arena : Arena lay h (front ++ p :: back) ((bp, n) :: used))
    (spot : belongs h.mem bp p = true) :
    ∃ rest, Arena lay { h with mem := join (join h.mem bp (h.mem p).ptr) p bp, freep := p }
      (front ++ p :: rest) used := by
  obtain ⟨lower, upper⟩ := arena.parts spot
  obtain ⟨-, start, high⟩ := arena.held (bp, n) (List.mem_cons_self ..)
  obtain ⟨fresh, disjoint⟩ := List.pairwise_cons.mp arena.disjoint
  obtain ⟨lead, next, trail⟩ := nodes_append.mp arena.nodes
  obtain ⟨early, late, across⟩ := List.pairwise_append.mp arena.order
  obtain ⟨behind, ordered⟩ := List.pairwise_cons.mp late
  have mine : ∀ a ∈ front ++ p :: back, Apart h.mem a bp := fun a member =>
    arena.apart a member (bp, n) (List.mem_cons_self ..)
  have members : ∀ a ∈ back, a ∈ front ++ p :: back := fun a member => by simp [member]
  have here : p ∈ front ++ p :: back := by simp
  have baseLow := lay.base_below
  -- First the block is joined to what lies behind it, then the block before it to the result.
  have reach : (h.mem p).ptr = back.headD lay.base := next
  rw [reach]
  obtain ⟨middle, first⟩ := exists_joined trail ordered
    (fun a member => (mine a (members a member)).symm.below (upper a member))
    fun _ => show lay.base < bp by simp only [headerSize] at baseLow; omega
  generalize join h.mem bp (back.headD lay.base) = mem at first
  have keptP : mem p = h.mem p := first.frame p (Nat.ne_of_lt lower)
  obtain ⟨rest, second⟩ := exists_joined (x := p) first.nodes first.order
    (fun a member => by
      rcases List.mem_cons.mp member with rfl | inside
      · exact ((mine p here).below lower).congr keptP
      · exact (behind a (first.subset a inside)).below.congr keptP)
    fun empty => absurd empty (List.cons_ne_nil _ _)
  change Joined mem (join mem p bp) p lay.base (bp :: middle) rest at second
  generalize join mem p bp = mem' at second
  have kept : ∀ a, a ≠ p → a ≠ bp → mem' a = h.mem a := fun a notP notBp =>
    (second.frame a notP).trans (first.frame a notBp)
  have keptFront : ∀ a ∈ front, mem' a = h.mem a := fun a member =>
    kept a (Nat.ne_of_lt (across a member p (List.mem_cons_self ..)).lt)
      (mine a (List.mem_append_left _ member)).ne
  have cases : ∀ a ∈ rest, a = bp ∨ a ∈ back := fun a member => by
    rcases List.mem_cons.mp (second.subset a member) with same | inside
    · exact Or.inl same
    · exact Or.inr (first.subset a inside)
  have keptRest : ∀ a ∈ rest, mem' a = mem a := fun a member =>
    second.frame a (Nat.ne_of_lt ((List.pairwise_cons.mp second.order).1 a member).lt).symm
  have keptBack : ∀ a ∈ back, mem a = h.mem a := fun a member =>
    first.frame a (mine a (members a member)).ne
  have keptUsed : ∀ u ∈ used, mem' u.1 = h.mem u.1 := fun u member =>
    kept u.1 (arena.apart p here u (List.mem_cons_of_mem _ member)).ne.symm (fresh u member).ne.symm
  -- No block ends above the process.
  have limits : ∀ a ∈ bp :: middle, ends mem a ≤ h.brk := fun a member => by
    rcases List.mem_cons.mp member with rfl | inside
    · exact first.limit h.brk fun a member => by
        rcases List.mem_cons.mp member with rfl | inside
        · exact high.2
        · exact (arena.top a (members a inside)).2
    · have old := first.subset a inside
      exact ((arena.top a (members a old)).congr (keptBack a old)).2
  -- No block in use is taken.
  have clear : ∀ u ∈ used, ∀ a ∈ bp :: middle, Apart mem a u.1 := fun u member a inside => by
    have same : mem u.1 = h.mem u.1 := first.frame u.1 (fresh u member).ne.symm
    have more := List.mem_cons_of_mem (bp, n) member
    rcases List.mem_cons.mp inside with rfl | old
    · exact first.covers u.1 fun a member => by
        rcases List.mem_cons.mp member with rfl | inside
        · exact fresh u ‹_›
        · exact arena.apart a (members a inside) u more
    · have old := first.subset a old
      exact (arena.apart a (members a old) u more).congr (keptBack a old) same
  refine ⟨rest, ?_⟩
  refine { first := ?_, nodes := ?_, freep := by simp, order := ?_, zero := ?_, low := ?_,
           top := ?_, held := ?_, apart := ?_, disjoint := ?_, started := arena.started,
           within := arena.within, covered := arena.covered }
  · have head := arena.first
    cases front with
    | nil => exact head
    | cons a front => exact head
  · exact nodes_append.mpr ⟨lead.congr fun a member => congrArg Header.ptr (keptFront a member),
      second.nodes⟩
  · refine List.pairwise_append.mpr ⟨order_congr early keptFront, second.order,
      fun a member b inside => ?_⟩
    have before := across a member p (List.mem_cons_self ..)
    refine Before.congr ?_ (keptFront a member)
    rcases List.mem_cons.mp inside with rfl | later
    · exact before
    · rcases cases b later with rfl | old
      · exact before.trans_le (Nat.le_of_lt lower)
      · exact across a member b (List.mem_cons_of_mem _ old)
  · -- The static header does not reach the block, so it does not take it in.
    by_cases same : lay.base = p
    · have size : (mem p).size = 0 := by rw [keptP, ← same, arena.zero]
      rw [same]
      rcases second.size with unchanged | reached
      · exact unchanged.trans size
      · rw [ends, size, Nat.mul_zero, Nat.add_zero] at reached
        rcases List.mem_cons.mp reached with equal | inside
        · exact absurd equal (Nat.ne_of_lt lower)
        · exact absurd (behind p (first.subset p inside)).lt (Nat.lt_irrefl _)
    · exact (congrArg Header.size (kept lay.base same
        (by simp only [headerSize] at baseLow; omega))).trans arena.zero
  · intro a member
    rcases List.mem_append.mp member with old | new
    · exact arena.low a (List.mem_append_left _ old)
    · rcases List.mem_cons.mp new with rfl | later
      · exact arena.low a here
      · rcases cases a later with rfl | old
        · exact Or.inr start
        · exact arena.low a (members a old)
  · intro a member
    rcases List.mem_append.mp member with old | new
    · exact (arena.top a (List.mem_append_left _ old)).congr (keptFront a old)
    · rcases List.mem_cons.mp new with rfl | later
      · refine ⟨(arena.top a here).1, second.limit h.brk fun c inside => ?_⟩
        rcases List.mem_cons.mp inside with rfl | other
        · exact ((arena.top c here).congr keptP).2
        · exact limits c other
      · refine Below.congr ⟨?_, limits a (second.subset a later)⟩ (keptRest a later)
        rcases cases a later with rfl | old
        · exact high.1
        · exact (arena.top a (members a old)).1
  · intro u member
    obtain ⟨size, above, below⟩ := arena.held u (List.mem_cons_of_mem _ member)
    exact ⟨(congrArg Header.size (keptUsed u member)).trans size, above,
      below.congr (keptUsed u member)⟩
  · intro a member u inUse
    have more := List.mem_cons_of_mem (bp, n) inUse
    rcases List.mem_append.mp member with old | new
    · exact (arena.apart a (List.mem_append_left _ old) u more).congr (keptFront a old)
        (keptUsed u inUse)
    · have same : mem u.1 = h.mem u.1 := first.frame u.1 (fresh u inUse).ne.symm
      rcases List.mem_cons.mp new with rfl | later
      · refine second.covers u.1 fun c inside => ?_
        rcases List.mem_cons.mp inside with rfl | other
        · exact (arena.apart c here u more).congr keptP same
        · exact clear u inUse c other
      · exact (clear u inUse a (second.subset a later)).congr (keptRest a later)
          ((keptUsed u inUse).trans same.symm)
  · exact disjoint.imp_of_mem fun mine yours apart =>
      apart.congr (keptUsed _ mine) (keptUsed _ yours)

theorem Arena.free (arena : Arena lay h cycle ((bp, n) :: used)) :
    ∃ h' cycle', Arena lay h' cycle' used ∧ h'.brk = h.brk ∧
      ∃ need, ∀ fuel, need ≤ fuel → Umalloc.free fuel (bp + headerSize) h = some h' := by
  obtain ⟨p, member, spot, need, ends⟩ := arena.exists_spot
  obtain ⟨front, back, rfl⟩ := List.append_of_mem member
  obtain ⟨rest, inserted⟩ := arena.insert spot
  refine ⟨_, _, inserted, rfl, need, fun fuel enough => ?_⟩
  simp only [Umalloc.free, Nat.add_sub_cancel, ends fuel enough]
  rfl

end Freeing

section Allocating

variable {lay : Layout} {h : Heap} {cycle front back : List Nat} {used : List (Nat × Nat)}
  {p prevp nunits : Nat}

theorem Arena.cycle_apart (arena : Arena lay h cycle used) {a b : Nat} (mine : a ∈ cycle)
    (yours : b ∈ cycle) (other : a ≠ b) : Apart h.mem a b := by
  have apart : cycle.Pairwise (Apart h.mem) := arena.order.imp fun before => Or.inl before.below
  have symmetric : Std.Symm (Apart h.mem) := ⟨fun _ _ apart => apart.symm⟩
  exact apart.forall mine yours other

theorem Arena.take (arena : Arena lay h (front ++ prevp :: p :: back) used)
    (positive : 0 < (h.mem p).size) :
    Arena lay { h with
        mem := update h.mem prevp { h.mem prevp with ptr := (h.mem p).ptr }
        freep := prevp }
      (front ++ prevp :: back) ((p, (h.mem p).size) :: used) := by
  generalize made : update h.mem prevp _ = mem
  have sizes : ∀ a, (mem a).size = (h.mem a).size := fun a => by
    rw [← made]
    by_cases same : a = prevp
    · rw [same, update_self]
    · rw [update_of_ne same]
  have less : ∀ a, (mem a).size ≤ (h.mem a).size := fun a => Nat.le_of_eq (sizes a)
  have kept : ∀ a, a ≠ prevp → mem a = h.mem a := fun a other => by
    rw [← made, update_of_ne other]
  obtain ⟨lead, skip, leads, trail⟩ := nodes_append.mp arena.nodes
  obtain ⟨early, late, across⟩ := List.pairwise_append.mp arena.order
  obtain ⟨behind, later⟩ := List.pairwise_cons.mp late
  obtain ⟨beyond, rest⟩ := List.pairwise_cons.mp later
  have subset : ∀ a ∈ front ++ prevp :: back, a ∈ front ++ prevp :: p :: back := fun a member => by
    simp only [List.mem_append, List.mem_cons] at member ⊢
    tauto
  have here : p ∈ front ++ prevp :: p :: back := by simp
  have gone : ∀ a ∈ front ++ prevp :: back, a ≠ p := fun a member => by
    rcases List.mem_append.mp member with old | new
    · exact Nat.ne_of_lt (across a old p (by simp)).lt
    · rcases List.mem_cons.mp new with rfl | old
      · exact Nat.ne_of_lt (behind p (List.mem_cons_self ..)).lt
      · exact (Nat.ne_of_lt (beyond a old).lt).symm
  have start : lay.start ≤ p := by
    rcases arena.low p here with same | above
    · rw [same, arena.zero] at positive
      exact absurd positive (Nat.lt_irrefl 0)
    · exact above
  refine { first := ?_, nodes := ?_, freep := by simp, order := ?_,
           zero := (sizes _).trans arena.zero, low := fun a member => arena.low a (subset a member),
           top := fun a member => (arena.top a (subset a member)).mono (less a), held := ?_,
           apart := ?_, disjoint := ?_, started := arena.started, within := arena.within,
           covered := arena.covered }
  · have head := arena.first
    cases front with
    | nil => exact head
    | cons a front => exact head
  · have linked : (mem prevp).ptr = back.headD lay.base := by
      rw [← made, update_self]
      exact leads
    refine nodes_append.mpr ⟨lead.congr fun a member => congrArg Header.ptr (kept a ?_), linked,
      trail.congr fun a member => congrArg Header.ptr (kept a ?_)⟩
    · exact Nat.ne_of_lt (across a member prevp (List.mem_cons_self ..)).lt
    · exact (Nat.ne_of_lt (behind a (List.mem_cons_of_mem _ member)).lt).symm
  · have shorter : (front ++ prevp :: back).Sublist (front ++ prevp :: p :: back) := by simp
    exact (arena.order.sublist shorter).imp fun before => before.mono (less _)
  · intro u member
    rcases List.mem_cons.mp member with rfl | old
    · exact ⟨sizes p, start, (arena.top p here).mono (less p)⟩
    · obtain ⟨size, above, below⟩ := arena.held u old
      exact ⟨(sizes u.1).trans size, above, below.mono (less u.1)⟩
  · intro a member u inUse
    refine Apart.mono ?_ (less a) (less u.1)
    rcases List.mem_cons.mp inUse with rfl | old
    · exact arena.cycle_apart (subset a member) here (gone a member)
    · exact arena.apart a (subset a member) u old
  · refine List.pairwise_cons.mpr ⟨fun u member => (arena.apart p here u member).mono (less p)
      (less u.1), arena.disjoint.imp fun apart => apart.mono (less _) (less _)⟩

theorem Arena.split (arena : Arena lay h cycle used) (here : p ∈ cycle) (before : prevp ∈ cycle)
    (positive : 0 < nunits) (larger : nunits < (h.mem p).size) {q : Nat}
    (tail : q = p + headerSize * ((h.mem p).size - nunits)) {mem : Nat → Header}
    (cut : mem = update h.mem p { h.mem p with size := (h.mem p).size - nunits }) :
    Arena lay { h with mem := update mem q { mem q with size := nunits }, freep := prevp }
      cycle ((q, nunits) :: used) := by
  have inside : p < q ∧ q + headerSize * nunits = ends h.mem p ∧ p + headerSize ≤ q := by
    simp only [headerSize, ends] at *
    omega
  have size : (update mem q { mem q with size := nunits } q).size = nunits := by simp
  have head : (update mem q { mem q with size := nunits } p).size =
      (h.mem p).size - nunits := by
    rw [update_of_ne (Nat.ne_of_lt inside.1), cut, update_self]
  have pointers : ∀ a, (update mem q { mem q with size := nunits } a).ptr =
      (h.mem a).ptr := fun a => by
    subst cut
    simp only [Function.update_apply]
    split_ifs <;> simp_all
  have kept : ∀ a, a ≠ p → a ≠ q → update mem q { mem q with size := nunits } a = h.mem a :=
    fun a notP notQ => by rw [update_of_ne notQ, cut, update_of_ne notP]
  generalize update mem q { mem q with size := nunits } = mem' at *
  -- What does not overlap the whole block overlaps neither of its parts.
  have clear : ∀ b, Apart h.mem b p → mem' b = h.mem b ∧ Apart mem' b q := fun b apart => by
    have other : b ≠ q := by
      rcases apart with low | high
      · have := low.lt
        omega
      · have := high.2
        simp only [headerSize] at *
        omega
    have same := kept b apart.ne other
    refine ⟨same, ?_⟩
    rcases apart with low | high
    · have below := low.congr same
      exact Or.inl ⟨Nat.le_trans below.1 (Nat.le_of_lt inside.1),
        Nat.le_trans below.2 (Nat.le_of_lt inside.1)⟩
    · have above := high.2
      refine Or.inr ⟨?_, ?_⟩
      · simp only [headerSize] at *
        omega
      · rw [ends, size]
        omega
  have ring : ∀ a ∈ cycle, a ≠ p → Apart h.mem a p := fun a member other =>
    arena.cycle_apart member here other
  have less : ∀ a ∈ cycle, (mem' a).size ≤ (h.mem a).size := fun a member => by
    by_cases same : a = p
    · rw [same, head]
      exact Nat.sub_le ..
    · rw [(clear a (ring a member same)).1]
  have keptUsed : ∀ u ∈ used, mem' u.1 = h.mem u.1 := fun u member =>
    (clear u.1 (arena.apart p here u member).symm).1
  have notBase : lay.base ≠ p := fun same => by
    rw [← same, arena.zero] at larger
    exact absurd larger (Nat.not_lt_zero _)
  have start : lay.start ≤ p := (arena.low p here).resolve_left notBase.symm
  refine { first := arena.first, nodes := arena.nodes.congr fun a _ => pointers a, freep := before,
           order := arena.order.imp_of_mem fun mine _ ordered => ordered.mono (less _ mine),
           zero := ?_, low := arena.low,
           top := fun a member => (arena.top a member).mono (less a member), held := ?_,
           apart := ?_, disjoint := ?_, started := arena.started, within := arena.within,
           covered := arena.covered }
  · have smaller := less lay.base (List.mem_of_mem_head? arena.first)
    rw [arena.zero] at smaller
    exact Nat.le_zero.mp smaller
  · intro u member
    rcases List.mem_cons.mp member with rfl | old
    · have top := (arena.top p here).2
      refine ⟨size, Nat.le_trans start (Nat.le_of_lt inside.1), ?_, ?_⟩
      · change q + headerSize ≤ h.brk
        simp only [headerSize] at *
        omega
      · change ends mem' q ≤ h.brk
        rw [ends, size, inside.2.1]
        exact top
    · obtain ⟨units, above, below⟩ := arena.held u old
      exact ⟨(congrArg Header.size (keptUsed u old)).trans units, above,
        below.congr (keptUsed u old)⟩
  · intro a member u inUse
    rcases List.mem_cons.mp inUse with rfl | old
    · by_cases same : a = p
      · subst same
        refine Or.inl ⟨inside.2.2, ?_⟩
        rw [ends, head, ← tail]
      · exact (clear a (ring a member same)).2
    · exact (arena.apart a member u old).mono (less a member)
        (Nat.le_of_eq (congrArg Header.size (keptUsed u old)))
  · refine List.pairwise_cons.mpr ⟨fun u member =>
      (clear u.1 (arena.apart p here u member).symm).2.symm, ?_⟩
    exact arena.disjoint.imp_of_mem fun mine yours apart =>
      apart.congr (keptUsed _ mine) (keptUsed _ yours)

def Allocated (lay : Layout) (used : List (Nat × Nat)) (nunits r : Nat) (h : Heap) : Prop :=
  (r = 0 ∧ ∃ cycle, Arena lay h cycle used) ∨
    ∃ q cycle, r = q + headerSize ∧ Arena lay h cycle ((q, nunits) :: used)

theorem Arena.found (arena : Arena lay h cycle used) (positive : 0 < nunits)
    (before : prevp ∈ cycle) (large : nunits ≤ (h.mem (h.mem prevp).ptr).size) :
    ∃ r h', Allocated lay used nunits r h' ∧ ∃ need, ∀ fuel, need ≤ fuel →
      mallocLoop nunits fuel prevp (h.mem prevp).ptr h = some (r, h') := by
  obtain ⟨front, after, rfl⟩ := List.append_of_mem before
  have next : (h.mem prevp).ptr = after.headD lay.base := (nodes_append.mp arena.nodes).2.1
  -- The static header has no units, so the block is another one.
  cases after with
  | nil =>
    have wrapped : (h.mem prevp).ptr = lay.base := next
    rw [wrapped, arena.zero] at large
    omega
  | cons p back =>
    have follows : (h.mem prevp).ptr = p := next
    rw [follows] at large ⊢
    by_cases exact : (h.mem p).size = nunits
    · refine ⟨_, _, Or.inr ⟨p, _, rfl, exact ▸ arena.take (by omega)⟩, 1, fun fuel enough => ?_⟩
      obtain ⟨fuel, rfl⟩ := Nat.exists_eq_add_of_le' enough
      rw [mallocLoop, if_pos large, if_pos exact]
    · refine ⟨_, _, Or.inr ⟨_, _, rfl, arena.split (p := p) (by simp) before positive (by omega) rfl
        rfl⟩, 1, fun fuel enough => ?_⟩
      obtain ⟨fuel, rfl⟩ := Nat.exists_eq_add_of_le' enough
      rw [mallocLoop, if_pos large, if_neg exact]

end Allocating

end Xv6.Umalloc
