import Mathlib.Data.Finset.Card
import Mathlib.Data.Finset.Range
import Xv6.Names.Inodes

/-! References to inodes as a ledger: every operation says which of them it takes and drops. -/

namespace Xv6

namespace Names

open Prog

def Frees (node node' : Nat → Node) : Prop :=
  ∀ i, node' i = node i ∨
    (node' i).type = none ∧ ((node i).type = none ∨ (node i).nlink = 0)

structure Ledger (s : State) (refs : Multiset Nat) (new : Option Nat) : Prop where
  /-- Each entry counts its references. -/
  count : ∀ e, (s.itable e).ref = refs.count e
  inside : ∀ e ∈ refs, e < ninode
  /-- No two entries are for one inode. -/
  once : ∀ e ∈ refs, ∀ f ∈ refs, (s.itable e).inum = (s.itable f).inum → e = f
  /-- What was read is allocated. -/
  firm : ∀ e ∈ refs, (s.itable e).valid = true → (s.nodeOf e).type ≠ none
  /-- What has no links is kept by a reference only. -/
  kept : ∀ i, new ≠ some i → (s.node i).type ≠ none → (s.node i).nlink = 0 →
    ∃ e ∈ refs, (s.itable e).inum = i ∧ (s.itable e).valid = true

def Settled (s : State) (refs : Multiset Nat) : Prop := ∀ e ∈ refs, (s.nodeOf e).type ≠ none

structure Along (s t : State) (refs : Multiset Nat) : Prop where
  ftable : t.ftable = s.ftable
  task : t.task = s.task
  ninodes : t.ninodes = s.ninodes
  inum : ∀ e ∈ refs, (t.itable e).inum = (s.itable e).inum
  valid : ∀ e ∈ refs, (s.itable e).valid = true → (t.itable e).valid = true

structure Passed (s t : State) (refs : Multiset Nat) : Prop extends Along s t refs where
  frees : Frees s.node t.node
  still : ∀ e ∈ refs, t.nodeOf e = s.nodeOf e

variable {i inum : Nat} {a b : Nat → Node} {node : Node} {post : Unit → State → Prop}

section Basics

variable {s t u : State} {refs : Multiset Nat} {new : Option Nat} {e f : Nat}

@[simp] theorem setSlot_self (s : State) (e : Nat) (slot : Slot) :
    (s.setSlot e slot).itable e = slot := Function.update_self ..

@[simp] theorem setSlot_node (s : State) (e : Nat) (slot : Slot) :
    (s.setSlot e slot).node = s.node := rfl

@[simp] theorem setNode_itable (s : State) (i : Nat) (node : Node) :
    (s.setNode i node).itable = s.itable := rfl

@[simp] theorem setNode_self (s : State) (i : Nat) (node : Node) :
    (s.setNode i node).node i = node := Function.update_self ..

theorem setSlot_of_ne (s : State) (slot : Slot) (other : f ≠ e) :
    (s.setSlot e slot).itable f = s.itable f := Function.update_of_ne other ..

theorem setNode_of_ne (s : State) (node : Node) {j : Nat} (other : j ≠ i) :
    (s.setNode i node).node j = s.node j := Function.update_of_ne other ..

theorem nodeOf_setNode (s : State) (e : Nat) (node : Node) :
    (s.setNode (s.itable e).inum node).nodeOf e = node := setNode_self ..

theorem Frees.refl (node : Nat → Node) : Frees node node := fun _ => .inl rfl

theorem Frees.trans {c : Nat → Node} (first : Frees a b) (second : Frees b c) : Frees a c := by
  intro i
  rcases first i with same | ⟨free, before⟩
  · rw [← same]
    exact second i
  · -- What is free stays free.
    rcases second i with same | ⟨again, -⟩
    · exact .inr ⟨by rw [same]; exact free, before⟩
    · exact .inr ⟨again, before⟩

theorem Frees.eq_of_type (frees : Frees a b) (typed : (b i).type ≠ none) : b i = a i := by
  rcases frees i with same | ⟨free, -⟩
  · exact same
  · exact absurd free typed

theorem Along.refl (s : State) (refs : Multiset Nat) : Along s s refs :=
  ⟨rfl, rfl, rfl, fun _ _ => rfl, fun _ _ valid => valid⟩

theorem Along.trans (first : Along s t refs) (second : Along t u refs) : Along s u refs :=
  ⟨second.ftable.trans first.ftable, second.task.trans first.task,
    second.ninodes.trans first.ninodes,
    fun e mem => (second.inum e mem).trans (first.inum e mem),
    fun e mem valid => second.valid e mem (first.valid e mem valid)⟩

theorem Along.of_cons (along : Along s t (e ::ₘ refs)) : Along s t refs :=
  ⟨along.ftable, along.task, along.ninodes,
    fun f mem => along.inum f (Multiset.mem_cons_of_mem mem),
    fun f mem => along.valid f (Multiset.mem_cons_of_mem mem)⟩

theorem Along.setNode (along : Along s t refs) : Along s (t.setNode i node) refs :=
  ⟨along.ftable, along.task, along.ninodes, along.inum, along.valid⟩

theorem Along.passed (along : Along s t refs) (node : t.node = s.node) : Passed s t refs := by
  refine ⟨along, ?_, fun e mem => ?_⟩
  · rw [node]
    exact .refl _
  · rw [State.nodeOf, State.nodeOf, node, along.inum e mem]

theorem Passed.refl (s : State) (refs : Multiset Nat) : Passed s s refs :=
  (Along.refl s refs).passed rfl

theorem Passed.trans (first : Passed s t refs) (second : Passed t u refs) : Passed s u refs :=
  ⟨first.toAlong.trans second.toAlong, first.frees.trans second.frees,
    fun e mem => (second.still e mem).trans (first.still e mem)⟩

theorem Passed.of_cons (passed : Passed s t (e ::ₘ refs)) : Passed s t refs :=
  ⟨passed.toAlong.of_cons, passed.frees, fun f mem => passed.still f (Multiset.mem_cons_of_mem mem)⟩

theorem Passed.settled (passed : Passed s t refs) (settled : Settled s refs) : Settled t refs := by
  intro e mem
  rw [passed.still e mem]
  exact settled e mem

theorem Settled.cons (settled : Settled s refs) (typed : (s.nodeOf e).type ≠ none) :
    Settled s (e ::ₘ refs) := by
  intro f mem
  rcases Multiset.mem_cons.mp mem with rfl | old
  · exact typed
  · exact settled f old

theorem Ledger.pos (ledger : Ledger s refs new) (mem : e ∈ refs) : 0 < (s.itable e).ref := by
  rw [ledger.count]
  exact Multiset.count_pos.mpr mem

theorem Ledger.setNode (ledger : Ledger s refs new) (mem : e ∈ refs)
    (valid : (s.itable e).valid = true) (typed : node.type ≠ none) :
    Ledger (s.setNode (s.itable e).inum node) refs new := by
  refine ⟨ledger.count, ledger.inside, ledger.once, fun f there locked => ?_,
    fun i other allocated zero => ?_⟩
  · rw [State.nodeOf, setNode_itable]
    by_cases same : (s.itable f).inum = (s.itable e).inum
    · rw [same, setNode_self]
      exact typed
    · rw [setNode_of_ne s node same]
      exact ledger.firm f there locked
  · by_cases same : i = (s.itable e).inum
    · exact ⟨e, mem, same.symm, valid⟩
    · rw [setNode_of_ne s node same] at allocated zero
      exact ledger.kept i other allocated zero

theorem Ledger.close (ledger : Ledger s refs (some i)) (mem : e ∈ refs)
    (inum : (s.itable e).inum = i) (valid : (s.itable e).valid = true) : Ledger s refs none := by
  refine ⟨ledger.count, ledger.inside, ledger.once, ledger.firm, fun j _ typed zero => ?_⟩
  by_cases same : i = j
  · exact ⟨e, mem, inum.trans same, valid⟩
  · exact ledger.kept j (fun eq => same (Option.some.inj eq)) typed zero

theorem Ledger.freed (ledger : Ledger s (e ::ₘ refs) none) (loose : e ∉ refs)
    (zero : (s.nodeOf e).nlink = 0) (dropped : Ledger t refs none) (passed : Passed s t refs) :
    (t.node (s.itable e).inum).type = none := by
  by_contra typed
  -- Otherwise another entry would be for the same inode.
  have same := passed.frees.eq_of_type typed
  obtain ⟨f, mem, inum, -⟩ := dropped.kept _ nofun typed (by rw [same]; exact zero)
  rw [passed.inum f mem] at inum
  have eq := ledger.once f (Multiset.mem_cons_of_mem mem) e (Multiset.mem_cons_self ..) inum
  exact loose (eq ▸ mem)

end Basics

section Operations

variable {s : State} {refs : Multiset Nat} {new : Option Nat} {abort : Stop → Prop} {e : Nat}

theorem Ledger.more (ledger : Ledger s refs new) (slot : Slot) (inside : e < ninode)
    (ref : slot.ref = (s.itable e).ref + 1)
    (same : e ∈ refs → slot.inum = (s.itable e).inum ∧ slot.valid = (s.itable e).valid)
    (only : e ∉ refs → slot.valid = false ∧ ∀ f ∈ refs, (s.itable f).inum ≠ slot.inum) :
    Ledger (s.setSlot e slot) (e ::ₘ refs) new ∧ Passed s (s.setSlot e slot) refs := by
  -- What the entries in use say does not change.
  have old : ∀ f ∈ refs, ((s.setSlot e slot).itable f).inum = (s.itable f).inum ∧
      ((s.setSlot e slot).itable f).valid = (s.itable f).valid := by
    intro f mem
    by_cases here : f = e
    · subst here
      rw [setSlot_self]
      exact same mem
    · rw [setSlot_of_ne s slot here]
      exact ⟨rfl, rfl⟩
  -- Two entries for one inode are the same entry.
  have once : ∀ f ∈ refs, ((s.setSlot e slot).itable f).inum = slot.inum → f = e := by
    intro f mem eq
    rw [(old f mem).1] at eq
    by_cases here : e ∈ refs
    · exact ledger.once f mem e here (eq.trans (same here).1)
    · exact absurd eq ((only here).2 f mem)
  have along : Along s (s.setSlot e slot) refs :=
    ⟨rfl, rfl, rfl, fun f mem => (old f mem).1, fun f mem valid => (old f mem).2.trans valid⟩
  refine ⟨⟨fun f => ?_, fun f mem => ?_, fun f mem g mem' eq => ?_, fun f mem valid => ?_,
    fun i other typed zero => ?_⟩, along.passed rfl⟩
  · by_cases here : f = e
    · subst here
      rw [setSlot_self, ref, ledger.count, Multiset.count_cons_self]
    · rw [setSlot_of_ne s slot here, ledger.count, Multiset.count_cons_of_ne here]
  · rcases Multiset.mem_cons.mp mem with rfl | there
    · exact inside
    · exact ledger.inside f there
  · rcases Multiset.mem_cons.mp mem with rfl | there
    · rcases Multiset.mem_cons.mp mem' with rfl | there'
      · rfl
      · rw [setSlot_self] at eq
        exact (once g there' eq.symm).symm
    · rcases Multiset.mem_cons.mp mem' with rfl | there'
      · rw [setSlot_self] at eq
        exact once f there eq
      · rw [(old f there).1, (old g there').1] at eq
        exact ledger.once f there g there' eq
  · -- A new entry has not been read.
    have there : f ∈ refs := by
      rcases Multiset.mem_cons.mp mem with rfl | there
      · by_contra loose
        rw [setSlot_self, (only loose).1] at valid
        exact Bool.false_ne_true valid
      · exact there
    rw [State.nodeOf, (old f there).1]
    exact ledger.firm f there ((old f there).2.symm.trans valid)
  · obtain ⟨f, mem, inum, valid⟩ := ledger.kept i other typed zero
    exact ⟨f, Multiset.mem_cons_of_mem mem, (old f mem).1.trans inum, (old f mem).2.trans valid⟩

theorem wp_iget {post : Nat → State → Prop} (ledger : Ledger s refs new)
    (failed : ninode ≤ refs.toFinset.card → abort .iget)
    (got : ∀ e t, Ledger t (e ::ₘ refs) new → Passed s t refs → t.node = s.node →
      (t.itable e).inum = inum → post e t) : wp (iget inum) post abort s := by
  simp only [iget, wp_bind, wp_get]
  split
  · -- The inode is in the table.
    rename_i e found
    have here := List.find?_some found
    simp only [Bool.and_eq_true, decide_eq_true_eq] at here
    have mem : e ∈ refs := by
      rw [← Multiset.count_pos, ← ledger.count]
      exact here.1
    obtain ⟨more, passed⟩ := ledger.more { s.itable e with ref := (s.itable e).ref + 1 }
      (ledger.inside e mem) rfl (fun _ => ⟨rfl, rfl⟩) fun loose => absurd mem loose
    simp only [wp_bind, wp_set, wp_pure]
    refine got e _ more passed rfl ?_
    rw [setSlot_self]
    exact here.2
  · rename_i missing
    split
    · rename_i full
      rw [wp_throw]
      refine failed ?_
      have used : Finset.range ninode ⊆ refs.toFinset := by
        intro e inside
        have taken := List.find?_eq_none.mp full e (List.mem_range.mpr (Finset.mem_range.mp inside))
        rw [Multiset.mem_toFinset, ← Multiset.count_pos, ← ledger.count]
        simp only [decide_eq_true_eq] at taken
        omega
      exact (Finset.card_range ninode).symm.trans_le (Finset.card_le_card used)
    · -- An entry that nobody refers to is recycled.
      rename_i e found
      have free := List.find?_some found
      simp only [decide_eq_true_eq] at free
      have loose : e ∉ refs := by
        intro mem
        have := ledger.pos mem
        omega
      have only : ∀ f ∈ refs, (s.itable f).inum ≠ inum := by
        intro f mem eq
        have skipped :=
          List.find?_eq_none.mp missing f (List.mem_range.mpr (ledger.inside f mem))
        simp [ledger.pos mem, eq] at skipped
      obtain ⟨more, passed⟩ := ledger.more ⟨inum, 1, false⟩
        (List.mem_range.mp (List.mem_of_find?_eq_some found)) (by rw [free])
        (fun mem => absurd mem loose) fun _ => ⟨rfl, only⟩
      simp only [wp_bind, wp_set, wp_pure]
      refine got e _ more passed rfl ?_
      rw [setSlot_self]

theorem wp_idup (ledger : Ledger s refs new) (mem : e ∈ refs)
    (got : ∀ t, Ledger t (e ::ₘ refs) new → Passed s t refs → t.node = s.node → post () t) :
    wp (idup e) post abort s := by
  obtain ⟨more, passed⟩ := ledger.more { s.itable e with ref := (s.itable e).ref + 1 }
    (ledger.inside e mem) rfl (fun _ => ⟨rfl, rfl⟩) fun loose => absurd mem loose
  rw [idup, wp_modify]
  exact got _ more passed rfl

theorem wp_ilock (ledger : Ledger s refs new) (mem : e ∈ refs)
    (failed : (s.nodeOf e).type = none → abort .ilock)
    (locked : ∀ t, Ledger t refs new → Passed s t refs → t.node = s.node →
      (t.itable e).valid = true → post () t) : wp (ilock e) post abort s := by
  have pos := ledger.pos mem
  simp only [ilock, wp_bind, wp_get]
  rw [if_neg (by omega)]
  cases valid : (s.itable e).valid with
  | true =>
    simp only [wp_pure, Bool.not_true, Bool.false_eq_true, if_false]
    exact locked s ledger (.refl s refs) rfl valid
  | false =>
    simp only [Bool.not_false, if_true, wp_bind, wp_set]
    split
    · rename_i blank
      simpa only [wp_throw] using failed blank
    · rename_i typed
      rw [wp_pure]
      -- Only the mark of this entry changes.
      have others : ∀ f, f ≠ e → (s.setSlot e { s.itable e with valid := true }).itable f =
          s.itable f := fun f other => setSlot_of_ne s _ other
      have inum : ∀ f, ((s.setSlot e { s.itable e with valid := true }).itable f).inum =
          (s.itable f).inum := by
        intro f
        by_cases here : f = e
        · rw [here, setSlot_self]
        · rw [others f here]
      have along : Along s (s.setSlot e { s.itable e with valid := true }) refs := by
        refine ⟨rfl, rfl, rfl, fun f _ => inum f, fun f _ old => ?_⟩
        by_cases here : f = e
        · rw [here, setSlot_self]
        · rw [others f here]
          exact old
      refine locked _ ⟨fun f => ?_, ledger.inside, fun f there g there' eq => ?_,
        fun f there read => ?_, fun i other allocated zero => ?_⟩ (along.passed rfl) rfl
        (by rw [setSlot_self])
      · by_cases here : f = e
        · rw [here, setSlot_self]
          exact ledger.count e
        · rw [others f here]
          exact ledger.count f
      · rw [inum f, inum g] at eq
        exact ledger.once f there g there' eq
      · rw [State.nodeOf, inum f]
        by_cases here : f = e
        · rw [here]
          exact typed
        · rw [others f here] at read
          exact ledger.firm f there read
      · obtain ⟨f, there, number, old⟩ := ledger.kept i other allocated zero
        exact ⟨f, there, (inum f).trans number, along.valid f there old⟩

theorem wp_iput (ledger : Ledger s (e ::ₘ refs) new)
    (dropped : ∀ t, Ledger t refs new → Passed s t refs → post () t) :
    wp (iput e) post abort s := by
  have count : (s.itable e).ref = refs.count e + 1 := by
    rw [ledger.count, Multiset.count_cons_self]
  have others : ∀ f, f ≠ e → (s.itable f).ref = refs.count f := by
    intro f other
    rw [ledger.count, Multiset.count_cons_of_ne other]
  have more : ∀ f ∈ refs, f ∈ e ::ₘ refs := fun f => Multiset.mem_cons_of_mem
  simp only [iput, wp_bind, wp_get]
  split
  · -- The last reference to an inode without links.
    rename_i last
    have loose : ∀ f ∈ refs, f ≠ e := by
      rintro f mem rfl
      have := Multiset.count_pos.mpr mem
      omega
    have apart : ∀ f ∈ refs, (s.itable f).inum ≠ (s.itable e).inum := fun f mem eq =>
      loose f mem (ledger.once f (more f mem) e (Multiset.mem_cons_self ..) eq)
    rw [wp_set]
    set t := (s.setNode (s.itable e).inum (s.nodeOf e).cleared).setSlot e
      { s.itable e with ref := (s.itable e).ref - 1, valid := false } with ht
    have slot : ∀ f, f ≠ e → t.itable f = s.itable f := fun f other => setSlot_of_ne _ _ other
    have node : ∀ i, i ≠ (s.itable e).inum → t.node i = s.node i := fun i other =>
      setNode_of_ne _ _ other
    have gone : (t.node (s.itable e).inum).type = none := by
      rw [ht, setSlot_node, setNode_self]
      rfl
    have still : ∀ f ∈ refs, t.nodeOf f = s.nodeOf f := by
      intro f mem
      rw [State.nodeOf, slot f (loose f mem)]
      exact node _ (apart f mem)
    refine dropped t ⟨fun f => ?_, fun f mem => ledger.inside f (more f mem),
      fun f mem g mem' eq => ?_, fun f mem valid => ?_, fun i other typed zero => ?_⟩
      ⟨⟨rfl, rfl, rfl, fun f mem => ?_, fun f mem valid => ?_⟩, fun i => ?_, still⟩
    · by_cases here : f = e
      · rw [here, ht, setSlot_self]
        have : refs.count e = 0 := Multiset.count_eq_zero.mpr fun mem => loose e mem rfl
        simp only [count, this]
      · rw [slot f here]
        exact others f here
    · rw [slot f (loose f mem), slot g (loose g mem')] at eq
      exact ledger.once f (more f mem) g (more g mem') eq
    · rw [still f mem]
      rw [slot f (loose f mem)] at valid
      exact ledger.firm f (more f mem) valid
    · have kept : i ≠ (s.itable e).inum := by
        rintro rfl
        exact typed gone
      rw [node i kept] at typed zero
      obtain ⟨f, mem, inum, valid⟩ := ledger.kept i other typed zero
      have there : f ∈ refs := by
        rcases Multiset.mem_cons.mp mem with rfl | there
        · exact absurd inum.symm kept
        · exact there
      rw [← slot f (loose f there)] at inum valid
      exact ⟨f, there, inum, valid⟩
    · rw [slot f (loose f mem)]
    · rw [slot f (loose f mem)]
      exact valid
    · by_cases freed : i = (s.itable e).inum
      · subst freed
        exact .inr ⟨gone, .inr last.2.2⟩
      · exact .inl (node i freed)
  · rename_i stays
    rw [wp_set]
    set t := s.setSlot e { s.itable e with ref := (s.itable e).ref - 1 } with ht
    have slot : ∀ f, (t.itable f).inum = (s.itable f).inum ∧
        (t.itable f).valid = (s.itable f).valid := by
      intro f
      by_cases here : f = e
      · rw [here, ht, setSlot_self]
        exact ⟨rfl, rfl⟩
      · rw [ht, setSlot_of_ne s _ here]
        exact ⟨rfl, rfl⟩
    have along : Along s t refs :=
      ⟨rfl, rfl, rfl, fun f _ => (slot f).1, fun f _ valid => (slot f).2.trans valid⟩
    refine dropped t ⟨fun f => ?_, fun f mem => ledger.inside f (more f mem),
      fun f mem g mem' eq => ?_, fun f mem valid => ?_, fun i other typed zero => ?_⟩
      (along.passed rfl)
    · by_cases here : f = e
      · rw [here, ht, setSlot_self]
        simp only [count, Nat.add_sub_cancel]
      · rw [ht, setSlot_of_ne s _ here]
        exact others f here
    · rw [(slot f).1, (slot g).1] at eq
      exact ledger.once f (more f mem) g (more g mem') eq
    · rw [State.nodeOf, (slot f).1]
      exact ledger.firm f (more f mem) ((slot f).2.symm.trans valid)
    · obtain ⟨f, mem, inum, valid⟩ := ledger.kept i other typed zero
      refine ⟨f, ?_, (slot f).1.trans inum, (slot f).2.trans valid⟩
      rcases Multiset.mem_cons.mp mem with rfl | old
      · -- The reference dropped here was not the last one.
        by_contra loose
        have none : refs.count f = 0 := Multiset.count_eq_zero.mpr loose
        refine stays ⟨by omega, valid, ?_⟩
        rw [State.nodeOf, inum]
        exact zero
      · exact old

theorem wp_ialloc {type : InodeType} {post : Option Nat → State → Prop}
    (ledger : Ledger s refs none) (settled : Settled s refs) (failed : abort .iget)
    (none : post none s)
    (made : ∀ e t i, i ≠ 0 → i < s.ninodes → (s.node i).type = .none →
      Ledger t (e ::ₘ refs) (some i) → Along s t refs → (t.itable e).inum = i → e ∉ refs →
      t.node = Function.update s.node i ⟨some type, 0, 0, []⟩ → post (some e) t) :
    wp (ialloc type) post abort s := by
  simp only [ialloc, wp_bind, wp_get]
  split
  · simpa only [wp_pure] using none
  · rename_i i found
    have free := List.find?_some found
    simp only [Bool.and_eq_true, decide_eq_true_eq] at free
    have apart : ∀ f ∈ refs, (s.itable f).inum ≠ i := by
      rintro f mem rfl
      exact settled f mem free.2
    -- The new inode has no links yet, and only it may be without a reference.
    have fresh : Ledger (s.setNode i ⟨some type, 0, 0, []⟩) refs (some i) := by
      refine ⟨ledger.count, ledger.inside, ledger.once, fun f mem valid => ?_,
        fun j other typed zero => ?_⟩
      · rw [State.nodeOf, setNode_itable, setNode_of_ne s _ (apart f mem)]
        exact ledger.firm f mem valid
      · have old : j ≠ i := fun same => other (congrArg some same.symm)
        rw [setNode_of_ne s _ old] at typed zero
        exact ledger.kept j (by simp) typed zero
    simp only [wp_bind, wp_set]
    refine wp_iget fresh (fun _ => failed) fun e t more passed node inum => ?_
    rw [wp_pure]
    have loose : e ∉ refs := by
      intro mem
      exact apart e mem ((passed.inum e mem).symm.trans inum)
    exact made e t i free.1 (List.mem_range.mp (List.mem_of_find?_eq_some found)) free.2 more
      ((Along.refl s refs).setNode.trans passed.toAlong) inum loose node

end Operations

theorem Node.find_spec {name : List UInt8} {k : Nat} (found : node.find name = some k) :
    ∃ entry ∈ node.entries, entry.inum ≠ 0 ∧ entry.name = name ∧ node.inumAt k = entry.inum := by
  obtain ⟨inside, right, -⟩ := List.findIdx?_eq_some_iff_getElem.mp found
  simp only [Bool.and_eq_true, decide_eq_true_eq] at right
  refine ⟨node.entries[k], List.getElem_mem inside, right.1, right.2, ?_⟩
  rw [Node.inumAt, List.getElem?_eq_getElem inside, Option.map_some, Option.getD_some]

section Directories

variable {s : State} {refs : Multiset Nat} {abort : Stop → Prop} {e : Nat} {name : List UInt8}

theorem wp_dirlookup {post : Option (Nat × Nat) → State → Prop} (ledger : Ledger s refs none)
    (failed : ninode ≤ refs.toFinset.card → abort .iget)
    (plain : (s.nodeOf e).type ≠ some .dir → abort .dirlookup)
    (none : (s.nodeOf e).type = some .dir → (s.nodeOf e).find name = none → post none s)
    (found : ∀ ip k t, (s.nodeOf e).type = some .dir → (s.nodeOf e).find name = some k →
      Ledger t (ip ::ₘ refs) .none → Passed s t refs → t.node = s.node →
      (t.itable ip).inum = (s.nodeOf e).inumAt k → post (some (ip, k)) t) :
    wp (dirlookup e name) post abort s := by
  simp only [dirlookup, wp_bind, wp_get]
  split
  · rename_i other
    simpa only [wp_bind, wp_throw] using plain other
  · rename_i dir
    have dir := not_not.mp dir
    split
    · rename_i missing
      simpa only [wp_pure] using none dir missing
    · rename_i k there
      simp only [wp_bind]
      refine wp_iget ledger failed fun ip t more passed node inum => ?_
      rw [wp_pure]
      exact found ip k t dir there more passed node inum

theorem wp_dirlink_absent {grow : Nat → Bool} {post : Bool → State → Prop}
    (dir : (s.nodeOf e).type = some .dir) (missing : (s.nodeOf e).find name = none)
    (full : post false s)
    (linked : ∀ node, (s.nodeOf e).link name inum (grow (s.itable e).inum) = some node →
      post true (s.setNode (s.itable e).inum node)) :
    wp (dirlink grow e name inum) post abort s := by
  simp only [dirlink, dirlookup, wp_bind, wp_get, dir, missing, ne_eq, not_true_eq_false, if_false,
    wp_pure]
  split
  · simpa only [wp_pure] using full
  · rename_i node place
    simpa only [wp_bind, wp_set, wp_pure] using linked node place

end Directories

end Names

end Xv6
