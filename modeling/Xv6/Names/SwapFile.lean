import Xv6.Names.Refs

/-! Making a swap file: which directory entries and files survive it. -/

namespace Xv6

namespace Names

open Prog

/-- The file system calls work on, with the operations the log waits for. -/
structure Logged where
  state : State
  outstanding : Nat

/-- Work on the file system inside a log operation. -/
def inLog {α : Type} : Op α → Comp Logged Stop α :=
  Prog.focus Logged.state fun l s => { l with state := s }

/-- `begin_op`, when it returns. -/
def beginOp : Comp Logged Stop Unit := modify fun l => { l with outstanding := l.outstanding + 1 }

/-- `end_op`. -/
def endOp : Comp Logged Stop Unit := modify fun l => { l with outstanding := l.outstanding - 1 }

/-- `create_swap_file` with its log operations. -/
def createSwapFile (grow : Nat → Bool) (p : Nat) : Comp Logged Stop Int := do
  let task := (← get).state.task p
  if task.swapfile ≠ none then return 0
  beginOp
  match ← inLog (create grow p (swapName task.pid) .file 0) with
  | none =>
    endOp
    return -1
  | some ip =>
    match ← inLog filealloc with
    | none =>
      beginOp
      inLog (ilock ip)
      inLog (updateNode ip fun node => { node with nlink := 0 })
      inLog (iput ip)
      endOp
      endOp
      return -1
    | some f =>
      inLog (modify fun s => s.setFile f { s.ftable f with kind := .inode, ip := ip })
      inLog (updateTask p fun task => { task with swapfile := some f })
      endOp
      return 0

/-- Every entry of a directory that is in use names an allocated inode. -/
def State.Consistent (s : State) : Prop :=
  ∀ i, (s.node i).type = some .dir → ∀ entry ∈ (s.node i).entries, entry.inum ≠ 0 →
    (s.node entry.inum).type ≠ none

/-- What making a swap file must leave behind. -/
structure Unharmed (s t : State) (p : Nat) (r : Int) : Prop where
  consistent : t.Consistent
  /-- After a failure, a file that had the name is as it was. -/
  intact : r = -1 → ∀ i, s.named p (swapName (s.task p).pid) = some i → t.node i = s.node i

/-- A swap file is not needed, cannot be made at all, or can be opened; or the file that has its
name has no links anyway. -/
def State.SwapSafe (s : State) (grow : Nat → Bool) (p : Nat) : Prop :=
  (s.task p).swapfile ≠ none ∨ (∃ f < nfile, (s.ftable f).ref = 0) ∨
  (∃ t, create grow p (swapName (s.task p).pid) .file 0 s = .ok (none, t)) ∨
  ∃ i, s.named p (swapName (s.task p).pid) = some i ∧ (s.node i).nlink = 0

/-- How the making of an inode ends. -/
inductive Creating (s t : State) (p : Nat) (path : List UInt8) (type : InodeType) (major : Int)
    (refs : Multiset Nat) : Option Nat → Prop where
  | failed (ledger : Ledger t refs none) (passed : Passed s t refs) :
      Creating s t p path type major refs none
  | found (ip : Nat) (ledger : Ledger t (ip ::ₘ refs) none) (passed : Passed s t refs)
      (valid : (t.itable ip).valid = true) (named : s.named p path = some (t.itable ip).inum) :
      Creating s t p path type major refs (some ip)
  | made (ip : Nat) (first mid : Nat → Node) (dp : Nat) (name : List UInt8)
      (ledger : Ledger t (ip ::ₘ refs) none) (settled : Settled t (ip ::ₘ refs))
      (along : Along s t refs) (loose : ip ∉ refs) (valid : (t.itable ip).valid = true)
      (led : s.resolve p path true = some (dp, name)) (before : Frees s.node first)
      (makes : Makes first mid type major dp name (t.itable ip).inum) (after : Frees mid t.node) :
      Creating s t p path type major refs (some ip)

section Log

variable {grow : Nat → Bool} {p : Nat} {abort : Stop → Prop} {l : Logged}

theorem wp_createSwapFile {post : Int → Logged → Prop} :
    wp (createSwapFile grow p) post abort l ↔
      wp (createSwap grow p) (fun r t => post r { l with state := t }) abort l.state := by
  simp only [createSwapFile, createSwap, wp_bind, wp_get]
  split
  · simp only [wp_pure]
  simp only [wp_bind, beginOp, wp_modify, inLog, wp_focus]
  refine wp_congr fun made t => ?_
  cases made with
  | none => simp only [wp_bind, endOp, wp_modify, wp_pure, Nat.add_sub_cancel]
  | some ip =>
    simp only [wp_bind, wp_focus]
    refine wp_congr fun opened u => ?_
    cases opened with
    | none =>
      -- The nested operation ends before the outer one.
      simp only [wp_bind, wp_modify, wp_focus, endOp, wp_pure, Nat.add_sub_cancel]
    | some f =>
      simp only [wp_bind, wp_modify, wp_focus, endOp, wp_pure, Nat.add_sub_cancel]

end Log

variable {name : List UInt8} {dp i ip : Nat} {u : State} {first mid : Nat → Node}

section Keeping

variable {s t : State} {refs : Multiset Nat} {i : Nat}

theorem Passed.keeps (passed : Passed s t refs) (typed : (s.node i).type ≠ none)
    (kept : (s.node i).nlink = 0 → ∃ e ∈ refs, (s.itable e).inum = i) : t.node i = s.node i := by
  rcases passed.frees i with same | ⟨-, free | zero⟩
  · exact same
  · exact absurd free typed
  · obtain ⟨e, mem, rfl⟩ := kept zero
    have still := passed.still e mem
    rwa [State.nodeOf, passed.inum e mem] at still

theorem Passed.keeps_all (passed : Passed s t refs) (ledger : Ledger s refs none)
    (typed : (s.node i).type ≠ none) : t.node i = s.node i := by
  refine passed.keeps typed fun zero => ?_
  obtain ⟨e, mem, inum, -⟩ := ledger.kept i nofun typed zero
  exact ⟨e, mem, inum⟩

theorem Passed.keeps_others {e : Nat} (passed : Passed s t refs)
    (ledger : Ledger s (e ::ₘ refs) none) (other : i ≠ (s.itable e).inum)
    (typed : (s.node i).type ≠ none) : t.node i = s.node i := by
  refine passed.keeps typed fun zero => ?_
  obtain ⟨f, mem, inum, -⟩ := ledger.kept i nofun typed zero
  rcases Multiset.mem_cons.mp mem with rfl | mem
  · exact absurd inum.symm other
  · exact ⟨f, mem, inum⟩

theorem State.Consistent.keep (consistent : s.Consistent) (frees : Frees s.node t.node)
    (keeps : ∀ i, (s.node i).type ≠ none → t.node i = s.node i) : t.Consistent := by
  intro i dir entry mem used
  have same := frees.eq_of_type (by rw [dir]; exact nofun)
  rw [same] at dir mem
  have typed := consistent i dir entry mem used
  rwa [keeps entry.inum typed]

theorem State.Consistent.named {p : Nat} {path : List UInt8} (consistent : s.Consistent)
    (named : s.named p path = some i) : (s.node i).type ≠ none := by
  obtain ⟨⟨dp, name⟩, led, found⟩ := Option.bind_eq_some_iff.mp named
  obtain ⟨k, there, rfl⟩ := Option.map_eq_some_iff.mp found
  obtain ⟨start, -, walked⟩ := Option.bind_eq_some_iff.mp led
  obtain ⟨entry, mem, used, -, inum⟩ := Node.find_spec there
  rw [inum]
  exact consistent dp (walk_parent_dir _ _ walked) entry mem used

theorem Node.link_entries {node node' : Node} {inum : Nat} {grow : Bool}
    (linked : node.link name inum grow = some node') : node'.nlink = node.nlink ∧
      ⟨inum, name⟩ ∈ node'.entries ∧
      ∀ entry ∈ node'.entries, entry = ⟨inum, name⟩ ∨ entry ∈ node.entries := by
  rw [Node.link] at linked
  split at linked
  · rename_i k free
    obtain rfl := Option.some.inj linked
    obtain ⟨inside, -, -⟩ := List.findIdx?_eq_some_iff_getElem.mp free
    exact ⟨rfl, List.mem_set inside _, fun entry mem => (List.mem_or_eq_of_mem_set mem).symm⟩
  · split at linked
    · obtain rfl := Option.some.inj linked
      refine ⟨rfl, by simp, fun entry mem => ?_⟩
      rcases List.mem_append.mp mem with old | new
      · exact .inr old
      · exact .inl (List.mem_singleton.mp new)
    · exact absurd linked (by simp)

end Keeping

section Making

variable {s t : State} {refs : Multiset Nat} {ip dp : Nat} {name : List UInt8}
  {first mid : Nat → Node} {major : Int}

theorem Makes.directory (before : Frees s.node first)
    (makes : Makes first mid .file major dp name i) : i ≠ dp ∧ first dp = s.node dp ∧
      (mid dp).type = some .dir ∧ (mid dp).nlink = (s.node dp).nlink ∧
      ⟨i, name⟩ ∈ (mid dp).entries ∧
      (∀ entry ∈ (mid dp).entries, entry = ⟨i, name⟩ ∨ entry ∈ (s.node dp).entries) ∧
      (mid i).type = some .file ∧ ∀ j, j ≠ i → j ≠ dp → mid j = first j := by
  obtain ⟨g, node, linked, rfl⟩ := makes.made
  have apart : i ≠ dp := by
    rintro rfl
    exact absurd (makes.free.symm.trans makes.dir) nofun
  have same := before.eq_of_type (i := dp) (by rw [makes.dir]; exact nofun)
  obtain ⟨links, mem, others⟩ := Node.link_entries linked
  have grown : node.grown .file = node := if_neg nofun
  rw [same] at links others
  rw [Function.update_self, grown, Function.update_of_ne apart, Function.update_self]
  refine ⟨apart, same, (Node.link_type linked).trans makes.dir, links, mem, others, rfl, ?_⟩
  intro j new old
  rw [Function.update_of_ne old, Function.update_of_ne new]

theorem Makes.persists (ledger : Ledger s refs none) (settled : Settled t (ip ::ₘ refs))
    (along : Along s t refs) (before : Frees s.node first)
    (makes : Makes first mid .file major dp name i) (after : Frees mid t.node) {j : Nat}
    (typed : (s.node j).type ≠ none) : (t.node j).type ≠ none := by
  intro gone
  obtain ⟨-, -, dir, links, -, -, -, others⟩ := makes.directory before
  -- Only an inode without links can have been freed on the way.
  have freed : (mid j).type = none ∨ (mid j).nlink = 0 := by
    rcases after j with same | ⟨-, why⟩
    · exact .inl (same ▸ gone)
    · exact why
  have early : (first j).type = none → (s.node j).nlink = 0 := by
    intro free
    rcases before j with same | ⟨-, untyped | zero⟩
    · exact absurd (same ▸ free) typed
    · exact absurd untyped typed
    · exact zero
  have zero : (s.node j).nlink = 0 := by
    by_cases old : j = dp
    · subst old
      rcases freed with free | zero
      · exact absurd (dir.symm.trans free) nofun
      · exact links ▸ zero
    by_cases new : j = i
    · subst new
      exact early makes.free
    rw [others j new old] at freed
    rcases freed with free | zero
    · exact early free
    · rcases before j with same | ⟨free, -⟩
      · exact same ▸ zero
      · exact early free
  obtain ⟨e, mem, inum, -⟩ := ledger.kept j nofun typed zero
  have held := settled e (Multiset.mem_cons_of_mem mem)
  rw [State.nodeOf, along.inum e mem, inum] at held
  exact held gone

theorem Makes.consistent (ledger : Ledger s refs none) (settled : Settled t (ip ::ₘ refs))
    (along : Along s t refs) (before : Frees s.node first)
    (makes : Makes first mid .file major dp name (t.itable ip).inum) (after : Frees mid t.node)
    (consistent : s.Consistent) : t.Consistent := by
  obtain ⟨-, parent, -, -, -, added, file, others⟩ := makes.directory before
  have old : ∀ {j}, (s.node j).type ≠ none → (t.node j).type ≠ none := fun typed =>
    makes.persists ledger settled along before after typed
  intro i dir entry mem used
  have same := after.eq_of_type (i := i) (by rw [dir]; exact nofun)
  rw [same] at dir mem
  by_cases there : i = dp
  · subst there
    rcases added entry mem with rfl | mem
    · exact settled ip (Multiset.mem_cons_self ..)
    · exact old (consistent i (parent ▸ makes.dir) entry mem used)
  by_cases new : i = (t.itable ip).inum
  · subst new
    exact absurd (dir.symm.trans file) nofun
  rw [others i new there] at dir mem
  have known := before.eq_of_type (i := i) (by rw [dir]; exact nofun)
  rw [known] at dir mem
  exact old (consistent i dir entry mem used)

end Making

section Swap

variable {s t : State} {grow : Nat → Bool} {p : Nat} {refs : Multiset Nat} {path : List UInt8}

theorem creating_of_ok {type : InodeType} {major : Int} {made : Option Nat}
    (ledger : Ledger s refs none) (settled : Settled s refs)
    (cwd : ∀ e, (s.task p).cwd = some e → e ∈ refs)
    (ran : create grow p path type major s = .ok (made, t)) :
    Creating s t p path type major refs made := by
  have judged : wp (create grow p path type major)
      (fun made t => Creating s t p path type major refs made) (fun _ => True) s :=
    wp_create ledger settled (fun _ => trivial) cwd (fun _ => .failed)
      (fun ip _ => .found ip) fun ip _ => .made ip
  have ended := wp_ok judged ran
  exact ended

/-- The inode in hand loses its links. -/
def State.unlinked (t : State) (ip : Nat) : State :=
  t.setNode (t.itable ip).inum { t.nodeOf ip with nlink := 0 }

theorem unlinked_of_ne (other : i ≠ (t.itable ip).inum) :
    (t.unlinked ip).node i = t.node i := setNode_of_ne t _ other

theorem unlinked_eq (zero : (t.nodeOf ip).nlink = 0) : (t.unlinked ip).node = t.node := by
  have same : { t.nodeOf ip with nlink := 0 } = t.nodeOf ip := by
    rw [← zero]
  rw [State.unlinked, same, State.setNode, State.nodeOf]
  exact Function.update_eq_self _ _

theorem unharmed_of_found (ledger : Ledger s refs none) (consistent : s.Consistent)
    (passed : Passed s t refs)
    (named : s.named p (swapName (s.task p).pid) = some (t.itable ip).inum)
    (dropped : Passed (t.unlinked ip) u refs) :
    Unharmed s u p (-1) ↔ (s.node (t.itable ip).inum).nlink = 0 := by
  have typed := consistent.named named
  have same := passed.keeps_all ledger typed
  constructor
  · intro unharmed
    have intact := unharmed.intact rfl _ named
    rw [← intact]
    rcases dropped.frees (t.itable ip).inum with changed | ⟨gone, -⟩
    · rw [changed, State.unlinked, setNode_self]
    · exact absurd (intact ▸ gone) typed
  · intro zero
    have alike : (t.unlinked ip).node = t.node := unlinked_eq (by rw [State.nodeOf, same, zero])
    -- Whatever has no links is kept by a reference other than the one dropped.
    have keeps : ∀ i, (s.node i).type ≠ none → u.node i = s.node i := by
      intro i allocated
      have before : (t.unlinked ip).node i = s.node i := by
        rw [alike, passed.keeps_all ledger allocated]
      rw [← before] at allocated
      rw [dropped.keeps allocated, before]
      intro none_
      rw [before] at none_ allocated
      obtain ⟨e, mem, inum, -⟩ := ledger.kept i (by simp) allocated none_
      exact ⟨e, mem, (passed.inum e mem).trans inum⟩
    refine ⟨consistent.keep ?_ keeps, fun _ i named => keeps i (consistent.named named)⟩
    have frees := dropped.frees
    rw [alike] at frees
    exact passed.frees.trans frees

theorem not_consistent_of_made (ledger : Ledger s refs none) (settled : Settled t (ip ::ₘ refs))
    (along : Along s t refs) (loose : ip ∉ refs) (before : Frees s.node first)
    (makes : Makes first mid .file 0 dp name (t.itable ip).inum) (after : Frees mid t.node)
    (held : Ledger (t.unlinked ip) (ip ::ₘ refs) none) (dropped : Ledger u refs none)
    (passed : Passed (t.unlinked ip) u refs) : ¬ u.Consistent := by
  intro consistent
  obtain ⟨apart, parent, dir, -, mem, -⟩ := makes.directory before
  have gone : (u.node (t.itable ip).inum).type = none :=
    held.freed loose (by rw [State.unlinked, nodeOf_setNode]) dropped passed
  -- The directory is still there.
  have typed : (t.node dp).type ≠ none :=
    makes.persists ledger settled along before after (by rw [← parent, makes.dir]; exact nofun)
  have there : u.node dp = mid dp := by
    rw [← after.eq_of_type typed, ← unlinked_of_ne apart.symm]
    refine passed.keeps_others held apart.symm ?_
    rw [unlinked_of_ne apart.symm]
    exact typed
  rw [← there] at dir mem
  exact consistent dp dir _ mem makes.pos gone

theorem named_of_made (led : s.resolve p path true = some (dp, name)) (before : Frees s.node first)
    (makes : Makes first mid .file 0 dp name ip) : s.named p path = none := by
  obtain ⟨-, parent, -⟩ := makes.directory before
  have missing := makes.missing
  rw [parent] at missing
  rw [State.named, led, Option.bind_some]
  simp only [missing, Option.map_none]

theorem wp_ilock_valid {post : Unit → State → Prop} {abort : Stop → Prop}
    (used : 0 < (t.itable ip).ref) (valid : (t.itable ip).valid = true) (done : post () t) :
    wp (ilock ip) post abort t := by
  simp only [ilock, wp_bind, wp_get]
  rw [if_neg (by omega)]
  simpa only [wp_pure, valid, Bool.not_true, Bool.false_eq_true, if_false] using done

theorem createSwap_unharmed (balance : Balance s) (consistent : s.Consistent) (inside : p < nproc) :
    wp (createSwap grow p) (fun r t => Unharmed s t p r ↔ s.SwapSafe grow p) (fun _ => True) s := by
  have ledger := balance.books.ledger
  simp only [createSwap, wp_bind, wp_get]
  split
  · rename_i open_
    rw [wp_pure]
    exact iff_of_true ⟨consistent, fun failed => by simp at failed⟩ (.inl open_)
  rename_i closed
  rw [wp_bind]
  refine wp_intro (fun made t ran => ?_) fun _ _ => trivial
  have ended := creating_of_ok ledger balance.books.settled
    (fun e here => Multiset.mem_add.mpr (.inl (cwd_mem inside here))) ran
  cases made with
  | none =>
    -- Nothing was made, and nothing that is allocated changed.
    rw [wp_pure]
    refine iff_of_true ?_ (.inr (.inr (.inl ⟨t, ran⟩)))
    cases ended with
    | failed _ passed =>
      have keeps : ∀ i, (s.node i).type ≠ none → t.node i = s.node i := fun i =>
        passed.keeps_all ledger
      exact ⟨consistent.keep passed.frees keeps,
        fun _ i named => keeps i (consistent.named named)⟩
  | some ip =>
    have tables : t.ftable = s.ftable := by
      cases ended with
      | found _ _ passed => exact passed.ftable
      | made _ _ _ _ _ _ _ along => exact along.ftable
    have sound : t.Consistent := by
      cases ended with
      | found _ _ passed =>
        exact consistent.keep passed.frees fun i => passed.keeps_all ledger
      | made _ _ _ _ _ _ settled along _ _ _ before makes after =>
        exact makes.consistent ledger settled along before after consistent
    simp only [filealloc, wp_bind, wp_get]
    split
    · -- The file table is full.
      rename_i full
      have full : ¬ ∃ f < nfile, (s.ftable f).ref = 0 := by
        rintro ⟨f, small, free⟩
        have taken := List.find?_eq_none.mp full f (List.mem_range.mpr small)
        rw [tables] at taken
        exact taken (by simpa using free)
      have safe : s.SwapSafe grow p ↔
          ∃ i, s.named p (swapName (s.task p).pid) = some i ∧ (s.node i).nlink = 0 := by
        simp only [State.SwapSafe, closed, full, ran]
        simp
      have here : ip ∈ ip ::ₘ (s.taskInodes + s.openInodes) := Multiset.mem_cons_self ..
      obtain ⟨held, valid⟩ : Ledger t (ip ::ₘ (s.taskInodes + s.openInodes)) none ∧
          (t.itable ip).valid = true := by
        cases ended with
        | found _ held _ valid => exact ⟨held, valid⟩
        | made _ _ _ _ _ held _ _ _ valid => exact ⟨held, valid⟩
      rw [safe]
      simp only [wp_pure, wp_bind]
      refine wp_ilock_valid (held.pos here) valid ?_
      rw [updateNode, wp_modify]
      have unlinked : Ledger (t.unlinked ip) (ip ::ₘ (s.taskInodes + s.openInodes)) none :=
        held.setNode here valid (held.firm ip here valid)
      refine wp_iput unlinked fun u dropped passed => ?_
      cases ended with
      | found _ _ before _ named =>
        rw [unharmed_of_found ledger consistent before named passed]
        simp [named]
      | made _ _ _ _ _ _ settled along loose _ led before makes after =>
        refine iff_of_false (fun unharmed => ?_) ?_
        · exact not_consistent_of_made ledger settled along loose before makes after unlinked
            dropped passed unharmed.consistent
        · simp [named_of_made led before makes]
    · rename_i f found
      have free := List.find?_some found
      rw [tables] at free
      simp only [wp_bind, wp_set, wp_pure, wp_modify, updateTask]
      refine iff_of_true ⟨sound, fun failed => by simp at failed⟩ (.inr (.inl ⟨f, ?_, ?_⟩))
      · exact List.mem_range.mp (List.mem_of_find?_eq_some found)
      · simpa using free

end Swap

/-- Making a swap file leaves the log as it was, and does no harm exactly if it is safe. -/
theorem swap_file_unharmed_iff {s : State} {grow : Nat → Bool} {p n : Nat} {r : Int} {l : Logged}
    (balance : Balance s) (consistent : s.Consistent) (inside : p < nproc)
    (ran : createSwapFile grow p ⟨s, n⟩ = .ok (r, l)) :
    l.outstanding = n ∧ (Unharmed s l.state p r ↔ s.SwapSafe grow p) := by
  have judged : wp (createSwapFile grow p)
      (fun r l => l.outstanding = n ∧ (Unharmed s l.state p r ↔ s.SwapSafe grow p))
      (fun _ => True) ⟨s, n⟩ :=
    wp_createSwapFile.mpr (wp_imp (createSwap_unharmed balance consistent inside)
      fun _ _ unharmed => ⟨rfl, unharmed⟩)
  have ended := wp_ok judged ran
  exact ended

/-- Seven processes in the root directory that have taken some files for pipes. -/
def busyState (files : Nat) : State where
  ninodes := 200
  node i := if i = rootino then ⟨some .dir, 0, 1, [⟨rootino, dot⟩, ⟨rootino, dotdot⟩]⟩
    else ⟨none, 0, 0, []⟩
  itable e := if e = 0 then ⟨rootino, 7, true⟩ else ⟨0, 0, false⟩
  ftable f := if f < files then ⟨1, .pipe, 0⟩ else ⟨0, .none, 0⟩
  task p := if p < 7 then
      ⟨true, p + 1, some 0,
        fun fd => if p * nofile + fd < files then some (p * nofile + fd) else none, none, none⟩
    else ⟨false, 0, none, fun _ => none, none, none⟩

theorem busyState_balance {files : Nat} (few : files ≤ nfile)
    (pointers : (busyState files).taskFiles = Multiset.range files) : Balance (busyState files) := by
  have inodes : (busyState files).taskInodes = Multiset.replicate 7 0 := by
    have each : ∀ p ∈ Finset.range nproc, ((busyState files).task p).inodes =
        if p < 7 then {0} else 0 := by
      intro p _
      simp only [busyState]
      split <;> rfl
    rw [State.taskInodes, Finset.sum_congr rfl each]
    decide +kernel
  have opened : (busyState files).openInodes = 0 := by
    refine Finset.sum_eq_zero fun f _ => ?_
    simp only [busyState]
    split <;> rfl
  have root : ∀ e ∈ (Multiset.replicate 7 0 : Multiset Nat), e = 0 := fun e =>
    Multiset.eq_of_mem_replicate
  refine ⟨⟨?_, ?_, fun f => ?_, fun f mem => ?_, fun f free => ?_⟩, fun p _ dead => ?_⟩
  · -- The root directory is the only inode in use.
    rw [inodes, opened, add_zero]
    refine ⟨fun e => ?_, fun e mem => ?_, fun e mem f mem' _ => ?_, fun e mem _ => ?_,
      fun i _ typed zero => ?_⟩
    · rw [Multiset.count_replicate]
      by_cases here : e = 0
      · simp [busyState, here]
      · simp [busyState, here, Ne.symm here]
    · rw [root e mem]
      decide
    · rw [root e mem, root f mem']
    · rw [root e mem]
      simp [busyState, State.nodeOf]
    · by_cases isRoot : i = rootino
      · simp [busyState, isRoot] at zero
      · simp [busyState, isRoot] at typed
  · rw [inodes, opened, add_zero]
    intro e mem
    rw [root e mem]
    simp [busyState, State.nodeOf]
  · rw [pointers]
    by_cases small : f < files
    · simp [busyState, small, Multiset.count_eq_one_of_mem (Multiset.nodup_range files)]
    · simp [busyState, small]
  · rw [pointers, Multiset.mem_range] at mem
    omega
  · by_cases small : f < files
    · simp [busyState, small] at free
    · simp [busyState, small]
  · by_cases small : p < 7
    · simp [busyState, small] at dead
    · simp [busyState, small, Task.inodes, Task.files, optional]

theorem busyState_consistent (files : Nat) : (busyState files).Consistent := by
  intro i dir entry mem _
  have isRoot : i = rootino := by
    by_contra other
    simp [busyState, other] at dir
  -- Both entries of the root directory name the root directory.
  subst isRoot
  have names : entry = ⟨rootino, dot⟩ ∨ entry = ⟨rootino, dotdot⟩ := by
    simpa [busyState] using mem
  rcases names with rfl | rfl <;> simp [busyState]

/-- With a file left, a process gets its swap file. -/
theorem swap_file_unharmed_last : ∃ l, createSwapFile (fun _ => true) 6 ⟨busyState 99, 0⟩ = .ok (0, l) ∧
    l.outstanding = 0 ∧ Unharmed (busyState 99) l.state 6 0 := by
  have ran : createSwapFile (fun _ => true) 6 ⟨busyState 99, 0⟩ = .ok (0, _) :=
    eq_ok_of_valueOf (by decide)
  obtain ⟨log, exactly⟩ := swap_file_unharmed_iff
    (busyState_balance (by decide) (by decide +kernel)) (busyState_consistent 99) (by decide) ran
  exact ⟨_, ran, log, exactly.mpr (.inr (.inl ⟨99, by decide, rfl⟩))⟩

/-- With all files taken, the inode is freed and its directory entry stays. -/
theorem swap_file_dangles : Balance (busyState 100) ∧ (busyState 100).Consistent ∧
    ∃ l, createSwapFile (fun _ => true) 6 ⟨busyState 100, 0⟩ = .ok (-1, l) ∧
      ¬ l.state.Consistent := by
  have ran : (createSwapFile (fun _ => true) 6 ⟨busyState 100, 0⟩).toOption.any fun (r, l) =>
      r = -1 ∧ (l.state.node rootino).type = some .dir ∧
      ⟨2, swapName 7⟩ ∈ (l.state.node rootino).entries ∧ (l.state.node 2).type = none := by
    decide
  obtain ⟨_, l, ended, facts⟩ := exists_ok_of_any ran
  obtain ⟨rfl, dir, entry, free⟩ := of_decide_eq_true facts
  exact ⟨busyState_balance (by decide) (by decide +kernel), busyState_consistent 100, l, ended,
    fun consistent => consistent rootino dir _ entry (by decide) free⟩

end Names

end Xv6
