import Xv6.FileCalls
import Xv6.LockedCopyLaws

/-! A file transfer waits for itself where its buffer needs the files it already uses. -/

namespace Xv6

open Prog

variable {during h h' : Held} {va : Nat} {isWrite : Bool} {items rest : List Item}

section Calls

variable {h : Held} {locks : List Nat}

theorem Held.calls_append (first second : List FsCall) :
    h.calls (first ++ second) =
      match h.calls first with
      | .ok h' => h'.calls second
      | .error e => .error e := by
  induction first generalizing h with
  | nil => rfl
  | cons call rest ih =>
    simp only [List.cons_append, Held.calls]
    cases h.call call with
    | ok h' => exact ih
    | error e => rfl

theorem Held.calls_append_ok {first : List FsCall} (done : h.calls first = .ok h')
    (second : List FsCall) : h.calls (first ++ second) = h'.calls second := by
  rw [Held.calls_append, done]

theorem Held.calls_pageCalls (f : Nat) :
    Held.calls ⟨0, locks⟩ (pageCalls f) =
      if f ∈ locks then .error (.reenters (.lock f)) else .ok ⟨0, locks⟩ := by
  by_cases held : f ∈ locks <;> simp [pageCalls, Held.calls, Held.call, held]

theorem createCalls_result (fs : Fs) (env : FsEnv) (cwd : Nat) (path : List UInt8) :
    (createCalls fs env cwd path).2 = (create fs env cwd path).1 := by
  -- Both make the same choices, one after another.
  unfold createCalls create
  cases nameiparent fs cwd path with
  | none => rfl
  | some parent =>
    obtain ⟨dp, name⟩ := parent
    dsimp only [createIn]
    cases fs.dirlookup dp name with
    | some ip =>
      dsimp only
      cases (fs.inodes ip).type with
      | none => rfl
      | some type => cases type <;> rfl
    | none =>
      cases env.ialloc with
      | none => rfl
      | some ip =>
        by_cases used : (fs.inodes ip).type ≠ none
        · simp [used]
        · cases env.dirlink <;> simp [used]

theorem createCalls_swapName (fs : Fs) (env : FsEnv) (cwd pid : Nat) :
    createCalls fs env cwd (swapName pid) =
      if (fs.inodes cwd).type = some .dir then
        ([.ilock cwd, .iunlock cwd] ++ (createIn fs env cwd (swapName pid)).1,
          (createIn fs env cwd (swapName pid)).2)
      else ([.ilock cwd, .iunlock cwd], none) := by
  have walk : nameiparentCalls fs (pathStart cwd (swapName pid))
      (pathElems ((swapName pid).length + 1) (swapName pid)) = [.ilock cwd, .iunlock cwd] := by
    rw [pathElems_swapName, pathStart_swapName, nameiparentCalls]
    split <;> rfl
  unfold createCalls
  rw [nameiparent_swapName, walk]
  by_cases directory : (fs.inodes cwd).type = some .dir
  · simp [directory]
  · simp [directory]

theorem Held.calls_createIn {fs : Fs} {env : FsEnv} {dp : Nat} {name : List UInt8}
    (directory : (fs.inodes dp).type = some .dir) (home : dp ∉ locks) :
    Held.calls ⟨1, locks⟩ (createIn fs env dp name).1 =
      match ((fs.dirlookup dp name).or
        (env.ialloc.filter fun e => (fs.inodes e).type = none)).filter (· ∈ locks) with
      | some e => .error (.reenters (.lock e))
      | none => .ok ⟨1, (createIn fs env dp name).2.toList ++ locks⟩ := by
  unfold createIn
  cases found : fs.dirlookup dp name with
  | some ip =>
    by_cases held : ip ∈ locks
    · by_cases kind : (fs.inodes ip).type = some .file ∨ (fs.inodes ip).type = some .device <;>
        simp [kind, Held.calls, Held.call, home, held, Option.filter]
    · by_cases kind : (fs.inodes ip).type = some .file ∨ (fs.inodes ip).type = some .device <;>
        simp [kind, Held.calls, Held.call, home, held, Option.filter]
  | none =>
    cases fresh : env.ialloc with
    | none => simp [Held.calls, Held.call, home]
    | some ip =>
      by_cases used : (fs.inodes ip).type = none
      · -- A free inode is not the directory, which is locked by now.
        have apart : ip ≠ dp := by
          rintro rfl
          simp [used] at directory
        by_cases held : ip ∈ locks
        · cases env.dirlink <;>
            simp [used, Held.calls, Held.call, home, held, Option.filter]
        · cases env.dirlink <;>
            simp [used, Held.calls, Held.call, home, held, apart, Option.filter,
              freeCalls]
      · simp [used, Held.calls, Held.call, home, Option.filter]

theorem Held.calls_createCalls {c : FaultChoice} {p : Proc} :
    Held.calls ⟨1, locks⟩ (createCalls c.fs c.env p.cwd (swapName p.pid)).1 =
      if p.cwd ∈ locks then .error (.reenters (.lock p.cwd))
      else match (c.swapTarget p).filter (· ∈ locks) with
        | some e => .error (.reenters (.lock e))
        | none => .ok ⟨1, (create c.fs c.env p.cwd (swapName p.pid)).1.toList ++ locks⟩ := by
  rw [← createCalls_result, createCalls_swapName]
  unfold FaultChoice.swapTarget
  by_cases home : p.cwd ∈ locks
  · by_cases directory : (c.fs.inodes p.cwd).type = some .dir <;>
      simp [directory, home, Held.calls, Held.call]
  by_cases directory : (c.fs.inodes p.cwd).type = some .dir
  · have walked : Held.calls ⟨1, locks⟩ [.ilock p.cwd, .iunlock p.cwd] = .ok ⟨1, locks⟩ := by
      simp [Held.calls, Held.call, home]
    simp only [directory, if_true, if_neg home, Held.calls_append_ok walked,
      Held.calls_createIn directory home, ne_eq, not_true_eq_false, if_false]
  · simp [directory, home, Held.calls, Held.call]

theorem Held.calls_beginOp (rest : List FsCall) :
    Held.calls ⟨0, locks⟩ (.beginOp :: rest) = Held.calls ⟨1, locks⟩ rest := rfl

section Opening

variable {c : FaultChoice} {p : Proc}

theorem swapFileCalls_closed (closed : p.paging.swapfile = none) :
    swapFileCalls c p =
      match (create c.fs c.env p.cwd (swapName p.pid)).1 with
      | none =>
        (.beginOp :: (createCalls c.fs c.env p.cwd (swapName p.pid)).1 ++ [.endOp], none)
      | some ip =>
        if c.env.filealloc then
          (.beginOp :: (createCalls c.fs c.env p.cwd (swapName p.pid)).1 ++
            [.iunlock ip, .endOp], some ip)
        else
          (.beginOp :: (createCalls c.fs c.env p.cwd (swapName p.pid)).1 ++
            [.iunlock ip, .beginOp, .ilock ip, .transfer ip] ++
            (if c.env.lastRef then freeCalls ip else [.iunlock ip]) ++ [.endOp, .endOp], none) := by
  rw [← createCalls_result]
  unfold swapFileCalls
  rw [closed]
  cases made : createCalls c.fs c.env p.cwd (swapName p.pid) with
  | mk calls result => cases result <;> rfl

theorem Held.calls_swapFileCalls (closed : p.paging.swapfile = none)
    (apart : c.OpensApart p locks) :
    Held.calls ⟨0, locks⟩ (swapFileCalls c p).1 = .ok ⟨0, locks⟩ := by
  obtain ⟨home, target, entry⟩ := apart
  have missed : (c.swapTarget p).filter (· ∈ locks) = none := by
    simpa using target
  have created : Held.calls ⟨1, locks⟩ (createCalls c.fs c.env p.cwd (swapName p.pid)).1 =
      .ok ⟨1, (create c.fs c.env p.cwd (swapName p.pid)).1.toList ++ locks⟩ := by
    rw [Held.calls_createCalls, if_neg home, missed]
  rw [swapFileCalls_closed closed]
  cases made : (create c.fs c.env p.cwd (swapName p.pid)).1 with
  | none =>
    rw [made] at created
    simp only [List.cons_append, Held.calls_beginOp, Held.calls_append_ok created]
    rfl
  | some ip =>
    rw [made] at created
    have free : c.env.filealloc = true := entry (by simp [made])
    simp only [free, if_true, List.cons_append, Held.calls_beginOp, Held.calls_append_ok created]
    simp [Held.calls, Held.call]

theorem Held.calls_swapFileCalls_reenters (closed : p.paging.swapfile = none)
    (near : ¬ c.OpensApart p locks) :
    ∃ e, Held.calls ⟨0, locks⟩ (swapFileCalls c p).1 = .error (.reenters e) := by
  -- Every way of opening the file begins with creating it in a transaction.
  have stuck : ∀ e, Held.calls ⟨1, locks⟩ (createCalls c.fs c.env p.cwd (swapName p.pid)).1 =
      .error e → Held.calls ⟨0, locks⟩ (swapFileCalls c p).1 = .error e := by
    intro e failed
    rw [swapFileCalls_closed closed]
    split
    · simp only [Held.calls_beginOp, Held.calls_append, failed]
    · split <;>
        simp only [Held.calls_beginOp, Held.calls_append,
          failed]
  by_cases home : p.cwd ∈ locks
  · exact ⟨_, stuck _ (by rw [Held.calls_createCalls, if_pos home])⟩
  cases target : (c.swapTarget p).filter (· ∈ locks) with
  | some e => exact ⟨_, stuck _ (by rw [Held.calls_createCalls, if_neg home, target])⟩
  | none =>
    -- The file is created, and no file entry is left for it.
    have missed : ∀ e, c.swapTarget p = some e → e ∉ locks := by
      simpa using target
    obtain ⟨exists_, full⟩ := Classical.not_imp.mp fun entry => near ⟨home, missed, entry⟩
    obtain ⟨ip, made⟩ := Option.ne_none_iff_exists'.mp exists_
    have created : Held.calls ⟨1, locks⟩ (createCalls c.fs c.env p.cwd (swapName p.pid)).1 =
        .ok ⟨1, ip :: locks⟩ := by
      rw [Held.calls_createCalls, if_neg home, target, made]
      rfl
    refine ⟨.transaction, ?_⟩
    rw [swapFileCalls_closed closed, made]
    simp only [full, Bool.false_eq_true, if_false,
      Held.calls_beginOp, Held.calls_append, created]
    simp [Held.calls, Held.call]

theorem Held.calls_swapFile (apart : p.paging.swapfile = none → c.OpensApart p locks) :
    Held.calls ⟨0, locks⟩ (swapFileCalls c p).1 = .ok ⟨0, locks⟩ := by
  cases isOpen : p.paging.swapfile with
  | none => exact Held.calls_swapFileCalls isOpen (apart isOpen)
  | some f =>
    have opened : swapFileCalls c p = ([], some f) := by simp [swapFileCalls, isOpen]
    rw [opened]
    rfl

theorem evictCalls_kept {v : Nat} (chosen : p.victim = some v)
    (kept : ¬ (p.paging.pages v).Droppable) :
    (evictCalls c p).calls = (swapFileCalls c p).1 ++
      match (swapFileCalls c p).2, (allocSwapSlot p.paging).1,
        p.pagetable.lookup (v * pgsize) with
      | some f, some _, some _ => pageCalls f
      | _, _, _ => [] := by
  rw [evictCalls_some chosen, if_neg kept]
  cases opened : swapFileCalls c p with
  | mk calls result =>
    cases result with
    | none => simp
    | some f =>
      cases (allocSwapSlot p.paging).1 with
      | none => simp
      | some slot => cases p.pagetable.lookup (v * pgsize) <;> simp

theorem Held.calls_evictCalls (apart : c.EvictsApart p locks) :
    Held.calls ⟨0, locks⟩ (evictCalls c p).calls = .ok ⟨0, locks⟩ := by
  cases chosen : p.victim with
  | none =>
    simp only [evictCalls, chosen]
    rfl
  | some v =>
    by_cases kept : (p.paging.pages v).Droppable
    · rw [evictCalls_some chosen, if_pos kept]
      rfl
    obtain ⟨opens, writes⟩ := apart v chosen kept
    rw [evictCalls_kept chosen kept, Held.calls_append_ok (Held.calls_swapFile opens)]
    split
    · rename_i f slot pte opened free mapped
      rw [Held.calls_pageCalls, if_neg (writes (by simp [free]) (by simp [mapped]) f opened)]
    · rfl

theorem Held.calls_evictCalls_reenters (near : ¬ c.EvictsApart p locks) :
    ∃ e, Held.calls ⟨0, locks⟩ (evictCalls c p).calls = .error (.reenters e) := by
  unfold FaultChoice.EvictsApart at near
  simp only [not_forall] at near
  obtain ⟨v, chosen, kept, near⟩ := near
  rw [evictCalls_kept chosen kept]
  by_cases opens : p.paging.swapfile = none → c.OpensApart p locks
  · -- The file is open, so it is the page that cannot be written.
    have writes := fun writes => near ⟨opens, writes⟩
    simp only [not_forall, not_not, imp_false] at writes
    obtain ⟨free, mapped, f, opened, held⟩ := writes
    obtain ⟨slot, free⟩ := Option.ne_none_iff_exists'.mp free
    obtain ⟨pte, mapped⟩ := Option.ne_none_iff_exists'.mp mapped
    refine ⟨.lock f, ?_⟩
    rw [Held.calls_append_ok (Held.calls_swapFile opens), opened, free, mapped]
    simp only [Held.calls_pageCalls, if_pos held]
  · obtain ⟨closed, near⟩ := Classical.not_imp.mp opens
    obtain ⟨e, stopped⟩ := Held.calls_swapFileCalls_reenters closed near
    exact ⟨e, by rw [Held.calls_append, stopped]⟩

theorem Held.calls_obtainCalls (apart : c.frame = true ∨ c.EvictsApart p locks) :
    Held.calls ⟨0, locks⟩ (obtainCalls c p).calls = .ok ⟨0, locks⟩ := by
  unfold obtainCalls
  cases frame : c.frame with
  | true => rfl
  | false =>
    rw [if_neg (by simp)]
    exact Held.calls_evictCalls (apart.resolve_left (by simp [frame]))

def Held.Enters (h : Held) (calls : List FsCall) : Prop :=
  ∀ e, h.calls calls ≠ .error (.reenters e)

theorem Held.enters_fillCalls {fill : Option Nat → List FsCall} :
    Held.Enters ⟨0, locks⟩ (fillCalls c p fill) ↔ (c.frame = true ∨ c.EvictsApart p locks) ∧
      ((obtainCalls c p).evicted = true →
        Held.Enters ⟨0, locks⟩ (fill (obtainCalls c p).swapfile)) := by
  unfold Held.Enters fillCalls
  by_cases apart : c.frame = true ∨ c.EvictsApart p locks
  · rw [Held.calls_append_ok (Held.calls_obtainCalls apart)]
    cases (obtainCalls c p).evicted with
    | true => simp [apart]
    | false => simp [apart, Held.calls]
  · obtain ⟨full, near⟩ := not_or.mp apart
    obtain ⟨e, stopped⟩ := Held.calls_evictCalls_reenters near
    have stopped' : Held.calls ⟨0, locks⟩ (obtainCalls c p).calls = .error (.reenters e) := by
      rw [obtainCalls, if_neg full]
      exact stopped
    simp only [apart, false_and, iff_false, not_forall, not_not]
    exact ⟨e, by rw [Held.calls_append, stopped']⟩

theorem Held.enters_nil (h : Held) : h.Enters [] := fun _ stopped => by cases stopped

theorem Held.enters_pageCalls {f : Nat} : Held.Enters ⟨0, locks⟩ (pageCalls f) ↔ f ∉ locks := by
  unfold Held.Enters
  rw [Held.calls_pageCalls]
  by_cases held : f ∈ locks <;> simp [held]

theorem Held.enters_loadCalls {seg : Segment} : Held.Enters ⟨0, locks⟩ (loadCalls p seg va) ↔
      (p.paging.execIp ≠ none ∧ readSize seg (va - seg.start) ≠ 0 →
        ∀ f, p.paging.execIp = some f → f ∉ locks) := by
  unfold loadCalls
  cases p.paging.execIp with
  | none => simpa using Held.enters_nil _
  | some ip =>
    by_cases empty : readSize seg (va - seg.start) = 0
    · simpa [empty] using Held.enters_nil _
    · simpa [empty] using Held.enters_pageCalls

def Balanced (locks : List Nat) (calls : List FsCall) : Prop :=
  ∀ h, Held.calls ⟨0, locks⟩ calls = .ok h → h = ⟨0, locks⟩

theorem balanced_nil : Balanced locks [] := fun _ ended => (Except.ok.inj ended).symm

theorem balanced_pageCalls (f : Nat) : Balanced locks (pageCalls f) := by
  intro h ended
  rw [Held.calls_pageCalls] at ended
  split at ended
  · cases ended
  · exact (Except.ok.inj ended).symm

theorem balanced_loadCalls (seg : Segment) (va : Nat) : Balanced locks (loadCalls p seg va) := by
  unfold loadCalls
  split
  · exact balanced_nil
  · split
    · exact balanced_nil
    · exact balanced_pageCalls _

theorem accessCalls_fill (locks : List Nat) (absent : walkaddr p.pagetable (pgrounddown va) = none)
    (accepted : ¬ p.Refuses (pgrounddown va) isWrite) :
    ∃ fill, accessCalls c p va isWrite = fillCalls c p fill ∧
      (∀ swap, Balanced locks (fill swap)) ∧ ∀ swap, Held.Enters ⟨0, locks⟩ (fill swap) ↔ (p.ReadsFile (pgrounddown va) →
        ∀ f, p.source swap (pgrounddown va) = some f → f ∉ locks) := by
  obtain ⟨low, accepted⟩ := not_or.mp accepted
  obtain ⟨text, accepted⟩ := not_or.mp accepted
  obtain ⟨mine, slot⟩ := not_or.mp accepted
  have mine := not_not.mp mine
  have aligned : pgrounddown (pgrounddown va) = pgrounddown va := by
    rw [pgrounddown, pgrounddown, Nat.mul_div_cancel _ pgsize_pos]
  have below : ¬ maxva ≤ pgrounddown va := by
    simp only [trapframeVa, trampolineVa] at low ⊢
    omega
  have read : ¬ (p.paging.segs.text.Has (pgrounddown va) ∧
      (if isWrite = true then 15 else 13) = 15) := by
    intro both
    exact text ⟨both.1, by cases isWrite <;> simp_all⟩
  rw [accessCalls, absent]
  simp only [kernelFaultCalls, if_neg low, if_neg (not_not_intro mine), faultCalls, aligned,
    if_neg below, if_neg read, Proc.ReadsFile, Proc.source]
  by_cases swapped : p.Swapped (pgrounddown va)
  · -- The entry is tracked and has a slot, or the page would be refused.
    obtain ⟨i, entry, saved⟩ := (Option.any_eq_true _ _).mp swapped
    have held : ¬ (p.paging.pages i).swapSlot < 0 := by
      simpa [swapped, entry] using slot
    simp only [swapped, if_true, swapinCalls, entry, of_decide_eq_true saved, ne_eq,
      not_true_eq_false, false_or, if_neg held]
    refine ⟨_, rfl, fun swap => ?_, fun swap => ?_⟩
    · cases swap with
      | none => exact fun _ ended => by cases ended
      | some f => exact balanced_pageCalls f
    · cases swap with
      | none => simp [Held.Enters, Held.calls, Held.call]
      | some f => simpa using Held.enters_pageCalls
  simp only [swapped, false_or]
  by_cases inText : p.paging.segs.text.Has (pgrounddown va)
  · simp only [inText]
    exact ⟨_, rfl, fun _ => balanced_loadCalls _ _, fun swap => Held.enters_loadCalls⟩
  by_cases inData : p.paging.segs.data.Has (pgrounddown va)
  · simp only [inText, inData, true_and]
    exact ⟨_, rfl, fun _ => balanced_loadCalls _ _, fun swap => Held.enters_loadCalls⟩
  · have heap := (mine.resolve_left inText).resolve_left inData
    simp only [inText, inData, heap]
    refine ⟨_, rfl, fun _ => balanced_nil, fun swap => ?_⟩
    simpa using Held.enters_nil _

theorem Held.enters_access :
    Held.Enters ⟨0, locks⟩ (accessCalls c p va isWrite) ↔ c.ReachesApart p locks va isWrite := by
  unfold FaultChoice.ReachesApart
  by_cases quiet : walkaddr p.pagetable (pgrounddown va) ≠ none ∨ p.Refuses (pgrounddown va) isWrite
  · have silent : accessCalls c p va isWrite = [] :=
      (accessCalls_quiet va isWrite).silent (quiet.imp_right .inl)
    rw [silent, ← or_assoc]
    exact iff_of_true (Held.enters_nil _) (.inl quiet)
  · obtain ⟨absent, accepted⟩ := not_or.mp quiet
    obtain ⟨fill, filled, -, reads⟩ :=
      accessCalls_fill (c := c) locks (not_not.mp absent) accepted
    rw [filled, Held.enters_fillCalls, reads, ← or_assoc, or_iff_right quiet]

theorem Held.enters_access_inside (inside : h.ops ≠ 0) :
    h.Enters (accessCalls c p va isWrite) ↔ p.ReachesQuietly c va isWrite := by
  have calls := accessCalls_quiet (c := c) (p := p) va isWrite
  constructor
  · intro enters
    by_contra loud
    obtain ⟨rest, begins⟩ := calls.begins loud
    exact enters .transaction (by simp [begins, Held.calls, Held.call, inside])
  · intro quiet
    rw [calls.silent quiet]
    exact Held.enters_nil h

theorem Held.balanced_access (ended : h.calls (accessCalls c p va isWrite) = .ok h') : h' = h := by
  obtain ⟨ops, locks⟩ := h
  have enters : Held.Enters ⟨ops, locks⟩ (accessCalls c p va isWrite) := fun e stopped => by
    rw [ended] at stopped
    cases stopped
  by_cases outside : ops = 0
  · subst outside
    by_cases quiet :
        walkaddr p.pagetable (pgrounddown va) ≠ none ∨ p.Refuses (pgrounddown va) isWrite
    · rw [(accessCalls_quiet va isWrite).silent (quiet.imp_right .inl)] at ended
      exact balanced_nil _ ended
    · obtain ⟨absent, accepted⟩ := not_or.mp quiet
      obtain ⟨fill, filled, balanced, -⟩ :=
        accessCalls_fill (c := c) locks (not_not.mp absent) accepted
      obtain ⟨apart, -⟩ :=
        ((Held.enters_access.mp enters).resolve_left absent).resolve_left accepted
      rw [filled, fillCalls, Held.calls_append_ok (Held.calls_obtainCalls apart)] at ended
      split at ended
      · exact balanced _ _ ended
      · exact balanced_nil _ ended
  · rw [(accessCalls_quiet va isWrite).silent ((Held.enters_access_inside outside).mp enters)] at ended
    exact (Except.ok.inj ended).symm

end Opening

end Calls

theorem Reach.safe_iff (r : Reach) (h : Held) :
    h.Enters (accessCalls r.choice r.proc r.va r.isWrite) ↔ r.Safe h := by
  unfold Reach.Safe
  split
  · rename_i outside
    obtain ⟨ops, locks⟩ := h
    obtain rfl : ops = 0 := outside
    exact Held.enters_access
  · exact Held.enters_access_inside ‹_›

def Held.Guards (during : Held) : Held → List Item → Prop
  | _, [] => True
  | h, .reach _ :: rest => h = during ∧ Guards during h rest
  | h, .call c :: rest => ∃ h', h.call c = .ok h' ∧ Guards during h' rest

theorem Held.Guards.after {pre : List Item} (run : Trace.Run Held.Steps h pre h')
    (guards : during.Guards h (pre ++ rest)) : during.Guards h' rest := by
  induction run with
  | nil => exact guards
  | @cons s t u e es first _ ih =>
    refine ih ?_
    cases e with
    | call c =>
      obtain ⟨t', called, guards⟩ := guards
      have same : t' = t := Except.ok.inj (called.symm.trans first)
      exact same ▸ guards
    | reach r =>
      obtain ⟨-, guards⟩ := guards
      have same : t = s := Held.balanced_access first
      exact same ▸ guards

def Item.Inner : Item → Prop
  | .reach _ => True
  | .call c => ∃ ip, c = .transfer ip

theorem Held.guards_inner (inner : ∀ x ∈ items, x.Inner) (guards : during.Guards during rest) :
    during.Guards during (items ++ rest) := by
  induction items with
  | nil => exact guards
  | cons x items ih =>
    have more := ih fun y member => inner y (List.mem_cons_of_mem _ member)
    cases x with
    | reach r => exact ⟨rfl, more⟩
    | call c =>
      obtain ⟨ip, rfl⟩ := inner _ List.mem_cons_self
      exact ⟨during, rfl, more⟩

theorem Held.guards_ite {c : Prop} [Decidable c] (guards : during.Guards h items) :
    during.Guards h (if c then items else []) := by
  split
  · exact guards
  · trivial

section Transfers

variable {o : TransferChoice} {ip : Nat}

theorem copyItems_inner (fuel : Nat) : ∀ spot va len,
    ∀ x ∈ (copyItems o isWrite spot fuel va len).1, x.Inner := by
  induction fuel with
  | zero => simp [copyItems]
  | succ fuel ih =>
    intro spot va len x member
    unfold copyItems at member
    split_ifs at member
    · simp at member
    · rcases List.mem_cons.mp member with rfl | member
      · trivial
      · exact ih _ _ _ x member
    · obtain rfl := List.mem_singleton.mp member
      trivial

theorem readiItems_inner (fuel : Nat) : ∀ spot dst off left,
    ∀ x ∈ (readiItems o ip spot fuel dst off left).1, x.Inner := by
  induction fuel with
  | zero => simp [readiItems]
  | succ fuel ih =>
    intro spot dst off left x member
    unfold readiItems at member
    dsimp only at member
    split_ifs at member
    · simp at member
    · rcases List.mem_append.mp member with member | member
      · rcases List.mem_cons.mp member with rfl | member
        · exact ⟨ip, rfl⟩
        · exact copyItems_inner _ _ _ _ x member
      · exact ih _ _ _ _ x member
    · rcases List.mem_cons.mp member with rfl | member
      · exact ⟨ip, rfl⟩
      · exact copyItems_inner _ _ _ _ x member

theorem writeiItems_inner (fuel : Nat) : ∀ spot src off left,
    ∀ x ∈ (writeiItems o ip spot fuel src off left).1, x.Inner := by
  induction fuel with
  | zero => simp [writeiItems]
  | succ fuel ih =>
    intro spot src off left x member
    unfold writeiItems at member
    dsimp only at member
    split_ifs at member
    · simp at member
    · rcases List.mem_append.mp member with member | member
      · rcases List.mem_cons.mp member with rfl | member
        · exact ⟨ip, rfl⟩
        · exact copyItems_inner _ _ _ _ x member
      · exact ih _ _ _ _ x member
    · rcases List.mem_cons.mp member with rfl | member
      · exact ⟨ip, rfl⟩
      · exact copyItems_inner _ _ _ _ x member

theorem filereadItems_guards (size off addr n : Nat) :
    Held.Guards ⟨0, [ip]⟩ ⟨0, []⟩ (filereadItems o ip size off addr n) := by
  refine ⟨⟨0, [ip]⟩, rfl, ?_⟩
  exact Held.guards_inner (readiItems_inner _ _ _ _ _) ⟨_, rfl, trivial⟩

theorem filewriteItems_guards (fuel : Nat) : ∀ round size off addr left,
    Held.Guards ⟨1, [ip]⟩ ⟨0, []⟩ (filewriteItems o ip round fuel size off addr left) := by
  -- Every round begins and ends with nothing held.
  induction fuel with
  | zero => exact fun _ _ _ _ _ => trivial
  | succ fuel ih =>
    intro round size off addr left
    unfold filewriteItems
    split
    · trivial
    simp only [List.append_assoc, List.cons_append, List.nil_append]
    refine ⟨⟨1, []⟩, rfl, ⟨1, [ip]⟩, rfl, Held.guards_inner ?_ (Held.guards_inner ?_ ?_)⟩
    · split
      · exact writeiItems_inner _ _ _ _ _
      · simp
    · split
      · intro x member
        obtain rfl := List.mem_singleton.mp member
        exact ⟨ip, rfl⟩
      · simp
    · exact ⟨⟨1, []⟩, by simp [Held.call], ⟨0, []⟩, rfl, Held.guards_ite (ih _ _ _ _ _)⟩

end Transfers

theorem FileCall.guards (o : TransferChoice) (call : FileCall) :
    call.holds.Guards ⟨0, []⟩ (call.items o) := by
  cases call with
  | fileread ip size off addr n => exact filereadItems_guards size off addr n
  | filewrite ip size off addr n => exact filewriteItems_guards n 0 size off addr n

/-- A file transfer waits for its own process exactly where it reaches a page of the buffer that
is not safe with what the call holds. -/
theorem transfer_enters_iff {o : TransferChoice} {call : FileCall} {pre rest : List Item}
    {x : Item} {h : Held} (parts : call.items o = pre ++ x :: rest)
    (run : Trace.Run Held.Steps ⟨0, []⟩ pre h) :
    (∀ e, h.next x ≠ .error (.reenters e)) ↔ ∀ r, x = .reach r → r.Safe call.holds := by
  have guards := call.guards o
  rw [parts] at guards
  have here := Held.Guards.after run guards
  cases x with
  | call c =>
    obtain ⟨h', called, -⟩ := here
    have goes : h.next (.call c) = .ok h' := called
    simp [goes]
  | reach r =>
    obtain ⟨rfl, -⟩ := here
    simp only [Item.reach.injEq, forall_eq']
    exact r.safe_iff call.holds

def easyTransfer (m : Machine) : TransferChoice where
  proc := fun _ => m.proc
  fault := fun _ => ⟨m.fs, someRoom, true, true, true⟩
  reached := fun _ => true
  bmap := fun _ => true

theorem easyRead_items (m : Machine) :
    (FileCall.fileread 2 120 0 8 16).items (easyTransfer m) =
      [.call (.ilock 2), .call (.transfer 2)] ++
        Item.reach ⟨⟨m.fs, someRoom, true, true, true⟩, m.proc, 0, true⟩ ::
        [.call (.iunlock 2)] := rfl

theorem easyWrite_items (m : Machine) :
    (FileCall.filewrite 4 0 0 8 16).items (easyTransfer m) =
      [.call .beginOp, .call (.ilock 4), .call (.transfer 4)] ++
        Item.reach ⟨⟨m.fs, someRoom, true, true, true⟩, m.proc, 0, false⟩ ::
        [.call (.transfer 4), .call (.iunlock 4), .call .endOp] := rfl

/-- A program that has touched its data reads its own file there without waiting for itself. -/
theorem transfer_enters_touched : ∃ rest r,
    (FileCall.fileread 2 120 0 8 16).items (easyTransfer touched) =
      [.call (.ilock 2), .call (.transfer 2)] ++ Item.reach r :: rest ∧
    Trace.Run Held.Steps ⟨0, []⟩ [.call (.ilock 2), .call (.transfer 2)] ⟨0, [2]⟩ ∧
    ∀ e, Held.next ⟨0, [2]⟩ (.reach r) ≠ .error (.reenters e) := by
  have mapped : (walkaddr touched.proc.pagetable (pgrounddown 0)).isSome := by decide +kernel
  -- Nothing else matters of the machine.
  generalize touched = m at mapped ⊢
  have parts := easyRead_items m
  have run : Trace.Run Held.Steps ⟨0, []⟩ [.call (.ilock 2), .call (.transfer 2)] ⟨0, [2]⟩ :=
    .cons rfl (.cons rfl (.nil _))
  refine ⟨_, _, parts, run, (transfer_enters_iff parts run).mpr fun r same => ?_⟩
  obtain rfl := Item.reach.inj same
  exact .inl (Option.isSome_iff_ne_none.mp mapped)

/-- A program that reads its own file into data it has not used yet waits for itself at the lock of
the file; when it writes such data to a file, it waits for its own transaction. -/
theorem untouched_data_reenters : filledSys.Boot ∧ ∃ s m,
    Trace.Run Sys.Steps filledSys startInit s ∧ s.enter 0 = some m ∧
    m.proc.paging.segs.data.Has 8 ∧
    (∃ rest r, (FileCall.fileread 2 120 0 8 16).items (easyTransfer m) =
        [.call (.ilock 2), .call (.transfer 2)] ++ Item.reach r :: rest ∧
      Trace.Run Held.Steps ⟨0, []⟩ [.call (.ilock 2), .call (.transfer 2)] ⟨0, [2]⟩ ∧
      Held.next ⟨0, [2]⟩ (.reach r) = .error (.reenters (.lock 2))) ∧
    ∃ rest r, (FileCall.filewrite 4 0 0 8 16).items (easyTransfer m) =
        [.call .beginOp, .call (.ilock 4), .call (.transfer 4)] ++ Item.reach r :: rest ∧
      Trace.Run Held.Steps ⟨0, []⟩ [.call .beginOp, .call (.ilock 4), .call (.transfer 4)]
        ⟨1, [4]⟩ ∧
      Held.next ⟨1, [4]⟩ (.reach r) = .error (.reenters .transaction) := by
  refine ⟨⟨by decide, by decide, fun _ => rfl⟩, ?_⟩
  obtain ⟨s, m, run, entered, data, relocks, nests⟩ := Sys.exists_run filledSys startInit 0 (fun m =>
      m.proc.paging.segs.data.Has 8 ∧
      errorOf (Held.next ⟨0, [2]⟩ (.reach ⟨⟨m.fs, someRoom, true, true, true⟩, m.proc, 0, true⟩)) =
        some (.reenters (.lock 2)) ∧
      errorOf (Held.next ⟨1, [4]⟩ (.reach ⟨⟨m.fs, someRoom, true, true, true⟩, m.proc, 0, false⟩)) =
        some (.reenters .transaction)) (by decide +kernel)
  refine ⟨s, m, run, entered, data, ?_, ?_⟩
  · exact ⟨_, _, easyRead_items m, .cons rfl (.cons rfl (.nil _)), eq_error_of_errorOf relocks⟩
  · exact ⟨_, _, easyWrite_items m, .cons rfl (.cons rfl (.cons rfl (.nil _))), eq_error_of_errorOf nests⟩

end Xv6
