import Xv6.Names.InodeLaws

/-! What path lookup finds, and what the making of an inode leaves behind. -/

namespace Xv6

namespace Names

open Prog
open Function (update update_self update_of_ne)

def walk (node : Nat → Node) (parent : Bool) : Nat → List (List UInt8) → Option (Nat × List UInt8)
  | i, [] => if parent then none else some (i, [])
  | i, name :: rest =>
    if (node i).type ≠ some .dir then none
    else if parent && rest.isEmpty then some (i, name)
    else ((node i).find name).bind fun k => walk node parent ((node i).inumAt k) rest

def State.start (s : State) (p : Nat) (path : List UInt8) : Option Nat :=
  if path.head? = some slash then some rootino
  else ((s.task p).cwd).map fun e => (s.itable e).inum

def State.resolve (s : State) (p : Nat) (path : List UInt8) (parent : Bool) :
    Option (Nat × List UInt8) :=
  (s.start p path).bind fun i => walk s.node parent i (pathElems (path.length + 1) path)

def State.named (s : State) (p : Nat) (path : List UInt8) : Option Nat :=
  (s.resolve p path true).bind fun (dp, name) => ((s.node dp).find name).map (s.node dp).inumAt

variable {a b : Nat → Node} {parent : Bool} {r : Nat × List UInt8} {i inum p : Nat} {s t : State}
  {refs : Multiset Nat} {post : Option (Nat × List UInt8) → State → Prop} {path : List UInt8}
  {node node' : Node}

theorem walk_of_dirs
    (dirs : ∀ i, (b i).type = some .dir → (a i).type = some .dir ∧ (a i).entries = (b i).entries) :
    ∀ (elems : List (List UInt8)) (i : Nat), walk b parent i elems = some r →
      walk a parent i elems = some r := by
  intro elems
  induction elems with
  | nil =>
    intro i found
    exact found
  | cons name rest ih =>
    intro i found
    rw [walk] at found ⊢
    split at found
    · exact absurd found (by simp)
    · rename_i dir
      obtain ⟨typed, same⟩ := dirs i (not_not.mp dir)
      rw [if_neg (not_not.mpr typed)]
      split at found
      · rename_i last
        rw [if_pos last]
        exact found
      · rename_i more
        rw [if_neg more]
        -- The same entry is found, and the rest of the path follows from the inode it names.
        obtain ⟨k, there, found⟩ := Option.bind_eq_some_iff.mp found
        have find : (a i).find name = some k := by
          rw [Node.find, same]
          exact there
        have inum : (a i).inumAt k = (b i).inumAt k := by rw [Node.inumAt, same, Node.inumAt]
        rw [find, Option.bind_some, inum]
        exact ih _ found

theorem Frees.walk (frees : Frees a b) {elems : List (List UInt8)}
    (found : walk b parent i elems = some r) : walk a parent i elems = some r := by
  refine walk_of_dirs (fun j dir => ?_) elems i found
  have same := frees.eq_of_type (by rw [dir]; exact Option.some_ne_none _)
  rw [← same]
  exact ⟨dir, rfl⟩

theorem walk_parent_dir {node : Nat → Node} :
    ∀ (elems : List (List UInt8)) (i : Nat), walk node true i elems = some r →
      (node r.1).type = some .dir := by
  intro elems
  induction elems with
  | nil =>
    intro i found
    simp [walk] at found
  | cons name rest ih =>
    intro i found
    rw [walk] at found
    split at found
    · exact absurd found (by simp)
    · rename_i dir
      split at found
      · obtain rfl := Option.some.inj found
        exact not_not.mp dir
      · obtain ⟨k, -, found⟩ := Option.bind_eq_some_iff.mp found
        exact ih _ found

structure Orderly (s : State) (refs : Multiset Nat) : Prop where
  root : (s.node rootino).type ≠ none
  entries : ∀ i name k, (s.node i).type = some .dir → (s.node i).find name = some k →
    (s.node ((s.node i).inumAt k)).type ≠ none
  held : ∀ i, (s.node i).type ≠ none → (s.node i).nlink = 0 → ∃ e ∈ refs, (s.itable e).inum = i

theorem Passed.unfreed (passed : Passed s t refs) (orderly : Orderly s refs)
    (typed : (s.node i).type ≠ none) : t.node i = s.node i := by
  rcases passed.frees i with same | ⟨-, free | zero⟩
  · exact same
  · exact absurd free typed
  · -- Without links, but a reference keeps it.
    obtain ⟨e, mem, rfl⟩ := orderly.held i typed zero
    have still := passed.still e mem
    rw [State.nodeOf, passed.inum e mem] at still
    exact still

theorem Passed.orderly (passed : Passed s t refs) (orderly : Orderly s refs) : Orderly t refs := by
  refine ⟨?_, fun i name k dir found => ?_, fun i typed zero => ?_⟩
  · rw [passed.unfreed orderly orderly.root]
    exact orderly.root
  · have same := passed.frees.eq_of_type (i := i) (by rw [dir]; exact Option.some_ne_none _)
    rw [same] at dir found ⊢
    have typed := orderly.entries i name k dir found
    rw [passed.unfreed orderly typed]
    exact typed
  · have same := passed.frees.eq_of_type typed
    rw [same] at typed zero
    obtain ⟨e, mem, inum⟩ := orderly.held i typed zero
    exact ⟨e, mem, (passed.inum e mem).trans inum⟩

theorem Passed.walk_eq (passed : Passed s t refs) (orderly : Orderly s refs) (parent : Bool)
    (i : Nat) (elems : List (List UInt8)) :
    walk t.node parent i elems = walk s.node parent i elems := by
  refine Option.ext fun r => ⟨passed.frees.walk, walk_of_dirs (fun j dir => ?_) elems i⟩
  rw [passed.unfreed orderly (by rw [dir]; exact Option.some_ne_none _)]
  exact ⟨dir, rfl⟩

section Lookup

variable {refs : Multiset Nat} {abort : Stop → Prop}

def Crowded (refs : Multiset Nat) (stop : Stop) : Prop :=
  stop = .iget ∧ ninode < refs.toFinset.card + 2

theorem crowded_of_cons {ip : Nat} (full : ninode ≤ (ip ::ₘ refs).toFinset.card) :
    Crowded refs .iget := by
  have more := Finset.card_insert_le ip refs.toFinset
  rw [Multiset.toFinset_cons] at full
  exact ⟨rfl, by omega⟩

theorem wp_namexFrom :
    ∀ (elems : List (List UInt8)) (ip : Nat) (s : State), Ledger s (ip ::ₘ refs) none →
      (∀ stop, (Orderly s refs → (s.nodeOf ip).type ≠ none → Crowded refs stop) → abort stop) →
      (∀ t, Ledger t refs none → Passed s t refs →
        (Orderly s refs → walk s.node parent (s.itable ip).inum elems = none) → post none t) →
      (∀ e name t, Ledger t (e ::ₘ refs) none → Passed s t refs →
        walk s.node parent (s.itable ip).inum elems = some ((t.itable e).inum, name) →
        (parent = true → (t.itable e).valid = true ∧ (t.nodeOf e).type = some .dir) →
        post (some (e, name)) t) →
      wp (namexFrom parent ip elems) post abort s := by
  intro elems
  induction elems with
  | nil =>
    intro ip s ledger failed missing found
    rw [namexFrom]
    cases parent with
    | true =>
      -- A path without elements has no parent.
      simp only [if_true, wp_bind]
      refine wp_iput ledger fun t dropped passed => ?_
      simpa only [wp_pure] using missing t dropped passed fun _ => rfl
    | false =>
      simp only [Bool.false_eq_true, if_false, wp_pure]
      exact found ip [] s ledger (.refl s refs) rfl (by simp)
  | cons name rest ih =>
    intro ip s ledger failed missing found
    rw [namexFrom]
    simp only [wp_bind]
    have mem : ip ∈ ip ::ₘ refs := Multiset.mem_cons_self ..
    refine wp_ilock ledger mem (fun blank => failed .ilock fun _ typed => absurd blank typed)
      fun t ledger passed node valid => ?_
    have inum := passed.inum ip mem
    have here : s.node (s.itable ip).inum = t.nodeOf ip := by rw [State.nodeOf, node, inum]
    simp only [wp_get]
    split
    · -- Not a directory.
      rename_i other
      simp only [wp_bind]
      refine wp_iput ledger fun u dropped passed' => ?_
      rw [wp_pure]
      refine missing u dropped (passed.of_cons.trans passed') fun _ => ?_
      rw [walk, here, if_pos other]
    · rename_i dir
      have dir := not_not.mp dir
      rw [walk, here, if_neg (not_not.mpr dir)] at found missing
      split
      · -- Stop one level early.
        rename_i last
        rw [if_pos last] at found
        simp only [wp_pure]
        exact found ip name t ledger passed.of_cons (by rw [inum]) fun _ => ⟨valid, dir⟩
      · rename_i more
        rw [if_neg more] at found missing
        simp only [wp_bind]
        refine wp_dirlookup ledger (fun full => failed .iget fun _ _ => crowded_of_cons full)
          (fun other => absurd dir other) (fun _ absent => ?_)
          fun next k u _ there took passed' node' number => ?_
        · simp only [wp_bind]
          refine wp_iput ledger fun u dropped passed' => ?_
          rw [wp_pure]
          refine missing u dropped (passed.of_cons.trans passed') fun _ => ?_
          rw [absent, Option.bind_none]
        · -- The reference to the directory is dropped for the one to what it names.
          rw [Multiset.cons_swap] at took
          simp only [wp_bind]
          refine wp_iput took fun v dropped passed'' => ?_
          have along : Passed s v refs :=
            (passed.of_cons.trans passed'.of_cons).trans passed''.of_cons
          have first : s.node = u.node := node.symm.trans node'.symm
          have reached : (v.itable next).inum = (t.nodeOf ip).inumAt k :=
            (passed''.inum next (Multiset.mem_cons_self ..)).trans number
          rw [there, Option.bind_some, ← reached] at found missing
          refine ih next v dropped (fun stop only => failed stop fun orderly typed => ?_)
            (fun w after passed₂ none => missing w after (along.trans passed₂) fun orderly => ?_)
            fun e last w after passed₂ led locked => ?_
          · -- What a directory names is allocated.
            refine only (along.orderly orderly) ?_
            have named := orderly.entries _ name k (by rw [here]; exact dir) (by rw [here]; exact there)
            rw [here, ← reached] at named
            rw [State.nodeOf, along.unfreed orderly named]
            exact named
          · rw [← along.walk_eq orderly]
            exact none (along.orderly orderly)
          · refine found e last w after (along.trans passed₂) ?_ locked
            rw [first]
            exact passed''.frees.walk led

theorem wp_pathFirst {post : Nat → State → Prop} (ledger : Ledger s refs none)
    (failed : ∀ stop, ((s.task p).cwd ≠ none → Crowded refs stop) → abort stop)
    (cwd : ∀ e, (s.task p).cwd = some e → e ∈ refs)
    (got : ∀ e t, Ledger t (e ::ₘ refs) none → Passed s t refs → t.node = s.node →
      s.start p path = some (t.itable e).inum →
      (Orderly s refs → Settled s refs → (t.nodeOf e).type ≠ none) → post e t) :
    wp (pathFirst p path) post abort s := by
  rw [pathFirst]
  split
  · rename_i absolute
    refine wp_iget ledger (fun full => failed .iget fun _ => ⟨rfl, by omega⟩)
      fun e t more passed node inum => ?_
    refine got e t more passed node ?_ fun orderly _ => ?_
    · rw [State.start, if_pos absolute, inum]
    · rw [State.nodeOf, inum, node]
      exact orderly.root
  · rename_i relative
    simp only [wp_bind, wp_get]
    split
    · rename_i stray
      rw [wp_throw]
      exact failed .fault fun there => absurd stray there
    · rename_i e here
      simp only [wp_bind]
      refine wp_idup ledger (cwd e here) fun t more passed node => ?_
      rw [wp_pure]
      refine got e t more passed node ?_ fun _ settled => ?_
      · rw [State.start, if_neg relative, here, Option.map_some, passed.inum e (cwd e here)]
      · exact passed.settled settled e (cwd e here)

theorem wp_namex (ledger : Ledger s refs none)
    (failed : ∀ stop, (Orderly s refs → Settled s refs → (s.task p).cwd ≠ none →
      Crowded refs stop) → abort stop) (cwd : ∀ e, (s.task p).cwd = some e → e ∈ refs)
    (missing : ∀ t, Ledger t refs none → Passed s t refs →
      (Orderly s refs → s.resolve p path parent = none) → post none t)
    (found : ∀ e name t, Ledger t (e ::ₘ refs) none → Passed s t refs →
      s.resolve p path parent = some ((t.itable e).inum, name) →
      (parent = true → (t.itable e).valid = true ∧ (t.nodeOf e).type = some .dir) →
      post (some (e, name)) t) : wp (namex p path parent) post abort s := by
  rw [namex, wp_bind]
  refine wp_pathFirst ledger (fun stop only => failed stop fun _ _ => only) cwd
    fun first t more passed node start typed => ?_
  have along : s.resolve p path parent =
      walk t.node parent (t.itable first).inum (pathElems (path.length + 1) path) := by
    rw [State.resolve, start, Option.bind_some, ← node]
  rw [along] at found missing
  refine wp_namexFrom _ first t more (fun stop only => failed stop fun orderly settled _ => ?_)
    (fun u after passed' none => missing u after (passed.trans passed') fun orderly => ?_)
    fun e name u after passed' led locked => ?_
  · exact only (passed.orderly orderly) (typed orderly settled)
  · exact none (passed.orderly orderly)
  · exact found e name u after (passed.trans passed') led locked

end Lookup

def Node.made (type : InodeType) (major : Int) (i dp : Nat) : Node :=
  ⟨some type, major, 1, if type = .dir then [⟨i, dot⟩, ⟨dp, dotdot⟩] else []⟩

def Node.grown (node : Node) (type : InodeType) : Node :=
  if type = .dir then { node with nlink := short (node.nlink + 1) } else node

structure Makes (a b : Nat → Node) (type : InodeType) (major : Int) (dp : Nat) (name : List UInt8)
    (i : Nat) : Prop where
  free : (a i).type = none
  pos : i ≠ 0
  dir : (a dp).type = some .dir
  missing : (a dp).find name = none
  made : ∃ grow node, (a dp).link name i grow = some node ∧
    b = update (update a i (.made type major i dp)) dp (node.grown type)

theorem Node.link_type {name : List UInt8} {grow : Bool}
    (linked : node.link name inum grow = some node') : node'.type = node.type := by
  rw [Node.link] at linked
  split at linked
  · obtain rfl := Option.some.inj linked
    rfl
  · split at linked
    · obtain rfl := Option.some.inj linked
      rfl
    · exact absurd linked nofun

@[simp] theorem Node.grown_type (node : Node) (type : InodeType) :
    (node.grown type).type = node.type := by
  unfold Node.grown
  split <;> rfl

section Making

variable {s : State} {refs : Multiset Nat} {abort : Stop → Prop} {grow : Nat → Bool}
  {type : InodeType} {major : Int} {dp ip : Nat} {name : List UInt8}

theorem link_behind {g : Bool} (full : ∀ entry ∈ node.entries, entry.inum ≠ 0)
    (linked : node.link name inum g = some node') :
    node' = { node with entries := node.entries ++ [⟨inum, name⟩] } := by
  have none : node.entries.findIdx? (fun entry => decide (entry.inum = 0)) = none := by
    rw [List.findIdx?_eq_none_iff]
    intro entry mem
    simpa using full entry mem
  rw [Node.link, none] at linked
  simp only at linked
  split at linked
  · exact (Option.some.inj linked).symm
  · exact absurd linked nofun

theorem wp_linkNew {post : Bool → State → Prop}
    (new : s.nodeOf ip = ⟨some type, major, 1, []⟩) (pos : (s.itable ip).inum ≠ 0)
    (apart : (s.itable dp).inum ≠ (s.itable ip).inum) (dir : (s.nodeOf dp).type = some .dir)
    (missing : (s.nodeOf dp).find name = none)
    (failed : ∀ node : Node, node.type ≠ none → post false (s.setNode (s.itable ip).inum node))
    (linked : ∀ node, (s.nodeOf dp).link name (s.itable ip).inum (grow (s.itable dp).inum) =
        some node →
      post true ((s.setNode (s.itable ip).inum
        (.made type major (s.itable ip).inum (s.itable dp).inum)).setNode (s.itable dp).inum node)) :
    wp (linkNew grow type dp name ip) post abort s := by
  -- The entry in the parent comes last, and its own entries leave the parent alone.
  have last : ∀ node : Node, node.type ≠ none →
      node = .made type major (s.itable ip).inum (s.itable dp).inum →
      wp (dirlink grow dp name (s.itable ip).inum) post abort
        (s.setNode (s.itable ip).inum node) := by
    intro node typed eq
    have parent : (s.setNode (s.itable ip).inum node).nodeOf dp = s.nodeOf dp :=
      setNode_of_ne s node apart
    refine wp_dirlink_absent (by rw [parent]; exact dir) (by rw [parent]; exact missing)
      (failed node typed) fun node' place => ?_
    rw [parent, setNode_itable] at place
    rw [setNode_itable, eq]
    exact linked node' place
  have same : s.setNode (s.itable ip).inum (s.nodeOf ip) = s := by
    simp [State.setNode, State.nodeOf]
  simp only [linkNew, wp_bind, wp_get]
  split
  · rename_i isDir
    subst isDir
    have typed : (s.nodeOf ip).type ≠ none := by simp [new]
    simp only [wp_bind]
    refine wp_dirlink_absent (by rw [new]) (by rw [new]; rfl) ?_ fun first place => ?_
    · simp only [Bool.not_false, if_true, wp_pure]
      have ended := failed _ typed
      rwa [same] at ended
    · have first_eq := link_behind (by simp [new]) place
      rw [new, List.nil_append] at first_eq
      simp only [Bool.not_true, Bool.false_eq_true, if_false, wp_bind]
      have now : (s.setNode (s.itable ip).inum first).nodeOf ip = first := nodeOf_setNode s ip first
      refine wp_dirlink_absent (by rw [now, first_eq]) ?_ ?_ fun second place => ?_
      · rw [now, first_eq]
        simp [Node.find, dot, dotdot]
      · simp only [Bool.not_false, if_true, wp_pure]
        exact failed first (by simp [first_eq])
      · rw [now] at place
        have second_eq := link_behind (by simp [first_eq, pos]) place
        have twice : (s.setNode (s.itable ip).inum first).setNode (s.itable ip).inum second =
            s.setNode (s.itable ip).inum second := by simp [State.setNode]
        rw [setNode_itable, twice]
        refine last second (by simp [second_eq, first_eq]) ?_
        simp [second_eq, first_eq, Node.made]
  · rename_i notDir
    have ready := last (s.nodeOf ip) (by simp [new]) (by simp [new, Node.made, notDir])
    rwa [same] at ready

theorem Passed.of_fresh {w : State} (free : (s.node i).type = none)
    (others : ∀ f ∈ refs, (s.itable f).inum ≠ i) (along : Along s w refs)
    (same : ∀ j, j ≠ i → w.node j = s.node j) (passed : Passed w t refs)
    (gone : (t.node i).type = none) : Passed s t refs := by
  refine ⟨along.trans passed.toAlong, fun j => ?_, fun f mem => ?_⟩
  · by_cases here : j = i
    · subst here
      exact .inr ⟨gone, .inl free⟩
    · rw [← same j here]
      exact passed.frees j
  · rw [passed.still f mem, State.nodeOf, along.inum f mem]
    exact same _ (others f mem)

theorem wp_createIn {post : Option Nat → State → Prop}
    (ledger : Ledger s (dp ::ₘ refs) none) (settled : Settled s (dp ::ₘ refs))
    (failed : ∀ stop, abort stop) (valid : (s.itable dp).valid = true)
    (dir : (s.nodeOf dp).type = some .dir) (missing : (s.nodeOf dp).find name = none)
    (none : ∀ t, Ledger t refs none → Passed s t refs → post none t)
    (made : ∀ ip t mid, Ledger t (ip ::ₘ refs) .none → Settled t (ip ::ₘ refs) → Along s t refs →
      ip ∉ refs → (t.itable ip).valid = true →
      Makes s.node mid type major (s.itable dp).inum name (t.itable ip).inum →
      Frees mid t.node → post (some ip) t) :
    wp (createIn grow dp name type major) post abort s := by
  rw [createIn, wp_bind]
  refine wp_ialloc ledger settled (failed .iget) ?_
    fun ip t i pos _ free more along inum loose node => ?_
  · simp only [wp_bind]
    refine wp_iput ledger fun u dropped passed => ?_
    simpa only [wp_pure] using none u dropped passed
  · -- A new inode, which is locked.
    have here : ip ∈ ip ::ₘ dp ::ₘ refs := Multiset.mem_cons_self ..
    have there : dp ∈ dp ::ₘ refs := Multiset.mem_cons_self ..
    have parent : dp ∈ ip ::ₘ dp ::ₘ refs := Multiset.mem_cons_of_mem there
    simp only [wp_bind]
    refine wp_ilock more here (fun _ => failed .ilock) fun u more passed node' locked => ?_
    have number : (u.itable ip).inum = i := (passed.inum ip here).trans inum
    have along : Along s u (dp ::ₘ refs) := along.trans passed.toAlong.of_cons
    have more := more.close here number locked
    have parentInum := along.inum dp there
    rw [node] at node'
    have others : ∀ f ∈ dp ::ₘ refs, (s.itable f).inum ≠ i := by
      rintro f mem rfl
      exact settled f mem free
    have apart : (u.itable dp).inum ≠ (u.itable ip).inum := by
      rw [parentInum, number]
      exact others dp there
    rw [updateNode, wp_modify]
    set v := u.setNode (u.itable ip).inum { u.nodeOf ip with major := major, nlink := 1 } with hv
    have fresh : v.nodeOf ip = ⟨some type, major, 1, []⟩ := by
      rw [hv, nodeOf_setNode, State.nodeOf, number, node', update_self]
    have same : ∀ j, j ≠ i → v.node j = s.node j := by
      intro j other
      rw [hv, setNode_of_ne u _ (by rw [number]; exact other), node', update_of_ne other]
    have old : v.nodeOf dp = s.nodeOf dp := by
      rw [State.nodeOf, hv, setNode_itable, ← hv, same _ (by rw [← number]; exact apart),
        parentInum]
      rfl
    have first : Ledger v (ip ::ₘ dp ::ₘ refs) .none :=
      more.setNode here locked
        (by rw [State.nodeOf, number, node', update_self]; exact Option.some_ne_none _)
    refine wp_linkNew fresh (by rw [hv, setNode_itable, number]; exact pos)
      (by rw [hv, setNode_itable]; exact apart) (by rw [old]; exact dir)
      (by rw [old]; exact missing) (fun partly typed => ?_) fun entered place => ?_
    · -- No place for the entries: the inode is freed again.
      simp only [Bool.false_eq_true, if_false, wp_bind, updateNode, wp_modify]
      have second := first.setNode here locked typed
      set w := v.setNode (v.itable ip).inum partly with hw
      have third : Ledger (w.setNode (w.itable ip).inum { w.nodeOf ip with nlink := 0 })
          (ip ::ₘ dp ::ₘ refs) .none :=
        second.setNode here locked (by rw [hw, nodeOf_setNode]; exact typed)
      refine wp_iput third fun x dropped passed' => ?_
      have gone := third.freed loose (by rw [nodeOf_setNode]) dropped passed'
      refine wp_iput dropped fun y dropped' passed'' => ?_
      rw [wp_pure]
      refine none y dropped' ?_
      refine (Passed.of_fresh free others along.setNode.setNode.setNode (fun j other => ?_) passed'
        (by rw [← number]; exact gone)).of_cons.trans passed''
      have apart' : j ≠ (u.itable ip).inum := by
        rw [number]
        exact other
      exact (setNode_of_ne w _ apart').trans ((setNode_of_ne v _ apart').trans (same j other))
    · -- The directory has an entry for the inode.
      simp only [if_true]
      set made' : Node := .made type major (v.itable ip).inum (v.itable dp).inum with hmade
      set x := (v.setNode (v.itable ip).inum made').setNode (v.itable dp).inum entered with hx
      have locked' : (u.itable dp).valid = true := along.valid dp there valid
      have enteredType : entered.type = some .dir := by
        rw [Node.link_type place, old, dir]
      have second : Ledger x (ip ::ₘ dp ::ₘ refs) .none :=
        (first.setNode here locked (by rw [hmade]; exact Option.some_ne_none _)).setNode parent locked'
          (by rw [enteredType]; exact Option.some_ne_none _)
      have base : ∀ node : Node, update (update v.node i made')
          (s.itable dp).inum node =
          update (update s.node i made') (s.itable dp).inum node := by
        intro node
        rw [hv, State.setNode, number, node', Function.update_idem, Function.update_idem]
      have nodes : ∀ node : Node, (x.setNode (v.itable dp).inum node).node =
          update (update s.node i made') (s.itable dp).inum node := by
        intro node
        rw [← base, ← number, ← parentInum, hx]
        simp only [State.setNode, Function.update_idem]
        rfl
      have makes : Makes s.node (update (update s.node i made')
          (s.itable dp).inum (entered.grown type)) type major (s.itable dp).inum name i := by
        refine ⟨free, pos, dir, missing, grow (v.itable dp).inum, entered, ?_, ?_⟩
        · rw [old] at place
          exact number ▸ place
        · rw [hmade, hv, setNode_itable, number, parentInum]
      -- What is left is to drop the reference to the directory.
      have rest : ∀ y, Ledger y (ip ::ₘ dp ::ₘ refs) .none → y.itable = u.itable →
          y.node = update (update s.node i made') (s.itable dp).inum
            (entered.grown type) → Along s y refs →
          wp (iput dp >>= fun _ => pure (some ip)) post abort y := by
        intro y third table final along'
        rw [Multiset.cons_swap] at third
        rw [wp_bind]
        refine wp_iput third fun z dropped passed' => ?_
        rw [wp_pure]
        have zInum : (z.itable ip).inum = i := by
          rw [passed'.inum ip (Multiset.mem_cons_self ..), table, number]
        have typed : ∀ f ∈ ip ::ₘ refs, (y.nodeOf f).type ≠ .none := by
          intro f mem
          rw [State.nodeOf, final]
          by_cases up : (y.itable f).inum = (s.itable dp).inum
          · rw [up, update_self, Node.grown_type, enteredType]
            simp
          · rw [update_of_ne up]
            rcases Multiset.mem_cons.mp mem with rfl | mem
            · rw [table, number, update_self]
              exact Option.some_ne_none _
            · have keeps := along'.inum f mem
              rw [keeps, update_of_ne (others f (Multiset.mem_cons_of_mem mem))]
              exact settled f (Multiset.mem_cons_of_mem mem)
        refine made ip z y.node dropped (passed'.settled typed)
          (along'.trans passed'.toAlong.of_cons) (fun mem => loose (Multiset.mem_cons_of_mem mem))
          (passed'.valid ip (Multiset.mem_cons_self ..)
            (by rw [table]; exact locked)) ?_ passed'.frees
        rw [zInum, final]
        exact makes
      split
      · rename_i isDir
        rw [updateNode, wp_bind, wp_modify]
        have final := nodes { entered with nlink := short (entered.nlink + 1) }
        have now : x.nodeOf dp = entered := nodeOf_setNode _ dp entered
        rw [now]
        refine rest _ (second.setNode parent locked' (by rw [enteredType]; exact Option.some_ne_none _)) rfl
          ?_ along.of_cons.setNode.setNode.setNode.setNode
        rw [Node.grown, if_pos isDir]
        exact final
      · rename_i notDir
        refine rest x second rfl ?_ along.of_cons.setNode.setNode.setNode
        rw [Node.grown, if_neg notDir, ← nodes entered, hx]
        simp [State.setNode]

theorem wp_create {post : Option Nat → State → Prop} (ledger : Ledger s refs none)
    (settled : Settled s refs) (failed : ∀ stop, abort stop)
    (cwd : ∀ e, (s.task p).cwd = some e → e ∈ refs)
    (none : ∀ t, Ledger t refs none → Passed s t refs → post none t)
    (found : ∀ ip t, Ledger t (ip ::ₘ refs) .none → Passed s t refs → (t.itable ip).valid = true →
      s.named p path = some (t.itable ip).inum → post (some ip) t)
    (made : ∀ ip t first mid dp name, Ledger t (ip ::ₘ refs) .none → Settled t (ip ::ₘ refs) →
      Along s t refs → ip ∉ refs → (t.itable ip).valid = true → s.resolve p path true = some (dp, name) →
      Frees s.node first → Makes first mid type major dp name (t.itable ip).inum →
      Frees mid t.node → post (some ip) t) : wp (create grow p path type major) post abort s := by
  rw [create, wp_bind, nameiparent]
  refine wp_namex ledger (fun stop _ => failed stop) cwd (fun t after passed _ => ?_)
    fun dp name t after passed led locked => ?_
  · simpa only [wp_pure] using none t after passed
  · have mem : dp ∈ dp ::ₘ refs := Multiset.mem_cons_self ..
    obtain ⟨valid, dir⟩ := locked rfl
    simp only [wp_bind]
    refine wp_ilock after mem (fun _ => failed .ilock) fun u after passed' node valid => ?_
    have inum : (u.itable dp).inum = (t.itable dp).inum := passed'.inum dp mem
    have dir : (u.nodeOf dp).type = some .dir := by
      rw [passed'.still dp mem]
      exact dir
    have passed := passed.trans passed'.of_cons
    refine wp_dirlookup after (fun _ => failed .iget) (fun _ => failed .dirlookup)
      (fun _ missing => ?_)
      fun ip k v _ there took passed' _ number => ?_
    · -- There is no such entry.
      refine wp_createIn after ((passed.settled settled).cons (by rw [dir]; exact Option.some_ne_none _)) failed
        valid dir missing (fun w dropped passed' => ?_)
        fun ip w mid more settled along loose valid makes frees => ?_
      · exact none w dropped (passed.trans passed')
      · rw [inum] at makes
        exact made ip w u.node mid _ name more settled (passed.toAlong.trans along) loose valid led
          passed.frees makes frees
    · -- The directory is one that was there, and its entry names what was taken.
      have named : s.named p path = some (v.itable ip).inum := by
        have same : u.nodeOf dp = s.node (t.itable dp).inum := by
          rw [State.nodeOf, inum]
          refine passed.frees.eq_of_type ?_
          rw [← inum]
          intro free
          have both := dir.symm.trans free
          exact absurd both (by simp)
        rw [number, State.named, led, Option.bind_some]
        simp only [← same, there, Option.map_some]
      rw [Multiset.cons_swap] at took
      have passed := passed.trans passed'.of_cons
      simp only [wp_bind]
      refine wp_iput took fun w dropped passed' => ?_
      have here : ip ∈ ip ::ₘ refs := Multiset.mem_cons_self ..
      rw [← passed'.inum ip here] at named
      have passed := passed.trans passed'.of_cons
      refine wp_ilock dropped here (fun _ => failed .ilock) fun x locked passed' _ valid => ?_
      rw [← passed'.inum ip here] at named
      have passed := passed.trans passed'.of_cons
      simp only [wp_get]
      split
      · simpa only [wp_pure] using found ip x locked passed valid named
      · simp only [wp_bind]
        refine wp_iput locked fun y dropped passed' => ?_
        simpa only [wp_pure] using none y dropped (passed.trans passed')

end Making

end Names

end Xv6
