import Xv6.Names.PathLaws

/-! Path resolution: the scanner finds the names between slashes, and the lookup of a path is the
lookup of these names one after another. -/

namespace Xv6

open Prog

/-- The names in a path: the non-empty pieces between slashes, cut to the length of an entry. -/
def pathNames (path : List UInt8) : List (List UInt8) :=
  ((path.splitOn slash).filter fun piece => !piece.isEmpty).map (List.take dirsiz)

section Scanner

variable {path rest name : List UInt8}

@[simp] theorem pathNames_nil : pathNames [] = [] := by
  simp [pathNames]

theorem pathNames_append_slash (before after : List UInt8) :
    pathNames (before ++ slash :: after) = pathNames before ++ pathNames after := by
  simp only [pathNames, List.splitOn]
  rw [List.splitOnP_append_cons (p := (· == slash)) before after (beq_self_eq_true slash),
    List.filter_append, List.map_append]

theorem pathNames_piece {piece : List UInt8} (plain : ∀ c ∈ piece, c ≠ slash) (some : piece ≠ []) :
    pathNames piece = [piece.take dirsiz] := by
  have whole : piece.splitOnP (· == slash) = [piece] :=
    List.splitOnP_eq_singleton fun c mem => beq_false_of_ne (plain c mem)
  simp [pathNames, List.splitOn, whole, some]

theorem pathNames_dropWhile (path : List UInt8) :
    pathNames (path.dropWhile (· == slash)) = pathNames path := by
  induction path with
  | nil => rfl
  | cons c rest ih =>
    by_cases isSlash : c = slash
    · subst isSlash
      have front := pathNames_append_slash [] rest
      rw [List.nil_append, pathNames_nil, List.nil_append] at front
      rw [List.dropWhile_cons_of_pos (p := (· == slash)) (beq_self_eq_true slash), ih, front]
    · rw [List.dropWhile_cons_of_neg (by simpa using isSlash)]

theorem pathNames_front {c : UInt8} (plain : c ≠ slash) :
    pathNames (c :: rest) = ((c :: rest).takeWhile (· != slash)).take dirsiz ::
      pathNames ((c :: rest).dropWhile (· != slash)) := by
  have word : (c :: rest).takeWhile (· != slash) ≠ [] := by
    rw [List.takeWhile_cons_of_pos (by simpa using plain)]
    exact List.cons_ne_nil _ _
  have letters : ∀ d ∈ (c :: rest).takeWhile (· != slash), d ≠ slash := by
    intro d mem
    simpa using List.all_eq_true.mp (List.all_takeWhile (p := (· != slash))) d mem
  have parts := List.takeWhile_append_dropWhile (p := (· != slash)) (l := c :: rest)
  -- The name ends at a slash or at the end of the path.
  cases left : (c :: rest).dropWhile (· != slash) with
  | nil =>
    rw [left, List.append_nil] at parts
    rw [pathNames_nil, ← pathNames_piece letters word, parts]
  | cons d more =>
    have stop := List.head_dropWhile_not (· != slash) (l := c :: rest) (by simp [left])
    have isSlash : d = slash := by simpa [left] using stop
    subst isSlash
    have front := pathNames_append_slash [] more
    rw [left] at parts
    rw [List.nil_append, pathNames_nil, List.nil_append] at front
    calc pathNames (c :: rest) =
        pathNames ((c :: rest).takeWhile (· != slash) ++ slash :: more) := by rw [parts]
      _ = ((c :: rest).takeWhile (· != slash)).take dirsiz :: pathNames (slash :: more) := by
        rw [pathNames_append_slash, pathNames_piece letters word, front, List.singleton_append]

theorem pathNames_of_none (ended : skipelem path = none) : pathNames path = [] := by
  unfold skipelem at ended
  split at ended
  · rename_i empty
    rw [← pathNames_dropWhile, empty, pathNames_nil]
  · simp at ended

theorem pathNames_of_some (next : skipelem path = some (rest, name)) :
    pathNames path = name :: pathNames rest ∧ rest.length < path.length ∧
      rest.head? ≠ some slash := by
  have shorter := (List.dropWhile_suffix (· == slash) (l := path)).length_le
  unfold skipelem at next
  split at next
  · simp at next
  · rename_i front
    cases word : path.dropWhile (· == slash) with
    | nil => exact absurd word front
    | cons c tail =>
      rw [word] at next shorter
      obtain ⟨rfl, rfl⟩ := Prod.mk.inj (Option.some.inj next)
      have plain : c ≠ slash := by
        have stop := List.head_dropWhile_not (· == slash) (l := path) (by simp [word])
        simpa [word] using stop
      refine ⟨?_, ?_, ?_⟩
      · rw [pathNames_dropWhile, ← pathNames_front plain, ← word, pathNames_dropWhile]
      · -- At least one character belongs to the name.
        rw [List.dropWhile_cons_of_pos (by simpa using plain)]
        have first := (List.dropWhile_suffix (· != slash) (l := tail)).length_le
        have second := (List.dropWhile_suffix (· == slash)
          (l := tail.dropWhile (· != slash))).length_le
        simp only [List.length_cons] at shorter
        omega
      · intro slashed
        have stop := List.head?_dropWhile_not (· == slash)
          (l := (c :: tail).dropWhile (· != slash))
        rw [slashed] at stop
        simp at stop

theorem pathElems_eq : ∀ {fuel : Nat} {path : List UInt8}, path.length < fuel →
    pathElems fuel path = pathNames path := by
  intro fuel
  induction fuel with
  | zero => simp
  | succ fuel ih =>
    intro path enough
    rw [pathElems]
    split
    · rename_i ended
      rw [pathNames_of_none ended]
    · rename_i rest name next
      obtain ⟨names, shorter, -⟩ := pathNames_of_some next
      rw [ih (by omega), names]

theorem pathNames_eq_nil (trimmed : rest.head? ≠ some slash) : pathNames rest = [] ↔ rest = [] := by
  cases rest with
  | nil => simp
  | cons c more =>
    have plain : c ≠ slash := by simpa using trimmed
    simp [pathNames_front plain]

end Scanner

namespace Names

/-- `namex` as it scans the path: one element, one step. -/
def namexScan (parent : Bool) : Nat → Nat → List UInt8 → Op (Option (Nat × List UInt8))
  | 0, _, _ => throw .fault
  | fuel + 1, ip, path => do
    match skipelem path with
    | none =>
      if parent then
        iput ip
        return none
      return some (ip, [])
    | some (path, name) =>
      ilock ip
      if ((← get).nodeOf ip).type ≠ some .dir then
        iput ip
        return none
      -- Stop one level early.
      if parent && path.isEmpty then return some (ip, name)
      match ← dirlookup ip name with
      | none =>
        iput ip
        return none
      | some (next, _) =>
        iput ip
        namexScan parent fuel next path

theorem namexScan_eq {parent : Bool} : ∀ {fuel : Nat} {path : List UInt8} (ip : Nat),
    path.length < fuel → namexScan parent fuel ip path =
      namexFrom parent ip (pathElems fuel path) := by
  intro fuel
  induction fuel with
  | zero => simp
  | succ fuel ih =>
    intro path ip enough
    cases next : skipelem path with
    | none => simp only [namexScan, pathElems, next, namexFrom]
    | some result =>
      obtain ⟨rest, name⟩ := result
      obtain ⟨-, shorter, trimmed⟩ := pathNames_of_some next
      -- The path is at its end exactly when no element is left.
      have last : rest.isEmpty = (pathElems fuel rest).isEmpty := by
        rw [pathElems_eq (by omega), Bool.eq_iff_iff, List.isEmpty_iff, List.isEmpty_iff,
          pathNames_eq_nil trimmed]
      have follow : ∀ ip, namexScan parent fuel ip rest =
          namexFrom parent ip (pathElems fuel rest) := fun ip => ih ip (by omega)
      simp only [namexScan, pathElems, next, last, follow] <;> rfl

/-- Look up names one after another, each in the directory that the one before named. -/
def lookups (node : Nat → Node) : Nat → List (List UInt8) → Option Nat
  | i, [] => some i
  | i, name :: rest =>
    if (node i).type = some .dir then
      ((node i).find name).bind fun k => lookups node ((node i).inumAt k) rest
    else none

/-- All names but the last are looked up, which is returned with the directory for it. -/
def parentOf (node : Nat → Node) (i : Nat) (names : List (List UInt8)) :
    Option (Nat × List UInt8) :=
  names.getLast?.bind fun last =>
    (lookups node i names.dropLast).bind fun d =>
      if (node d).type = some .dir then some (d, last) else none

section Walks

variable {node : Nat → Node}

theorem walk_lookups : ∀ (names : List (List UInt8)) (i : Nat),
    (walk node false i names).map Prod.fst = lookups node i names := by
  intro names
  induction names with
  | nil =>
    intro i
    rfl
  | cons name rest ih =>
    intro i
    rw [walk, lookups]
    by_cases dir : (node i).type = some .dir
    · rw [if_neg (not_not.mpr dir), if_pos dir, Bool.false_and, if_neg Bool.false_ne_true,
        Option.map_bind]
      exact congrArg _ (funext fun k => ih _)
    · rw [if_pos dir, if_neg dir, Option.map_none]

theorem walk_parentOf : ∀ (names : List (List UInt8)) (i : Nat),
    walk node true i names = parentOf node i names := by
  intro names
  induction names with
  | nil =>
    intro i
    rfl
  | cons name rest ih =>
    intro i
    rw [walk]
    cases rest with
    | nil =>
      -- The directory for the last name is where the lookup stands.
      by_cases dir : (node i).type = some .dir <;> simp [parentOf, lookups]
    | cons second more =>
      by_cases dir : (node i).type = some .dir
      · rw [if_neg (not_not.mpr dir), List.isEmpty_cons, Bool.and_false, if_neg Bool.false_ne_true]
        simp only [ih]
        simp only [parentOf, List.dropLast_cons_cons, lookups, dir]
        cases (node i).find name with
        | none => simp
        | some k => simp
      · rw [if_pos dir]
        simp [parentOf, lookups, dir]

end Walks

namespace Scan

/-- `namex`, with the path scanned on the way. -/
def namex (p : Nat) (path : List UInt8) (parent : Bool) : Op (Option (Nat × List UInt8)) := do
  let first ← pathFirst p path
  namexScan parent (path.length + 1) first path

/-- The inode a path names. -/
def namei (p : Nat) (path : List UInt8) : Op (Option Nat) := do
  return (← namex p path false).map Prod.fst

/-- The directory of the last element of a path, with that element. -/
def nameiparent (p : Nat) (path : List UInt8) : Op (Option (Nat × List UInt8)) := namex p path true

theorem namex_eq (p : Nat) (path : List UInt8) (parent : Bool) :
    namex p path parent = Names.namex p path parent := by
  simp only [namex, Names.namex, namexScan_eq _ (Nat.lt_succ_self path.length)]

end Scan

/-- The counts of references change by one that is returned, and nothing else changes. -/
structure Takes (s t : State) (refs : Multiset Nat) (got : Option Nat) : Prop where
  count : ∀ e, (t.itable e).ref = (s.itable e).ref + if got = some e then 1 else 0
  /-- Entries in use stay with their inodes. -/
  inum : ∀ e ∈ refs, (t.itable e).inum = (s.itable e).inum
  node : ∀ i, (s.node i).type ≠ none → t.node i = s.node i
  ftable : t.ftable = s.ftable
  task : t.task = s.task

/-- How a lookup ends: with an answer and the reference for it, unless the table of inodes has
fewer than two free entries and the kernel stops. -/
def Looked {α : Type} (s : State) (refs : Multiset Nat) (lookup : Op α)
    (answer : α → State → Prop) (got : α → Option Nat) : Prop :=
  wp lookup (fun r t => answer r t ∧ Takes s t refs (got r)) (Crowded refs) s

section Resolution

variable {s t : State} {refs : Multiset Nat} {p : Nat} {path : List UInt8}

theorem Takes.of_missing (before : Ledger s refs none) (orderly : Orderly s refs)
    (after : Ledger t refs none) (passed : Passed s t refs) : Takes s t refs none :=
  ⟨fun e => by rw [after.count, before.count]; simp, passed.inum,
    fun _ typed => passed.unfreed orderly typed, passed.ftable, passed.task⟩

theorem Takes.of_found {e : Nat} (before : Ledger s refs none) (orderly : Orderly s refs)
    (after : Ledger t (e ::ₘ refs) none) (passed : Passed s t refs) : Takes s t refs (some e) := by
  refine ⟨fun f => ?_, passed.inum, fun _ typed => passed.unfreed orderly typed, passed.ftable,
    passed.task⟩
  rw [after.count, before.count, Multiset.count_cons]
  simp only [Option.some.injEq, eq_comm]

theorem namex_looked (ledger : Ledger s refs none) (settled : Settled s refs)
    (orderly : Orderly s refs) (cwd : ∃ e ∈ refs, (s.task p).cwd = some e) (parent : Bool) :
    Looked s refs (Scan.namex p path parent)
      (fun r t => r.map (fun found => ((t.itable found.1).inum, found.2)) =
        s.resolve p path parent) (Option.map Prod.fst) := by
  obtain ⟨dir, mem, here⟩ := cwd
  rw [Looked, Scan.namex_eq]
  refine wp_namex ledger (fun stop only => only orderly settled (by rw [here]; exact nofun))
    (fun e there => ?_) (fun t after passed none => ?_) fun e name t after passed led _ => ?_
  · rw [here] at there
    exact Option.some.inj there ▸ mem
  · exact ⟨(none orderly).symm, .of_missing ledger orderly after passed⟩
  · exact ⟨led.symm, .of_found ledger orderly after passed⟩

/-- Path resolution is component-wise lookup. The scanner yields the names between slashes, cut to
the length of an entry. A lookup returns what they lead to from the root or the current directory,
or the directory for the last one with that name, with one reference to it and no other change of
references. -/
theorem path_resolution :
    (∀ fuel path, path.length < fuel → pathElems fuel path = pathNames path) ∧
    ∀ (s : State) (refs : Multiset Nat) (p : Nat) (path : List UInt8), Ledger s refs none →
      Settled s refs → Orderly s refs → (∃ e ∈ refs, (s.task p).cwd = some e) →
      ∃ first, s.start p path = some first ∧
        Looked s refs (Scan.namei p path)
          (fun r t => r.map (fun e => (t.itable e).inum) = lookups s.node first (pathNames path))
          id ∧
        Looked s refs (Scan.nameiparent p path)
          (fun r t => r.map (fun found => ((t.itable found.1).inum, found.2)) =
            parentOf s.node first (pathNames path))
          (Option.map Prod.fst) := by
  refine ⟨fun fuel path enough => pathElems_eq enough,
    fun s refs p path ledger settled orderly cwd => ?_⟩
  obtain ⟨first, start⟩ : ∃ first, s.start p path = some first := by
    obtain ⟨e, -, here⟩ := cwd
    rw [State.start, here]
    split <;> exact ⟨_, rfl⟩
  have resolved : ∀ parent, s.resolve p path parent = walk s.node parent first (pathNames path) := by
    intro parent
    rw [State.resolve, start, Option.bind_some, pathElems_eq (Nat.lt_succ_self _)]
  refine ⟨first, start, ?_, ?_⟩
  · -- `namei` returns the inode of what the walk over all names finds.
    rw [Looked, Scan.namei, wp_bind]
    refine wp_imp (namex_looked ledger settled orderly cwd false) fun r t ended => ?_
    rw [wp_pure, ← walk_lookups, ← resolved, ← ended.1]
    cases r with
    | none => exact ⟨rfl, ended.2⟩
    | some found => exact ⟨rfl, ended.2⟩
  · have looked := @namex_looked s refs p path ledger settled orderly cwd true
    simp only [resolved, walk_parentOf] at looked
    exact looked

end Resolution

/-- A file in a directory of the root directory, where a process is. -/
def treeState : State where
  ninodes := 200
  node i :=
    if i = 1 then ⟨some .dir, 0, 1, [⟨1, dot⟩, ⟨1, dotdot⟩, ⟨2, [97]⟩]⟩
    else if i = 2 then ⟨some .dir, 0, 1, [⟨2, dot⟩, ⟨1, dotdot⟩, ⟨3, [98]⟩]⟩
    else if i = 3 then ⟨some .file, 0, 1, []⟩
    else ⟨none, 0, 0, []⟩
  itable e := if e = 0 then ⟨rootino, 1, true⟩ else ⟨0, 0, false⟩
  ftable _ := ⟨0, .none, 0⟩
  task p := ⟨decide (p = 0), 1, if p = 0 then some 0 else none, fun _ => none, none, none⟩

theorem treeState_ledger : Ledger treeState {0} none := by
  refine ⟨fun e => ?_, fun e mem => ?_, fun e mem f mem' _ => ?_, fun e mem _ => ?_,
    fun i _ typed zero => ?_⟩
  · by_cases here : e = 0
    · simp [treeState, here]
    · simp [treeState, here]
  · rw [Multiset.mem_singleton.mp mem]
    decide
  · rw [Multiset.mem_singleton.mp mem, Multiset.mem_singleton.mp mem']
  · rw [Multiset.mem_singleton.mp mem]
    decide
  · -- Every inode that is allocated has a link.
    simp only [treeState] at typed zero
    split_ifs at typed zero <;> simp at typed zero

theorem treeState_orderly : Orderly treeState {0} := by
  refine ⟨by decide, fun i name k dir found => ?_, fun i typed zero => ?_⟩
  · obtain ⟨entry, mem, -, -, number⟩ := Node.find_spec found
    have known : i = 1 ∨ i = 2 := by
      simp only [treeState] at dir
      split_ifs at dir <;> simp_all
    rw [number]
    rcases known with rfl | rfl <;> simp [treeState] at mem <;>
      rcases mem with rfl | rfl | rfl <;> decide
  · simp only [treeState] at typed zero
    split_ifs at typed zero <;> simp at typed zero

/-- The file is found, with slashes repeated before and after its name; a name in the file is not. -/
theorem path_resolution_tree :
    pathNames [47, 97, 47, 47, 98, 47] = [[97], [98]] ∧
    Looked treeState {0} (Scan.namei 0 [47, 97, 47, 47, 98, 47])
      (fun r t => r.map (fun e => (t.itable e).inum) = some 3) id ∧
    Looked treeState {0} (Scan.nameiparent 0 [97, 47, 98, 47, 99])
      (fun r t => r.map (fun found => ((t.itable found.1).inum, found.2)) = none)
      (Option.map Prod.fst) := by
  have settled : Settled treeState {0} := by
    intro e mem
    rw [Multiset.mem_singleton.mp mem]
    decide
  have cwd : ∃ e ∈ ({0} : Multiset Nat), (treeState.task 0).cwd = some e := ⟨0, by simp, rfl⟩
  obtain ⟨first, start, found, -⟩ := path_resolution.2 treeState {0} 0 [47, 97, 47, 47, 98, 47]
    treeState_ledger settled treeState_orderly cwd
  obtain ⟨first', start', -, missing⟩ := path_resolution.2 treeState {0} 0 [97, 47, 98, 47, 99]
    treeState_ledger settled treeState_orderly cwd
  obtain rfl : rootino = first := Option.some.inj start
  obtain rfl : rootino = first' := Option.some.inj start'
  exact ⟨by decide, found, missing⟩

end Names

end Xv6
