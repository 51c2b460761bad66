import Xv6.ExecOutcome
import Xv6.UserCopies

/-! The argument block of a new program: the strings, the pointers to them, and their places. -/

namespace Xv6

open Prog

/-- A size rounded up to a multiple of sixteen. -/
def align16 (n : Nat) : Nat := (n + 15) / 16 * 16

/-- The room the argument strings take, each with its zero. -/
def argBytes (argv : List (List UInt8)) : Nat :=
  (argv.map fun arg => align16 (arg.length + 1)).sum

/-- The room the strings and the pointers to them take. -/
def blockBytes (argv : List (List UInt8)) : Nat := argBytes argv + align16 ((argv.length + 1) * 8)

/-- The places of the strings, one under the other. -/
def argPlaces : Nat → List (List UInt8) → List Nat
  | _, [] => []
  | top, arg :: rest =>
    (top - align16 (arg.length + 1)) :: argPlaces (top - align16 (arg.length + 1)) rest

theorem argBytes_cons (arg : List UInt8) (rest : List (List UInt8)) :
    argBytes (arg :: rest) = align16 (arg.length + 1) + argBytes rest := by
  simp only [argBytes, List.map_cons, List.sum_cons]

theorem le_align16 (n : Nat) : n ≤ align16 n := by
  rw [align16]
  omega

theorem length_argPlaces (argv : List (List UInt8)) : ∀ top,
    (argPlaces top argv).length = argv.length := by
  induction argv with
  | nil => exact fun _ => rfl
  | cons arg rest ih =>
    intro top
    rw [argPlaces, List.length_cons, ih, List.length_cons]

theorem argPlaces_bounds {argv : List (List UInt8)} : ∀ {top i q : Nat} {arg : List UInt8},
    argBytes argv ≤ top → argv[i]? = some arg → (argPlaces top argv)[i]? = some q →
    top - argBytes argv ≤ q ∧ q + (arg.length + 1) ≤ top := by
  induction argv with
  | nil => intro top i q arg _ here; simp at here
  | cons first rest ih =>
    intro top i q arg room here place
    rw [argBytes_cons] at room ⊢
    have large := le_align16 (first.length + 1)
    cases i with
    | zero =>
      obtain rfl : first = arg := by simpa using here
      obtain rfl : _ = q := by simpa [argPlaces] using place
      omega
    | succ i =>
      have later := ih (by omega) here place
      omega

theorem argPlaces_apart {argv : List (List UInt8)} : ∀ {top i j q q' : Nat} {arg : List UInt8},
    argBytes argv ≤ top → i < j → (argPlaces top argv)[i]? = some q → argv[j]? = some arg →
    (argPlaces top argv)[j]? = some q' → q' + (arg.length + 1) ≤ q := by
  induction argv with
  | nil => intro top i j q q' arg _ _ place; simp [argPlaces] at place
  | cons first rest ih =>
    intro top i j q q' arg room before place here place'
    rw [argBytes_cons] at room
    obtain ⟨j, rfl⟩ := Nat.exists_eq_succ_of_ne_zero (show j ≠ 0 by omega)
    rw [Nat.succ_eq_add_one, List.getElem?_cons_succ] at here
    cases i with
    | zero =>
      obtain rfl : _ = q := by simpa [argPlaces] using place
      exact (argPlaces_bounds (by omega) here place').2
    | succ i =>
      exact ih (by omega) (by omega) place here place'

/-- A page holds bytes from a place on. -/
def PageHolds (page : Nat → UInt8) (off : Nat) (bytes : List UInt8) : Prop :=
  ∀ k byte, bytes[k]? = some byte → page (off + k) = byte

/-- A page holds every argument string at its place. -/
def StringsHeld (page : Nat → UInt8) (base top : Nat) (argv : List (List UInt8)) : Prop :=
  ∀ (i q : Nat) (arg : List UInt8), argv[i]? = some arg → (argPlaces top argv)[i]? = some q →
    PageHolds page (q - base) (arg ++ [0])

theorem pageHolds_writeBytes (page : Nat → UInt8) (off : Nat) (bytes : List UInt8) :
    PageHolds (writeBytes page off bytes) off bytes := by
  intro k byte here
  obtain ⟨inside, rfl⟩ := List.getElem?_eq_some_iff.mp here
  simp [writeBytes, inside]

theorem PageHolds.above {page page' : Nat → UInt8} {off limit : Nat} {bytes : List UInt8}
    (holds : PageHolds page off bytes) (low : limit ≤ off)
    (same : ∀ o, limit ≤ o → page' o = page o) : PageHolds page' off bytes := by
  intro k byte here
  rw [same _ (by omega), holds k byte here]

theorem pushDown_eq {sp bytes : Nat} (aligned : sp % 16 = 0) (low : pgsize ≤ sp)
    (high : sp ≤ maxva) (small : bytes ≤ pgsize) : pushDown sp bytes = sp - align16 bytes := by
  simp only [pushDown, usub, u64, align16, maxva] at *
  omega

section Layout

variable {base : Nat} {argv : List (List UInt8)} {sp sp' : Nat} {ustack ustack' : List Nat}
  {page page' : Nat → UInt8}

theorem layArgs_spec (room : pgsize ≤ base) (limit : base + pgsize ≤ maxva)
    (short : ∀ arg ∈ argv, arg.length < pgsize) (low : base ≤ sp) (high : sp ≤ base + pgsize)
    (aligned : sp % 16 = 0)
    (laid : layArgs base argv sp ustack page = some (sp', ustack', page')) :
    sp' + argBytes argv = sp ∧ base ≤ sp' ∧ sp' % 16 = 0 ∧
    ustack' = ustack ++ argPlaces sp argv ∧
    StringsHeld page' base sp argv ∧
    ∀ o, sp - base ≤ o → page' o = page o := by
  -- The induction is on the strings; each one is written under those before it.
  induction argv generalizing sp ustack page with
  | nil =>
    obtain ⟨rfl, rfl, rfl⟩ := laid
    exact ⟨rfl, low, aligned, by simp [argPlaces], fun i q arg here => by simp at here,
      fun _ _ => rfl⟩
  | cons arg rest ih =>
    rw [layArgs] at laid
    split at laid
    · simp at laid
    split at laid
    · simp at laid
    rename_i inside
    have length := short arg List.mem_cons_self
    have moved : pushDown sp (arg.length + 1) = _ :=
      pushDown_eq aligned (by omega) (by omega) (by omega)
    rw [moved] at laid inside
    have large := le_align16 (arg.length + 1)
    have next : (sp - align16 (arg.length + 1)) % 16 = 0 := by
      simp only [align16] at *
      omega
    obtain ⟨total, above, aligned', places, strings, same⟩ :=
      ih (fun other member => short other (List.mem_cons_of_mem _ member)) (by omega) (by omega)
        next laid
    refine ⟨?_, above, aligned', ?_, ?_, ?_⟩
    · rw [argBytes_cons]
      omega
    · rw [places, List.append_assoc]
      rfl
    · intro i q other here place
      cases i with
      | zero =>
        -- The string written first is not touched by those under it.
        obtain rfl : arg = other := by simpa using here
        obtain rfl : _ = q := by simpa [argPlaces] using place
        exact (pageHolds_writeBytes _ _ _).above (Nat.le_refl _) same
      | succ i =>
        exact strings i q other here place
    · intro o high'
      rw [same o (by omega), writeBytes, if_neg]
      simp only [List.length_append, List.length_cons, List.length_nil]
      omega

theorem layStack_spec {argc : Nat} (room : pgsize ≤ base) (limit : base + pgsize ≤ maxva)
    (aligned : base % pgsize = 0) (short : ∀ arg ∈ argv, arg.length < pgsize)
    (laid : layStack base argv = some (sp, argc, page)) :
    argc = argv.length ∧ sp + blockBytes argv = base + pgsize ∧ base ≤ sp ∧ sp % 16 = 0 ∧
    PageHolds page (sp - base) ((argPlaces (base + pgsize) argv ++ [0]).flatMap wordBytes) ∧
    StringsHeld page base (base + pgsize) argv := by
  unfold layStack at laid
  split at laid
  · simp at laid
  rename_i spₛ ustack pageₛ strings
  have top : (base + pgsize) % 16 = 0 := by
    simp only [pgsize] at *
    omega
  obtain ⟨-, -, few⟩ := layArgs_bounds room limit short strings (by omega) (by omega) (by simp)
  obtain ⟨total, above, aligned', rfl, held, -⟩ := layArgs_spec room limit short
    (show base ≤ base + pgsize by omega) (Nat.le_refl _) top strings
  rw [List.nil_append] at laid few
  rw [layWords, length_argPlaces] at laid
  rw [length_argPlaces] at few
  split at laid
  · simp at laid
  rename_i inside
  have moved : pushDown spₛ ((argv.length + 1) * 8) = _ :=
    pushDown_eq aligned' (by omega) (by omega) (by simp only [maxarg, pgsize] at *; omega)
  obtain ⟨rfl, rfl, rfl⟩ := laid
  have large := le_align16 ((argv.length + 1) * 8)
  refine ⟨rfl, ?_, Nat.not_lt.mp inside, ?_, pageHolds_writeBytes _ _ _, ?_⟩
  · rw [blockBytes]
    have positive : 0 < base := Nat.lt_of_lt_of_le pgsize_pos room
    omega
  · simp only [align16] at *
    omega
  · -- The pointers are written below the strings.
    intro i q arg here place
    have bounds := argPlaces_bounds (by omega) here place
    have low : spₛ - base ≤ q - base := by omega
    refine (held i q arg here place).above low fun o high => ?_
    rw [writeBytes, if_neg]
    rw [length_flatMap_wordBytes, List.length_append, length_argPlaces]
    simp only [List.length_cons, List.length_nil]
    omega

end Layout

/-- Push the argument strings and the pointers to them, returning the stack pointer and count. -/
def pushStack (env : FsEnv) (argv : List (List UInt8)) (pt : PageTable) (sz : Nat) :
    KernOp (Option (Nat × Nat)) := do
  let stackbase := usub sz (userstack * pgsize)
  match ← pushArgs env pt stackbase argv sz [] with
  | none => return none
  | some (sp, ustack) =>
    let sp := pushDown sp ((ustack.length + 1) * 8)
    if sp < stackbase then return none
    else if (← copyout env (some pt) sp ((ustack ++ [0]).flatMap wordBytes)) < 0 then return none
    else return some (sp, ustack.length)

/-- The process of a new program finds its arguments where its registers point. -/
structure Machine.ArgBlock (m : Machine) (argv : List (List UInt8)) (places : List Nat) : Prop where
  count : places.length = argv.length
  pointer : m.proc.tf.a1 = m.proc.tf.sp
  aligned : m.proc.tf.sp % 16 = 0
  /-- The block lies on the stack. -/
  low : m.proc.paging.heapStart - userstack * pgsize ≤ m.proc.tf.sp
  high : ∀ (i q : Nat) (arg : List UInt8), argv[i]? = some arg → places[i]? = some q →
    q + (arg.length + 1) ≤ m.proc.paging.heapStart
  /-- The pointers end with a null pointer, and what they point to are the arguments. -/
  words : m.UserBytes none m.proc.tf.sp ((places ++ [0]).flatMap wordBytes)
  strings : ∀ (i q : Nat) (arg : List UInt8), argv[i]? = some arg → places[i]? = some q →
    m.UserBytes none q (arg ++ [0])
  /-- The pointers and the strings do not overlap. -/
  under : ∀ q ∈ places, m.proc.tf.sp + (argv.length + 1) * 8 ≤ q
  apart : ∀ (i j q q' : Nat) (arg : List UInt8), i < j → places[i]? = some q →
    argv[j]? = some arg → places[j]? = some q' → q' + (arg.length + 1) ≤ q

section Exec

variable {env : FsEnv} {m m' : Machine} {path : List UInt8} {argv : List (List UInt8)} {r : Int}

theorem execArgs_eq (entry : Nat) (pt : PageTable) (sz : Nat) :
    execArgs env entry argv pt sz = pushStack env argv pt sz >>= fun pushed => match pushed with
      | none => execBad (some (pt, sz))
      | some (sp, argc) => execCommit entry pt sz sp argc := by
  simp only [pushStack, bind_assoc]
  refine bind_congr fun pushed => ?_
  cases pushed with
  | none => simp only [pure_bind]
  | some result =>
    simp only
    split
    · simp only [pure_bind]
    · simp only [bind_assoc]
      refine bind_congr fun copied => ?_
      split <;> simp only [pure_bind]

theorem pushStack_spec {pt : PageTable} {trampoline trapframe top guard stack : Nat}
    {pushed : Option (Nat × Nat)} (aligned : top % pgsize = 0) (under : top + pgsize < trapframeVa)
    (image : pt.Image trampoline trapframe top guard stack)
    (short : ∀ arg ∈ argv, arg.length < pgsize)
    (ran : pushStack env argv pt (top + 2 * pgsize) m = .ok (pushed, m')) :
    (∃ page, m' = { m with kmem := m.kmem.put stack page }) ∧
      (pgsize < blockBytes argv → pushed = none) := by
  have limit : top + pgsize + pgsize ≤ maxva := by
    simp only [trapframeVa, trampolineVa] at *
    omega
  have stackbase : usub (top + 2 * pgsize) (userstack * pgsize) = top + pgsize := by
    simp only [usub, u64, userstack, maxva] at *
    omega
  have aligned' : (top + pgsize) % pgsize = 0 := by rw [Nat.add_mod_right]; exact aligned
  have found := image.stack_entry under
  have judged : wp (pushStack env argv pt (top + 2 * pgsize)) (fun pushed m' =>
      (∃ page, m' = { m with kmem := m.kmem.put stack page }) ∧
      (pgsize < blockBytes argv → pushed = none)) (fun _ => True)
      { m with kmem := m.kmem.put stack (m.kmem.ram stack) } := by
    rw [pushStack, wp_bind, stackbase, two_mul, ← Nat.add_assoc]
    refine wp_pushArgs aligned' (by omega) limit found rfl rfl argv _ [] _ short (by omega)
      (Nat.le_refl _) (fun _ page => ?_) fun sp ustack page laid => ?_
    · simp only [wp_pure]
      exact ⟨⟨page, rfl⟩, fun _ => trivial⟩
    -- The strings fit, and what is left must take the pointers.
    obtain ⟨-, high, few⟩ := layArgs_bounds (by omega) limit short laid (by omega) (Nat.le_refl _)
      (by simp)
    obtain ⟨total, low, sixteenth, rfl, -, -⟩ := layArgs_spec (by omega) limit short (by omega)
      (Nat.le_refl _) (by simp only [pgsize] at *; omega) laid
    rw [List.nil_append] at few ⊢
    rw [length_argPlaces] at few
    have moved : pushDown sp ((argv.length + 1) * 8) = _ := pushDown_eq sixteenth (by omega)
      (by omega) (by simp only [maxarg, pgsize] at *; omega)
    have large := le_align16 ((argv.length + 1) * 8)
    simp only [length_argPlaces]
    split
    · simp only [wp_pure]
      exact ⟨⟨page, rfl⟩, fun _ => trivial⟩
    rename_i inside
    have positive := pgsize_pos
    rw [wp_bind]
    refine wp_copyout_page aligned' (by simp only [pgsize] at *; omega) found rfl rfl
      (Nat.not_lt.mp inside) ?_ ?_
    · rw [length_flatMap_wordBytes, List.length_append, length_argPlaces, List.length_singleton]
      omega
    · simp only [Kmem.put_put, show ¬ ((0 : Int) < 0) by decide, if_false,
        wp_pure]
      refine ⟨⟨_, rfl⟩, fun tooLarge => ?_⟩
      rw [blockBytes] at tooLarge
      omega
  rw [Kmem.put_ram] at judged
  have done := wp_ok judged ran
  exact done

theorem PageHolds.userBytes {base q stack : Nat} {perm : Perm} {bytes : List UInt8}
    (holds : PageHolds (m.kmem.ram stack) (q - base) bytes)
    (page : m.proc.pagetable.UserPage base ⟨stack, perm⟩) (aligned : base % pgsize = 0)
    (low : base ≤ q) (high : q + bytes.length ≤ base + pgsize) : m.UserBytes none q bytes := by
  intro i byte here
  have inside := (List.getElem?_eq_some_iff.mp here).1
  have near : (q + i) / pgsize = base / pgsize ∧ (q + i) % pgsize = q - base + i := by
    simp only [pgsize] at *
    omega
  refine ⟨_, page.near near.1, ?_⟩
  rw [near.2]
  exact holds i byte here

theorem Machine.Execs.argBlock (ends : m.Execs env path argv r m') (success : r ≠ -1)
    (short : ∀ arg ∈ argv, arg.length < pgsize) : r = argv.length ∧
      m'.ArgBlock argv (argPlaces m'.proc.paging.heapStart argv) ∧ blockBytes argv ≤ pgsize := by
  cases ends with
  | commit ip hdr f k pt guard stack sp argc page reads ready opened laid image traded filled =>
    have under := ready.under
    have aligned : (execLoad m.fs ip hdr).top % pgsize = 0 := pgroundup_mod _
    generalize (execLoad m.fs ip hdr).top = top at under aligned laid image ⊢
    have limit : top + pgsize + pgsize ≤ maxva := by
      simp only [trapframeVa, trampolineVa] at *
      omega
    have aligned' : (top + pgsize) % pgsize = 0 := by rw [Nat.add_mod_right]; exact aligned
    obtain ⟨rfl, total, low, sixteenth, words, strings⟩ :=
      layStack_spec (by omega) limit aligned' short laid
    have ends : top + 2 * pgsize = top + pgsize + pgsize := by omega
    have large := le_align16 ((argv.length + 1) * 8)
    obtain ⟨room, fits⟩ : argBytes argv ≤ top + pgsize + pgsize ∧
        sp + (argv.length + 1) * 8 ≤ top + pgsize + pgsize := by
      rw [blockBytes] at total
      omega
    -- The strings start above the pointers.
    have above : ∀ (i q : Nat) (arg : List UInt8), argv[i]? = some arg →
        (argPlaces (top + pgsize + pgsize) argv)[i]? = some q →
        sp + (argv.length + 1) * 8 ≤ q ∧ q + (arg.length + 1) ≤ top + pgsize + pgsize := by
      intro i q arg here place
      have bounds := argPlaces_bounds room here place
      rw [blockBytes] at total
      omega
    have page : pt.UserPage (top + pgsize) ⟨stack, ⟨true, true, false, true⟩⟩ :=
      ⟨by have := pgsize_pos; omega, image.stack_entry under, rfl⟩
    simp only [PagingInfo.restack, ends]
    refine ⟨trivial, ⟨length_argPlaces _ _, rfl, sixteenth, ?_, ?_, ?_, ?_, ?_, ?_⟩, by omega⟩
    · simp only [userstack]
      omega
    · exact fun i q arg here place => (above i q arg here place).2
    · refine PageHolds.userBytes (filled ▸ words) page aligned' low ?_
      rw [length_flatMap_wordBytes, List.length_append, length_argPlaces, List.length_singleton]
      exact fits
    · intro i q arg here place
      have bounds := above i q arg here place
      refine PageHolds.userBytes (filled ▸ strings i q arg here place) page aligned' (by omega) ?_
      rw [List.length_append, List.length_singleton]
      exact bounds.2
    · intro q member
      obtain ⟨i, place⟩ := List.mem_iff_getElem?.mp member
      have inside : i < argv.length := by
        rw [← length_argPlaces argv (top + pgsize + pgsize)]
        exact (List.getElem?_eq_some_iff.mp place).1
      exact (above i q argv[i] (List.getElem?_eq_getElem inside) place).1
    · exact fun i j q q' arg before place here place' =>
        argPlaces_apart room before place here place'
  | _ => exact absurd rfl success

/-- The argument block of a new program reads back as its arguments; arguments that do not fit on
the stack are refused, and nothing below it is written. -/
theorem exec_args_read_back (sound : m.Sound) (short : ∀ arg ∈ argv, arg.length < pgsize) :
    (∀ r m', kexec env path argv m = .ok (r, m') → r ≠ -1 →
      r = argv.length ∧ ∃ places, m'.ArgBlock argv places) ∧
    (pgsize < blockBytes argv → ¬ m.ExecPanics path →
      ∃ m', kexec env path argv m = .ok (-1, m')) ∧
    (∀ entry pt sz, execArgs env entry argv pt sz =
      pushStack env argv pt sz >>= fun pushed => match pushed with
        | none => execBad (some (pt, sz))
        | some (sp, argc) => execCommit entry pt sz sp argc) ∧
    ∀ pt top guard stack trampoline trapframe n pushed n', top % pgsize = 0 →
      top + pgsize < trapframeVa → PageTable.Image trampoline trapframe pt top guard stack →
      pushStack env argv pt (top + 2 * pgsize) n = .ok (pushed, n') →
      (∃ page, n' = { n with kmem := n.kmem.put stack page }) ∧
        (pgsize < blockBytes argv → pushed = none) := by
  refine ⟨fun r m' ran success => ?_, fun large calm => ?_, execArgs_eq, ?_⟩
  · obtain ⟨count, block, -⟩ := (execs_of_ok sound short ran).argBlock success short
    exact ⟨count, _, block⟩
  · -- No program can be started with arguments that are too large.
    have judged : wp (kexec env path argv) (fun r _ => r = -1) (fun _ => False) m := by
      refine wp_kexec sound short (fun panics => absurd panics calm) fun r m' ends => ?_
      by_contra success
      exact absurd (ends.argBlock success short).2.2 (Nat.not_le.mpr large)
    obtain ⟨r, m', ran, rfl⟩ := exists_ok_of_wp judged
    exact ⟨m', ran⟩
  · intro pt top guard stack trampoline trapframe n pushed n' aligned under image ran
    exact pushStack_spec aligned under image short ran

/-- The first program finds its name on its stack. -/
theorem exec_args_read_back_init : ∃ m' places,
    kexec someFiles initPath [initPath] (initMachine 12 (elfFile 5 pgsize)) = .ok (1, m') ∧
    m'.ArgBlock [initPath] places := by
  have ran := initRunning_ran
  have sound := initMachine_sound (elfFile 5 pgsize)
  obtain ⟨-, places, block⟩ := (exec_args_read_back sound (by decide)).1 1 _ ran (by decide)
  exact ⟨_, places, ran, block⟩

end Exec

end Xv6
