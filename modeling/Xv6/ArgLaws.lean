import Xv6.Exec
import Xv6.FaultLaws

/-! What laying out the arguments of a program does to the page of its stack. -/

namespace Xv6

open Prog

def writeBytes (page : Nat → UInt8) (off : Nat) (src : List UInt8) (k : Nat) : UInt8 :=
  if off ≤ k ∧ k < off + src.length then src.getD (k - off) 0 else page k

@[simp] theorem writeBytes_nil (page : Nat → UInt8) (off : Nat) :
    writeBytes page off [] = page := by
  funext k
  -- No position lies in an empty range.
  rw [writeBytes, if_neg (by simp only [List.length_nil]; omega)]

@[simp] theorem Kmem.put_ram (k : Kmem) (pa : Nat) : k.put pa (k.ram pa) = k := by
  simp only [Kmem.put, Function.update_eq_self]

section Copyout

variable {env : FsEnv} {pt : PageTable} {post : Int → Machine → Prop} {abort : Panic → Prop}
  {m : Machine} {base : Nat} {pte : Pte}

theorem wp_copyoutFrom_nil {fuel dst : Nat} (done : post 0 m) :
    wp (copyoutFrom env (some pt) fuel dst []) post abort m := by
  cases fuel with
  | zero => simpa only [copyoutFrom, wp_pure] using done
  | succ fuel => simpa only [copyoutFrom, if_true, wp_pure] using done

theorem wp_copyout_page {dst : Nat} {src : List UInt8} (aligned : base % pgsize = 0)
    (below : base < maxva) (entry : pt.lookup base = some pte) (user : pte.perm.u = true)
    (writable : pte.perm.w = true) (low : base ≤ dst) (fits : dst + src.length ≤ base + pgsize)
    (done : post 0 { m with
      kmem := m.kmem.put pte.pa (writeBytes (m.kmem.ram pte.pa) (dst - base) src) }) :
    wp (copyout env (some pt) dst src) post abort m := by
  unfold copyout
  cases src with
  | nil =>
    -- The empty copy leaves the machine alone.
    rw [writeBytes_nil, Kmem.put_ram] at done
    exact wp_copyoutFrom_nil done
  | cons first rest =>
    have page : pgrounddown dst = base := by
      simp only [pgrounddown, pgsize, List.length_cons] at *
      omega
    have found : walkaddr pt base = some pte.pa := by
      simp only [walkaddr, Nat.not_le.mpr below, if_false, entry, user, if_true]
    -- The first turn copies everything, because the range stays inside the page.
    have all : min (pgsize - (dst - base)) (first :: rest).length = (first :: rest).length := by
      omega
    simp only [List.length_cons, copyoutFrom, reduceCtorEq, if_false, wp_bind, wp_get, copyTable,
      Option.getD_some, page, found, wp_pure, Nat.not_le.mpr below, entry, Option.any_some,
      writable, Bool.not_true, wp_withKmem, wp_setPage]
    rw [show (first :: rest).drop (min (pgsize - (dst - base)) (rest.length + 1)) = [] by
      rw [← List.length_cons, all, List.drop_length]]
    apply wp_copyoutFrom_nil
    rw [← List.length_cons, all]
    exact done

end Copyout

def layArgs (base : Nat) : List (List UInt8) → Nat → List Nat → (Nat → UInt8) →
    Option (Nat × List Nat × (Nat → UInt8))
  | [], sp, ustack, page => some (sp, ustack, page)
  | arg :: rest, sp, ustack, page =>
    if maxarg ≤ ustack.length then none
    else if pushDown sp (arg.length + 1) < base then none
    else layArgs base rest (pushDown sp (arg.length + 1)) (ustack ++ [pushDown sp (arg.length + 1)])
      (writeBytes page (pushDown sp (arg.length + 1) - base) (arg ++ [0]))

def layWords (base sp : Nat) (ustack : List Nat) (page : Nat → UInt8) :
    Option (Nat × Nat × (Nat → UInt8)) :=
  if pushDown sp ((ustack.length + 1) * 8) < base then none
  else some (pushDown sp ((ustack.length + 1) * 8), ustack.length,
    writeBytes page (pushDown sp ((ustack.length + 1) * 8) - base)
      ((ustack ++ [0]).flatMap wordBytes))

def layStack (base : Nat) (argv : List (List UInt8)) : Option (Nat × Nat × (Nat → UInt8)) :=
  match layArgs base argv (base + pgsize) [] fun _ => 0 with
  | none => none
  | some (sp, ustack, page) => layWords base sp ustack page

theorem pushDown_le {base sp bytes : Nat} (room : pgsize ≤ base) (low : base ≤ sp)
    (high : sp ≤ maxva) (small : bytes ≤ pgsize) : pushDown sp bytes + bytes ≤ sp := by
  simp only [pushDown, usub, u64] at *
  omega

theorem layArgs_bounds {base : Nat} {argv : List (List UInt8)} {sp sp' : Nat}
    {ustack ustack' : List Nat} {page page' : Nat → UInt8} (room : pgsize ≤ base)
    (below : base + pgsize ≤ maxva) (short : ∀ arg ∈ argv, arg.length < pgsize)
    (laid : layArgs base argv sp ustack page = some (sp', ustack', page'))
    (low : base ≤ sp) (high : sp ≤ base + pgsize) (few : ustack.length ≤ maxarg) :
    base ≤ sp' ∧ sp' ≤ base + pgsize ∧ ustack'.length ≤ maxarg := by
  -- Each string pushed keeps the bounds for the strings after it.
  induction argv generalizing sp ustack page with
  | nil =>
    obtain ⟨rfl, rfl, rfl⟩ := laid
    exact ⟨low, high, few⟩
  | cons arg rest ih =>
    rw [layArgs] at laid
    split at laid
    · simp at laid
    split at laid
    · simp at laid
    have length := short arg (List.mem_cons_self)
    have moved := pushDown_le room low (by omega) (show arg.length + 1 ≤ pgsize by omega)
    refine ih (fun other member => short other (List.mem_cons_of_mem _ member)) laid (by omega)
      (by omega) ?_
    simp only [List.length_append, List.length_cons, List.length_nil]
    omega

theorem length_flatMap_wordBytes (words : List Nat) :
    (words.flatMap wordBytes).length = words.length * 8 := by
  induction words with
  | nil => rfl
  | cons word rest ih =>
    rw [List.flatMap_cons, List.length_append, ih, List.length_cons]
    simp only [wordBytes, List.length_map, List.length_range]
    omega

section Push

variable {env : FsEnv} {pt : PageTable} {abort : Panic → Prop} {m : Machine} {base : Nat} {pte : Pte}

theorem wp_pushArgs {post : Option (Nat × List Nat) → Machine → Prop} (aligned : base % pgsize = 0)
    (room : pgsize ≤ base) (below : base + pgsize ≤ maxva)
    (entry : pt.lookup base = some pte) (user : pte.perm.u = true) (writable : pte.perm.w = true) :
    ∀ argv sp ustack page, (∀ arg ∈ argv, arg.length < pgsize) → base ≤ sp → sp ≤ base + pgsize →
      (layArgs base argv sp ustack page = none →
        ∀ page', post none { m with kmem := m.kmem.put pte.pa page' }) →
      (∀ sp' ustack' page', layArgs base argv sp ustack page = some (sp', ustack', page') →
        post (some (sp', ustack')) { m with kmem := m.kmem.put pte.pa page' }) →
      wp (pushArgs env pt base argv sp ustack) post abort
        { m with kmem := m.kmem.put pte.pa page } := by
  intro argv
  -- The page is general, because every string is pushed over what the earlier ones left.
  induction argv with
  | nil =>
    intro sp ustack page _ _ _ _ done
    rw [pushArgs, wp_pure]
    exact done sp ustack page rfl
  | cons arg rest ih =>
    intro sp ustack page short low high failed done
    have length := short arg List.mem_cons_self
    have moved := pushDown_le room low (by omega) (show arg.length + 1 ≤ pgsize by omega)
    rw [pushArgs]
    by_cases many : maxarg ≤ ustack.length
    · -- Too many arguments stop the loop before anything is written.
      simp only [many, if_true, wp_pure]
      exact failed (by simp only [layArgs, many, if_true]) page
    by_cases under : pushDown sp (arg.length + 1) < base
    · simp only [many, under, if_true, if_false, wp_pure]
      exact failed (by simp only [layArgs, many, under, if_true, if_false]) page
    simp only [many, under, if_false, wp_bind]
    -- The string fits above the base of the page, so the copy meets no fault.
    apply wp_copyout_page aligned (by simp only [pgsize] at *; omega) entry user writable
      (Nat.not_lt.mp under)
    · simp only [List.length_append, List.length_cons, List.length_nil]
      omega
    simp only [Kmem.ram_put_self, Kmem.put_put]
    apply ih _ _ _ (fun other member => short other (List.mem_cons_of_mem _ member))
      (Nat.not_lt.mp under) (by omega)
    · intro stopped
      exact failed (by simpa only [layArgs, many, under, if_false] using stopped)
    · intro sp' ustack' page' laid
      exact done sp' ustack' page' (by simpa only [layArgs, many, under, if_false] using laid)

end Push

end Xv6
