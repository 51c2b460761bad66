import Xv6.SpaceLaws

/-! What growing, shrinking and copying an address space do to its pages and their contents. -/

namespace Xv6

open Prog
open Function (update update_self update_of_ne)

variable {a first i n vpn : Nat} {s t u : Vm} {want : Nat → Option (Perm × (Nat → UInt8))}
  {rest : List Nat} {perm : Perm} {bytes : Nat → UInt8} {old : PageTable}

theorem u64OfInt_intOfU64 (small : n < 2 ^ 31) : u64OfInt (intOfU64 n) = n := by
  have low : u32 n = n := Nat.mod_eq_of_lt (by omega)
  rw [intOfU64, low, if_pos small, u64OfInt]
  omega

theorem pgroundup_le_maxva (within : a ≤ maxva) : pgroundup a ≤ maxva := by
  simp only [pgroundup, u64, pgsize, maxva] at *
  omega

theorem pgroundup_mod (a : Nat) : pgroundup a % pgsize = 0 := by
  simp only [pgroundup, pgsize]
  omega

theorem pgroundup_aligned (aligned : a % pgsize = 0) (within : a < 2 ^ 64) : pgroundup a = a := by
  simp only [pgroundup, u64, pgsize] at *
  omega

theorem wp_uvmdealloc {oldsz newsz : Nat} {post : Nat → Vm → Prop} {abort : Panic → Prop}
    (small : newsz < oldsz → oldsz ≤ maxva)
    (user : ∀ vb, vb < vaSpan → kernelPage (vb / pgsize) →
      pgroundup newsz / pgsize ≤ vb / pgsize → vb / pgsize < pgroundup oldsz / pgsize →
      s.pt.lookup vb = none)
    (foreign : ∀ vb pte, vb < vaSpan → s.pt.lookup vb = some pte →
      kernelPage (vb / pgsize) = false → ¬ s.kmem.Manages pte.pa → abort .kfree)
    (kept : oldsz ≤ newsz → post oldsz s)
    (done : ∀ t, newsz < oldsz → s.Releases t (pgroundup newsz / pgsize)
      (pgroundup oldsz / pgsize - pgroundup newsz / pgsize) → post newsz t) :
    wp (uvmdealloc oldsz newsz) post abort s := by
  unfold uvmdealloc
  split
  · simpa only [wp_pure] using kept ‹_›
  have limit := pgroundup_le_maxva (small (by omega))
  have newAligned := pgroundup_mod newsz
  split
  · rename_i fewer
    -- Every size below the limit has few enough pages for the count to be exact.
    have count : (pgroundup oldsz - pgroundup newsz) / pgsize =
        pgroundup oldsz / pgsize - pgroundup newsz / pgsize := by
      simp only [pgsize] at *
      omega
    have exact : u64OfInt (intOfU64 ((pgroundup oldsz - pgroundup newsz) / pgsize)) =
        pgroundup oldsz / pgsize - pgroundup newsz / pgsize := by
      rw [u64OfInt_intOfU64, count]
      simp only [pgsize, maxva] at *
      omega
    simp only [exact, wp_bind]
    refine wp_uvmunmap newAligned (fun vb below kernel low high => user vb below kernel low ?_)
      (fun above => ?_) foreign (fun t _ unmapped => ?_)
    · omega
    · exfalso
      simp only [pgsize] at *
      omega
    · simpa only [wp_pure] using done t (by omega) unmapped
  · rename_i same
    have none : pgroundup oldsz / pgsize - pgroundup newsz / pgsize = 0 := by
      simp only [pgsize] at *
      omega
    simp only [wp_pure]
    refine done s (by omega) ?_
    rw [none]
    exact Vm.Releases.refl s _

structure Vm.Fills (s t : Vm) (want : Nat → Option (Perm × (Nat → UInt8))) : Prop where
  draws : s.kmem.Draws t.kmem
  total : t.kmem.free + t.pt.frames = s.kmem.free + s.pt.frames
  kept : ∀ vb, vb < vaSpan → want (vb / pgsize) = none → t.pt.lookup vb = s.pt.lookup vb
  added : ∀ vb perm bytes, vb < vaSpan → want (vb / pgsize) = some (perm, bytes) →
    s.pt.lookup vb = none ∧ ∃ pa, t.pt.lookup vb = some ⟨pa, perm⟩ ∧ pa ∈ s.kmem.freelist ∧
      pa ∉ t.kmem.freelist ∧ t.kmem.ram pa = bytes

theorem Vm.Fills.refl (s : Vm) : s.Fills s fun _ => none :=
  ⟨Kmem.Draws.refl _, rfl, fun _ _ _ => rfl, by simp⟩

theorem Vm.Fills.add {pa : Nat} (nodup : s.kmem.freelist.Nodup) (filled : s.Fills t want)
    (front : t.kmem.freelist = pa :: rest) (fresh : want (a / pgsize) = none)
    (user : kernelPage (a / pgsize) = false)
    (mapped : Vm.Maps ⟨{ t.kmem.take pa rest with
      ram := update (t.kmem.take pa rest).ram pa bytes }, t.pt⟩ u a pa perm) :
    s.Fills u (update want (a / pgsize) (some (perm, bytes))) := by
  have taken := Kmem.draws_take front bytes
  have inside : pa ∈ s.kmem.freelist := filled.draws.suffix.subset (by simp [front])
  have notRest : pa ∉ rest := by
    have shorter := (nodup.sublist filled.draws.suffix.sublist)
    rw [front, List.nodup_cons] at shorter
    exact shorter.1
  have shrinks : ∀ f, f ∈ u.kmem.freelist → f ∈ rest := fun f free => mapped.draws.suffix.subset free
  refine ⟨filled.draws.trans (taken.trans mapped.draws), ?_, fun vb below unwanted => ?_,
    fun vb perm' bytes' below wanted => ?_⟩
  · rw [mapped.total, ← filled.total, leafFrame, user, ← Kmem.free_take front]
    simp only [Kmem.free]
    abel
  · have other : vb / pgsize ≠ a / pgsize := fun same => by simp [same] at unwanted
    rw [update_of_ne other] at unwanted
    rw [mapped.lookup vb below, if_neg other]
    exact filled.kept vb below unwanted
  · rw [mapped.lookup vb below]
    by_cases same : vb / pgsize = a / pgsize
    · -- The page just added.
      rw [same, update_self, Option.some.injEq, Prod.mk.injEq] at wanted
      obtain ⟨rfl, rfl⟩ := wanted
      rw [if_pos same]
      have before : s.pt.lookup vb = none := by
        have empty := mapped.absent
        rw [← lookup_congr t.pt same, filled.kept vb below (by rw [same]; exact fresh)] at empty
        exact empty
      refine ⟨before, pa, rfl, inside, fun free => notRest (shrinks pa free), ?_⟩
      rw [mapped.draws.ram pa notRest]
      simp
    · -- A page added earlier has left the free list, so it was not touched.
      rw [update_of_ne same] at wanted
      obtain ⟨before, pb, entry, member, gone, contents⟩ := filled.added vb perm' bytes' below wanted
      have differs : pb ≠ pa := fun same => gone (by simp [front, same])
      have notLater : pb ∉ rest := fun later => gone (by simp [front, later])
      refine ⟨before, pb, by rw [if_neg same]; exact entry, member,
        fun free => notLater (shrinks pb free), ?_⟩
      rw [mapped.draws.ram pb notLater]
      simpa [Kmem.take, differs] using contents

def Vm.Managed (s : Vm) : Prop := ∀ f, f ∈ s.kmem.free + s.pt.frames → s.kmem.Manages f

theorem Vm.Fills.trades (filled : s.Fills t want) : s.kmem.Trades t.kmem s.pt.frames t.pt.frames :=
  filled.draws.trades filled.total

structure Vm.Undone (s t : Vm) : Prop where
  trades : s.kmem.Trades t.kmem s.pt.frames t.pt.frames
  lookup : ∀ vb, vb < vaSpan → t.pt.lookup vb = s.pt.lookup vb

theorem Vm.Fills.undo {v : Vm} (filled : s.Fills t want)
    (range : ∀ vpn, (want vpn).isSome → first ≤ vpn ∧ vpn < first + n)
    (before : ∀ vb, vb < vaSpan → first ≤ vb / pgsize → vb / pgsize < first + n →
      s.pt.lookup vb = none) (grown : ∀ vb, u.pt.lookup vb = t.pt.lookup vb)
    (traded : t.kmem.Trades u.kmem t.pt.frames u.pt.frames) (unmapped : u.Unmaps v first n) :
    s.Undone v := by
  refine ⟨filled.trades.trans (traded.trans unmapped.trades), fun vb below => ?_⟩
  rw [unmapped.lookup vb below, grown]
  split
  · rename_i within
    exact (before vb below within.1 within.2).symm
  · rename_i outside
    refine filled.kept vb below ?_
    by_contra wanted
    exact outside (range _ (Option.isSome_iff_ne_none.mpr wanted))

theorem Vm.trades_refused {mem : Nat} (front : t.kmem.freelist = mem :: rest)
    (grown : Vm.Grows ⟨{ t.kmem.take mem rest with
      ram := update (t.kmem.take mem rest).ram mem bytes }, t.pt⟩ u) :
    t.kmem.Trades (u.kmem.give mem) t.pt.frames u.pt.frames := by
  have taken := (Kmem.trades_take front bytes).frame t.pt.frames
  have mapped := grown.trades.frame {mem}
  have given := (Kmem.trades_give u.kmem mem).frame u.pt.frames
  rw [zero_add, add_comm] at taken
  rw [add_comm, zero_add] at given
  exact taken.trans (mapped.trans given)

def pageRun (first n : Nat) (perm : Perm) (bytes : Nat → UInt8) (vpn : Nat) :
    Option (Perm × (Nat → UInt8)) :=
  if first ≤ vpn ∧ vpn < first + n then some (perm, bytes) else none

theorem pageRun_succ (first n : Nat) (perm : Perm) (bytes : Nat → UInt8) :
    update (pageRun first n perm bytes) (first + n) (some (perm, bytes)) =
      pageRun first (n + 1) perm bytes := by
  funext vpn
  by_cases last : vpn = first + n
  · subst last
    simp [pageRun]
  · rw [update_of_ne last]
    exact if_congr (by omega) rfl rfl

theorem pageRun_range (wanted : (pageRun first n perm bytes vpn).isSome) :
    first ≤ vpn ∧ vpn < first + n := by
  unfold pageRun at wanted
  split at wanted
  · assumption
  · simp at wanted

section

variable {oldsz newsz N : Nat} {perm : Perm} {post : Nat → Vm → Prop} {abort : Panic → Prop} {s : Vm}

theorem wp_uvmdealloc_undo (aligned : oldsz % pgsize = 0) (kernel : s.pt.Kernel)
    (foreign : ¬ s.Managed → abort .kfree) (room : 0 < i → oldsz + i * pgsize ≤ maxva)
    (filled : s.Fills t (pageRun (oldsz / pgsize) i perm fun _ => 0))
    (grown : ∀ vb, u.pt.lookup vb = t.pt.lookup vb)
    (traded : t.kmem.Trades u.kmem t.pt.frames u.pt.frames) (failed : ∀ v, s.Undone v → post 0 v) :
    wp (discard (uvmdealloc (oldsz + i * pgsize) oldsz)) (fun _ v => post 0 v) abort u := by
  have before : ∀ vb, vb < vaSpan → oldsz / pgsize ≤ vb / pgsize →
      vb / pgsize < oldsz / pgsize + i → s.pt.lookup vb = none := by
    intro vb below low high
    exact (filled.added vb perm (fun _ => 0) below (if_pos ⟨low, high⟩)).1
  rw [wp_discard]
  have count : (oldsz + i * pgsize) / pgsize = oldsz / pgsize + i :=
    Nat.add_mul_div_right oldsz i (by decide)
  have edge : 0 < i → pgroundup oldsz = oldsz ∧ pgroundup (oldsz + i * pgsize) = oldsz + i * pgsize := by
    intro some
    have small : maxva < 2 ^ 64 := by decide
    refine ⟨pgroundup_aligned aligned (by omega), pgroundup_aligned ?_ (by omega)⟩
    simp only [pgsize] at *
    omega
  refine wp_uvmdealloc (fun more => room ?_) (fun vb below isKernel low high => ?_)
    (fun vb pte below entry user bad => foreign fun managed => bad ?_) (fun stays => ?_)
    (fun v shrinks unmapped => ?_)
  · by_contra zero
    simp [show i = 0 by omega] at more
  · -- A page in the range was vacant at the start, when the kernel pages were mapped.
    exfalso
    have some : 0 < i := by
      by_contra zero
      simp only [show i = 0 by omega, Nat.zero_mul, Nat.add_zero] at high
      omega
    obtain ⟨start, stop⟩ := edge some
    rw [start] at low
    rw [stop, count] at high
    have present := kernel vb below isKernel
    simp [before vb below low high] at present
  · have held := (filled.trades.trans traded).manages managed
    exact held _ (Multiset.mem_add.mpr (Or.inr (mem_frames_of_lookup below entry user)))
  · have none : i = 0 := by
      simp only [pgsize] at stays
      omega
    refine failed u ⟨filled.trades.trans traded, fun vb below => ?_⟩
    rw [grown, filled.kept vb below]
    simp [pageRun, none]
  · have some : 0 < i := by
      by_contra zero
      simp [show i = 0 by omega] at shrinks
    obtain ⟨start, stop⟩ := edge some
    rw [start, stop, count, Nat.add_sub_cancel_left] at unmapped
    exact failed v (filled.undo (fun _ => pageRun_range) before grown traded unmapped.toUnmaps)

def grownMissing (missing : Nat → Nat) (a : Nat) : Nat → Nat → Nat
  | 0 => missing
  | n + 1 => growMissing (grownMissing missing a n) (a + n * pgsize)

def needs (missing : Nat → Nat) (a : Nat) : Nat → Nat
  | 0 => 0
  | n + 1 => needs missing a n + 1 + grownMissing missing a n (a + n * pgsize)

theorem needs_mono (missing : Nat → Nat) (a : Nat) (shorter : i ≤ n) :
    needs missing a i ≤ needs missing a n := by
  induction n with
  | zero => rw [show i = 0 by omega]
  | succ n ih =>
    by_cases last : i = n + 1
    · rw [last]
    · have earlier := ih (by omega)
      rw [needs]
      omega

def Vm.Fits (s : Vm) (a n : Nat) : Prop :=
  ∀ i, i < n → needs s.pt.missing a i < s.kmem.freelist.length →
    a + i * pgsize < maxva ∧ s.pt.lookup (a + i * pgsize) = none

theorem wp_uvmallocFrom (nodup : s.kmem.freelist.Nodup) (aligned : oldsz % pgsize = 0)
    (kernel : s.pt.Kernel) (foreign : ¬ s.Managed → abort .kfree)
    (blocked : ¬ s.Fits oldsz N → abort .walk ∧ abort .remap)
    (failed : ∀ v, s.Fits oldsz N → s.kmem.freelist.length < needs s.pt.missing oldsz N →
      s.Undone v → post 0 v)
    (done : ∀ v, s.Fits oldsz N → needs s.pt.missing oldsz N ≤ s.kmem.freelist.length →
      s.Fills v (pageRun (oldsz / pgsize) N perm fun _ => 0) → post newsz v) :
    ∀ n i t, i + n = N →
      (∀ j, j < i → oldsz + j * pgsize < maxva ∧ s.pt.lookup (oldsz + j * pgsize) = none) →
      s.Fills t (pageRun (oldsz / pgsize) i perm fun _ => 0) →
      t.kmem.freelist.length + needs s.pt.missing oldsz i = s.kmem.freelist.length →
      t.pt.missing = grownMissing s.pt.missing oldsz i →
      wp (uvmallocFrom oldsz newsz perm n (oldsz + i * pgsize)) post abort t := by
  intro n
  induction n with
  | zero =>
    intro i t last earlier filled spent _
    obtain rfl : i = N := by omega
    rw [uvmallocFrom, wp_pure]
    exact done t (fun j below _ => earlier j below) (by omega) filled
  | succ n ih =>
    intro i t last earlier filled spent path
    have atLeast := needs_mono s.pt.missing oldsz (show i + 1 ≤ N by omega)
    have room : 0 < i → oldsz + i * pgsize ≤ maxva := by
      intro some
      have before := (earlier (i - 1) (by omega)).1
      simp only [pgsize, maxva] at *
      omega
    -- The pages after the first one without a frame get none either.
    have fits : (needs s.pt.missing oldsz i < s.kmem.freelist.length →
          oldsz + i * pgsize < maxva ∧ s.pt.lookup (oldsz + i * pgsize) = none) →
        s.kmem.freelist.length < needs s.pt.missing oldsz (i + 1) → s.Fits oldsz N := by
      intro here short j below framed
      rcases Nat.lt_trichotomy j i with less | rfl | more
      · exact earlier j less
      · exact here framed
      · have later := needs_mono s.pt.missing oldsz (show i + 1 ≤ j by omega)
        omega
    have count : (oldsz + i * pgsize) / pgsize = oldsz / pgsize + i :=
      Nat.add_mul_div_right oldsz i (by decide)
    have kept : ∀ vb, vb < vaSpan → vb / pgsize = oldsz / pgsize + i →
        t.pt.lookup vb = s.pt.lookup vb := by
      intro vb below page
      refine filled.kept vb below (if_neg ?_)
      omega
    simp only [uvmallocFrom, wp_bind, wp_onKmem]
    refine wp_kalloc (fun empty => ?_) (fun mem rest front => ?_)
    · simp only [empty, List.length_nil] at spent
      have short : s.kmem.freelist.length < needs s.pt.missing oldsz (i + 1) := by
        rw [needs]
        omega
      simp only [wp_bind, wp_pure]
      exact wp_uvmdealloc_undo aligned kernel foreign room filled (fun _ => rfl)
        (Kmem.Trades.refl _ _) fun v undone =>
          failed v (fits (fun framed => by omega) short) (by omega) undone
    have length : t.kmem.freelist.length = rest.length + 1 := by simp [front]
    simp only [memset, wp_bind, wp_onKmem, wp_modify]
    refine wp_mappages_count (by simp only [pgsize] at *; omega)
      (fun limit => (blocked fun all => ?_).1)
      (fun below present => (blocked fun all => ?_).2) (fun u below grown _ absent few => ?_)
      (fun u mapped spends => ?_)
    · have allowed := (all i (by omega) (by omega)).1
      omega
    · rw [kept _ (lt_vaSpan below) count, (all i (by omega) (by omega)).2] at present
      simp at present
    · simp only [show (-1 : Int) ≠ 0 by decide, ne_eq, not_false_eq_true, if_true, wp_bind,
        wp_onKmem, wp_pure]
      have held := filled.trades.manages
      refine wp_kfree (fun bad => foreign fun managed => bad ?_) (fun _ => ?_)
      · have mine := held managed mem (by simp [Kmem.free, front])
        simpa only [Kmem.Manages, grown.draws.kend, Kmem.take] using mine
      · have fewer : rest.length < t.pt.missing (oldsz + i * pgsize) := few
        have short : s.kmem.freelist.length < needs s.pt.missing oldsz (i + 1) := by
          rw [needs, ← path]
          omega
        have here : s.pt.lookup (oldsz + i * pgsize) = none := by
          rw [← kept _ (lt_vaSpan below) count]
          exact absent
        exact wp_uvmdealloc_undo (u := ⟨u.kmem.give mem, u.pt⟩) aligned kernel foreign room filled
          grown.lookup (Vm.trades_refused front grown) fun v undone =>
            failed v (fits (fun _ => ⟨below, here⟩) short) (by omega) undone
    · simp only [ne_eq]
      have below := mapped.below
      have user : kernelPage ((oldsz + i * pgsize) / pgsize) = false := by
        by_contra isKernel
        have present := kernel _ (lt_vaSpan below) (by simpa using isKernel)
        rw [← kept _ (lt_vaSpan below) count] at present
        have absent := mapped.absent
        simp [absent] at present
      have vacant : pageRun (oldsz / pgsize) i perm (fun _ => 0) ((oldsz + i * pgsize) / pgsize) =
          none := if_neg (by omega)
      have more := filled.add nodup front vacant user mapped
      rw [count, pageRun_succ] at more
      have next : oldsz + i * pgsize + pgsize = oldsz + (i + 1) * pgsize := by
        rw [Nat.add_mul, Nat.one_mul, Nat.add_assoc]
      have left : u.kmem.freelist.length + t.pt.missing (oldsz + i * pgsize) = rest.length :=
        spends.free
      have path' : u.pt.missing = grownMissing s.pt.missing oldsz (i + 1) := by
        rw [grownMissing, ← path]
        exact funext spends.missing
      rw [next]
      refine ih (i + 1) u (by omega) (fun j before => ?_) more ?_ path'
      · by_cases here : j = i
        · rw [here, ← kept _ (lt_vaSpan below) count]
          exact ⟨below, mapped.absent⟩
        · exact earlier j (by omega)
      · rw [needs, ← path]
        omega

theorem wp_uvmalloc (nodup : s.kmem.freelist.Nodup) (start : pgroundup oldsz = first)
    (count : (newsz - first + (pgsize - 1)) / pgsize = N) (kernel : s.pt.Kernel)
    (foreign : ¬ s.Managed → abort .kfree) (shrunk : newsz < oldsz → post oldsz s)
    (blocked : oldsz ≤ newsz → ¬ s.Fits first N → abort .walk ∧ abort .remap)
    (failed : ∀ v, s.Fits first N → s.kmem.freelist.length < needs s.pt.missing first N →
      s.Undone v → post 0 v)
    (done : ∀ v, s.Fits first N → needs s.pt.missing first N ≤ s.kmem.freelist.length →
      s.Fills v (pageRun (first / pgsize) N perm fun _ => 0) → post newsz v) :
    wp (uvmalloc oldsz newsz perm) post abort s := by
  have aligned : first % pgsize = 0 := start ▸ pgroundup_mod oldsz
  unfold uvmalloc
  split
  · simpa only [wp_pure] using shrunk ‹_›
  · rename_i grows
    simp only [start, count]
    -- The loop starts at the first page with nothing filled and nothing spent.
    change wp (uvmallocFrom first newsz perm N (first + 0 * pgsize)) post abort s
    apply wp_uvmallocFrom nodup aligned kernel foreign (blocked (by omega)) failed done N 0 s
      (by omega) (by simp)
    · have none : pageRun (first / pgsize) 0 perm (fun _ => 0) = fun _ => none := by
        funext vpn
        exact if_neg (by omega)
      rw [none]
      exact Vm.Fills.refl s
    · rfl
    · rfl

end

def copied (old : PageTable) (ram : Nat → Nat → UInt8) (n vpn : Nat) :
    Option (Perm × (Nat → UInt8)) :=
  if vpn < n then (old.lookup (vpn * pgsize)).map fun pte => (pte.perm, ram pte.pa) else none

theorem copied_skip (ram : Nat → Nat → UInt8) (absent : old.lookup (n * pgsize) = none) :
    copied old ram (n + 1) = copied old ram n := by
  funext vpn
  unfold copied
  by_cases last : vpn = n
  · rw [if_pos (by omega), if_neg (by omega), last, absent]
    rfl
  · exact if_congr (by omega) rfl rfl

theorem copied_succ {pte : Pte} (ram : Nat → Nat → UInt8)
    (entry : old.lookup (n * pgsize) = some pte) :
    update (copied old ram n) n (some (pte.perm, ram pte.pa)) =
      copied old ram (n + 1) := by
  funext vpn
  by_cases last : vpn = n
  · subst last
    simp [copied, entry]
  · rw [update_of_ne last]
    exact if_congr (by omega) rfl rfl

theorem copied_range {ram : Nat → Nat → UInt8} (wanted : (copied old ram n vpn).isSome) :
    0 ≤ vpn ∧ vpn < 0 + n := by
  unfold copied at wanted
  split at wanted
  · omega
  · simp at wanted

section

variable {old : PageTable} {N : Nat} {post : Int → Vm → Prop} {abort : Panic → Prop} {s : Vm}

theorem wp_uvmunmap_undo (within : i ≤ trapframeVa / pgsize)
    (vacant : ∀ vb, vb < vaSpan → vb / pgsize < trapframeVa / pgsize → s.pt.lookup vb = none)
    (foreign : ¬ s.Managed → abort .kfree) (filled : s.Fills t (copied old s.kmem.ram i))
    (grown : ∀ vb, u.pt.lookup vb = t.pt.lookup vb)
    (traded : t.kmem.Trades u.kmem t.pt.frames u.pt.frames)
    (failed : ∀ v, s.Undone v → post (-1) v) :
    wp (uvmunmap 0 i true) (fun _ v => post (-1) v) abort u := by
  refine wp_uvmunmap (by decide) (fun vb below kernel _ high => ?_) (fun above => ?_)
    (fun vb pte below entry user bad => foreign fun managed => bad ?_) (fun v _ unmapped => ?_)
  · exfalso
    simp only [kernelPage, Bool.or_eq_true, beq_iff_eq, trapframeVa, trampolineVa, maxva,
      pgsize] at *
    omega
  · exfalso
    simp only [trapframeVa, trampolineVa, maxva, pgsize] at *
    omega
  · have held := (filled.trades.trans traded).manages managed
    exact held _ (Multiset.mem_add.mpr (Or.inr (mem_frames_of_lookup below entry user)))
  · refine failed v (filled.undo (fun _ => copied_range) (fun vb below _ high => ?_) grown traded
      unmapped.toUnmaps)
    exact vacant vb below (by omega)

theorem wp_uvmcopyFrom (nodup : s.kmem.freelist.Nodup) (within : N ≤ trapframeVa / pgsize)
    (vacant : ∀ vb, vb < vaSpan → vb / pgsize < trapframeVa / pgsize → s.pt.lookup vb = none)
    (apart : ∀ vpn pte, vpn < N → old.lookup (vpn * pgsize) = some pte →
      pte.pa ∉ s.kmem.freelist)
    (foreign : ¬ s.Managed → abort .kfree)
    (failed : ∀ v, s.Undone v → post (-1) v)
    (done : ∀ v, s.Fills v (copied old s.kmem.ram N) → post 0 v) :
    ∀ n i t, i + n = N → s.Fills t (copied old s.kmem.ram i) →
      wp (uvmcopyFrom old n (i * pgsize)) post abort t := by
  intro n
  induction n with
  | zero =>
    intro i t last filled
    obtain rfl : i = N := by omega
    simpa only [uvmcopyFrom, wp_pure] using done t filled
  | succ n ih =>
    intro i t last filled
    have below : i * pgsize < maxva := by
      simp only [trapframeVa, trampolineVa, pgsize] at *
      omega
    have page : i * pgsize / pgsize = i := Nat.mul_div_cancel _ (by decide)
    have next : i * pgsize + pgsize = (i + 1) * pgsize := by
      rw [Nat.add_mul, Nat.one_mul]
    have unmapped : t.pt.lookup (i * pgsize) = none := by
      rw [filled.kept _ (lt_vaSpan below) (by simp [copied, page]),
        vacant _ (lt_vaSpan below) (by omega)]
    simp only [uvmcopyFrom, if_neg (show ¬ maxva ≤ i * pgsize by omega)]
    cases entry : old.lookup (i * pgsize) with
    | none =>
      simp only [next]
      refine ih (i + 1) t (by omega) ?_
      rwa [copied_skip _ entry]
    | some pte =>
      have outside := apart i pte (by omega) entry
      simp only [wp_bind, wp_onKmem, page]
      refine wp_kalloc (fun _ => ?_) (fun mem rest front => ?_)
      · simp only [wp_bind, wp_pure]
        exact wp_uvmunmap_undo (by omega) vacant foreign filled (fun _ => rfl)
          (Kmem.Trades.refl _ _) failed
      -- The parent's page is not the frame just taken, so its bytes are still the original ones.
      have differs : pte.pa ≠ mem := by
        intro same
        exact outside (filled.draws.suffix.subset (by simp [front, same]))
      have source : (t.kmem.take mem rest).ram pte.pa = s.kmem.ram pte.pa := by
        rw [← filled.draws.ram _ outside]
        simp [Kmem.take, differs]
      simp only [memmovePage, wp_bind, wp_onKmem, wp_modify, source]
      refine wp_mappages (Nat.mul_mod_left _ _) (by omega) (by simp [unmapped])
        (fun u grown _ _ => ?_) (fun u mapped => ?_)
      · simp only [show (-1 : Int) ≠ 0 by decide, ne_eq, not_false_eq_true, if_true, wp_bind,
          wp_onKmem, wp_pure]
        refine wp_kfree (fun bad => foreign fun managed => bad ?_) (fun _ => ?_)
        · have mine := filled.trades.manages managed mem (by simp [Kmem.free, front])
          simpa only [Kmem.Manages, grown.draws.kend, Kmem.take] using mine
        · exact wp_uvmunmap_undo (u := ⟨u.kmem.give mem, u.pt⟩) (by omega) vacant foreign filled
            grown.lookup (Vm.trades_refused front grown) failed
      · simp only [next]
        have user : kernelPage (i * pgsize / pgsize) = false := by
          simp only [kernelPage, Bool.or_eq_false_iff, beq_eq_false_iff_ne, trapframeVa,
            trampolineVa, pgsize, maxva] at *
          omega
        have more := filled.add nodup front (by simp [copied, page]) user mapped
        rw [page, copied_succ _ entry] at more
        exact ih (i + 1) u (by omega) more

end

end Xv6
