import Mathlib.Data.List.Perm.Subperm
import Xv6.Disk.Virtio
import Xv6.Lib.Owned

/-! Who owns each descriptor, and where the request of each caller is. -/

namespace Xv6

namespace Virtio

open Prog Circular
open Function (update update_self update_of_ne)

/-- How far a request has come. -/
inductive Stage where
  /-- Its descriptors, if it has any, are not formatted. -/
  | unformed
  /-- Its descriptors are formatted and the device has not been told. -/
  | formed
  /-- The device has been told, and the caller waits. -/
  | posted
  /-- The caller has seen the end of the transfer. -/
  | done
  deriving DecidableEq, Repr

def Pc.request : Pc → Option Request
  | .format c | .publish c | .wait c | .asleep c | .retire c => some c
  | _ => none

def Pc.stage : Pc → Stage
  | .publish _ => .formed
  | .wait _ | .asleep _ => .posted
  | .retire _ => .done
  | _ => .unformed

namespace Driver

def queued (d : Driver) : List Nat := d.avail.contents num wrap

def finished (d : Driver) : List Nat := d.used.contents num wrap

def travelling (d : Driver) : List Nat := d.queued ++ d.pending ++ d.finished

structure Formed (d : Driver) (c : Request) : Prop where
  head : d.desc c.i0 = ⟨.op c.i0, 16, true, false, c.i1⟩
  data : d.desc c.i1 = ⟨.data c.buf, bsize, true, !c.write, c.i2⟩
  status : d.desc c.i2 = ⟨.status c.i0, 1, false, true, 0⟩
  buf : (d.info c.i0).b = some c.buf
  op : d.ops c.i0 = ⟨c.write, d.sector c.buf⟩

end Driver

structure Chains (free : Nat → Bool) (req : Nat → Option Request) : Prop where
  nodup : ∀ {p c}, req p = some c → c.chain.Nodup
  taken : ∀ {p c i}, req p = some c → i ∈ c.chain → i < num ∧ free i = false
  apart : ∀ {p q c d i}, req p = some c → req q = some d → i ∈ c.chain → i ∈ d.chain → p = q
  bufs : ∀ {p q c d}, req p = some c → req q = some d → c.buf = d.buf → p = q
  owned : ∀ {i}, i < num → free i = false → ∃ p c, req p = some c ∧ i ∈ c.chain

structure Driver.Keeps (d : Driver) (req : Nat → Option Request) (stage : Nat → Stage) : Prop where
  chains : Chains d.free req
  formed : ∀ {p c}, req p = some c → stage p ≠ .unformed → d.Formed c
  flag : ∀ {p c}, req p = some c → stage p ≠ .unformed →
    (d.disk c.buf = true ↔ stage p = .formed ∨ c.i0 ∈ d.travelling)
  whose : ∀ {h}, h ∈ d.travelling → ∃ p c, req p = some c ∧ stage p = .posted ∧ c.i0 = h
  once : d.travelling.Nodup
  served : ∀ {p c}, req p = some c → stage p = .posted →
    (d.served c.i0 = false ↔ c.i0 ∈ d.queued ++ d.pending)
  status : ∀ {h}, h ∈ d.finished → (d.info h).status = 0
  avail : d.avail.Sound num wrap
  used : d.used.Sound num wrap
  counts : d.completions = d.clears + d.finished.length

/-! Chains of descriptors. -/

theorem Request.head_mem (c : Request) : c.i0 ∈ c.chain := by simp [Request.chain]

theorem Request.nodup_iff (c : Request) :
    c.chain.Nodup ↔ c.i0 ≠ c.i1 ∧ c.i0 ≠ c.i2 ∧ c.i1 ≠ c.i2 := by
  simp [Request.chain, and_assoc]

section ChainLaws

variable {free free' : Nat → Bool} {req : Nat → Option Request} {p : Nat} {c : Request}

theorem Chains.draw (chains : Chains free req) (none_here : req p = none)
    (fresh : ∀ q d, req q = some d → d.buf ≠ c.buf) (nodup : c.chain.Nodup)
    (were : ∀ i ∈ c.chain, i < num ∧ free i = true)
    (now : ∀ i, free' i = if i ∈ c.chain then false else free i) :
    Chains free' (update req p (some c)) := by
  -- A descriptor that was free is in nobody's chain.
  have loose : ∀ {q d i}, req q = some d → i ∈ d.chain → i ∉ c.chain := by
    intro q d i here mem inside
    have taken := (chains.taken here mem).2
    rw [(were i inside).2] at taken
    exact absurd taken (by decide)
  constructor
  · intro q d here
    rcases Owned.update_eq_some_iff.mp here with ⟨-, ⟨⟩⟩ | ⟨-, old⟩
    · exact nodup
    · exact chains.nodup old
  · intro q d i here mem
    rcases Owned.update_eq_some_iff.mp here with ⟨-, ⟨⟩⟩ | ⟨-, old⟩
    · exact ⟨(were i mem).1, by rw [now, if_pos mem]⟩
    · obtain ⟨inside, held⟩ := chains.taken old mem
      exact ⟨inside, by rw [now, if_neg (loose old mem), held]⟩
  · intro q r d e i here there mem mem'
    rcases Owned.update_eq_some_iff.mp here with ⟨rfl, ⟨⟩⟩ | ⟨-, old⟩
    · rcases Owned.update_eq_some_iff.mp there with ⟨rfl, -⟩ | ⟨-, old'⟩
      · rfl
      · exact absurd mem (loose old' mem')
    · rcases Owned.update_eq_some_iff.mp there with ⟨-, ⟨⟩⟩ | ⟨-, old'⟩
      · exact absurd mem' (loose old mem)
      · exact chains.apart old old' mem mem'
  · intro q r d e here there same
    rcases Owned.update_eq_some_iff.mp here with ⟨rfl, ⟨⟩⟩ | ⟨-, old⟩
    · rcases Owned.update_eq_some_iff.mp there with ⟨rfl, -⟩ | ⟨-, old'⟩
      · rfl
      · exact absurd same.symm (fresh _ _ old')
    · rcases Owned.update_eq_some_iff.mp there with ⟨-, ⟨⟩⟩ | ⟨-, old'⟩
      · exact absurd same (fresh _ _ old)
      · exact chains.bufs old old' same
  · intro i inside held
    by_cases mem : i ∈ c.chain
    · exact ⟨p, c, update_self .., mem⟩
    · rw [now, if_neg mem] at held
      obtain ⟨q, d, old, mem'⟩ := chains.owned inside held
      have other : q ≠ p := by
        rintro rfl
        rw [none_here] at old
        exact absurd old (by simp)
      exact ⟨q, d, by rw [update_of_ne other]; exact old, mem'⟩

theorem Chains.retire (chains : Chains free req) (here : req p = some c)
    (now : ∀ i, free' i = if i ∈ c.chain then true else free i) :
    Chains free' (update req p none) := by
  -- Whoever has a request afterwards had it before.
  have rest : ∀ {q d}, update req p none q = some d → q ≠ p ∧ req q = some d := by
    intro q d there
    rcases Owned.update_eq_some_iff.mp there with ⟨-, gone⟩ | old
    · exact absurd gone (by simp)
    · exact old
  constructor
  · exact fun there => chains.nodup (rest there).2
  · intro q d i there mem
    obtain ⟨other, old⟩ := rest there
    have outside : i ∉ c.chain := fun inside => other (chains.apart old here mem inside)
    exact ⟨(chains.taken old mem).1, by rw [now, if_neg outside, (chains.taken old mem).2]⟩
  · exact fun first second => chains.apart (rest first).2 (rest second).2
  · exact fun first second => chains.bufs (rest first).2 (rest second).2
  · intro i inside held
    rw [now] at held
    by_cases mem : i ∈ c.chain
    · rw [if_pos mem] at held
      exact absurd held (by decide)
    · rw [if_neg mem] at held
      obtain ⟨q, d, old, mem'⟩ := chains.owned inside held
      have other : q ≠ p := by
        rintro rfl
        rw [here] at old
        obtain rfl := Option.some.inj old
        exact mem mem'
      exact ⟨q, d, by rw [update_of_ne other]; exact old, mem'⟩

end ChainLaws

/-! The operations on descriptors. -/

def Driver.draw (d : Driver) (idx : List Nat) : Driver :=
  { d with free := fun i => if i ∈ idx then false else d.free i }

structure Driver.Spare (d : Driver) (idx : List Nat) : Prop where
  nodup : idx.Nodup
  free : ∀ i ∈ idx, i < num ∧ d.free i = true

variable {post : Unit → Driver → Prop} {idx l : List Nat} {c : Request} {d : Driver} {h q : Nat}
  {desc : Nat → Desc}

section Operations

variable {d : Driver} {abort : Stop → Prop}

theorem wp_allocDesc {post : Option Nat → Driver → Prop}
    (got : ∀ i < num, d.free i = true → post (some i) (d.draw [i])) (full : post none d) :
    wp allocDesc post abort d := by
  simp only [allocDesc, wp_bind, wp_get]
  cases found : (List.range num).find? d.free with
  | none => simpa only [wp_pure] using full
  | some i =>
    have inside : i < num := List.mem_range.mp (List.mem_of_find?_eq_some found)
    have same : ({ d with free := update d.free i false } : Driver) = d.draw [i] := by
      congr
      funext j
      by_cases here : j = i <;> simp [here]
    simp only [wp_bind, wp_modify, wp_pure, same]
    exact got i inside (List.find?_some found)

theorem wp_freeDesc {i : Nat} (inside : i < num) (taken : d.free i = false)
    (freed : post () { d with
      desc := update d.desc i .zero
      free := update d.free i true }) : wp (freeDesc i) post abort d := by
  simp only [freeDesc, if_neg (Nat.not_le.mpr inside), wp_bind, wp_get, taken,
    Bool.false_eq_true, if_false, wp_modify]
  exact freed

theorem wp_forM_freeDesc (spare : d.Spare idx)
    (back : ∀ desc, (∀ i, d.free i = false → desc i = d.desc i) → post () { d with desc := desc }) :
    wp (idx.forM freeDesc) post abort (d.draw idx) := by
  induction idx generalizing d with
  | nil =>
    have start : d.draw [] = d := by simp [Driver.draw]
    rw [List.forM_eq_forM, List.forM_nil, wp_pure, start]
    exact back d.desc fun i _ => rfl
  | cons i idx ih =>
    rw [List.forM_eq_forM, List.forM_cons, wp_bind]
    have first := spare.free i (List.mem_cons_self ..)
    apply wp_freeDesc first.1 (by simp [Driver.draw])
    -- What is left is the same task for the rest, from a driver with one descriptor emptied.
    have nodup := List.nodup_cons.mp spare.nodup
    have same : ({ d.draw (i :: idx) with
        desc := update d.desc i .zero
        free := update (d.draw (i :: idx)).free i true } : Driver) =
        { d with desc := update d.desc i .zero }.draw idx := by
      simp only [Driver.draw]
      congr
      funext j
      by_cases here : j = i
      · subst here
        simp [nodup.1, first.2]
      · simp [here]
    refine same ▸ ih ⟨nodup.2, fun j mem => spare.free j (List.mem_cons_of_mem _ mem)⟩ ?_
    intro desc kept
    refine back desc fun j held => ?_
    have other : j ≠ i := by
      rintro rfl
      exact absurd (held.symm.trans first.2) (by decide)
    exact (kept j held).trans (update_of_ne other _ _)

theorem Driver.draw_draw (d : Driver) (idx : List Nat) (i : Nat) :
    (d.draw idx).draw [i] = d.draw (idx ++ [i]) := by
  simp only [Driver.draw]
  congr
  funext j
  by_cases here : j = i <;> simp [here]

theorem wp_allocDescs {post : Option (List Nat) → Driver → Prop} {n : Nat} (spare : d.Spare idx)
    (got : ∀ all, all.length = idx.length + n → d.Spare all → post (some all) (d.draw all))
    (undone : ∀ desc, (∀ i, d.free i = false → desc i = d.desc i) →
      post none { d with desc := desc }) : wp (allocDescs idx n) post abort (d.draw idx) := by
  induction n generalizing idx with
  | zero =>
    rw [allocDescs, wp_pure]
    exact got idx rfl spare
  | succ n ih =>
    rw [allocDescs, wp_bind]
    apply wp_allocDesc
    · -- One more descriptor was free, and so not taken before.
      intro i inside free
      have outside : i ∉ idx := by
        intro mem
        simp [Driver.draw, mem] at free
      rw [Driver.draw_draw]
      apply ih
      · refine ⟨?_, ?_⟩
        · rw [List.nodup_append]
          refine ⟨spare.nodup, by simp, ?_⟩
          rintro a mem b single rfl
          rw [List.mem_singleton] at single
          exact outside (single ▸ mem)
        · intro j mem
          rcases List.mem_append.mp mem with old | new
          · exact spare.free j old
          · obtain rfl := List.mem_singleton.mp new
            exact ⟨inside, by simpa [Driver.draw, outside] using free⟩
      · intro all length
        exact got all (by simp at length; omega)
    · simp only [wp_bind, wp_pure]
      exact wp_forM_freeDesc spare undone

theorem wp_alloc3Desc {post : Option (List Nat) → Driver → Prop}
    (got : ∀ i0 i1 i2, d.Spare [i0, i1, i2] → post (some [i0, i1, i2]) (d.draw [i0, i1, i2]))
    (undone : ∀ desc, (∀ i, d.free i = false → desc i = d.desc i) →
      post none { d with desc := desc }) :
    wp alloc3Desc post abort d := by
  have start : d.draw [] = d := by simp [Driver.draw]
  refine wp_allocDescs ⟨List.nodup_nil, by simp⟩ (fun all length spare => ?_) undone
  obtain ⟨i0, i1, i2, rfl⟩ := List.length_eq_three.mp length
  exact got i0 i1 i2 spare

theorem wp_retire (formed : d.Formed c) (nodup : c.chain.Nodup)
    (taken : ∀ i ∈ c.chain, i < num ∧ d.free i = false)
    (freed : ∀ desc free, (∀ i ∉ c.chain, desc i = d.desc i) →
      (∀ i, free i = if i ∈ c.chain then true else d.free i) →
      post () { d with
        info := update d.info c.i0 { d.info c.i0 with b := none }
        desc := desc
        free := free }) : wp (retire c) post abort d := by
  obtain ⟨ne01, ne02, ne12⟩ := c.nodup_iff.mp nodup
  have first := taken c.i0 (by simp [Request.chain])
  have second := taken c.i1 (by simp [Request.chain])
  have third := taken c.i2 (by simp [Request.chain])
  simp only [retire, num, wp_bind, wp_modify]
  -- The chain leads from each descriptor to the next one.
  rw [freeChain, wp_bind, wp_get, wp_bind]
  refine wp_freeDesc first.1 (by exact first.2) ?_
  simp only [formed.head, if_true]
  rw [freeChain, wp_bind, wp_get, wp_bind]
  apply wp_freeDesc second.1 (by simp [ne01.symm, second.2])
  simp only [update_of_ne ne01.symm, formed.data, if_true]
  rw [freeChain, wp_bind, wp_get, wp_bind]
  apply wp_freeDesc third.1 (by simp [ne02.symm, ne12.symm, third.2])
  simp only [update_of_ne ne02.symm, update_of_ne ne12.symm, formed.status,
    Bool.false_eq_true, if_false, wp_pure]
  apply freed
  · intro i outside
    simp only [Request.chain, List.mem_cons, not_or] at outside
    simp [outside]
  · intro i
    simp only [Request.chain]
    simp only [Function.update_apply]
    by_cases here2 : i = c.i2
    · simp [here2]
    · by_cases here1 : i = c.i1
      · simp [here1]
      · by_cases here0 : i = c.i0
        · simp [here0]
        · simp [here1, here2]

end Operations

/-! What each step does to the requests. -/

theorem Driver.Formed.frame {d' : Driver} (formed : d.Formed c)
    (desc : ∀ i ∈ c.chain, d'.desc i = d.desc i) (buf : (d'.info c.i0).b = (d.info c.i0).b)
    (op : d'.ops c.i0 = d.ops c.i0) (blockno : d'.blockno = d.blockno) : d'.Formed c := by
  constructor
  · rw [desc _ (by simp [Request.chain]), formed.head]
  · rw [desc _ (by simp [Request.chain]), formed.data]
  · rw [desc _ (by simp [Request.chain]), formed.status]
  · rw [buf, formed.buf]
  · rw [op, formed.op, Driver.sector, Driver.sector, blockno]

theorem Driver.formed_format (d : Driver) (nodup : c.chain.Nodup) : (d.format c).Formed c := by
  obtain ⟨ne01, ne02, ne12⟩ := c.nodup_iff.mp nodup
  constructor <;> simp [Driver.format, Driver.sector, ne01, ne02, ne12]

theorem Driver.Formed.writeStatus (formed : d.Formed c) :
    d.writeStatus c.i0 = update d.info c.i0 { d.info c.i0 with status := 0 } := by
  simp only [Driver.writeStatus, formed.head, formed.data, formed.status]

namespace Driver.Keeps

variable {d : Driver} {req : Nat → Option Request} {stage : Nat → Stage} {p : Nat} {c : Request}

theorem posted_of_mem (keeps : d.Keeps req stage) (here : req p = some c)
    (mem : c.i0 ∈ d.travelling) : stage p = .posted := by
  obtain ⟨q, e, there, posted, same⟩ := keeps.whose mem
  obtain rfl := keeps.chains.apart there here e.head_mem (same ▸ c.head_mem)
  exact posted

theorem head_ne (keeps : d.Keeps req stage) {e : Request} (here : req p = some c)
    (there : req q = some e) (other : q ≠ p) : e.i0 ∉ c.chain :=
  fun mem => other (keeps.chains.apart there here e.head_mem mem)

theorem lt_num (keeps : d.Keeps req stage) (mem : h ∈ d.travelling) : h < num := by
  obtain ⟨q, e, there, -, rfl⟩ := keeps.whose mem
  exact (keeps.chains.taken there e.head_mem).1

theorem draw (keeps : d.Keeps req stage) (none_here : req p = none) (unformed : stage p = .unformed)
    (fresh : ∀ q e, req q = some e → e.buf ≠ c.buf) (spare : d.Spare c.chain) :
    (d.draw c.chain).Keeps (update req p (some c)) stage := by
  -- Only the new request differs, and nothing is said about it yet.
  have old : ∀ {q e}, update req p (some c) q = some e → stage q ≠ .unformed →
      req q = some e := by
    intro q e there formed
    rcases Owned.update_eq_some_iff.mp there with ⟨rfl, -⟩ | ⟨-, old⟩
    · exact absurd unformed formed
    · exact old
  have posted : ∀ {q}, stage q = .posted → stage q ≠ .unformed := by
    intro q here there
    rw [here] at there
    exact absurd there (by decide)
  constructor
  · exact keeps.chains.draw none_here fresh spare.nodup spare.free fun i => rfl
  · intro q e there formed
    exact (keeps.formed (old there formed) formed).frame (fun _ _ => rfl) rfl rfl rfl
  · exact fun there formed => keeps.flag (old there formed) formed
  · intro h mem
    obtain ⟨q, e, there, sent, same⟩ := keeps.whose mem
    have other : q ≠ p := by
      rintro rfl
      exact absurd unformed (posted sent)
    exact ⟨q, e, by rw [update_of_ne other]; exact there, sent, same⟩
  · exact keeps.once
  · exact fun there sent => keeps.served (old there (posted sent)) sent
  · exact keeps.status
  · exact keeps.avail
  · exact keeps.used
  · exact keeps.counts

theorem undo (keeps : d.Keeps req stage) (same : ∀ i, d.free i = false → desc i = d.desc i) :
    ({ d with desc := desc } : Driver).Keeps req stage where
  chains := keeps.chains
  formed := fun here formed => (keeps.formed here formed).frame
    (fun i mem => same i (keeps.chains.taken here mem).2) rfl rfl rfl
  flag := keeps.flag
  whose := keeps.whose
  once := keeps.once
  served := keeps.served
  status := keeps.status
  avail := keeps.avail
  used := keeps.used
  counts := keeps.counts

theorem stage_update {k l : Stage} (now : update stage p k q = l) :
    q = p ∧ k = l ∨ q ≠ p ∧ stage q = l := by
  by_cases same : q = p
  · subst same
    rw [update_self] at now
    exact .inl ⟨rfl, now⟩
  · rw [update_of_ne same] at now
    exact .inr ⟨same, now⟩

theorem format (keeps : d.Keeps req stage) (here : req p = some c)
    (unformed : stage p = .unformed) :
    (d.format c).Keeps req (update stage p .formed) := by
  -- A chain on its way is another one.
  have ne_head : ∀ {h}, h ∈ d.travelling → h ≠ c.i0 := by
    rintro h mem rfl
    have sent := keeps.posted_of_mem here mem
    rw [unformed] at sent
    exact absurd sent (by decide)
  constructor
  · exact keeps.chains
  · intro q e there formed
    by_cases same : q = p
    · subst same
      obtain rfl := Option.some.inj (here.symm.trans there)
      exact d.formed_format (keeps.chains.nodup here)
    · rw [update_of_ne same] at formed
      have apart : ∀ i ∈ e.chain, i ∉ c.chain :=
        fun i mem mem' => same (keeps.chains.apart there here mem mem')
      have head : e.i0 ≠ c.i0 := fun eq => apart _ e.head_mem (eq ▸ c.head_mem)
      refine (keeps.formed there formed).frame (fun i mem => ?_) ?_ ?_ rfl
      · have out := apart i mem
        simp only [Request.chain, List.mem_cons, not_or] at out
        simp [Driver.format, out]
      · simp [Driver.format, head]
      · simp [Driver.format, head]
  · intro q e there formed
    by_cases same : q = p
    · subst same
      obtain rfl := Option.some.inj (here.symm.trans there)
      simp [Driver.format]
    · rw [update_of_ne same] at formed ⊢
      have other : e.buf ≠ c.buf := fun eq => same (keeps.chains.bufs there here eq)
      rw [show (d.format c).disk e.buf = d.disk e.buf by simp [Driver.format, other]]
      exact keeps.flag there formed
  · intro h mem
    obtain ⟨q, e, there, sent, eq⟩ := keeps.whose mem
    have other : q ≠ p := by
      rintro rfl
      rw [unformed] at sent
      exact absurd sent (by decide)
    exact ⟨q, e, there, by rw [update_of_ne other]; exact sent, eq⟩
  · exact keeps.once
  · intro q e there sent
    rcases stage_update sent with ⟨-, no⟩ | ⟨-, old⟩
    · exact absurd no (by decide)
    · exact keeps.served there old
  · intro h mem
    have other : h ≠ c.i0 := ne_head (List.mem_append_right _ mem)
    simpa [Driver.format, other] using keeps.status mem
  · exact keeps.avail
  · exact keeps.used
  · exact keeps.counts

theorem room_of_nodup (nodup : l.Nodup) (inside : ∀ i ∈ l, i < num) (below : h < num)
    (missing : h ∉ l) : l.length < num := by
  have all : (h :: l).Nodup := List.nodup_cons.mpr ⟨missing, nodup⟩
  have sub : (h :: l) ⊆ List.range num := by
    intro i mem
    rcases List.mem_cons.mp mem with rfl | mem
    · exact List.mem_range.mpr below
    · exact List.mem_range.mpr (inside i mem)
  have length := (all.subperm sub).length_le
  exact length

theorem room (keeps : d.Keeps req stage) (part : l.Sublist d.travelling) (below : h < num)
    (missing : h ∉ l) : l.length < num :=
  room_of_nodup (keeps.once.sublist part) (fun _ mem => keeps.lt_num (part.subset mem)) below
    missing

theorem publish (keeps : d.Keeps req stage) (here : req p = some c) (formed : stage p = .formed) :
    (d.publish c.i0).Keeps req (update stage p .posted) := by
  have missing : c.i0 ∉ d.travelling := by
    intro mem
    have sent := keeps.posted_of_mem here mem
    rw [formed] at sent
    exact absurd sent (by decide)
  have below : c.i0 < num := (keeps.chains.taken here c.head_mem).1
  have sub : d.queued.Sublist d.travelling :=
    (List.sublist_append_left _ _).trans (List.sublist_append_left _ _)
  obtain ⟨sound, contents⟩ := keeps.avail.push (by decide) (by decide)
    (keeps.room sub below fun mem => missing (sub.subset mem)) c.i0
  -- The chain is new at the end of the avail ring.
  have queued : (d.publish c.i0).queued = d.queued ++ [c.i0] := contents
  have perm : ((d.publish c.i0).travelling).Perm (c.i0 :: d.travelling) := by
    simp only [travelling, queued, List.append_assoc, List.singleton_append]
    exact List.perm_middle
  have mem_iff : ∀ {h}, h ∈ (d.publish c.i0).travelling ↔ h = c.i0 ∨ h ∈ d.travelling := by
    intro h
    rw [perm.mem_iff, List.mem_cons]
  constructor
  · exact keeps.chains
  · intro q e there later
    refine (keeps.formed there ?_).frame (fun _ _ => rfl) rfl rfl rfl
    by_cases same : q = p
    · rw [same, formed]
      decide
    · rwa [update_of_ne same] at later
  · intro q e there later
    rw [mem_iff]
    by_cases same : q = p
    · subst same
      obtain rfl := Option.some.inj (here.symm.trans there)
      have before := keeps.flag here (by rw [formed]; decide)
      simp only [true_or, or_true, iff_true]
      exact before.mpr (.inl formed)
    · rw [update_of_ne same] at later ⊢
      have head : e.i0 ≠ c.i0 := fun eq => keeps.head_ne here there same (eq ▸ c.head_mem)
      simp only [head, false_or]
      exact keeps.flag there later
  · intro h mem
    rcases mem_iff.mp mem with rfl | old
    · exact ⟨p, c, here, update_self .., rfl⟩
    · obtain ⟨q, e, there, sent, eq⟩ := keeps.whose old
      refine ⟨q, e, there, ?_, eq⟩
      by_cases same : q = p
      · rw [same, update_self]
      · rwa [update_of_ne same]
  · exact perm.nodup_iff.mpr (List.nodup_cons.mpr ⟨missing, keeps.once⟩)
  · intro q e there sent
    rw [queued]
    rcases stage_update sent with ⟨rfl, -⟩ | ⟨other, old⟩
    · obtain rfl := Option.some.inj (here.symm.trans there)
      simp [Driver.publish]
    · have head : e.i0 ≠ c.i0 := fun eq => keeps.head_ne here there other (eq ▸ c.head_mem)
      have before := keeps.served there old
      simp only [Driver.publish, update_of_ne head, before, List.mem_append,
        List.mem_singleton, head, or_false]
  · exact keeps.status
  · exact sound
  · exact keeps.used
  · exact keeps.counts

theorem finish (keeps : d.Keeps req stage) (here : req p = some c) (sent : stage p = .posted)
    (cleared : d.disk c.buf = false) : d.Keeps req (update stage p .done) := by
  have missing : c.i0 ∉ d.travelling := by
    intro mem
    have set := (keeps.flag here (by rw [sent]; decide)).mpr (.inr mem)
    rw [cleared] at set
    exact absurd set (by decide)
  constructor
  · exact keeps.chains
  · intro q e there later
    refine keeps.formed there ?_
    by_cases same : q = p
    · rw [same, sent]
      decide
    · rwa [update_of_ne same] at later
  · intro q e there later
    by_cases same : q = p
    · subst same
      obtain rfl := Option.some.inj (here.symm.trans there)
      simp [cleared, missing]
    · rw [update_of_ne same] at later ⊢
      exact keeps.flag there later
  · intro h mem
    obtain ⟨q, e, there, posted, eq⟩ := keeps.whose mem
    refine ⟨q, e, there, ?_, eq⟩
    by_cases same : q = p
    · subst same
      obtain rfl := Option.some.inj (here.symm.trans there)
      exact absurd (eq ▸ mem) missing
    · rwa [update_of_ne same]
  · exact keeps.once
  · intro q e there posted
    rcases stage_update posted with ⟨-, no⟩ | ⟨-, old⟩
    · exact absurd no (by decide)
    · exact keeps.served there old
  · exact keeps.status
  · exact keeps.avail
  · exact keeps.used
  · exact keeps.counts

theorem retire (keeps : d.Keeps req stage) (here : req p = some c) (ended : stage p = .done)
    {free : Nat → Bool} (kept : ∀ i ∉ c.chain, desc i = d.desc i)
    (now : ∀ i, free i = if i ∈ c.chain then true else d.free i) : ({ d with
      info := update d.info c.i0 { d.info c.i0 with b := none }
      desc := desc
      free := free } : Driver).Keeps (update req p none)
        (update stage p .unformed) := by
  -- Whoever has a request afterwards is another process.
  have rest : ∀ {q e}, update req p none q = some e → q ≠ p ∧ req q = some e := by
    intro q e there
    rcases Owned.update_eq_some_iff.mp there with ⟨-, gone⟩ | old
    · exact absurd gone (by simp)
    · exact old
  constructor
  · exact keeps.chains.retire here now
  · intro q e there later
    obtain ⟨other, old⟩ := rest there
    rw [update_of_ne other] at later
    have head : e.i0 ≠ c.i0 := fun eq => keeps.head_ne here old other (eq ▸ c.head_mem)
    refine (keeps.formed old later).frame (fun i mem => ?_) (by simp [head]) rfl rfl
    exact kept i fun inside => other (keeps.chains.apart old here mem inside)
  · intro q e there later
    obtain ⟨other, old⟩ := rest there
    rw [update_of_ne other] at later ⊢
    exact keeps.flag old later
  · intro h mem
    obtain ⟨q, e, there, posted, eq⟩ := keeps.whose mem
    have other : q ≠ p := by
      rintro rfl
      rw [ended] at posted
      exact absurd posted (by decide)
    refine ⟨q, e, ?_, ?_, eq⟩
    · rw [update_of_ne other]
      exact there
    · rw [update_of_ne other]
      exact posted
  · exact keeps.once
  · intro q e there posted
    obtain ⟨other, old⟩ := rest there
    rw [update_of_ne other] at posted
    exact keeps.served old posted
  · intro h mem
    have status := keeps.status mem
    by_cases same : h = c.i0
    · subst same
      simpa using status
    · simpa [update_of_ne same] using status
  · exact keeps.avail
  · exact keeps.used
  · exact keeps.counts

theorem first_used (keeps : d.Keeps req stage) (more : d.used.read ≠ d.used.write) :
    ∃ p c, req p = some c ∧ stage p = .posted ∧ d.used.data (d.used.read % num) = c.i0 ∧
      d.finished = c.i0 :: (d.used.pop wrap).contents num wrap ∧ d.disk c.buf = true ∧
      d.served c.i0 = true := by
  obtain ⟨-, contents⟩ := keeps.used.pop (by decide) (by decide) more
  have first : d.used.data (d.used.read % num) ∈ d.finished := by
    rw [finished, contents]
    exact List.mem_cons_self ..
  have mem : d.used.data (d.used.read % num) ∈ d.travelling := List.mem_append_right _ first
  obtain ⟨p, c, here, sent, eq⟩ := keeps.whose mem
  refine ⟨p, c, here, sent, eq.symm, ?_, ?_, ?_⟩
  · rw [eq, finished, contents]
  · exact (keeps.flag here (by rw [sent]; decide)).mpr (.inr (eq ▸ mem))
  · -- It cannot be before the device as well.
    rw [← Bool.not_eq_false, keeps.served here sent]
    intro earlier
    exact (List.nodup_append.mp keeps.once).2.2 _ earlier _ (eq ▸ first) rfl

theorem consume (keeps : d.Keeps req stage) (more : d.used.read ≠ d.used.write)
    (here : req p = some c)
    (first : d.finished = c.i0 :: (d.used.pop wrap).contents num wrap) :
    (d.clear c.buf).Keeps req stage := by
  have finished : d.finished = c.i0 :: (d.clear c.buf).finished := first
  have perm : (d.travelling).Perm (c.i0 :: (d.clear c.buf).travelling) := by
    rw [travelling, finished]
    exact List.perm_middle
  have nodup := perm.nodup_iff.mp keeps.once
  have missing : c.i0 ∉ (d.clear c.buf).travelling := (List.nodup_cons.mp nodup).1
  constructor
  · exact keeps.chains
  · intro q e there later
    exact (keeps.formed there later).frame (fun _ _ => rfl) rfl rfl rfl
  · intro q e there later
    by_cases same : q = p
    · -- The caller itself: its chain has come back.
      subst same
      obtain rfl := Option.some.inj (here.symm.trans there)
      have sent := keeps.posted_of_mem here (perm.mem_iff.mpr (List.mem_cons_self ..))
      have flag : (d.clear c.buf).disk c.buf = false := update_self ..
      simp [flag, sent, missing]
    · have buf : e.buf ≠ c.buf := fun eq => same (keeps.chains.bufs there here eq)
      have head : e.i0 ≠ c.i0 := fun eq => keeps.head_ne here there same (eq ▸ c.head_mem)
      have before := keeps.flag there later
      rw [perm.mem_iff, List.mem_cons, or_iff_right head] at before
      rw [← before]
      simp [Driver.clear, buf]
  · intro h mem
    exact keeps.whose (perm.mem_iff.mpr (List.mem_cons_of_mem _ mem))
  · exact (List.nodup_cons.mp nodup).2
  · exact keeps.served
  · intro h mem
    exact keeps.status (finished ▸ List.mem_cons_of_mem _ mem)
  · exact keeps.avail
  · exact (keeps.used.pop (by decide) (by decide) more).1
  · have before := keeps.counts
    rw [finished, List.length_cons] at before
    simp only [Driver.clear] at before ⊢
    omega

theorem fetch (keeps : d.Keeps req stage) (more : d.avail.read ≠ d.avail.write) :
    d.fetch.Keeps req stage := by
  obtain ⟨sound, contents⟩ := keeps.avail.pop (by decide) (by decide) more
  have queued : d.queued = d.avail.data (d.avail.read % num) :: d.fetch.queued := contents
  -- The chain moves from the ring to the device.
  have ahead : (d.fetch.queued ++ d.fetch.pending).Perm (d.queued ++ d.pending) := by
    have pending : d.fetch.pending = d.pending ++ [d.avail.data (d.avail.read % num)] := rfl
    rw [queued, pending, ← List.append_assoc, List.cons_append]
    exact List.perm_append_singleton _ _
  have perm : d.fetch.travelling.Perm d.travelling := ahead.append_right _
  constructor
  · exact keeps.chains
  · intro q e there later
    exact (keeps.formed there later).frame (fun _ _ => rfl) rfl rfl rfl
  · intro q e there later
    rw [perm.mem_iff]
    exact keeps.flag there later
  · exact fun mem => keeps.whose (perm.mem_iff.mp mem)
  · exact perm.nodup_iff.mpr keeps.once
  · intro q e there sent
    rw [ahead.mem_iff]
    exact keeps.served there sent
  · exact keeps.status
  · exact sound
  · exact keeps.used
  · exact keeps.counts

theorem complete (keeps : d.Keeps req stage) (mem : h ∈ d.pending) :
    (d.complete h).Keeps req stage := by
  have ahead : h ∈ d.queued ++ d.pending := List.mem_append_right _ mem
  have travels : h ∈ d.travelling := List.mem_append_left _ ahead
  obtain ⟨p, c, here, sent, rfl⟩ := keeps.whose travels
  have formed := keeps.formed here (by rw [sent]; decide)
  have split := List.nodup_append.mp keeps.once
  have missing : c.i0 ∉ d.finished := fun there => split.2.2 _ ahead _ there rfl
  obtain ⟨sound, contents⟩ := keeps.used.push (by decide) (by decide)
    (keeps.room (List.sublist_append_right _ _) (keeps.lt_num travels) missing) c.i0
  have finished : (d.complete c.i0).finished = d.finished ++ [c.i0] := contents
  -- The chain moves from the device to the used ring.
  have out : (d.queued ++ d.pending).Perm (c.i0 :: (d.queued ++ d.pending.erase c.i0)) :=
    ((List.perm_cons_erase mem).append_left _).trans List.perm_middle
  have perm : (d.complete c.i0).travelling.Perm d.travelling := by
    have joined := out.symm.append_right d.finished
    rw [List.cons_append] at joined
    rw [travelling, finished, queued, pending, ← List.append_assoc]
    exact (List.perm_append_singleton _ _).trans joined
  have gone : c.i0 ∉ d.queued ++ d.pending.erase c.i0 :=
    (List.nodup_cons.mp (out.nodup_iff.mp split.1)).1
  have info : (d.complete c.i0).info =
      update d.info c.i0 { d.info c.i0 with status := 0 } := formed.writeStatus
  constructor
  · exact keeps.chains
  · intro q e there later
    refine (keeps.formed there later).frame (fun _ _ => rfl) ?_ rfl rfl
    rw [info]
    by_cases same : e.i0 = c.i0
    · simp [same]
    · rw [update_of_ne same]
  · intro q e there later
    rw [perm.mem_iff]
    exact keeps.flag there later
  · exact fun mem => keeps.whose (perm.mem_iff.mp mem)
  · exact perm.nodup_iff.mpr keeps.once
  · intro q e there posted
    have before := keeps.served there posted
    by_cases same : e.i0 = c.i0
    · have done : (d.complete c.i0).served c.i0 = true := update_self ..
      rw [same, done]
      exact iff_of_false (by decide) gone
    · rw [out.mem_iff, List.mem_cons, or_iff_right same] at before
      have kept : (d.complete c.i0).served e.i0 = d.served e.i0 := update_of_ne same ..
      rw [kept, before]
      rfl
  · intro h there
    rw [info]
    by_cases same : h = c.i0
    · simp [same]
    · rw [update_of_ne same]
      rw [finished, List.mem_append, List.mem_singleton, or_iff_left same] at there
      exact keeps.status there
  · exact keeps.avail
  · exact sound
  · have before := keeps.counts
    rw [finished, List.length_append, List.length_singleton]
    simp only [Driver.complete] at before ⊢
    omega

end Driver.Keeps

end Virtio

end Xv6
