import Xv6.Programs.ShellTokens

/-! The grammar of the shell: the parser takes only what derives from it, and all of it. -/

namespace Xv6.Shell

open Prog

/-- `redir ::= ('<' | '>' | '>>') word` -/
inductive Redir : Token → Token → Redirection → Prop where
  | input {op file : Token} (isOp : op.kind = .less) (isWord : file.kind = .word) :
      Redir op file (inputFrom file.span)
  | output {op file : Token} (isOp : op.kind = .greater) (isWord : file.kind = .word) :
      Redir op file (outputTo file.span)
  | append {op file : Token} (isOp : op.kind = .append) (isWord : file.kind = .word) :
      Redir op file (appendTo file.span)

/-- `redir*` -/
inductive Redirs : List Token → List Redirection → Prop where
  | nil : Redirs [] []
  | cons {op file : Token} {ts : List Token} {r : Redirection} {rs : List Redirection}
      (first : Redir op file r) (rest : Redirs ts rs) : Redirs (op :: file :: ts) (r :: rs)

/-- `(word redir*)*`, with the words and the redirections apart. -/
inductive Words : List Token → List Span → List Redirection → Prop where
  | nil : Words [] [] []
  | cons {w : Token} {ts ts' : List Token} {argv : List Span} {rs rs' : List Redirection}
      (isWord : w.kind = .word) (redirs : Redirs ts rs) (rest : Words ts' argv rs') :
      Words (w :: (ts ++ ts')) (w.span :: argv) (rs ++ rs')

/-- What the grammar derives. -/
inductive Nonterminal where
  | line
  | pipe
  | exec
  deriving DecidableEq

def backs : Nat → Cmd → Cmd
  | 0, cmd => cmd
  | n + 1, cmd => backs n (.back cmd)

/-- The grammar, with the tree of each derivation. -/
inductive Derives : Nonterminal → List Token → Cmd → Prop where
  /-- `line ::= pipe '&'*` -/
  | line {ts amps : List Token} {cmd : Cmd} (pipe : Derives .pipe ts cmd)
      (areAmps : ∀ t ∈ amps, t.kind = .amp) : Derives .line (ts ++ amps) (backs amps.length cmd)
  /-- `line ::= pipe '&'* ';' line` -/
  | list {ts amps rest : List Token} {semi : Token} {cmd right : Cmd} (pipe : Derives .pipe ts cmd)
      (areAmps : ∀ t ∈ amps, t.kind = .amp) (isSemi : semi.kind = .semi)
      (line : Derives .line rest right) :
      Derives .line (ts ++ (amps ++ semi :: rest)) (.list (backs amps.length cmd) right)
  /-- `pipe ::= exec` -/
  | single {ts : List Token} {cmd : Cmd} (exec : Derives .exec ts cmd) : Derives .pipe ts cmd
  /-- `pipe ::= exec '|' pipe` -/
  | pipe {ts rest : List Token} {bar : Token} {cmd right : Cmd} (exec : Derives .exec ts cmd)
      (isBar : bar.kind = .bar) (pipe : Derives .pipe rest right) :
      Derives .pipe (ts ++ bar :: rest) (.pipe cmd right)
  /-- `exec ::= '(' line ')' redir*` -/
  | block {ts redirs : List Token} {opening closing : Token} {cmd : Cmd} {rs : List Redirection}
      (isOpen : opening.kind = .lparen) (line : Derives .line ts cmd)
      (isClose : closing.kind = .rparen) (behind : Redirs redirs rs) :
      Derives .exec (opening :: (ts ++ closing :: redirs)) (cmd.redirected rs)
  /-- `exec ::= redir* (word redir*)*`, with fewer words than there is room for -/
  | simple {redirs words : List Token} {argv : List Span} {rs rs' : List Redirection}
      (before : Redirs redirs rs) (args : Words words argv rs') (few : argv.length < maxargs) :
      Derives .exec (redirs ++ words) ((Cmd.exec argv).redirected (rs ++ rs'))

section Soundness

variable {line : List UInt8} {s : Nat} {ts : List Token}

variable {toks : List UInt8} {c : UInt8} {fuel s : Nat} {kinds : List Kind}
  {amps rest seg ts : List Token} {rs : List Redirection} {cmd : Cmd} {symbol : Nonterminal}

theorem exists_of_begins (there : begins toks ts = true) :
    ∃ t rest, ts = t :: rest ∧ ∃ c ∈ toks, t.kind.first = some c := by
  cases ts with
  | nil => cases there
  | cons t rest =>
    rw [begins, Option.any_eq_true] at there
    obtain ⟨c, first, member⟩ := there
    exact ⟨t, rest, rfl, c, List.contains_iff_mem.mp member, first⟩

theorem kind_eq_of_first {kind kind' : Kind} (first : kind.first = some c)
    (symbol : symbolKind c = some kind') : kind = kind' := by
  cases kind <;> cases first <;> cases kind' <;> revert symbol <;> decide

theorem exists_of_begins_one (kind : Kind) (symbol : symbolKind c = some kind)
    (there : begins [c] ts = true) : ∃ t rest, ts = t :: rest ∧ t.kind = kind := by
  obtain ⟨t, rest, split, d, member, first⟩ := exists_of_begins there
  obtain rfl := List.mem_singleton.mp member
  exact ⟨t, rest, split, kind_eq_of_first first symbol⟩

theorem Redir.of_first {op file : Token} (member : c ∈ [60, 62]) (first : op.kind.first = some c)
    (isWord : file.kind = .word) :
    ∃ r, redirection (some op.kind) file.span = [r] ∧ Redir op file r := by
  have kinds : op.kind = .less ∨ op.kind = .greater ∨ op.kind = .append := by
    simp only [List.mem_cons, List.not_mem_nil, or_false] at member
    rcases member with rfl | rfl <;> cases found : op.kind <;> simp_all [Kind.first]
  rcases kinds with isOp | isOp | isOp
  · exact ⟨_, by rw [isOp]; rfl, .input isOp isWord⟩
  · exact ⟨_, by rw [isOp]; rfl, .output isOp isWord⟩
  · exact ⟨_, by rw [isOp]; rfl, .append isOp isWord⟩

theorem wp_parseredirs (text : 0 ∉ line) (fuel : Nat) : ∀ {s ts}, At line s ts → ts.length < fuel →
    wp (parseredirs line fuel)
      (fun rs s' => ∃ seg rest, ts = seg ++ rest ∧ Redirs seg rs ∧ At line s' rest)
      (fun e => e ≠ .fuel) s := by
  induction fuel with
  | zero =>
    omega
  | succ fuel ih =>
    intro s ts at_ enough
    unfold parseredirs
    rw [wp_bind]
    refine wp_peek text at_ (by decide) fun s₁ at₁ _ => ?_
    by_cases there : begins [60, 62] ts = true
    · rw [if_pos there, wp_bind]
      obtain ⟨op, rest, rfl, c, member, first⟩ := exists_of_begins there
      refine wp_gettoken_cons text at₁ fun s₂ at₂ => ?_
      dsimp only
      rw [wp_bind]
      refine wp_gettoken text at₂ (fun _ s₃ _ _ => ?_) fun file after s₃ split at₃ => ?_
      · simp
      · subst split
        by_cases isWord : file.kind = .word
        · rw [if_neg (by simp [isWord]), wp_bind]
          simp only [List.length_cons] at enough
          refine wp_imp (ih at₃ (by omega)) fun rs s₄ ⟨seg, rest, split, redirs, at₄⟩ => ?_
          obtain ⟨r, stands, redir⟩ := Redir.of_first member first isWord
          rw [wp_pure, stands]
          exact ⟨op :: file :: seg, rest, by rw [split]; rfl, .cons redir redirs, at₄⟩
        · rw [if_pos (by simpa using isWord)]
          simp
    · rw [if_neg there, wp_pure]
      exact ⟨[], ts, rfl, .nil, at₁⟩

theorem wp_parseargs (text : 0 ∉ line) (fuel : Nat) :
    ∀ {s ts} (argv : List Span) (rs : List Redirection), At line s ts → ts.length < fuel →
    argv.length < maxargs →
    wp (parseargs line fuel argv rs)
      (fun cmd s' => ∃ seg rest words rs', ts = seg ++ rest ∧ Words seg words rs' ∧
        (argv ++ words).length < maxargs ∧
        cmd = (Cmd.exec (argv ++ words)).redirected (rs ++ rs') ∧ At line s' rest)
      (fun e => e ≠ .fuel) s := by
  induction fuel with
  | zero =>
    omega
  | succ fuel ih =>
    intro s ts argv rs at_ enough few
    unfold parseargs
    rw [wp_bind]
    -- The command ends where something else may follow, or at the end of the line.
    have ends : ∀ s', At line s' ts → ∃ seg rest words rs', ts = seg ++ rest ∧
        Words seg words rs' ∧ (argv ++ words).length < maxargs ∧
        (Cmd.exec argv).redirected rs = (Cmd.exec (argv ++ words)).redirected (rs ++ rs') ∧
        At line s' rest := fun s' at' =>
      ⟨[], ts, [], [], rfl, .nil, by simpa using few, by simp, at'⟩
    refine wp_peek text at_ (by decide) fun s₁ at₁ _ => ?_
    split
    · rw [wp_pure]
      exact ends s₁ at₁
    rw [wp_bind]
    refine wp_gettoken text at₁ (fun _ s₂ empty at₂ => ?_) fun t rest s₂ split at₂ => ?_
    · dsimp only
      rw [wp_pure]
      exact ends s₂ (by rwa [empty])
    · subst split
      simp only [List.length_cons] at enough
      by_cases isWord : t.kind = .word
      · simp only [isWord]
        split
        · simp
        · rename_i room
          rw [wp_bind]
          refine wp_imp (wp_parseredirs text fuel at₂ (by omega)) ?_
          rintro more s₃ ⟨seg, rest', rfl, redirs, at₃⟩
          rw [List.length_append] at enough
          refine wp_imp (ih (argv ++ [t.span]) (rs ++ more) at₃ (by omega) (by simp; omega)) ?_
          rintro cmd s₄ ⟨seg', rest, words, rs', rfl, args, few', rfl, at₄⟩
          refine ⟨t :: (seg ++ seg'), rest, t.span :: words, more ++ rs', by simp,
            .cons isWord redirs args, ?_, by simp, at₄⟩
          simpa using few'
      · cases found : t.kind with
        | word => exact absurd found isWord
        | _ => simp

theorem wp_parsebacks (text : 0 ∉ line) (fuel : Nat) : ∀ {s ts} (cmd : Cmd), At line s ts →
    ts.length < fuel →
    wp (parsebacks line fuel cmd)
      (fun cmd' s' => ∃ amps rest, ts = amps ++ rest ∧ (∀ t ∈ amps, t.kind = .amp) ∧
        cmd' = backs amps.length cmd ∧ At line s' rest)
      (fun e => e ≠ .fuel) s := by
  induction fuel with
  | zero =>
    omega
  | succ fuel ih =>
    intro s ts cmd at_ enough
    unfold parsebacks
    rw [wp_bind]
    refine wp_peek text at_ (by decide) fun s₁ at₁ _ => ?_
    by_cases there : begins [38] ts = true
    · rw [if_pos there, wp_bind, wp_discard]
      obtain ⟨amp, rest, rfl, isAmp⟩ := exists_of_begins_one .amp rfl there
      refine wp_gettoken_cons text at₁ fun s₂ at₂ => ?_
      simp only [List.length_cons] at enough
      refine wp_imp (ih (.back cmd) at₂ (by omega)) ?_
      rintro cmd' s₃ ⟨amps, rest, rfl, areAmps, rfl, at₃⟩
      refine ⟨amp :: amps, rest, rfl, ?_, rfl, at₃⟩
      exact List.forall_mem_cons.mpr ⟨isAmp, areAmps⟩
    · rw [if_neg there, wp_pure]
      exact ⟨[], ts, rfl, nofun, rfl, at₁⟩

def Parses (line : List UInt8) (part : Parser Cmd) (symbol : Nonterminal) (ts : List Token)
    (s : Nat) : Prop :=
  wp part (fun cmd s' => ∃ seg rest, ts = seg ++ rest ∧ Derives symbol seg cmd ∧ At line s' rest)
    (fun e => e ≠ .fuel) s

def ParsesAll (line : List UInt8) (part : Parser Cmd) (symbol : Nonterminal) (fuel more : Nat) :
    Prop :=
  ∀ {s ts}, At line s ts → 4 * ts.length + more ≤ fuel → Parses line part symbol ts s

theorem parsesAll_parseline (text : 0 ∉ line)
    (pipe : ParsesAll line (parsepipe line fuel) .pipe fuel 3)
    (next : ParsesAll line (parseline line fuel) .line fuel 4) :
    ParsesAll line (parseline line (fuel + 1)) .line (fuel + 1) 4 := by
  intro s ts at_ enough
  unfold Parses parseline
  rw [wp_bind]
  refine wp_imp (pipe at_ (by omega)) ?_
  rintro cmd s₁ ⟨seg, rest, rfl, derives, at₁⟩
  rw [List.length_append] at enough
  rw [wp_bind]
  refine wp_imp (wp_parsebacks text fuel cmd at₁ (by omega)) ?_
  rintro cmd' s₂ ⟨amps, rest, rfl, areAmps, rfl, at₂⟩
  rw [List.length_append] at enough
  rw [wp_bind]
  refine wp_peek text at₂ (by decide) fun s₃ at₃ _ => ?_
  by_cases more : begins [59] rest = true
  · rw [if_pos more, wp_bind, wp_discard]
    obtain ⟨semi, rest, rfl, isSemi⟩ := exists_of_begins_one .semi rfl more
    refine wp_gettoken_cons text at₃ fun s₄ at₄ => ?_
    rw [List.length_cons] at enough
    rw [wp_bind]
    refine wp_imp (next at₄ (by omega)) ?_
    rintro right s₅ ⟨seg', rest, rfl, derives', at₅⟩
    rw [wp_pure]
    exact ⟨seg ++ (amps ++ semi :: seg'), rest, by simp, .list derives areAmps isSemi derives', at₅⟩
  · rw [if_neg more, wp_pure]
    exact ⟨seg ++ amps, rest, by simp, .line derives areAmps, at₃⟩

theorem parsesAll_parsepipe (text : 0 ∉ line)
    (exec : ParsesAll line (parseexec line fuel) .exec fuel 2)
    (next : ParsesAll line (parsepipe line fuel) .pipe fuel 3) :
    ParsesAll line (parsepipe line (fuel + 1)) .pipe (fuel + 1) 3 := by
  intro s ts at_ enough
  unfold Parses parsepipe
  rw [wp_bind]
  refine wp_imp (exec at_ (by omega)) ?_
  rintro cmd s₁ ⟨seg, rest, rfl, derives, at₁⟩
  rw [List.length_append] at enough
  rw [wp_bind]
  refine wp_peek text at₁ (by decide) fun s₂ at₂ _ => ?_
  by_cases more : begins [124] rest = true
  · rw [if_pos more, wp_bind, wp_discard]
    obtain ⟨bar, rest, rfl, isBar⟩ := exists_of_begins_one .bar rfl more
    refine wp_gettoken_cons text at₂ fun s₃ at₃ => ?_
    rw [List.length_cons] at enough
    rw [wp_bind]
    refine wp_imp (next at₃ (by omega)) ?_
    rintro right s₄ ⟨seg', rest, rfl, derives', at₄⟩
    rw [wp_pure]
    exact ⟨seg ++ bar :: seg', rest, by simp, .pipe derives isBar derives', at₄⟩
  · rw [if_neg more, wp_pure]
    exact ⟨seg, rest, rfl, .single derives, at₂⟩

theorem parses_parseblock (text : 0 ∉ line)
    (inner : ParsesAll line (parseline line fuel) .line fuel 4) (at_ : At line s ts)
    (opens : begins [40] ts = true) (enough : 4 * ts.length + 1 ≤ fuel + 1) :
    Parses line (parseblock line (fuel + 1)) .exec ts s := by
  unfold Parses parseblock
  rw [wp_bind]
  refine wp_peek text at_ (by decide) fun s₁ at₁ _ => ?_
  rw [opens]
  simp only [Bool.not_true, Bool.false_eq_true, if_false, wp_bind, wp_discard]
  obtain ⟨opening, rest, rfl, isOpen⟩ := exists_of_begins_one .lparen rfl opens
  refine wp_gettoken_cons text at₁ fun s₂ at₂ => ?_
  rw [List.length_cons] at enough
  refine wp_imp (inner at₂ (by omega)) ?_
  rintro cmd s₃ ⟨seg, rest, rfl, derives, at₃⟩
  rw [List.length_append] at enough
  refine wp_peek text at₃ (by decide) fun s₄ at₄ _ => ?_
  by_cases closes : begins [41] rest = true
  · rw [closes]
    simp only [Bool.not_true, Bool.false_eq_true, if_false, wp_bind, wp_discard]
    obtain ⟨closing, rest, rfl, isClose⟩ := exists_of_begins_one .rparen rfl closes
    refine wp_gettoken_cons text at₄ fun s₅ at₅ => ?_
    rw [List.length_cons] at enough
    refine wp_imp (wp_parseredirs text fuel at₅ (by omega)) ?_
    rintro rs s₆ ⟨redirs, rest, rfl, behind, at₆⟩
    rw [wp_pure]
    exact ⟨opening :: (seg ++ closing :: redirs), rest, by simp,
      .block isOpen derives isClose behind, at₆⟩
  · rw [Bool.not_eq_true] at closes
    rw [closes]
    simp

theorem parsesAll_parseexec (text : 0 ∉ line)
    (block : ∀ {s ts}, At line s ts → begins [40] ts = true → 4 * ts.length + 1 ≤ fuel →
      Parses line (parseblock line fuel) .exec ts s) :
    ParsesAll line (parseexec line (fuel + 1)) .exec (fuel + 1) 2 := by
  intro s ts at_ enough
  unfold Parses parseexec
  rw [wp_bind]
  refine wp_peek text at_ (by decide) fun s₁ at₁ _ => ?_
  by_cases opens : begins [40] ts = true
  · rw [if_pos opens]
    exact block at₁ opens (by omega)
  · rw [if_neg opens, wp_bind]
    refine wp_imp (wp_parseredirs text fuel at₁ (by omega)) ?_
    rintro rs s₂ ⟨redirs, rest, rfl, before, at₂⟩
    rw [List.length_append] at enough
    refine wp_imp (wp_parseargs text fuel [] rs at₂ (by omega) (by decide)) ?_
    rintro cmd s₃ ⟨seg, rest, words, rs', rfl, args, few, rfl, at₃⟩
    exact ⟨redirs ++ seg, rest, by simp, .simple before args few, at₃⟩

theorem parsesAll (text : 0 ∉ line) (fuel : Nat) :
    ParsesAll line (parseline line fuel) .line fuel 4 ∧
    ParsesAll line (parsepipe line fuel) .pipe fuel 3 ∧
    (∀ {s ts}, At line s ts → begins [40] ts = true → 4 * ts.length + 1 ≤ fuel →
      Parses line (parseblock line fuel) .exec ts s) ∧
    ParsesAll line (parseexec line fuel) .exec fuel 2 := by
  induction fuel with
  | zero =>
    have none : ∀ {part symbol more}, 0 < more → ParsesAll line part symbol 0 more := by
      intro part symbol more positive s ts _ enough
      omega
    exact ⟨none (by omega), none (by omega), fun _ _ enough => by omega, none (by omega)⟩
  | succ fuel ih =>
    obtain ⟨inner, pipe, block, exec⟩ := ih
    exact ⟨parsesAll_parseline text pipe inner, parsesAll_parsepipe text exec pipe,
      parses_parseblock text inner, parsesAll_parseexec text block⟩

end Soundness

section Completeness

variable {line : List UInt8}

def Follow (kinds : List Kind) (rest : List Token) : Prop := ∀ t ts, rest = t :: ts → t.kind ∈ kinds

theorem Follow.not_begins (follow : Follow kinds rest)
    (apart : ∀ k ∈ kinds, k.first.any toks.contains = false) : begins toks rest = false := by
  cases rest with
  | nil => rfl
  | cons t ts => exact apart t.kind (follow t ts rfl)

theorem Follow.mono {kinds' : List Kind} (follow : Follow kinds rest)
    (more : ∀ k ∈ kinds, k ∈ kinds') : Follow kinds' rest :=
  fun t ts split => more _ (follow t ts split)

theorem Follow.cons {t : Token} (here : t.kind ∈ kinds) : Follow kinds (t :: ts) := by
  rintro t' ts' split
  obtain ⟨rfl, rfl⟩ := List.cons.inj split
  exact here

def Yields {α : Type} (line : List UInt8) (part : Parser α) (value : α) (rest : List Token)
    (s : Nat) : Prop :=
  wp part (fun r s' => r = value ∧ At line s' rest) (fun e => e = .fuel) s

theorem yields_parseredirs (text : 0 ∉ line) (redirs : Redirs seg rs) :
    ∀ {s rest} (fuel : Nat), At line s (seg ++ rest) →
    begins [60, 62] rest = false → Yields line (parseredirs line fuel) rs rest s := by
  induction redirs with
  | nil =>
    intro s rest fuel at_ stops
    cases fuel with
    | zero =>
      unfold Yields parseredirs
      rw [wp_throw]
    | succ fuel =>
      unfold Yields parseredirs
      rw [wp_bind]
      refine wp_peek text at_ (by decide) fun s₁ at₁ _ => ?_
      rw [List.nil_append, stops, if_neg Bool.false_ne_true, wp_pure]
      exact ⟨rfl, at₁⟩
  | @cons op file ts r rs first _ ih =>
    intro s rest fuel at_ stops
    cases fuel with
    | zero =>
      unfold Yields parseredirs
      rw [wp_throw]
    | succ fuel =>
      unfold Yields parseredirs
      rw [wp_bind]
      refine wp_peek text at_ (by decide) fun s₁ at₁ _ => ?_
      have redir : begins [60, 62] (op :: file :: ts ++ rest) = true ∧ file.kind = .word ∧
          redirection (some op.kind) file.span = [r] := by
        cases first with
        | input isOp isWord | output isOp isWord | append isOp isWord =>
          refine ⟨?_, isWord, ?_⟩
          · rw [List.cons_append, begins, isOp]
            rfl
          · rw [isOp]
            rfl
      rw [if_pos redir.1, wp_bind]
      refine wp_gettoken_cons text at₁ fun s₂ at₂ => ?_
      rw [wp_bind]
      refine wp_gettoken_cons text at₂ fun s₃ at₃ => ?_
      dsimp only
      rw [if_neg (by simp [redir.2.1]), wp_bind]
      refine wp_imp (ih fuel at₃ stops) ?_
      rintro rs' s₄ ⟨rfl, at₄⟩
      rw [wp_pure, redir.2.2]
      exact ⟨rfl, at₄⟩

def afterExec : List Kind := [.bar, .rparen, .amp, .semi]

def afterPipe : List Kind := [.rparen, .amp, .semi]

def afterLine : List Kind := [.rparen]

theorem Words.not_begins {argv : List Span} (words : Words seg argv rs)
    (stops : begins toks rest = false) : begins toks (seg ++ rest) = false := by
  cases words with
  | nil => exact stops
  | cons isWord _ _ =>
    rw [List.cons_append, begins, isWord]
    rfl

theorem yields_parseargs (text : 0 ∉ line) {words : List Span} {rs' : List Redirection}
    (args : Words seg words rs') : ∀ {s rest} (fuel : Nat)
    (argv : List Span) (rs : List Redirection), At line s (seg ++ rest) → Follow afterExec rest →
    (argv ++ words).length < maxargs →
    Yields line (parseargs line fuel argv rs) ((Cmd.exec (argv ++ words)).redirected (rs ++ rs')) rest
      s := by
  induction args with
  | nil =>
    intro s rest fuel argv rs at_ follow few
    cases fuel with
    | zero =>
      unfold Yields parseargs
      rw [wp_throw]
    | succ fuel =>
      unfold Yields parseargs
      rw [List.append_nil, List.append_nil, wp_bind]
      refine wp_peek text at_ (by decide) fun s₁ at₁ _ => ?_
      cases rest with
      | nil =>
        -- At the end of the line the loop stops with the last token.
        rw [List.nil_append, begins, if_neg Bool.false_ne_true, wp_bind]
        refine wp_gettoken text at₁ (fun _ s₂ _ at₂ => ?_) fun t rest s₂ split => by simp at split
        rw [wp_pure]
        exact ⟨rfl, at₂⟩
      | cons t ts =>
        have stops : begins [124, 41, 38, 59] ([] ++ t :: ts) = true := by
          have kinds := follow t ts rfl
          rw [List.nil_append, begins]
          revert kinds
          generalize t.kind = kind
          cases kind <;> decide
        rw [if_pos stops, wp_pure]
        exact ⟨rfl, at₁⟩
  | @cons w ts ts' words rs₁ rs₂ isWord redirs rest' ih =>
    intro s rest fuel argv rs at_ follow few
    cases fuel with
    | zero =>
      unfold Yields parseargs
      rw [wp_throw]
    | succ fuel =>
      simp only [List.cons_append, List.append_assoc] at at_
      unfold Yields parseargs
      rw [wp_bind]
      refine wp_peek text at_ (by decide) fun s₁ at₁ _ => ?_
      have goesOn : begins [124, 41, 38, 59] (w :: (ts ++ (ts' ++ rest))) = false := by
        rw [begins, isWord]
        rfl
      rw [goesOn, if_neg Bool.false_ne_true, wp_bind]
      refine wp_gettoken_cons text at₁ fun s₂ at₂ => ?_
      have room : ¬ maxargs ≤ argv.length + 1 := by
        simp only [List.length_append, List.length_cons] at few
        omega
      simp only [isWord, if_neg room, wp_bind]
      have stops : begins [60, 62] (ts' ++ rest) = false :=
        rest'.not_begins (follow.not_begins (by decide))
      refine wp_imp (yields_parseredirs text redirs fuel at₂ stops) ?_
      rintro more s₃ ⟨rfl, at₃⟩
      refine wp_imp (ih fuel (argv ++ [w.span]) (rs ++ more) at₃ follow (by simpa using few)) ?_
      rintro cmd s₄ ⟨rfl, at₄⟩
      exact ⟨by simp, at₄⟩

theorem yields_parsebacks (text : 0 ∉ line) :
    ∀ {s rest} (fuel : Nat) (cmd : Cmd), (∀ t ∈ amps, t.kind = .amp) → At line s (amps ++ rest) →
    begins [38] rest = false →
    Yields line (parsebacks line fuel cmd) (backs amps.length cmd) rest s := by
  induction amps with
  | nil =>
    intro s rest fuel cmd _ at_ stops
    cases fuel with
    | zero =>
      unfold Yields parsebacks
      rw [wp_throw]
    | succ fuel =>
      unfold Yields parsebacks
      rw [wp_bind]
      refine wp_peek text at_ (by decide) fun s₁ at₁ _ => ?_
      rw [List.nil_append, stops, if_neg Bool.false_ne_true, wp_pure]
      exact ⟨rfl, at₁⟩
  | cons amp amps ih =>
    intro s rest fuel cmd areAmps at_ stops
    cases fuel with
    | zero =>
      unfold Yields parsebacks
      rw [wp_throw]
    | succ fuel =>
      obtain ⟨isAmp, areAmps⟩ := List.forall_mem_cons.mp areAmps
      unfold Yields parsebacks
      rw [wp_bind]
      refine wp_peek text at_ (by decide) fun s₁ at₁ _ => ?_
      have goesOn : begins [38] (amp :: amps ++ rest) = true := by
        rw [List.cons_append, begins, isAmp]
        rfl
      rw [if_pos goesOn, wp_bind, wp_discard]
      refine wp_gettoken_cons text at₁ fun s₂ at₂ => ?_
      exact ih fuel (.back cmd) areAmps at₂ stops

theorem wp_parseline_behind (text : 0 ∉ line) {tail : List Token} {post : Cmd → Nat → Prop}
    (at_ : At line s (ts ++ (amps ++ tail)))
    (pipe : ∀ {rest}, At line s (ts ++ rest) → Follow afterPipe rest →
      Yields line (parsepipe line fuel) cmd rest s) (areAmps : ∀ t ∈ amps, t.kind = .amp)
    (follow : Follow [.rparen, .semi] tail)
    (stop : ∀ s', At line s' tail → begins [59] tail = false → post (backs amps.length cmd) s')
    (goOn : ∀ s', At line s' tail → begins [59] tail = true →
      wp (do
        discard (gettoken line)
        let rest ← parseline line fuel
        return .list (backs amps.length cmd) rest) post (fun e => e = .fuel) s') :
    wp (parseline line (fuel + 1)) post (fun e => e = .fuel) s := by
  -- An `'&'` may follow the pipe, and what may follow the line otherwise.
  have behind : Follow afterPipe (amps ++ tail) := by
    cases amps with
    | nil => exact follow.mono (by decide)
    | cons amp amps =>
      refine .cons ?_
      rw [areAmps amp List.mem_cons_self]
      decide
  unfold parseline
  rw [wp_bind]
  refine wp_imp (pipe at_ behind) ?_
  rintro _ s₁ ⟨rfl, at₁⟩
  rw [wp_bind]
  refine wp_imp (yields_parsebacks text fuel _ areAmps at₁ (follow.not_begins (by decide))) ?_
  rintro _ s₂ ⟨rfl, at₂⟩
  rw [wp_bind]
  refine wp_peek text at₂ (by decide) fun s₃ at₃ _ => ?_
  by_cases more : begins [59] tail = true
  · rw [if_pos more]
    exact goOn s₃ at₃ more
  · rw [if_neg more, wp_pure]
    exact stop s₃ at₃ (by simpa using more)

def parserOf (line : List UInt8) : Nonterminal → Nat → Parser Cmd
  | .line => parseline line
  | .pipe => parsepipe line
  | .exec => parseexec line

theorem yields_zero : Yields line (parserOf line symbol 0) cmd rest s := by
  cases symbol with
  | line =>
    show wp (parseline line 0) _ _ _
    rw [parseline, wp_throw]
  | pipe =>
    show wp (parsepipe line 0) _ _ _
    rw [parsepipe, wp_throw]
  | exec =>
    show wp (parseexec line 0) _ _ _
    rw [parseexec, wp_throw]

def afterSymbol : Nonterminal → List Kind
  | .line => afterLine
  | .pipe => afterPipe
  | .exec => afterExec

theorem Redirs.not_begins (redirs : Redirs seg rs)
    (apart : [60, 62].all (fun c => !toks.contains c) = true) (stops : begins toks rest = false) :
    begins toks (seg ++ rest) = false := by
  cases redirs with
  | nil => exact stops
  | @cons op file ts r rs first _ =>
    have other : ∀ c ∈ [60, 62], toks.contains c = false := fun c member =>
      (Bool.not_eq_true' _).mp (List.all_eq_true.mp apart c member)
    rw [List.cons_append, begins]
    cases first with
    | input isOp _ | output isOp _ | append isOp _ =>
      rw [isOp]
      exact other _ (by decide)

theorem yields_of_derives (text : 0 ∉ line) (derives : Derives symbol seg cmd) :
    ∀ {s rest} (fuel : Nat), At line s (seg ++ rest) →
    Follow (afterSymbol symbol) rest → Yields line (parserOf line symbol fuel) cmd rest s := by
  induction derives with
  | @line ts amps cmd _ areAmps ih =>
    intro s rest fuel at_ follow
    cases fuel with
    | zero => exact yields_zero
    | succ fuel =>
      rw [List.append_assoc] at at_
      refine wp_parseline_behind text at_ (fun at_ => ih fuel at_) areAmps
        (follow.mono (by decide)) (fun s' at' _ => ⟨rfl, at'⟩) fun s' _ more => ?_
      rw [follow.not_begins (by decide)] at more
      exact absurd more Bool.false_ne_true
  | @list ts amps rest' semi cmd right _ areAmps isSemi _ ih ih' =>
    intro s rest fuel at_ follow
    cases fuel with
    | zero => exact yields_zero
    | succ fuel =>
      rw [List.append_assoc, List.append_assoc, List.cons_append] at at_
      have isThere : begins [59] (semi :: (rest' ++ rest)) = true := by
        rw [begins, isSemi]
        rfl
      refine wp_parseline_behind text at_ (fun at_ => ih fuel at_) areAmps
        (.cons (by rw [isSemi]; decide)) (fun s' _ stops => ?_) fun s' at' _ => ?_
      · rw [isThere] at stops
        exact absurd stops.symm Bool.false_ne_true
      · rw [wp_bind, wp_discard]
        refine wp_gettoken_cons text at' fun s₁ at₁ => ?_
        rw [wp_bind]
        refine wp_imp (ih' fuel at₁ follow) ?_
        rintro _ s₂ ⟨rfl, at₂⟩
        rw [wp_pure]
        exact ⟨rfl, at₂⟩
  | @single ts cmd _ ih =>
    intro s rest fuel at_ follow
    cases fuel with
    | zero => exact yields_zero
    | succ fuel =>
      show wp (parsepipe line (fuel + 1)) _ _ _
      unfold parsepipe
      rw [wp_bind]
      refine wp_imp (ih fuel at_ (follow.mono (by decide))) ?_
      rintro _ s₁ ⟨rfl, at₁⟩
      rw [wp_bind]
      refine wp_peek text at₁ (by decide) fun s₂ at₂ _ => ?_
      rw [follow.not_begins (by decide), if_neg Bool.false_ne_true, wp_pure]
      exact ⟨rfl, at₂⟩
  | @pipe ts rest' bar cmd right _ isBar _ ih ih' =>
    intro s rest fuel at_ follow
    cases fuel with
    | zero => exact yields_zero
    | succ fuel =>
      rw [List.append_assoc, List.cons_append] at at_
      show wp (parsepipe line (fuel + 1)) _ _ _
      unfold parsepipe
      rw [wp_bind]
      refine wp_imp (ih fuel at_ (.cons (by rw [isBar]; decide))) ?_
      rintro _ s₁ ⟨rfl, at₁⟩
      rw [wp_bind]
      refine wp_peek text at₁ (by decide) fun s₂ at₂ _ => ?_
      have isThere : begins [124] (bar :: (rest' ++ rest)) = true := by
        rw [begins, isBar]
        rfl
      rw [if_pos isThere, wp_bind, wp_discard]
      refine wp_gettoken_cons text at₂ fun s₃ at₃ => ?_
      rw [wp_bind]
      refine wp_imp (ih' fuel at₃ follow) ?_
      rintro _ s₄ ⟨rfl, at₄⟩
      rw [wp_pure]
      exact ⟨rfl, at₄⟩
  | @block ts redirs opening closing cmd rs isOpen _ isClose behind ih =>
    intro s rest fuel at_ follow
    cases fuel with
    | zero => exact yields_zero
    | succ fuel =>
      simp only [List.cons_append, List.append_assoc] at at_
      have opens : ∀ ts, begins [40] (opening :: ts) = true := by
        intro ts
        rw [begins, isOpen]
        rfl
      have closes : ∀ ts, begins [41] (closing :: ts) = true := by
        intro ts
        rw [begins, isClose]
        rfl
      show wp (parseexec line (fuel + 1)) _ _ _
      unfold parseexec
      rw [wp_bind]
      refine wp_peek text at_ (by decide) fun s₁ at₁ _ => ?_
      rw [if_pos (opens _)]
      cases fuel with
      | zero => rw [parseblock, wp_throw]
      | succ fuel =>
        unfold parseblock
        rw [wp_bind]
        refine wp_peek text at₁ (by decide) fun s₂ at₂ _ => ?_
        rw [opens]
        simp only [Bool.not_true, Bool.false_eq_true, if_false, wp_bind, wp_discard]
        refine wp_gettoken_cons text at₂ fun s₃ at₃ => ?_
        refine wp_imp (ih fuel at₃ (.cons (by rw [isClose]; decide))) ?_
        rintro _ s₄ ⟨rfl, at₄⟩
        refine wp_peek text at₄ (by decide) fun s₅ at₅ _ => ?_
        rw [closes]
        simp only [Bool.not_true, Bool.false_eq_true, if_false, wp_bind, wp_discard]
        refine wp_gettoken_cons text at₅ fun s₆ at₆ => ?_
        refine wp_imp (yields_parseredirs text behind fuel at₆ (follow.not_begins (by decide))) ?_
        rintro _ s₇ ⟨rfl, at₇⟩
        rw [wp_pure]
        exact ⟨rfl, at₇⟩
  | @simple redirs words argv rs rs' before args few =>
    intro s rest fuel at_ follow
    cases fuel with
    | zero => exact yields_zero
    | succ fuel =>
      rw [List.append_assoc] at at_
      show wp (parseexec line (fuel + 1)) _ _ _
      unfold parseexec
      rw [wp_bind]
      refine wp_peek text at_ (by decide) fun s₁ at₁ _ => ?_
      have plain : begins [40] (redirs ++ (words ++ rest)) = false :=
        before.not_begins (by decide) (args.not_begins (follow.not_begins (by decide)))
      have stops : begins [60, 62] (words ++ rest) = false :=
        args.not_begins (follow.not_begins (by decide))
      rw [plain, if_neg Bool.false_ne_true, wp_bind]
      refine wp_imp (yields_parseredirs text before fuel at₁ stops) ?_
      rintro _ s₂ ⟨rfl, at₂⟩
      exact yields_parseargs text args fuel [] _ at₂ follow few

end Completeness

end Xv6.Shell
