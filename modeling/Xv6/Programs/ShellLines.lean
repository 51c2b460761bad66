import Xv6.Programs.ShellGrammar

/-! Lines of the shell: which are accepted, and that the words of a command are its strings. -/

namespace Xv6.Shell

open Prog Ulib

def Cmd.spans : Cmd → List Span
  | .exec argv => argv
  | .redir cmd r => cmd.spans ++ [r.file]
  | .pipe left right => left.spans ++ right.spans
  | .list left right => left.spans ++ right.spans
  | .back cmd => cmd.spans

structure IsWord (line : List UInt8) (span : Span) : Prop where
  inside : span.q ≤ span.eq
  fits : span.eq ≤ line.length
  chars : ∀ i, span.q ≤ i → i < span.eq → wordChar (charAt line i) = true
  ends : span.eq = line.length ∨ wordChar (charAt line span.eq) = false

def textOf (line : List UInt8) (span : Span) : List UInt8 :=
  (line.drop span.q).take (span.eq - span.q)

variable {rs : List Redirection} {ts : List Token} {cmd : Cmd}

section Words

variable {line : List UInt8}

theorem At.isWord (text : 0 ∉ line) : ∀ {ts : List Token} {s : Nat}, At line s ts →
    ∀ t ∈ ts, t.kind = .word → IsWord line t.span := by
  intro ts
  induction ts with
  | nil => exact fun _ t member => absurd member List.not_mem_nil
  | cons first rest ih =>
    intro s at_ t member isWord
    obtain ⟨there, blank⟩ := at_.skipSpace
    rcases there.tokenAt text blank with ⟨-, nothing, -⟩ | ⟨kind, e, rest', split, found, behind, char, kinds⟩
    · exact absurd nothing (by simp)
    obtain ⟨rfl, rfl⟩ := List.cons.inj split
    rcases List.mem_cons.mp member with rfl | later
    · -- The word is what the loop over its characters passed.
      obtain rfl : kind = .word := isWord
      have word : wordChar (charAt line (Shell.skipSpace line s)) = true := by
        rcases kinds with symbol | ⟨-, word⟩
        · cases symbol
        · exact word
      obtain ⟨-, symbol, greater⟩ := (wordChar_iff _).mp word
      unfold Shell.tokenAt at found
      simp only [if_neg char, symbol, if_neg greater] at found
      obtain ⟨-, rfl⟩ := Prod.mk.inj found
      have inside := there.inside
      obtain ⟨low, high, stop, passed⟩ :=
        @skipWhile_stop line wordChar (line.length - Shell.skipSpace line s) (Shell.skipSpace line s) (by omega)
      exact ⟨low, high, passed, stop⟩
    · exact ih behind t later isWord

theorem Cmd.mem_spans_redirected : ∀ {cmd : Cmd} {span : Span},
    span ∈ (cmd.redirected rs).spans → span ∈ cmd.spans ∨ ∃ r ∈ rs, span = r.file := by
  induction rs with
  | nil => exact fun member => .inl member
  | cons r rs ih =>
    intro cmd span member
    rcases ih member with inner | ⟨r', there, file⟩
    · rcases List.mem_append.mp inner with inner | here
      · exact .inl inner
      · exact .inr ⟨r, List.mem_cons_self, List.mem_singleton.mp here⟩
    · exact .inr ⟨r', List.mem_cons_of_mem r there, file⟩

theorem spans_backs (n : Nat) : ∀ cmd : Cmd, (backs n cmd).spans = cmd.spans := by
  induction n with
  | zero => exact fun _ => rfl
  | succ n ih => exact fun cmd => ih (.back cmd)

theorem Redirs.file_mem (redirs : Redirs ts rs) :
    ∀ r ∈ rs, ∃ t ∈ ts, t.kind = .word ∧ r.file = t.span := by
  induction redirs with
  | nil => exact fun r member => absurd member List.not_mem_nil
  | @cons op file ts r rs first _ ih =>
    intro r' member
    rcases List.mem_cons.mp member with rfl | later
    · refine ⟨file, by simp, ?_⟩
      cases first with
      | input _ isWord | output _ isWord | append _ isWord => exact ⟨isWord, rfl⟩
    · obtain ⟨t, there, isWord, same⟩ := ih r' later
      exact ⟨t, by simp [there], isWord, same⟩

theorem Words.span_mem {argv : List Span} (words : Words ts argv rs) :
    (∀ span ∈ argv, ∃ t ∈ ts, t.kind = .word ∧ span = t.span) ∧
      ∀ r ∈ rs, ∃ t ∈ ts, t.kind = .word ∧ r.file = t.span := by
  induction words with
  | nil => exact ⟨fun _ member => absurd member List.not_mem_nil,
      fun _ member => absurd member List.not_mem_nil⟩
  | @cons w ts ts' argv rs rs' isWord redirs _ ih =>
    constructor
    · intro span member
      rcases List.mem_cons.mp member with rfl | later
      · exact ⟨w, by simp, isWord, rfl⟩
      · obtain ⟨t, there, isWord, same⟩ := ih.1 span later
        exact ⟨t, by simp [there], isWord, same⟩
    · intro r member
      rcases List.mem_append.mp member with here | later
      · obtain ⟨t, there, isWord, same⟩ := redirs.file_mem r here
        exact ⟨t, by simp [there], isWord, same⟩
      · obtain ⟨t, there, isWord, same⟩ := ih.2 r later
        exact ⟨t, by simp [there], isWord, same⟩

theorem Derives.span_mem {symbol : Nonterminal} (derives : Derives symbol ts cmd) :
    ∀ span ∈ cmd.spans, ∃ t ∈ ts, t.kind = .word ∧ span = t.span := by
  induction derives with
  | line _ _ ih =>
    intro span member
    rw [spans_backs] at member
    obtain ⟨t, there, found⟩ := ih span member
    exact ⟨t, by simp [there], found⟩
  | list _ _ _ _ ih ih' =>
    intro span member
    rw [Cmd.spans, spans_backs] at member
    rcases List.mem_append.mp member with left | right
    · obtain ⟨t, there, found⟩ := ih span left
      exact ⟨t, by simp [there], found⟩
    · obtain ⟨t, there, found⟩ := ih' span right
      exact ⟨t, by simp [there], found⟩
  | single _ ih => exact ih
  | pipe _ _ _ ih ih' =>
    intro span member
    rcases List.mem_append.mp member with left | right
    · obtain ⟨t, there, found⟩ := ih span left
      exact ⟨t, by simp [there], found⟩
    · obtain ⟨t, there, found⟩ := ih' span right
      exact ⟨t, by simp [there], found⟩
  | block _ _ _ behind ih =>
    intro span member
    rcases Cmd.mem_spans_redirected member with inner | ⟨r, here, rfl⟩
    · obtain ⟨t, there, found⟩ := ih span inner
      exact ⟨t, by simp [there], found⟩
    · obtain ⟨t, there, found⟩ := behind.file_mem r here
      exact ⟨t, by simp [there], found⟩
  | simple before args _ =>
    intro span member
    rcases Cmd.mem_spans_redirected member with inner | ⟨r, here, rfl⟩
    · obtain ⟨t, there, found⟩ := args.span_mem.1 span inner
      exact ⟨t, by simp [there], found⟩
    · rcases List.mem_append.mp here with here | here
      · obtain ⟨t, there, found⟩ := before.file_mem r here
        exact ⟨t, by simp [there], found⟩
      · obtain ⟨t, there, found⟩ := args.span_mem.2 r here
        exact ⟨t, by simp [there], found⟩

end Words

section Strings

theorem nulterminate_apply (cmd : Cmd) : ∀ (mem : Nat → UInt8) (i : Nat),
    nulterminate cmd mem i = if ∃ span ∈ cmd.spans, span.eq = i then 0 else mem i := by
  have args : ∀ (argv : List Span) (mem : Nat → UInt8) (i : Nat),
      argv.foldl (fun mem arg => Function.update mem arg.eq 0) mem i =
        if ∃ span ∈ argv, span.eq = i then 0 else mem i := by
    intro argv
    induction argv with
    | nil => simp
    | cons arg argv ih =>
      intro mem i
      rw [List.foldl_cons, ih, Function.update_apply]
      simp only [eq_comm (a := i)]
      by_cases here : arg.eq = i <;> simp [here]
  have both : ∀ (left right : List Span) (mem : Nat → UInt8) (i : Nat),
      (if ∃ span ∈ right, span.eq = i then 0
        else if ∃ span ∈ left, span.eq = i then 0 else mem i) =
      if ∃ span ∈ left ++ right, span.eq = i then 0 else mem i := by
    intro left right mem i
    simp only [List.mem_append, or_and_right, exists_or]
    by_cases there : ∃ span ∈ right, span.eq = i <;> simp [there]
  induction cmd with
  | exec argv => exact args argv
  | redir cmd r ih =>
    intro mem i
    rw [nulterminate, Cmd.spans, ← both, Function.update_apply, ih]
    simp only [List.mem_singleton, exists_eq_left, eq_comm (a := i)]
  | pipe left right ihl ihr =>
    intro mem i
    rw [nulterminate, Cmd.spans, ihr, ihl, both]
  | list left right ihl ihr =>
    intro mem i
    rw [nulterminate, Cmd.spans, ihr, ihl, both]
  | back cmd ih => exact ih

variable {line : List UInt8} {span : Span}

theorem textOf_getElem (word : IsWord line span) (i : Nat) (here : i < (textOf line span).length) :
    span.q + i < span.eq ∧ (textOf line span)[i] = charAt line (span.q + i) := by
  simp only [textOf, List.length_take, List.length_drop] at here
  have below : span.q + i < line.length := by omega
  refine ⟨by omega, ?_⟩
  simp [textOf, charAt, below]

theorem str_nulterminate (text : 0 ∉ line) (words : ∀ span ∈ cmd.spans, IsWord line span)
    (member : span ∈ cmd.spans) :
    Str (nulterminate cmd (charAt line)) span.q (textOf line span) := by
  have word := words span member
  have fits := word.fits
  have inside := word.inside
  have length : (textOf line span).length = span.eq - span.q := by
    simp only [textOf, List.length_take, List.length_drop]
    omega
  refine ⟨.of_get fun i here => ?_, ?_, fun zero => text ?_⟩
  · obtain ⟨below, char⟩ := textOf_getElem word i here
    rw [nulterminate_apply, if_neg, char]
    -- No word ends inside of another one.
    rintro ⟨other, there, ends⟩
    rcases (words other there).ends with last | stops
    · omega
    · rw [ends, word.chars _ (by omega) below] at stops
      exact Bool.noConfusion stops
  · rw [nulterminate_apply, if_pos ⟨span, member, by omega⟩]
  · exact List.mem_of_mem_drop (List.mem_of_mem_take zero)

end Strings

section Whole

variable {line : List UInt8}

theorem length_lex (cs : List UInt8) (s : Nat) (began : Option Nat) :
    (lex cs s began).length ≤ cs.length + (closeWord began s).length := by
  fun_induction lex cs s began with
  | case1 s began => simp
  | case7 c cs s began _ _ _ ih =>
    -- A character of a word makes no token yet.
    have one : (closeWord (some (began.getD s)) (s + 1)).length = 1 := rfl
    simp only [List.length_cons]
    omega
  | _ => simp_all [closeWord] <;> omega

theorem at_start (line : List UInt8) : At line 0 (tokens line) := ⟨Nat.zero_le _, rfl⟩

theorem wp_parsewhole (text : 0 ∉ line) :
    wp (parsewhole line) (fun cmd _ => Derives .line (tokens line) cmd) (fun e => e ≠ .fuel) 0 := by
  have few : (tokens line).length ≤ line.length := length_lex line 0 none
  unfold parsewhole
  rw [wp_bind]
  refine wp_imp ((parsesAll text _).1 (at_start line) (by omega)) ?_
  rintro cmd s ⟨seg, rest, split, derives, at_⟩
  rw [wp_bind, wp_discard]
  refine wp_peek text at_ (by simp) fun s' _ ended => ?_
  simp only [wp_bind, wp_get]
  by_cases whole : s' = line.length
  · rw [if_neg (not_not_intro whole), wp_pure, split, ended.mp whole, List.append_nil]
    exact derives
  · rw [if_pos whole]
    simp

theorem yields_parsewhole (text : 0 ∉ line) (derives : Derives .line (tokens line) cmd) :
    Yields line (parsewhole line) cmd [] 0 := by
  have start : At line 0 (tokens line ++ []) := by
    rw [List.append_nil]
    exact at_start line
  have parsed : Yields line (parseline line (4 * (line.length + 1))) cmd [] 0 :=
    yields_of_derives text derives (4 * (line.length + 1)) start nofun
  unfold Yields parsewhole
  rw [wp_bind]
  refine wp_imp parsed ?_
  rintro _ s ⟨rfl, at_⟩
  rw [wp_bind, wp_discard]
  refine wp_peek text at_ (by simp) fun s' at' ended => ?_
  simp only [wp_bind, wp_get]
  rw [if_neg (not_not_intro (ended.mpr rfl)), wp_pure]
  exact ⟨rfl, at'⟩

theorem parsecmd_eq_ok {mem : Nat → UInt8} : parsecmd line = .ok (cmd, mem) ↔
      (∃ s, parsewhole line 0 = .ok (cmd, s)) ∧ mem = nulterminate cmd (charAt line) := by
  unfold parsecmd
  cases run : parsewhole line 0 with
  | error e => simp
  | ok r =>
    simp only [bind, Except.bind, pure, Except.pure, Except.ok.injEq, Prod.mk.injEq]
    constructor
    · rintro ⟨rfl, rfl⟩
      exact ⟨⟨r.2, rfl⟩, rfl⟩
    · rintro ⟨⟨s, rfl⟩, rfl⟩
      exact ⟨rfl, rfl⟩

end Whole

/-- Every line without zeros is parsed to an end. It is accepted exactly when its tokens derive from
the grammar, with the tree of the derivation; and then every word and file of the tree is a word of
the line, and is a string where it was once the strings are ended. -/
theorem parsecmd_accepts_grammar {line : List UInt8} (text : 0 ∉ line) :
    parsecmd line ≠ .error .fuel ∧
    (∀ cmd, (∃ mem, parsecmd line = .ok (cmd, mem)) ↔ Derives .line (tokens line) cmd) ∧
    ∀ cmd mem, parsecmd line = .ok (cmd, mem) → ∀ span ∈ cmd.spans,
      ⟨.word, span⟩ ∈ tokens line ∧ Str mem span.q (textOf line span) := by
  have judged := wp_parsewhole text
  have sound : ∀ {cmd s}, parsewhole line 0 = .ok (cmd, s) → Derives .line (tokens line) cmd := by
    intro cmd s ran
    have derives := wp_ok judged ran
    exact derives
  refine ⟨fun stuck => ?_, fun cmd => ⟨?_, fun derives => ?_⟩, fun cmd mem ran => ?_⟩
  · -- The parser has turns enough.
    cases run : parsewhole line 0 with
    | error e =>
      have other := wp_error judged run
      unfold parsecmd at stuck
      rw [run] at stuck
      exact other (Except.error.inj stuck)
    | ok r =>
      unfold parsecmd at stuck
      rw [run] at stuck
      cases stuck
  · rintro ⟨mem, ran⟩
    obtain ⟨⟨s, ran⟩, -⟩ := parsecmd_eq_ok.mp ran
    exact sound ran
  · have accepted := yields_parsewhole text derives
    cases run : parsewhole line 0 with
    | error e =>
      have stuck := wp_error accepted run
      have other := wp_error judged run
      exact absurd stuck other
    | ok r =>
      have same := (wp_ok accepted run).1
      refine ⟨_, parsecmd_eq_ok.mpr ⟨⟨r.2, ?_⟩, rfl⟩⟩
      rw [run, ← same]
  · obtain ⟨⟨s, parsed⟩, rfl⟩ := parsecmd_eq_ok.mp ran
    have mem := (sound parsed).span_mem
    have words : ∀ span ∈ cmd.spans, IsWord line span := by
      intro span member
      obtain ⟨t, there, isWord, rfl⟩ := mem span member
      exact (at_start line).isWord text t there isWord
    intro span member
    obtain ⟨t, there, isWord, rfl⟩ := mem span member
    refine ⟨?_, str_nulterminate text words member⟩
    rw [← isWord]
    exact there

def pipedLine : List UInt8 := [40, 97, 59, 98, 41, 62, 99, 124, 100, 38]

def pipedCmd : Cmd :=
  .back (.pipe (.redir (.list (.exec [⟨1, 2⟩]) (.exec [⟨3, 4⟩])) (outputTo ⟨6, 7⟩))
    (.exec [⟨8, 9⟩]))

theorem parsecmd_accepts_piped : Derives .line (tokens pipedLine) pipedCmd ∧
    ∃ mem, parsecmd pipedLine = .ok (pipedCmd, mem) ∧ Str mem 6 [99] ∧ Str mem 8 [100] := by
  have ran : ∃ mem, parsecmd pipedLine = .ok (pipedCmd, mem) :=
    ⟨_, parsecmd_eq_ok.mpr ⟨⟨10, rfl⟩, rfl⟩⟩
  have text : 0 ∉ pipedLine := by decide
  obtain ⟨-, accepts, strings⟩ := parsecmd_accepts_grammar text
  obtain ⟨mem, returned⟩ := ran
  refine ⟨(accepts pipedCmd).mp ⟨mem, returned⟩, mem, returned, ?_, ?_⟩
  · exact (strings pipedCmd mem returned ⟨6, 7⟩ (by decide)).2
  · exact (strings pipedCmd mem returned ⟨8, 9⟩ (by decide)).2

end Xv6.Shell
