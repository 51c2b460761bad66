import Xv6.Programs.Shell

/-! The tokens of a line, and that the parser takes them one after the other. -/

namespace Xv6.Shell

open Prog

structure Token where
  kind : Kind
  span : Span
  deriving DecidableEq, Repr

def closeWord : Option Nat → Nat → List Token
  | none, _ => []
  | some q, s => [⟨.word, ⟨q, s⟩⟩]

def lex : List UInt8 → Nat → Option Nat → List Token
  | [], s, began => closeWord began s
  | c :: cs, s, began =>
    if whitespace.contains c then closeWord began s ++ lex cs (s + 1) none
    else match symbolKind c with
      | some kind => closeWord began s ++ ⟨kind, ⟨s, s + 1⟩⟩ :: lex cs (s + 1) none
      | none =>
        if c = 62 then
          match cs with
          | [] => closeWord began s ++ [⟨.greater, ⟨s, s + 1⟩⟩]
          | d :: rest =>
            if d = 62 then closeWord began s ++ ⟨.append, ⟨s, s + 2⟩⟩ :: lex rest (s + 2) none
            else closeWord began s ++ ⟨.greater, ⟨s, s + 1⟩⟩ :: lex (d :: rest) (s + 1) none
        else lex cs (s + 1) (some (began.getD s))

def tokens (line : List UInt8) : List Token := lex line 0 none

def Kind.first : Kind → Option UInt8
  | .bar => some 124
  | .lparen => some 40
  | .rparen => some 41
  | .semi => some 59
  | .amp => some 38
  | .less => some 60
  | .greater | .append => some 62
  | .word => none

def begins (toks : List UInt8) : List Token → Bool
  | [] => false
  | t :: _ => t.kind.first.any toks.contains

structure At (line : List UInt8) (s : Nat) (ts : List Token) : Prop where
  inside : s ≤ line.length
  tokens : lex (line.drop s) s none = ts

section Characters

variable {line : List UInt8} {s : Nat}

theorem drop_eq_cons (below : s < line.length) :
    line.drop s = charAt line s :: line.drop (s + 1) := by
  rw [List.drop_eq_getElem_cons below, charAt]
  simp [below]

theorem charAt_end (beyond : line.length ≤ s) : charAt line s = 0 := by
  simp [charAt, beyond]

theorem lt_of_charAt_ne (char : charAt line s ≠ 0) : s < line.length := by
  by_contra beyond
  exact char (charAt_end (by omega))

theorem charAt_ne_zero (text : 0 ∉ line) (below : s < line.length) : charAt line s ≠ 0 := by
  intro zero
  apply text
  rw [← zero, charAt]
  simp [below]

variable {c : UInt8} {post : Option Kind × Span → Nat → Prop}

theorem symbolKind_first {kind : Kind} (symbol : symbolKind c = some kind) :
    kind.first = some c ∧ wordChar c = false := by
  unfold symbolKind at symbol
  grind [Kind.first, wordChar, symbols]

theorem wordChar_iff (c : UInt8) :
    wordChar c = true ↔ whitespace.contains c = false ∧ symbolKind c = none ∧ c ≠ 62 := by
  unfold wordChar symbolKind symbols
  grind

end Characters

section Skipping

variable {line : List UInt8} {kind : UInt8 → Bool}

theorem lex_blank (blank : whitespace.contains c = true) (cs : List UInt8) (s : Nat)
    (began : Option Nat) : lex (c :: cs) s began = closeWord began s ++ lex cs (s + 1) none := by
  rw [lex.eq_def]
  simp only [if_pos blank]

theorem skipWhile_stop (n : Nat) : ∀ s, s + n = line.length →
    s ≤ skipWhile line kind n s ∧ skipWhile line kind n s ≤ line.length ∧
      (skipWhile line kind n s = line.length ∨ kind (charAt line (skipWhile line kind n s)) = false)
      ∧ ∀ i, s ≤ i → i < skipWhile line kind n s → kind (charAt line i) = true := by
  induction n with
  | zero =>
    intro s whole
    rw [skipWhile]
    exact ⟨Nat.le_refl _, by omega, .inl (by omega), fun i _ _ => by omega⟩
  | succ n ih =>
    intro s whole
    rw [skipWhile]
    by_cases here : kind (charAt line s) = true
    · rw [if_pos here]
      obtain ⟨low, high, stop, skipped⟩ := ih (s + 1) (by omega)
      refine ⟨by omega, high, stop, fun i above below => ?_⟩
      by_cases first : i = s
      · rwa [first]
      · exact skipped i (by omega) below
    · rw [if_neg here]
      exact ⟨Nat.le_refl _, by omega, .inr (by simpa using here), fun i _ _ => by omega⟩

theorem lex_skipWhile (n : Nat) : ∀ s,
    lex (line.drop (skipWhile line (whitespace.contains ·) n s))
        (skipWhile line (whitespace.contains ·) n s) none = lex (line.drop s) s none := by
  induction n with
  | zero => exact fun s => rfl
  | succ n ih =>
    intro s
    rw [skipWhile]
    by_cases blank : whitespace.contains (charAt line s) = true
    · have below : s < line.length := by
        apply lt_of_charAt_ne
        intro zero
        rw [zero] at blank
        exact absurd blank (by decide)
      rw [if_pos blank, ih, drop_eq_cons below, lex_blank blank]
      rfl
    · rw [if_neg blank]

theorem At.skipSpace {s : Nat} {ts : List Token} (at_ : At line s ts) :
    At line (skipSpace line s) ts ∧ whitespace.contains (charAt line (skipSpace line s)) = false := by
  have inside := at_.inside
  obtain ⟨-, high, stop, -⟩ :=
    @skipWhile_stop line (whitespace.contains ·) (line.length - s) s (by omega)
  refine ⟨⟨high, (lex_skipWhile _ s).trans at_.tokens⟩, ?_⟩
  rcases stop with ended | other
  · unfold Shell.skipSpace
    rw [ended, charAt_end (Nat.le_refl _)]
    decide
  · exact other

end Skipping

section Tokens

variable {line : List UInt8} {s : Nat} {ts : List Token}

theorem lex_some_of_not_wordChar (other : wordChar c = false) (cs : List UInt8) (s q : Nat) :
    lex (c :: cs) s (some q) = ⟨.word, ⟨q, s⟩⟩ :: lex (c :: cs) s none := by
  by_cases blank : whitespace.contains c = true
  · rw [lex_blank blank, lex_blank blank]
    rfl
  · have symbol : symbolKind c ≠ none ∨ c = 62 := by
      by_contra neither
      rw [not_or, not_not] at neither
      have word := (wordChar_iff c).mpr ⟨by simpa using blank, neither.1, neither.2⟩
      rw [word] at other
      exact Bool.noConfusion other
    rw [lex.eq_def, lex.eq_def (c :: cs)]
    simp only [if_neg blank]
    cases found : symbolKind c with
    | some kind => rfl
    | none =>
      have greater : c = 62 := symbol.resolve_left (not_not_intro found)
      simp only [if_pos greater]
      cases cs with
      | nil => rfl
      | cons d rest =>
        dsimp only
        split <;> rfl

theorem lex_wordChar (word : wordChar c = true) (cs : List UInt8) (s : Nat) (began : Option Nat) :
    lex (c :: cs) s began = lex cs (s + 1) (some (began.getD s)) := by
  obtain ⟨blank, symbol, greater⟩ := (wordChar_iff c).mp word
  have notBlank : ¬ whitespace.contains c = true := by
    rw [blank]
    exact Bool.false_ne_true
  rw [lex.eq_def]
  simp only [if_neg notBlank, symbol, if_neg greater]

theorem lex_word (q n : Nat) : ∀ s, s + n = line.length →
    lex (line.drop s) s (some q) = ⟨.word, ⟨q, skipWhile line wordChar n s⟩⟩ ::
      lex (line.drop (skipWhile line wordChar n s)) (skipWhile line wordChar n s) none := by
  induction n with
  | zero =>
    intro s whole
    rw [skipWhile, List.drop_eq_nil_of_le (by omega)]
    rfl
  | succ n ih =>
    intro s whole
    rw [skipWhile, drop_eq_cons (by omega)]
    by_cases word : wordChar (charAt line s) = true
    · rw [if_pos word, lex_wordChar word]
      exact ih (s + 1) (by omega)
    · rw [if_neg word, lex_some_of_not_wordChar (by simpa using word), ← drop_eq_cons (by omega)]

theorem At.tokenAt (text : 0 ∉ line) (at_ : At line s ts)
    (blank : whitespace.contains (charAt line s) = false) :
    (s = line.length ∧ ts = [] ∧ charAt line s = 0 ∧ tokenAt line s = (none, s)) ∨
    ∃ kind e rest, ts = ⟨kind, ⟨s, e⟩⟩ :: rest ∧ tokenAt line s = (some kind, e) ∧
      At line e rest ∧ charAt line s ≠ 0 ∧
      (kind.first = some (charAt line s) ∨
        kind = .word ∧ wordChar (charAt line s) = true) := by
  have inside := at_.inside
  have lexed := at_.tokens
  by_cases ended : s = line.length
  · left
    have zero : charAt line s = 0 := charAt_end (by omega)
    refine ⟨ended, ?_, zero, ?_⟩
    · rw [← lexed, List.drop_eq_nil_of_le (by omega)]
      rfl
    · unfold Shell.tokenAt
      simp only [zero, if_true]
  have below : s < line.length := by omega
  have char := charAt_ne_zero text below
  have notBlank : ¬ whitespace.contains (charAt line s) = true := by
    rw [blank]
    exact Bool.false_ne_true
  right
  rw [drop_eq_cons below] at lexed
  by_cases word : wordChar (charAt line s) = true
  · -- A word: the first character is the first of the loop.
    obtain ⟨-, symbol, greater⟩ := (wordChar_iff _).mp word
    have first := @lex_word line s (line.length - s) s (by omega)
    rw [drop_eq_cons below, lex_wordChar word] at first
    rw [lex_wordChar word] at lexed
    refine ⟨.word, _, _, lexed.symm.trans first, ?_, ⟨?_, rfl⟩, char, .inr ⟨rfl, word⟩⟩
    · unfold Shell.tokenAt
      simp only [if_neg char, symbol, if_neg greater]
    · exact (@skipWhile_stop line wordChar (line.length - s) s (by omega)).2.1
  · rw [lex.eq_def] at lexed
    simp only [if_neg notBlank] at lexed
    unfold Shell.tokenAt
    simp only [if_neg char]
    cases found : symbolKind (charAt line s) with
    | some kind =>
      rw [found] at lexed
      exact ⟨kind, s + 1, _, lexed.symm, rfl, ⟨by omega, rfl⟩, char,
        .inl (symbolKind_first found).1⟩
    | none =>
      have greater : charAt line s = 62 := by
        by_contra other
        exact word ((wordChar_iff _).mpr ⟨blank, found, other⟩)
      rw [found] at lexed
      simp only [if_pos greater] at lexed ⊢
      -- A second `'>'` belongs to the token.
      by_cases last : s + 1 = line.length
      · rw [List.drop_eq_nil_of_le (by omega)] at lexed
        rw [charAt_end (by omega), if_neg (by decide)]
        refine ⟨.greater, s + 1, [], lexed.symm, rfl, ⟨by omega, ?_⟩, char, .inl ?_⟩
        · rw [List.drop_eq_nil_of_le (by omega)]
          rfl
        · rw [greater]
          rfl
      · rw [drop_eq_cons (show s + 1 < line.length by omega)] at lexed
        by_cases double : charAt line (s + 1) = 62
        · simp only [if_pos double] at lexed ⊢
          refine ⟨.append, s + 2, _, lexed.symm, rfl, ⟨by omega, rfl⟩, char, .inl ?_⟩
          rw [greater]
          rfl
        · simp only [if_neg double] at lexed ⊢
          refine ⟨.greater, s + 1, _, lexed.symm, rfl, ⟨by omega, ?_⟩, char, .inl ?_⟩
          · rw [drop_eq_cons (show s + 1 < line.length by omega)]
          · rw [greater]
            rfl

variable {abort : Stop → Prop}

theorem wp_gettoken (text : 0 ∉ line) (at_ : At line s ts)
    (ended : ∀ span s', ts = [] → At line s' [] → post (none, span) s')
    (taken : ∀ t rest s', ts = t :: rest → At line s' rest → post (some t.kind, t.span) s') :
    wp (gettoken line) post abort s := by
  unfold gettoken
  simp only [wp_bind, wp_get, wp_set, wp_pure]
  obtain ⟨there, blank⟩ := at_.skipSpace
  rcases there.tokenAt text blank with ⟨-, nothing, -, found⟩ | ⟨kind, e, rest, next, found, behind, -⟩
  · rw [found]
    subst nothing
    exact ended _ _ rfl there.skipSpace.1
  · rw [found]
    exact taken ⟨kind, ⟨_, e⟩⟩ rest _ next behind.skipSpace.1

theorem wp_gettoken_cons {t : Token} {rest : List Token} (text : 0 ∉ line)
    (at_ : At line s (t :: rest)) (taken : ∀ s', At line s' rest → post (some t.kind, t.span) s') :
    wp (gettoken line) post abort s := by
  refine wp_gettoken text at_ (fun _ _ empty => by simp at empty) fun t' rest' s' split at' => ?_
  obtain ⟨rfl, rfl⟩ := List.cons.inj split
  exact taken s' at'

theorem wp_peek {post : Bool → Nat → Prop} {toks : List UInt8} (text : 0 ∉ line)
    (at_ : At line s ts) (known : toks.all symbols.contains = true)
    (done : ∀ s', At line s' ts → (s' = line.length ↔ ts = []) → post (begins toks ts) s') :
    wp (peek line toks) post abort s := by
  unfold peek
  simp only [wp_bind, wp_get, wp_set, wp_pure]
  obtain ⟨there, blank⟩ := at_.skipSpace
  rcases there.tokenAt text blank with ⟨last, nothing, zero, -⟩ | ⟨kind, e, rest, next, -, -, char, first⟩
  · have result : (decide (charAt line (skipSpace line s) ≠ 0) &&
        toks.contains (charAt line (skipSpace line s))) = begins toks ts := by
      rw [zero, nothing]
      rfl
    rw [result]
    exact done _ there ⟨fun _ => nothing, fun _ => last⟩
  · have result : (decide (charAt line (skipSpace line s) ≠ 0) &&
        toks.contains (charAt line (skipSpace line s))) = begins toks ts := by
      rw [next, begins, decide_eq_true char, Bool.true_and]
      rcases first with symbol | ⟨isWord, word⟩
      · rw [symbol]
        rfl
      · -- A word begins with no symbol.
        rw [isWord]
        refine Bool.eq_false_iff.mpr fun member => ?_
        have isSymbol := List.all_eq_true.mp known _ (List.contains_iff_mem.mp member)
        simp [wordChar, List.contains_iff_mem.mp isSymbol] at word
    rw [result]
    refine done _ there ⟨fun last => ?_, fun nothing => ?_⟩
    · exact absurd (charAt_end (Nat.le_of_eq last.symm)) char
    · rw [nothing] at next
      exact absurd next (by simp)

end Tokens

end Xv6.Shell
